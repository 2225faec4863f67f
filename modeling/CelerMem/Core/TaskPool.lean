import CelerMem.Library.Transition

/-! The pool of worker threads. Every block under a mutex is one step, and so are a load of
the shutdown flag and the start and the end of a task. -/
namespace CelerMem.Async

/-- How far a worker is in `worker_loop` or in `drain_remaining`. -/
inductive WorkerState where
  /-- The own queue comes next. -/
  | poppingLocal
  | poppingSubmission
  | stealing
  | running (task : Nat)
  /-- No work was found; the shutdown flag comes next. -/
  | checkingShutdown
  | waiting
  | drainingLocal
  /-- Runs a task that was drained from the own queue. -/
  | runningLocal (task : Nat)
  | drainingSubmission
  /-- Runs a task that was drained from the submission queue. -/
  | runningSubmitted (task : Nat)
  | exited
  deriving DecidableEq

namespace WorkerState

def task? : WorkerState → Option Nat
  | .running task | .runningLocal task | .runningSubmitted task => some task
  | _ => none

/-- The worker has seen the shutdown flag and will not go back to its loop. -/
def Leaving : WorkerState → Prop
  | .drainingLocal | .runningLocal _ | .drainingSubmission | .runningSubmitted _ | .exited => True
  | _ => False

end WorkerState

/-- Who submitted a task, the running task or somebody outside, and whether `shutdown` had
been called by then. -/
structure Submission where
  parent : Option Nat
  late : Bool
  deriving DecidableEq

/-- Tasks are numbered as they are submitted. `submitted`, `started` and `finished` are
bookkeeping, and `returned` says that the call of `shutdown` is over. -/
structure TaskPool where
  numWorkers : Nat
  workerQueues : Nat → List Nat
  submissionQueue : List Nat
  shutdownFlag : Bool
  workers : Nat → WorkerState
  submitted : List Submission
  started : List Nat
  finished : List Nat
  returned : Bool

/-- Submitted before the shutdown, or by such a task while it ran. -/
inductive Covered (submitted : List Submission) : Nat → Prop where
  | early {task : Nat} {entry : Submission} (hEntry : submitted[task]? = some entry)
      (hEarly : entry.late = false) : Covered submitted task
  | child {task parent : Nat} {entry : Submission} (hEntry : submitted[task]? = some entry)
      (hParent : entry.parent = some parent) (hCovered : Covered submitted parent) :
      Covered submitted task

theorem Covered.lt {submitted : List Submission} {task : Nat} (hCovered : Covered submitted task) :
    task < submitted.length := by
  cases hCovered with
  | early hEntry => exact (List.getElem?_eq_some_iff.mp hEntry).1
  | child hEntry => exact (List.getElem?_eq_some_iff.mp hEntry).1

/-- A later submission covers no task that was submitted before it. -/
theorem Covered.of_append {submitted : List Submission} {task : Nat} {entry : Submission}
    (hParents : ∀ entry ∈ submitted, ∀ parent, entry.parent = some parent →
      parent < submitted.length)
    (hCovered : Covered (submitted ++ [entry]) task) (hOld : task < submitted.length) :
    Covered submitted task := by
  induction hCovered with
  | early hEntry hEarly =>
      rw [List.getElem?_append_left hOld] at hEntry
      exact .early hEntry hEarly
  | child hEntry hParent _ ih =>
      rw [List.getElem?_append_left hOld] at hEntry
      exact .child hEntry hParent (ih (hParents _ (List.mem_of_getElem? hEntry) _ hParent))

/-- A submission from outside or by the task that a worker runs, a step of a worker, which
steals from the victim if it steals, or the call of `shutdown` and its return. -/
inductive PoolAct where
  | submit (caller : Option Nat)
  | work (id : Nat) (victim : Nat)
  | shutdown
  | finishShutdown

namespace TaskPool

def workerCount (numWorkers hardwareConcurrency : Nat) : Nat :=
  if numWorkers = 0 then max 2 hardwareConcurrency else numWorkers

def start (numWorkers hardwareConcurrency : Nat) : TaskPool where
  numWorkers := workerCount numWorkers hardwareConcurrency
  workerQueues _ := []
  submissionQueue := []
  shutdownFlag := false
  workers _ := .poppingLocal
  submitted := []
  started := []
  finished := []
  returned := false

def turn (p : TaskPool) (id : Nat) (state : WorkerState) : TaskPool :=
  { p with workers := Function.update p.workers id state }

def startTask (p : TaskPool) (id task : Nat) (state : WorkerState) : TaskPool :=
  { p with started := p.started ++ [task] }.turn id state

def finishTask (p : TaskPool) (id task : Nat) (state : WorkerState) : TaskPool :=
  { p with finished := p.finished ++ [task] }.turn id state

/-- Takes from the back of a worker's own queue. -/
def popLocal (p : TaskPool) (id : Nat) (found : Nat → WorkerState) (none : WorkerState) : TaskPool :=
  match (p.workerQueues id).getLast? with
  | .none => p.turn id none
  | some task =>
      { p with workerQueues := Function.update p.workerQueues id (p.workerQueues id).dropLast
        }.startTask id task (found task)

/-- Takes from the front of the submission queue. -/
def popSubmission (p : TaskPool) (id : Nat) (found : Nat → WorkerState) (none : WorkerState) :
    TaskPool :=
  match p.submissionQueue with
  | [] => p.turn id none
  | task :: rest => { p with submissionQueue := rest }.startTask id task (found task)

/-- Takes from the front of the queue of another worker, if there is another. -/
def steal (p : TaskPool) (id victim : Nat) : Option TaskPool :=
  if p.numWorkers > 1 then
    if victim < p.numWorkers ∧ victim ≠ id then
      match p.workerQueues victim with
      | [] => some (p.turn id .checkingShutdown)
      | task :: rest =>
          some ({ p with workerQueues := Function.update p.workerQueues victim rest
            }.startTask id task (.running task))
    else none
  else some (p.turn id .checkingShutdown)

def work (p : TaskPool) (id victim : Nat) : Option TaskPool :=
  match p.workers id with
  | .poppingLocal => some (p.popLocal id .running .poppingSubmission)
  | .poppingSubmission => some (p.popSubmission id .running .stealing)
  | .stealing => p.steal id victim
  | .running task => some (p.finishTask id task .poppingLocal)
  | .checkingShutdown => some (p.turn id (if p.shutdownFlag then .drainingLocal else .waiting))
  | .waiting => some (p.turn id .poppingLocal)
  | .drainingLocal => some (p.popLocal id .runningLocal .drainingSubmission)
  | .runningLocal task => some (p.finishTask id task .drainingLocal)
  | .drainingSubmission => some (p.popSubmission id .runningSubmitted .exited)
  | .runningSubmitted task => some (p.finishTask id task .drainingSubmission)
  | .exited => none

def submit (p : TaskPool) (parent : Option Nat) : TaskPool :=
  { p with
    submissionQueue := p.submissionQueue ++ [p.submitted.length]
    submitted := p.submitted ++ [⟨parent, p.shutdownFlag⟩] }

/-- A worker submits while it runs a task. The call of `shutdown` is the only one, and it
returns when every worker has been joined. -/
def step (p : TaskPool) : PoolAct → Option TaskPool
  | .submit none => some (p.submit none)
  | .submit (some id) =>
      if id < p.numWorkers then (p.workers id).task?.map fun task => p.submit (some task) else none
  | .work id victim => if id < p.numWorkers then p.work id victim else none
  | .shutdown => if p.shutdownFlag then none else some { p with shutdownFlag := true }
  | .finishShutdown =>
      if p.shutdownFlag ∧ ∀ id < p.numWorkers, p.workers id = .exited then
        some { p with returned := true }
      else none

/-- Nobody puts a task into a worker's own queue, so the tasks start in the order in which
they were submitted. -/
structure Sound (p : TaskPool) : Prop where
  positive : 0 < p.numWorkers
  queues : ∀ id, p.workerQueues id = []
  order : p.started ++ p.submissionQueue = List.range p.submitted.length
  /-- A task that has started is over, or some worker runs it. -/
  running : ∀ task ∈ p.started,
    task ∈ p.finished ∨ ∃ id < p.numWorkers, (p.workers id).task? = some task
  held : ∀ id < p.numWorkers, ∀ task, (p.workers id).task? = some task → task ∈ p.started
  parents : ∀ entry ∈ p.submitted, ∀ parent, entry.parent = some parent →
    parent < p.submitted.length
  /-- Workers stay in their loop until the shutdown. -/
  staying : p.shutdownFlag = false → ∀ id < p.numWorkers, ¬(p.workers id).Leaving
  /-- As long as a covered task waits, somebody is there to run it. -/
  staffed : ∀ task ∈ p.submissionQueue, Covered p.submitted task →
    ∃ id < p.numWorkers, p.workers id ≠ .exited
  returned : p.returned = true → ∀ id < p.numWorkers, p.workers id = .exited

variable {p p' : TaskPool} {id task : Nat} {state : WorkerState}

namespace Sound

theorem start (numWorkers hardwareConcurrency : Nat) :
    (start numWorkers hardwareConcurrency).Sound where
  positive := by
    show 0 < workerCount numWorkers hardwareConcurrency
    unfold workerCount
    split <;> omega
  queues _ := rfl
  order := rfl
  running _ hStarted := by cases hStarted
  held _ _ _ hTask := by cases hTask
  parents _ hEntry := by cases hEntry
  staying _ _ _ hLeaving := hLeaving
  staffed _ hWaiting := by cases hWaiting
  returned hReturned := by cases hReturned

/-- A worker leaves its loop only after the shutdown. -/
theorem stays (hSound : p.Sound) (hLeaving : state.Leaving → p.shutdownFlag = true)
    (hOpen : p.shutdownFlag = false) : ∀ i < p.numWorkers,
      ¬(Function.update p.workers id state i).Leaving := by
  intro i hi
  by_cases hEq : i = id
  · rw [hEq, Function.update_self]
    intro h
    rw [hLeaving h] at hOpen
    cases hOpen
  · rw [Function.update_of_ne hEq]
    exact hSound.staying hOpen i hi

/-- A worker that goes on is there for the tasks that wait. -/
theorem staffed_turn (hId : id < p.numWorkers) (hStays : state ≠ .exited) :
    ∃ i < p.numWorkers, Function.update p.workers id state i ≠ .exited :=
  ⟨id, hId, by rwa [Function.update_self]⟩

/-- A worker that runs no task goes on to a state in which it runs none. -/
theorem turn (hSound : p.Sound) (hId : id < p.numWorkers) (hBefore : (p.workers id).task? = none)
    (hAfter : state.task? = none) (hBusy : p.workers id ≠ .exited)
    (hLeaving : state.Leaving → p.shutdownFlag = true)
    (hExited : state = .exited → p.submissionQueue = []) : (p.turn id state).Sound where
  positive := hSound.positive
  queues := hSound.queues
  order := hSound.order
  running task hStarted := by
    rcases hSound.running task hStarted with hFinished | ⟨i, hi, hTask⟩
    · exact .inl hFinished
    · refine .inr ⟨i, hi, ?_⟩
      have hNe : i ≠ id := by
        rintro rfl
        rw [hBefore] at hTask
        cases hTask
      simpa only [TaskPool.turn, Function.update_of_ne hNe] using hTask
  held i hi task hTask := by
    by_cases hEq : i = id
    · simp only [TaskPool.turn, hEq, Function.update_self, hAfter] at hTask
      cases hTask
    · simp only [TaskPool.turn, Function.update_of_ne hEq] at hTask
      exact hSound.held i hi task hTask
  parents := hSound.parents
  staying hOpen := hSound.stays hLeaving hOpen
  staffed task hWaiting _ := by
    refine staffed_turn hId fun hGone => ?_
    have hNone : task ∈ p.submissionQueue := hWaiting
    rw [hExited hGone] at hNone
    cases hNone
  returned hReturned := absurd (hSound.returned hReturned id hId) hBusy

/-- A worker that runs no task takes the first one of the submission queue. -/
theorem startTask (hSound : p.Sound) {rest : List Nat} (hId : id < p.numWorkers)
    (hBefore : (p.workers id).task? = none) (hBusy : p.workers id ≠ .exited)
    (hQueue : p.submissionQueue = task :: rest) (hAfter : state.task? = some task)
    (hLeaving : state.Leaving → p.shutdownFlag = true) :
    ({ p with submissionQueue := rest }.startTask id task state).Sound where
  positive := hSound.positive
  queues := hSound.queues
  order := by
    have hOrder := hSound.order
    rw [hQueue] at hOrder
    simpa [TaskPool.startTask, TaskPool.turn] using hOrder
  running other hStarted := by
    rcases List.mem_append.mp hStarted with hOld | hNew
    · rcases hSound.running other hOld with hFinished | ⟨i, hi, hTask⟩
      · exact .inl hFinished
      · refine .inr ⟨i, hi, ?_⟩
        have hNe : i ≠ id := by
          rintro rfl
          rw [hBefore] at hTask
          cases hTask
        simpa only [TaskPool.startTask, TaskPool.turn, Function.update_of_ne hNe] using hTask
    · obtain rfl := List.mem_singleton.mp hNew
      refine .inr ⟨id, hId, ?_⟩
      simpa only [TaskPool.startTask, TaskPool.turn, Function.update_self] using hAfter
  held i hi other hTask := by
    by_cases hEq : i = id
    · simp only [TaskPool.startTask, TaskPool.turn, hEq, Function.update_self, hAfter] at hTask
      obtain rfl := Option.some.inj hTask
      exact List.mem_append_right _ (List.mem_singleton_self task)
    · simp only [TaskPool.startTask, TaskPool.turn, Function.update_of_ne hEq] at hTask
      exact List.mem_append_left _ (hSound.held i hi other hTask)
  parents := hSound.parents
  staying hOpen := hSound.stays hLeaving hOpen
  staffed _ _ _ := by
    refine staffed_turn hId fun hGone => ?_
    rw [hGone] at hAfter
    cases hAfter
  returned hReturned := absurd (hSound.returned hReturned id hId) hBusy

/-- A worker's task is over, and the worker goes on. -/
theorem finishTask (hSound : p.Sound) (hId : id < p.numWorkers)
    (hTask : (p.workers id).task? = some task) (hAfter : state.task? = none)
    (hStays : state ≠ .exited) (hLeaving : state.Leaving → p.shutdownFlag = true) :
    (p.finishTask id task state).Sound where
  positive := hSound.positive
  queues := hSound.queues
  order := hSound.order
  running other hStarted := by
    rcases hSound.running other hStarted with hFinished | ⟨i, hi, hOther⟩
    · exact .inl (List.mem_append_left _ hFinished)
    · by_cases hEq : i = id
      · rw [hEq, hTask] at hOther
        obtain rfl := Option.some.inj hOther
        exact .inl (List.mem_append_right _ (List.mem_singleton_self task))
      · refine .inr ⟨i, hi, ?_⟩
        simpa only [TaskPool.finishTask, TaskPool.turn, Function.update_of_ne hEq] using hOther
  held i hi other hOther := by
    by_cases hEq : i = id
    · simp only [TaskPool.finishTask, TaskPool.turn, hEq, Function.update_self, hAfter] at hOther
      cases hOther
    · simp only [TaskPool.finishTask, TaskPool.turn, Function.update_of_ne hEq] at hOther
      exact hSound.held i hi other hOther
  parents := hSound.parents
  staying hOpen := hSound.stays hLeaving hOpen
  staffed _ _ _ := staffed_turn hId hStays
  returned hReturned := by
    have hGone := hSound.returned hReturned id hId
    rw [hGone] at hTask
    cases hTask

theorem popLocal (hSound : p.Sound) {found : Nat → WorkerState} {none : WorkerState} :
    p.popLocal id found none = p.turn id none := by
  simp [TaskPool.popLocal, hSound.queues id]

theorem steal (hSound : p.Sound) {victim : Nat} (hStep : p.steal id victim = some p') :
    p' = p.turn id .checkingShutdown := by
  unfold TaskPool.steal at hStep
  rw [hSound.queues victim] at hStep
  split at hStep
  next =>
    split at hStep
    next => exact (Option.some.inj hStep).symm
    next => cases hStep
  next => exact (Option.some.inj hStep).symm

theorem popSubmission (hSound : p.Sound) {found : Nat → WorkerState} {none : WorkerState}
    (hId : id < p.numWorkers) (hBefore : (p.workers id).task? = .none)
    (hBusy : p.workers id ≠ .exited) (hNone : none.task? = .none)
    (hFound : ∀ task, (found task).task? = some task)
    (hLeavingNone : none.Leaving → p.shutdownFlag = true)
    (hLeavingFound : ∀ task, (found task).Leaving → p.shutdownFlag = true) :
    (p.popSubmission id found none).Sound := by
  unfold TaskPool.popSubmission
  split
  next hEmpty => exact hSound.turn hId hBefore hNone hBusy hLeavingNone fun _ => hEmpty
  next task rest hQueue =>
    exact hSound.startTask hId hBefore hBusy hQueue (hFound task) (hLeavingFound task)

/-- Whoever is leaving has seen the shutdown flag. -/
theorem flag_of_leaving (hSound : p.Sound) (hId : id < p.numWorkers)
    (hLeaving : (p.workers id).Leaving) : p.shutdownFlag = true := by
  by_contra hOpen
  exact hSound.staying (Bool.not_eq_true _ ▸ hOpen) id hId hLeaving

theorem work (hSound : p.Sound) (hId : id < p.numWorkers) {victim : Nat}
    (hStep : p.work id victim = some p') : p'.Sound := by
  have hFlag := hSound.flag_of_leaving hId
  unfold TaskPool.work at hStep
  split at hStep
  next hState =>
    obtain rfl := Option.some.inj hStep
    rw [hSound.popLocal]
    exact hSound.turn hId (by rw [hState]; rfl) rfl (by simp [hState]) False.elim (by simp)
  next hState =>
    obtain rfl := Option.some.inj hStep
    exact hSound.popSubmission hId (by rw [hState]; rfl) (by simp [hState]) rfl (fun _ => rfl)
      False.elim fun _ => False.elim
  next hState =>
    rw [hSound.steal hStep]
    exact hSound.turn hId (by rw [hState]; rfl) rfl (by simp [hState]) False.elim (by simp)
  next task hState =>
    obtain rfl := Option.some.inj hStep
    exact hSound.finishTask hId (by rw [hState]; rfl) rfl (by simp) False.elim
  next hState =>
    obtain rfl := Option.some.inj hStep
    split
    next hShutdown =>
      exact hSound.turn hId (by rw [hState]; rfl) rfl (by simp [hState]) (fun _ => hShutdown)
        (by simp)
    next => exact hSound.turn hId (by rw [hState]; rfl) rfl (by simp [hState]) False.elim (by simp)
  next hState =>
    obtain rfl := Option.some.inj hStep
    exact hSound.turn hId (by rw [hState]; rfl) rfl (by simp [hState]) False.elim (by simp)
  next hState =>
    obtain rfl := Option.some.inj hStep
    rw [hState] at hFlag
    rw [hSound.popLocal]
    exact hSound.turn hId (by rw [hState]; rfl) rfl (by simp [hState]) (fun _ => hFlag trivial)
      (by simp)
  next task hState =>
    obtain rfl := Option.some.inj hStep
    rw [hState] at hFlag
    exact hSound.finishTask hId (by rw [hState]; rfl) rfl (by simp) fun _ => hFlag trivial
  next hState =>
    obtain rfl := Option.some.inj hStep
    rw [hState] at hFlag
    exact hSound.popSubmission hId (by rw [hState]; rfl) (by simp [hState]) rfl (fun _ => rfl)
      (fun _ => hFlag trivial) fun _ _ => hFlag trivial
  next task hState =>
    obtain rfl := Option.some.inj hStep
    rw [hState] at hFlag
    exact hSound.finishTask hId (by rw [hState]; rfl) rfl (by simp) fun _ => hFlag trivial
  next => cases hStep

/-- A submission from a running task, or from outside. Once the shutdown was called, one
from outside is not covered. -/
theorem submit (hSound : p.Sound) {parent : Option Nat}
    (hParent : ∀ task, parent = some task →
      task ∈ p.started ∧ ∃ id < p.numWorkers, p.workers id ≠ .exited) :
    (p.submit parent).Sound where
  positive := hSound.positive
  queues := hSound.queues
  order := by
    simp only [TaskPool.submit, List.length_append, List.length_singleton, List.range_succ,
      ← List.append_assoc, hSound.order]
  running := hSound.running
  held := hSound.held
  parents entry hEntry other hOther := by
    simp only [TaskPool.submit, List.length_append, List.length_singleton]
    rcases List.mem_append.mp hEntry with hOld | hNew
    · exact Nat.lt_succ_of_lt (hSound.parents entry hOld other hOther)
    · obtain rfl := List.mem_singleton.mp hNew
      have hStarted : other ∈ p.started ++ p.submissionQueue :=
        List.mem_append_left _ (hParent other hOther).1
      rw [hSound.order] at hStarted
      exact Nat.lt_succ_of_lt (List.mem_range.mp hStarted)
  staying := hSound.staying
  staffed task hWaiting hCovered := by
    rcases List.mem_append.mp hWaiting with hOld | hNew
    · have hKnown : task ∈ p.started ++ p.submissionQueue := List.mem_append_right _ hOld
      rw [hSound.order] at hKnown
      exact hSound.staffed task hOld (hCovered.of_append hSound.parents (List.mem_range.mp hKnown))
    · obtain rfl := List.mem_singleton.mp hNew
      cases hCovered with
      | early hEntry hEarly =>
          simp only [TaskPool.submit, List.getElem?_concat_length] at hEntry
          obtain rfl := Option.some.inj hEntry
          refine ⟨0, hSound.positive, fun hGone => ?_⟩
          exact hSound.staying hEarly 0 hSound.positive (hGone ▸ trivial)
      | child hEntry hOther =>
          simp only [TaskPool.submit, List.getElem?_concat_length] at hEntry
          obtain rfl := Option.some.inj hEntry
          exact (hParent _ hOther).2
  returned := hSound.returned

theorem step (hSound : p.Sound) {act : PoolAct} (hStep : p.step act = some p') : p'.Sound := by
  cases act with
  | submit caller =>
      cases caller with
      | none => exact Option.some.inj hStep ▸ hSound.submit fun task hTask => by cases hTask
      | some id =>
          obtain ⟨hId, hSubmit⟩ := Option.ite_none_right_eq_some.mp hStep
          obtain ⟨task, hTask, rfl⟩ := Option.map_eq_some_iff.mp hSubmit
          refine hSound.submit fun other hOther => ?_
          obtain rfl := Option.some.inj hOther
          refine ⟨hSound.held id hId task hTask, id, hId, fun hGone => ?_⟩
          rw [hGone] at hTask
          cases hTask
  | work id victim =>
      obtain ⟨hId, hWork⟩ := Option.ite_none_right_eq_some.mp hStep
      exact hSound.work hId hWork
  | shutdown =>
      obtain ⟨-, ⟨⟩⟩ := Option.ite_none_left_eq_some.mp hStep
      exact { hSound with staying := fun hOpen => by cases hOpen }
  | finishShutdown =>
      obtain ⟨⟨-, hGone⟩, ⟨⟩⟩ := Option.ite_none_right_eq_some.mp hStep
      exact { hSound with returned := fun _ => hGone }

/-- When every worker has exited, nothing that is covered waits or runs. -/
theorem finished (hSound : p.Sound) (hReturned : p.returned = true)
    (hCovered : Covered p.submitted task) : task ∈ p.finished := by
  have hGone := hSound.returned hReturned
  have hKnown : task ∈ p.started ++ p.submissionQueue := by
    rw [hSound.order]
    exact List.mem_range.mpr hCovered.lt
  rcases List.mem_append.mp hKnown with hStarted | hWaiting
  · rcases hSound.running task hStarted with hFinished | ⟨id, hId, hTask⟩
    · exact hFinished
    · rw [hGone id hId] at hTask
      cases hTask
  · obtain ⟨id, hId, hThere⟩ := hSound.staffed task hWaiting hCovered
    exact absurd (hGone id hId) hThere

end Sound
end TaskPool

/-- Every task runs at most once, and only if it was submitted; when `shutdown` returns,
every task that was submitted before it was called has run, and so have the tasks that such
tasks submitted. -/
theorem every_covered_task_runs_once {numWorkers hardwareConcurrency : Nat} {p : TaskPool}
    (hRun : Transition.Runs TaskPool.step (TaskPool.start numWorkers hardwareConcurrency) p) :
    p.started.Nodup ∧ (∀ task ∈ p.started, task < p.submitted.length) ∧
      (p.returned = true → ∀ task, Covered p.submitted task → task ∈ p.finished) := by
  have hSound : p.Sound := hRun.preserves (fun _ _ _ hSound _ hStep => hSound.step hStep)
    (TaskPool.Sound.start numWorkers hardwareConcurrency)
  have hStarted : List.Sublist p.started (List.range p.submitted.length) :=
    hSound.order ▸ List.sublist_append_left _ _
  refine ⟨List.nodup_range.sublist hStarted, ?_, fun hReturned task => hSound.finished hReturned⟩
  exact fun task hTask => List.mem_range.mp (hStarted.subset hTask)

namespace TaskPool

/-- A task submits another one; the shutdown is called before the first one is over. -/
def nested : List PoolAct :=
  [.submit none, .work 0 0, .work 0 0, .submit (some 0), .shutdown, .work 0 0, .work 0 0,
    .work 0 0, .work 0 0, .work 0 0, .work 0 0, .work 0 0, .work 0 0, .work 0 0, .work 0 0,
    .finishShutdown]

def afterNested : TaskPool := (nested.foldlM step (start 1 0)).getD (start 1 0)

end TaskPool

theorem nested_task_runs : 1 ∈ TaskPool.afterNested.finished := by
  have hRun : Transition.Runs TaskPool.step (TaskPool.start 1 0) TaskPool.afterNested :=
    Transition.RunsWhere.of_foldlM TaskPool.nested (fun _ _ _ => trivial) (by rfl)
  have hOuter : Covered TaskPool.afterNested.submitted 0 := .early rfl rfl
  exact (every_covered_task_runs_once hRun).2.2 (by rfl) 1 (.child rfl rfl hOuter)

end CelerMem.Async
