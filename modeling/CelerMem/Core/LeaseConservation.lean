import CelerMem.Core.SchedulerCustody

/-! No lease disappears. Until its stream is at its end or cancelled, a lease that was
scheduled is in some deque, queue or hand, and by the custody of the leases in one only. -/
namespace CelerMem.Async

/-- A step of the scheduler, or a call of `wake` that nobody owes. -/
inductive Event where
  | act (act : Act)
  | wake (streamCtx : Nat)

/-- `returned` lists the streams that a poll has found to be at their end, or failed. -/
structure Account where
  scheduler : Scheduler
  returned : List Nat

/-- The worker of a deque or of a hand is one of the workers. -/
def Place.Staffed (numWorkers : Nat) : Place → Prop
  | .deque id | .hand id => id < numWorkers
  | _ => True

namespace Scheduler

/-- The stream that returns `Done` or `Error` in a step. -/
def returns (s : Scheduler) : Act → List Nat
  | .poll id .done | .poll id .error =>
      match s.hands id with
      | .polling lease => [lease.streamCtx]
      | _ => []
  | _ => []

/-- The stream has been cancelled. -/
def Cancelled (s : Scheduler) (t : Nat) : Prop :=
  ∃ control, s.controls t = some control ∧ control.cancelled = true

/-- Only workers have a deque with leases in it, or leave the start of their loop. -/
def Staffed (s : Scheduler) : Prop :=
  ∀ id, s.numWorkers ≤ id → s.deques id = [] ∧ s.hands id = .popping

/-- What a step leaves as it was, apart from the leases: the workers, the poll function,
the cancellation of a stream, and the results of earlier polls. -/
structure Frame (s s' : Scheduler) : Prop where
  numWorkers : s'.numWorkers = s.numWorkers
  pollFn : s'.pollFn = s.pollFn
  outside : ∀ id, s.numWorkers ≤ id → s'.deques id = s.deques id ∧ s'.hands id = s.hands id
  cancelled : ∀ t, s.Cancelled t → s'.Cancelled t

variable {s s' s'' : Scheduler} {lease : StreamLease} {id t : Nat} {hand : Hand}

theorem Cancelled.congr (hControls : s'.controls = s.controls) : s.Cancelled t → s'.Cancelled t := by
  intro hCancelled
  rwa [Cancelled, hControls]

namespace Frame

theorem refl (s : Scheduler) : Frame s s where
  numWorkers := rfl
  pollFn := rfl
  outside _ _ := ⟨rfl, rfl⟩
  cancelled _ h := h

/-- Only the queues, the wakes to come and the list of streams change. -/
theorem of_same (hFrame : Frame s s') (hWorkers : s''.numWorkers = s'.numWorkers)
    (hPollFn : s''.pollFn = s'.pollFn) (hDeques : s''.deques = s'.deques)
    (hHands : s''.hands = s'.hands) (hControls : s''.controls = s'.controls) : Frame s s'' where
  numWorkers := hWorkers.trans hFrame.numWorkers
  pollFn := hPollFn.trans hFrame.pollFn
  outside i hi := by
    rw [hDeques, hHands]
    exact hFrame.outside i hi
  cancelled t h := Cancelled.congr hControls (hFrame.cancelled t h)

theorem setHand (hFrame : Frame s s') (hWorker : id < s.numWorkers) (hand : Hand) :
    Frame s (s'.setHand id hand) where
  numWorkers := hFrame.numWorkers
  pollFn := hFrame.pollFn
  outside i hi := by
    have hNe : i ≠ id := by omega
    exact ⟨(hFrame.outside i hi).1, (Function.update_of_ne hNe _ _).trans (hFrame.outside i hi).2⟩
  cancelled t h := hFrame.cancelled t h

theorem setDeque (hFrame : Frame s s') (hWorker : id < s.numWorkers) (deque : List StreamLease) :
    Frame s { s' with deques := Function.update s'.deques id deque } where
  numWorkers := hFrame.numWorkers
  pollFn := hFrame.pollFn
  outside i hi := by
    have hNe : i ≠ id := by omega
    exact ⟨(Function.update_of_ne hNe _ _).trans (hFrame.outside i hi).1, (hFrame.outside i hi).2⟩
  cancelled t h := hFrame.cancelled t h

theorem editControl (hFrame : Frame s s') (streamCtx : Nat) {f : StreamControl → StreamControl}
    (hKeeps : ∀ c, c.cancelled = true → (f c).cancelled = true) :
    Frame s (s'.editControl streamCtx f) where
  numWorkers := hFrame.numWorkers
  pollFn := hFrame.pollFn
  outside := hFrame.outside
  cancelled t h := by
    obtain ⟨control, hControl, hCancelled⟩ := hFrame.cancelled t h
    by_cases hEq : t = streamCtx
    · subst hEq
      exact ⟨f control, by simp [Scheduler.editControl, hControl], hKeeps control hCancelled⟩
    · exact ⟨control, by simp [Scheduler.editControl, hEq, hControl], hCancelled⟩

theorem scheduleAffine (hFrame : Frame s s') (lease : StreamLease) (worker : UInt32) :
    Frame s (s'.scheduleAffine lease worker) := by
  unfold Scheduler.scheduleAffine
  split
  next hWorker => exact hFrame.setDeque (hFrame.numWorkers ▸ hWorker) _
  next => exact hFrame.of_same rfl rfl rfl rfl rfl

theorem pop (hWorker : id < s.numWorkers) : Frame s (s.pop id) := by
  unfold Scheduler.pop
  split
  next => exact (refl s).setHand hWorker _
  next => exact ((refl s).setDeque hWorker _).setHand hWorker _

theorem steal (hWorker : id < s.numWorkers) {victim : Option Nat}
    (hStep : s.steal id victim = some s') : Frame s s' := by
  unfold Scheduler.steal at hStep
  split at hStep
  next => exact Option.some.inj hStep ▸ (refl s).setHand hWorker _
  next victim =>
    split at hStep
    next hVictim =>
      split at hStep
      next => exact Option.some.inj hStep ▸ (refl s).setHand hWorker _
      next => exact Option.some.inj hStep ▸ ((refl s).setDeque hVictim.1 _).setHand hWorker _
    next => cases hStep

theorem popGlobal (hWorker : id < s.numWorkers) : Frame s (s.popGlobal id) := by
  unfold Scheduler.popGlobal
  split
  next => exact (refl s).setHand hWorker _
  next =>
    have hQueue : Frame s { s with globalQueue := s.globalQueue.dropLast } :=
      (refl s).of_same rfl rfl rfl rfl rfl
    exact hQueue.setHand hWorker _

theorem poll (hWorker : id < s.numWorkers) (lease : StreamLease) (kind : PollKind) :
    Frame s (s.poll id lease kind) := by
  unfold Scheduler.poll
  split
  next =>
    dsimp only
    split
    next => exact ((refl s).setHand hWorker _).of_same rfl rfl rfl rfl rfl
    next => exact (refl s).setHand hWorker _
  next => exact (refl s).setHand hWorker _

theorem dispatch (hWorker : id < s.numWorkers) (lease : StreamLease) (kind : PollKind) :
    Frame s (s.dispatch id lease kind) := by
  have hGone : Frame s (s.setHand id .popping) := (refl s).setHand hWorker _
  cases kind with
  | emit =>
      have hEmitted : Frame s
          ((s.setHand id .popping).editControl lease.streamCtx StreamControl.onEmit) :=
        hGone.editControl _ fun _ h => h
      exact hEmitted.setDeque hWorker _
  | pending => exact hGone.of_same rfl rfl rfl rfl rfl
  | yield => exact hGone.setDeque hWorker _
  | done => exact hGone
  | error => exact hGone

theorem wake (streamCtx : Nat) (waker : Waker) : Frame s (s.wake streamCtx waker) := by
  unfold Scheduler.wake
  dsimp only
  split
  next => exact (refl s).of_same rfl rfl rfl rfl rfl
  next => exact (refl s).of_same rfl rfl rfl rfl rfl

theorem requeue {streamCtx : Nat} (hStep : s.requeue streamCtx = some s') : Frame s s' := by
  unfold Scheduler.requeue at hStep
  split at hStep
  next => cases hStep
  next lease _ =>
    have hWaking : Frame s { s with waking := s.waking.eraseP (·.streamCtx = streamCtx) } :=
      (refl s).of_same rfl rfl rfl rfl rfl
    exact Option.some.inj hStep ▸ hWaking.scheduleAffine lease _

/-- A worker that is not at the start of its loop is one of the workers. -/
theorem of_step (hStaffed : s.Staffed) {act : Act} (hStep : s.step act = some s') : Frame s s' := by
  have hWorker : ∀ {id : Nat}, s.hands id ≠ .popping → id < s.numWorkers := by
    intro id hBusy
    by_contra hOutside
    exact hBusy (hStaffed id (Nat.not_lt.mp hOutside)).2
  cases effect_of_step hStep with
  | schedule => exact (refl s).of_same rfl rfl rfl rfl rfl
  | @scheduleAffine lease worker =>
      have hKnown : Frame s { s with scheduled := lease.streamCtx :: s.scheduled } :=
        (refl s).of_same rfl rfl rfl rfl rfl
      exact hKnown.scheduleAffine lease worker
  | @pop id hHand =>
      simp only [Scheduler.step, hHand] at hStep
      split at hStep
      next hLess => exact pop hLess
      next => cases hStep
  | steal hHand hSteal => exact steal (hWorker (by simp [hHand])) hSteal
  | popGlobal hHand => exact popGlobal (hWorker (by simp [hHand]))
  | checkCancelled hHand =>
      unfold Scheduler.checkCancelled
      split
      next => exact (refl s).setHand (hWorker (by simp [hHand])) _
      next => exact (refl s).setHand (hWorker (by simp [hHand])) _
  | checkDemand hHand =>
      unfold Scheduler.checkDemand
      split
      next => exact (refl s).setHand (hWorker (by simp [hHand])) _
      next => exact (refl s).setHand (hWorker (by simp [hHand])) _
  | @park id lease hHand =>
      have hGone : Frame s (s.setHand id .popping) := (refl s).setHand (hWorker (by simp [hHand])) _
      exact hGone.of_same rfl rfl rfl rfl rfl
  | poll hHand => exact poll (hWorker (by simp [hHand])) _ _
  | dispatch hHand => exact dispatch (hWorker (by simp [hHand])) _ _
  | @request streamCtx n =>
      have hRequested : Frame s (s.editControl streamCtx (StreamControl.request · n)) :=
        (refl s).editControl streamCtx fun _ h => h
      exact hRequested.of_same rfl rfl rfl rfl rfl
  | wake => exact wake _ _
  | requeue hRequeue => exact requeue hRequeue
  | cancel => exact (refl s).editControl _ fun _ _ => rfl

end Frame

theorem staffed_start (numWorkers : Nat) (controls : Nat → Option StreamControl) :
    (start numWorkers controls).Staffed := fun _ _ => ⟨rfl, rfl⟩

theorem Staffed.of_frame (hStaffed : s.Staffed) (hFrame : Frame s s') : s'.Staffed := by
  intro id hOutside
  rw [hFrame.numWorkers] at hOutside
  rw [(hFrame.outside id hOutside).1, (hFrame.outside id hOutside).2]
  exact hStaffed id hOutside

/-- A lease is only ever in a deque or in the hands of one of the workers. -/
theorem Staffed.of_holdings (hStaffed : s.Staffed) {p : Place} (hHeld : t ∈ s.holdings p) :
    p.Staffed s.numWorkers := by
  cases p with
  | deque id =>
      by_contra hOutside
      rw [holdings, (hStaffed id (Nat.not_lt.mp hOutside)).1] at hHeld
      cases hHeld
  | hand id =>
      by_contra hOutside
      rw [holdings, (hStaffed id (Nat.not_lt.mp hOutside)).2] at hHeld
      cases hHeld
  | global => trivial
  | lot => trivial
  | waking => trivial

/-- The result of a poll that ends a stream is in a hand only after it was returned. -/
def Answered (s : Scheduler) (returned : List Nat) : Prop :=
  ∀ id lease kind, s.hands id = .polled lease kind → kind = .done ∨ kind = .error →
    lease.streamCtx ∈ returned

/-- The hands after a step: as before, or one of them turned to `hand`. -/
inductive Turns (s s' : Scheduler) : Act → Prop where
  | same {act : Act} (hHands : s'.hands = s.hands) : Turns s s' act
  | turn {act : Act} {id : Nat} {hand : Hand} (hHands : s'.hands = Function.update s.hands id hand)
      (hPlain : ∀ lease kind, hand ≠ .polled lease kind) : Turns s s' act
  | poll {id : Nat} {lease : StreamLease} {kind : PollKind} (hPolling : s.hands id = .polling lease)
      (hHands : s'.hands = Function.update s.hands id (.polled lease kind)) :
      Turns s s' (.poll id kind)

theorem hands_scheduleAffine (lease : StreamLease) (worker : UInt32) :
    (s.scheduleAffine lease worker).hands = s.hands := by
  unfold Scheduler.scheduleAffine
  split <;> rfl

theorem hands_wake (streamCtx : Nat) (waker : Waker) : (s.wake streamCtx waker).hands = s.hands := by
  unfold Scheduler.wake
  dsimp only
  split <;> rfl

theorem hands_requeue {streamCtx : Nat} (hStep : s.requeue streamCtx = some s') :
    s'.hands = s.hands := by
  unfold Scheduler.requeue at hStep
  split at hStep
  next => cases hStep
  next => exact Option.some.inj hStep ▸ hands_scheduleAffine _ _

theorem turns_steal {victim : Option Nat} (hStep : s.steal id victim = some s') :
    Turns s s' (.steal id victim) := by
  unfold Scheduler.steal at hStep
  split at hStep
  next => exact Option.some.inj hStep ▸ .turn rfl fun _ _ => Hand.noConfusion
  next =>
    split at hStep
    next =>
      split at hStep
      next => exact Option.some.inj hStep ▸ .turn rfl fun _ _ => Hand.noConfusion
      next => exact Option.some.inj hStep ▸ .turn rfl fun _ _ => Hand.noConfusion
    next => cases hStep

theorem turns_dispatch (lease : StreamLease) (kind : PollKind) {act : Act} :
    Turns s (s.dispatch id lease kind) act := by
  cases kind with
  | emit => exact .turn rfl fun _ _ => Hand.noConfusion
  | pending => exact .turn rfl fun _ _ => Hand.noConfusion
  | yield => exact .turn rfl fun _ _ => Hand.noConfusion
  | done => exact .turn rfl fun _ _ => Hand.noConfusion
  | error => exact .turn rfl fun _ _ => Hand.noConfusion

theorem turns_of_step {act : Act} (hStep : s.step act = some s') : Turns s s' act := by
  cases effect_of_step hStep with
  | schedule => exact .same rfl
  | scheduleAffine => exact .same (hands_scheduleAffine _ _)
  | pop =>
      unfold Scheduler.pop
      split
      next => exact .turn rfl fun _ _ => Hand.noConfusion
      next => exact .turn rfl fun _ _ => Hand.noConfusion
  | steal _ hSteal => exact turns_steal hSteal
  | popGlobal =>
      unfold Scheduler.popGlobal
      split
      next => exact .turn rfl fun _ _ => Hand.noConfusion
      next => exact .turn rfl fun _ _ => Hand.noConfusion
  | checkCancelled =>
      unfold Scheduler.checkCancelled
      split
      next => exact .turn rfl fun _ _ => Hand.noConfusion
      next => exact .turn rfl fun _ _ => by split <;> exact Hand.noConfusion
  | checkDemand =>
      unfold Scheduler.checkDemand
      split
      next => exact .turn rfl fun _ _ => Hand.noConfusion
      next => exact .turn rfl fun _ _ => by split <;> exact Hand.noConfusion
  | park => exact .turn rfl fun _ _ => Hand.noConfusion
  | poll hHand =>
      unfold Scheduler.poll
      split
      next =>
        dsimp only
        split
        next => exact .poll hHand rfl
        next => exact .poll hHand rfl
      next => exact .turn rfl fun _ _ => Hand.noConfusion
  | dispatch => exact turns_dispatch _ _
  | request => exact .same rfl
  | wake => exact .same (hands_wake _ _)
  | requeue hRequeue => exact .same (hands_requeue hRequeue)
  | cancel => exact .same rfl

/-- A step puts the result of a poll in a hand only when it is the poll. -/
theorem polled_before {act : Act} (hStep : s.step act = some s') {kind : PollKind}
    (hPolled : s'.hands id = .polled lease kind) :
    s.hands id = .polled lease kind ∨ (s.hands id = .polling lease ∧ act = .poll id kind) := by
  cases turns_of_step hStep with
  | same hHands => exact .inl (hHands ▸ hPolled)
  | @turn act i hand hHands hPlain =>
      rw [hHands] at hPolled
      by_cases hEq : id = i
      · subst hEq
        rw [Function.update_self] at hPolled
        exact absurd hPolled (hPlain lease kind)
      · rw [Function.update_of_ne hEq] at hPolled
        exact .inl hPolled
  | @poll i other found hPolling hHands =>
      rw [hHands] at hPolled
      by_cases hEq : id = i
      · subst hEq
        rw [Function.update_self] at hPolled
        obtain ⟨rfl, rfl⟩ := Hand.polled.inj hPolled
        exact .inr ⟨hPolling, rfl⟩
      · rw [Function.update_of_ne hEq] at hPolled
        exact .inl hPolled

theorem Answered.step {returned : List Nat} (hAnswered : s.Answered returned) {act : Act}
    (hStep : s.step act = some s') : s'.Answered (s.returns act ++ returned) := by
  intro id lease kind hPolled hKind
  rw [List.mem_append]
  rcases polled_before hStep hPolled with hBefore | ⟨hPolling, rfl⟩
  · exact .inr (hAnswered id lease kind hBefore hKind)
  · rcases hKind with rfl | rfl
    · exact .inl (by simp [returns, hPolling])
    · exact .inl (by simp [returns, hPolling])

end Scheduler

namespace Account
open Scheduler

def start (numWorkers : Nat) (controls : Nat → Option StreamControl) : Account where
  scheduler := Scheduler.start numWorkers controls
  returned := []

def step (a : Account) : Event → Option Account
  | .act act => (a.scheduler.step act).map fun s => ⟨s, a.scheduler.returns act ++ a.returned⟩
  | .wake streamCtx => some { a with scheduler := a.scheduler.wake streamCtx .consumer }

/-- The stream was scheduled, no poll has ended it, and it has not been cancelled. -/
structure Outstanding (a : Account) (t : Nat) : Prop where
  scheduled : t ∈ a.scheduler.scheduled
  running : t ∉ a.returned
  live : ¬a.scheduler.Cancelled t

/-- Every outstanding lease is somewhere. -/
structure Conserved (a : Account) : Prop where
  kept : a.scheduler.Kept
  staffed : a.scheduler.Staffed
  pollFn : a.scheduler.pollFn = true
  answered : a.scheduler.Answered a.returned
  present : ∀ t, a.Outstanding t → ∃ p, t ∈ a.scheduler.holdings p

variable {a a' : Account}

theorem conserved_start (numWorkers : Nat) (controls : Nat → Option StreamControl) :
    (start numWorkers controls).Conserved where
  kept := kept_start numWorkers controls
  staffed := staffed_start numWorkers controls
  pollFn := rfl
  answered _ _ _ hPolled := by cases hPolled
  present t hOut := by cases hOut.scheduled

theorem Outstanding.before {act : Act} {s : Scheduler} {t : Nat}
    (hFrame : Frame a.scheduler s) (hScheduled : t ∈ a.scheduler.scheduled)
    (hOut : Outstanding ⟨s, a.scheduler.returns act ++ a.returned⟩ t) : a.Outstanding t where
  scheduled := hScheduled
  running hReturned := hOut.running (List.mem_append_right _ hReturned)
  live hCancelled := hOut.live (hFrame.cancelled t hCancelled)

namespace Conserved

/-- A lease that a step lets go of is not outstanding any more. -/
theorem settled (hConserved : a.Conserved) {act : Act} {t : Nat}
    (hLets : LetsGo a.scheduler act t) : t ∈ a.returned ∨ a.scheduler.Cancelled t := by
  cases hLets with
  | cancelled _ hControl hCancelled => exact .inr ⟨_, hControl, hCancelled⟩
  | ended hHand hKind => exact .inl (hConserved.answered _ _ _ hHand hKind)
  | unpolled hNone =>
      rw [hConserved.pollFn] at hNone
      cases hNone

/-- A worker, a consumer, a continuation or a scheduling thread acts. -/
theorem act (hConserved : a.Conserved) {act : Act} {s : Scheduler}
    (hStep : a.scheduler.step act = some s) :
    Conserved ⟨s, a.scheduler.returns act ++ a.returned⟩ := by
  obtain ⟨came, gone, hAccounts⟩ := Accounts.of_step hStep
  have hFrame : Frame a.scheduler s := Frame.of_step hConserved.staffed hStep
  constructor
  · exact hConserved.kept.step hStep
  · exact hConserved.staffed.of_frame hFrame
  · exact hFrame.pollFn.trans hConserved.pollFn
  · exact hConserved.answered.step hStep
  · intro t hOut
    have hBefore : (∃ p, t ∈ a.scheduler.holdings p) ∨ t ∈ came := by
      have hScheduled : t ∈ s.scheduled := hOut.scheduled
      rw [hAccounts.scheduled, List.mem_append, Option.mem_toList] at hScheduled
      rcases hScheduled with hCame | hKnown
      · exact .inr hCame
      · exact .inl (hConserved.present t (hOut.before hFrame hKnown))
    rcases hAccounts.moves.after hBefore with hGone | hHeld
    · rcases hConserved.settled (hAccounts.dropped t hGone) with hReturned | hCancelled
      · exact absurd (List.mem_append_right _ hReturned) hOut.running
      · exact absurd (hFrame.cancelled t hCancelled) hOut.live
    · exact hHeld

/-- Somebody calls `wake`. -/
theorem wake (hConserved : a.Conserved) (streamCtx : Nat) :
    Conserved { a with scheduler := a.scheduler.wake streamCtx .consumer } := by
  have hFrame : Frame a.scheduler (a.scheduler.wake streamCtx .consumer) := Frame.wake _ _
  have hPasses : Passes a.scheduler (a.scheduler.wake streamCtx .consumer) := wake_passes _ _
  have hScheduled := scheduled_wake (s := a.scheduler) streamCtx .consumer
  constructor
  · exact hConserved.kept.moves hPasses hScheduled fun t ht => by cases ht
  · exact hConserved.staffed.of_frame hFrame
  · exact hFrame.pollFn.trans hConserved.pollFn
  · intro id lease kind hPolled hKind
    rw [hands_wake] at hPolled
    exact hConserved.answered id lease kind hPolled hKind
  · intro t hOut
    have hBefore : a.Outstanding t :=
      ⟨hScheduled ▸ hOut.scheduled, hOut.running, fun h => hOut.live (hFrame.cancelled t h)⟩
    rcases hPasses.after (.inl (hConserved.present t hBefore)) with hGone | hHeld
    · cases hGone
    · exact hHeld

theorem step (hConserved : a.Conserved) {event : Event} (hStep : a.step event = some a') :
    a'.Conserved := by
  cases event with
  | act act =>
      obtain ⟨s, hAct, rfl⟩ := Option.map_eq_some_iff.mp hStep
      exact hConserved.act hAct
  | wake streamCtx => exact Option.some.inj hStep ▸ hConserved.wake streamCtx

end Conserved

theorem conserved_of_runs {numWorkers : Nat} {controls : Nat → Option StreamControl}
    (hRun : Transition.Runs step (start numWorkers controls) a) : a.Conserved :=
  hRun.preserves (fun _ _ _ hConserved _ hStep => hConserved.step hStep)
    (conserved_start numWorkers controls)

end Account

open Account in
/-- A lease that is neither at its end nor cancelled is in exactly one place, once, and no
two workers have it. -/
theorem lease_in_exactly_one_place {numWorkers : Nat} {controls : Nat → Option StreamControl}
    {a : Account} (hRun : Transition.Runs Account.step (Account.start numWorkers controls) a) :
    (∀ t, a.Outstanding t → ∃ p : Place, p.Staffed a.scheduler.numWorkers ∧
      (a.scheduler.holdings p).count t = 1 ∧ ∀ q, t ∈ a.scheduler.holdings q → q = p) ∧
    ∀ id id' lease lease', (a.scheduler.hands id).lease? = some lease →
      (a.scheduler.hands id').lease? = some lease' → lease.streamCtx = lease'.streamCtx →
      id = id' := by
  have hConserved := conserved_of_runs hRun
  constructor
  · intro t hOut
    obtain ⟨p, hHeld⟩ := hConserved.present t hOut
    refine ⟨p, hConserved.staffed.of_holdings hHeld, ?_, ?_⟩
    · exact List.count_eq_one_of_mem (hConserved.kept.exclusive.nodup p) hHeld
    · exact fun q hq => hConserved.kept.exclusive.unique q p t hq hHeld
  · intro id id' lease lease' hHand hHand' hSame
    have hIn : lease.streamCtx ∈ a.scheduler.holdings (.hand id) := by
      simp [Scheduler.holdings, Hand.holds, hHand]
    have hIn' : lease.streamCtx ∈ a.scheduler.holdings (.hand id') := by
      simp [Scheduler.holdings, Hand.holds, hHand', hSame]
    exact Place.hand.inj (hConserved.kept.exclusive.unique _ _ _ hIn hIn')

namespace Account

/-- The second of two workers steals the lease that was scheduled to the first. -/
def stolen : List Event :=
  [.act (.scheduleAffine { streamCtx := 7 } 0), .act (.pop 1), .wake 7, .act (.steal 1 (some 0))]

def afterSteal : Account := (stolen.foldlM step (start 2 fun _ => some {})).getD (start 2 fun _ => none)

end Account

theorem stolen_lease_is_in_one_place : ∃ p : Place, p.Staffed 2 ∧
    (Account.afterSteal.scheduler.holdings p).count 7 = 1 ∧
    ∀ q, 7 ∈ Account.afterSteal.scheduler.holdings q → q = p := by
  have hRun : Transition.Runs Account.step (Account.start 2 fun _ => some {}) Account.afterSteal :=
    Transition.RunsWhere.of_foldlM Account.stolen (fun _ _ _ => trivial) rfl
  refine (lease_in_exactly_one_place hRun).1 7 ⟨List.mem_singleton_self 7, List.not_mem_nil, ?_⟩
  rintro ⟨control, hControl, hCancelled⟩
  obtain rfl : ({} : StreamControl) = control := Option.some.inj hControl
  cases hCancelled

end CelerMem.Async
