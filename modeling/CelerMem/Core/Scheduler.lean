import CelerMem.Core.StreamControl
import Mathlib

/-! The work-stealing stream scheduler. Every operation on a deque, on the global queue
and on the parking lot is one step; a worker takes several steps from one lease to the
next, and between them anything else may happen. -/
namespace CelerMem.Async

/-- The stream that a lease gives authority over, and its place in the scheduler. The
control pointer of a lease is that of its stream. -/
structure StreamLease where
  streamCtx : Nat
  workerAffinity : UInt32 := 0
  deriving DecidableEq

/-- How far a worker is in the body of its loop. -/
inductive Hand where
  /-- `deques_[id]->pop()` comes next. -/
  | popping
  /-- `deques_[victim]->steal()` comes next. -/
  | stealing
  /-- `global_queue_.pop()` comes next. -/
  | poppingGlobal
  /-- The cancellation of the lease is checked next. -/
  | taken (lease : StreamLease)
  /-- The demand for the lease is checked next. -/
  | live (lease : StreamLease)
  /-- There was no demand; the lease is parked next. -/
  | parking (lease : StreamLease)
  /-- The stream is polled next. -/
  | polling (lease : StreamLease)
  /-- The result of the poll is dispatched next. -/
  | polled (lease : StreamLease) (kind : PollKind)

def Hand.lease? : Hand → Option StreamLease
  | .popping | .stealing | .poppingGlobal => none
  | .taken lease | .live lease | .parking lease | .polling lease | .polled lease _ => some lease

/-- Who calls `wake`: a consumer that has granted demand, or the continuation that a
`Pending` poll registered. -/
inductive Waker where
  | consumer
  | continuation
  deriving DecidableEq

/-- Deques and hands are indexed by worker; the bottom of a deque is its end. `waking`
holds the leases that `wake` took out of the parking lot and has not pushed yet. Each
stream has its own control, or none. `owed` counts the calls of `wake` still to come,
and `scheduled` lists the streams that have been scheduled; both are bookkeeping. -/
structure Scheduler where
  numWorkers : Nat
  pollFn : Bool
  deques : Nat → List StreamLease
  globalQueue : List StreamLease
  parkingLot : List StreamLease
  waking : List StreamLease
  hands : Nat → Hand
  controls : Nat → Option StreamControl
  owed : Nat → Waker → Nat
  scheduled : List Nat

/-- One step of a worker, of a consumer, of a continuation or of a scheduling thread. -/
inductive Act where
  | schedule (lease : StreamLease)
  | scheduleAffine (lease : StreamLease) (worker : UInt32)
  | pop (id : Nat)
  /-- No victim: the steal was lost to another thief, or there is no other worker. -/
  | steal (id : Nat) (victim : Option Nat)
  | popGlobal (id : Nat)
  | checkCancelled (id : Nat)
  | checkDemand (id : Nat)
  | park (id : Nat)
  | poll (id : Nat) (kind : PollKind)
  | dispatch (id : Nat)
  | request (streamCtx : Nat) (n : UInt32)
  | wake (streamCtx : Nat) (waker : Waker)
  | requeue (streamCtx : Nat)
  | cancel (streamCtx : Nat)

namespace Scheduler

def start (numWorkers : Nat) (controls : Nat → Option StreamControl) : Scheduler where
  numWorkers := numWorkers
  pollFn := true
  deques _ := []
  globalQueue := []
  parkingLot := []
  waking := []
  hands _ := .popping
  controls := controls
  owed _ _ := 0
  scheduled := []

def setHand (s : Scheduler) (id : Nat) (hand : Hand) : Scheduler :=
  { s with hands := Function.update s.hands id hand }

/-- A lease that a worker has got hold of becomes its own. -/
def takeUp (s : Scheduler) (id : Nat) (lease : StreamLease) : Scheduler :=
  s.setHand id (.taken { lease with workerAffinity := UInt32.ofNat id })

def pushGlobal (s : Scheduler) (lease : StreamLease) : Scheduler :=
  { s with globalQueue := s.globalQueue ++ [lease] }

def pushDeque (s : Scheduler) (id : Nat) (lease : StreamLease) : Scheduler :=
  { s with deques := Function.update s.deques id (s.deques id ++ [lease]) }

def parkLease (s : Scheduler) (lease : StreamLease) : Scheduler :=
  { s with parkingLot := s.parkingLot ++ [lease] }

/-- Falls back to the global queue when there is no such worker. -/
def scheduleAffine (s : Scheduler) (lease : StreamLease) (worker : UInt32) : Scheduler :=
  if worker.toNat < s.numWorkers then s.pushDeque worker.toNat lease else s.pushGlobal lease

/-- The owner takes from the bottom of its deque. -/
def pop (s : Scheduler) (id : Nat) : Scheduler :=
  match (s.deques id).getLast? with
  | none => s.setHand id .stealing
  | some lease =>
      { s with deques := Function.update s.deques id (s.deques id).dropLast }.takeUp id lease

/-- A thief takes from the top of the deque of another worker. -/
def steal (s : Scheduler) (id : Nat) : Option Nat → Option Scheduler
  | none => some (s.setHand id .poppingGlobal)
  | some victim =>
      if victim < s.numWorkers ∧ victim ≠ id then
        match s.deques victim with
        | [] => some (s.setHand id .poppingGlobal)
        | lease :: rest =>
            some ({ s with deques := Function.update s.deques victim rest }.takeUp id lease)
      else none

def popGlobal (s : Scheduler) (id : Nat) : Scheduler :=
  match s.globalQueue.getLast? with
  | none => s.setHand id .popping
  | some lease => { s with globalQueue := s.globalQueue.dropLast }.takeUp id lease

/-- The lease of a cancelled stream is dropped. -/
def checkCancelled (s : Scheduler) (id : Nat) (lease : StreamLease) : Scheduler :=
  match s.controls lease.streamCtx with
  | none => s.setHand id (.live lease)
  | some control => s.setHand id (if control.cancelled then .popping else .live lease)

def checkDemand (s : Scheduler) (id : Nat) (lease : StreamLease) : Scheduler :=
  match s.controls lease.streamCtx with
  | none => s.setHand id (.polling lease)
  | some control => s.setHand id (if control.shouldAdvance then .polling lease else .parking lease)

def setOwed (s : Scheduler) (streamCtx : Nat) (waker : Waker) (count : Nat) : Scheduler :=
  { s with owed := fun other caller =>
      if other = streamCtx ∧ caller = waker then count else s.owed other caller }

def owe (s : Scheduler) (streamCtx : Nat) (waker : Waker) : Scheduler :=
  s.setOwed streamCtx waker (s.owed streamCtx waker + 1)

/-- A `Pending` poll has registered a continuation. Without a poll function the lease
is dropped. -/
def poll (s : Scheduler) (id : Nat) (lease : StreamLease) (kind : PollKind) : Scheduler :=
  if s.pollFn then
    let polled := s.setHand id (.polled lease kind)
    if kind = .pending then polled.owe lease.streamCtx .continuation else polled
  else s.setHand id .popping

def editControl (s : Scheduler) (streamCtx : Nat) (f : StreamControl → StreamControl) : Scheduler :=
  { s with controls := Function.update s.controls streamCtx ((s.controls streamCtx).map f) }

/-- `dispatch_result`. -/
def dispatch (s : Scheduler) (id : Nat) (lease : StreamLease) : PollKind → Scheduler
  | .emit =>
      ((s.setHand id .popping).editControl lease.streamCtx StreamControl.onEmit).pushDeque id lease
  | .pending => (s.setHand id .popping).parkLease lease
  | .yield => (s.setHand id .popping).pushDeque id lease
  | .done | .error => s.setHand id .popping

/-- `ParkingLot::wake` takes the first lease of the stream, if there is one. -/
def wake (s : Scheduler) (streamCtx : Nat) (waker : Waker) : Scheduler :=
  let spent := s.setOwed streamCtx waker (s.owed streamCtx waker - 1)
  match s.parkingLot.find? (·.streamCtx = streamCtx) with
  | none => spent
  | some lease =>
      { spent with
        parkingLot := s.parkingLot.eraseP (·.streamCtx = streamCtx)
        waking := s.waking ++ [lease] }

/-- The second half of `StreamScheduler::wake`. -/
def requeue (s : Scheduler) (streamCtx : Nat) : Option Scheduler :=
  match s.waking.find? (·.streamCtx = streamCtx) with
  | none => none
  | some lease =>
      some ({ s with waking := s.waking.eraseP (·.streamCtx = streamCtx) }.scheduleAffine lease
        lease.workerAffinity)

/-- Each stream is scheduled once. A worker acts when its loop is at that point, and
`wake` is called by those who owe it. -/
def step (s : Scheduler) : Act → Option Scheduler
  | .schedule lease =>
      if lease.streamCtx ∈ s.scheduled then none
      else some ({ s with scheduled := lease.streamCtx :: s.scheduled }.pushGlobal lease)
  | .scheduleAffine lease worker =>
      if lease.streamCtx ∈ s.scheduled then none
      else some ({ s with scheduled := lease.streamCtx :: s.scheduled }.scheduleAffine lease worker)
  | .pop id =>
      match s.hands id with
      | .popping => if id < s.numWorkers then some (s.pop id) else none
      | _ => none
  | .steal id victim =>
      match s.hands id with
      | .stealing => s.steal id victim
      | _ => none
  | .popGlobal id =>
      match s.hands id with
      | .poppingGlobal => some (s.popGlobal id)
      | _ => none
  | .checkCancelled id =>
      match s.hands id with
      | .taken lease => some (s.checkCancelled id lease)
      | _ => none
  | .checkDemand id =>
      match s.hands id with
      | .live lease => some (s.checkDemand id lease)
      | _ => none
  | .park id =>
      match s.hands id with
      | .parking lease => some ((s.setHand id .popping).parkLease lease)
      | _ => none
  | .poll id kind =>
      match s.hands id with
      | .polling lease => some (s.poll id lease kind)
      | _ => none
  | .dispatch id =>
      match s.hands id with
      | .polled lease kind => some (s.dispatch id lease kind)
      | _ => none
  | .request streamCtx n =>
      some ((s.editControl streamCtx (StreamControl.request · n)).owe streamCtx .consumer)
  | .wake streamCtx waker =>
      if s.owed streamCtx waker = 0 then none else some (s.wake streamCtx waker)
  | .requeue streamCtx => s.requeue streamCtx
  | .cancel streamCtx => some (s.editControl streamCtx StreamControl.cancel)

/-- What a step does and the state it starts from, one case for each act. -/
inductive Effect (s : Scheduler) : Act → Scheduler → Prop where
  | schedule {lease : StreamLease} (hFresh : lease.streamCtx ∉ s.scheduled) :
      Effect s (.schedule lease)
        ({ s with scheduled := lease.streamCtx :: s.scheduled }.pushGlobal lease)
  | scheduleAffine {lease : StreamLease} {worker : UInt32}
      (hFresh : lease.streamCtx ∉ s.scheduled) :
      Effect s (.scheduleAffine lease worker)
        ({ s with scheduled := lease.streamCtx :: s.scheduled }.scheduleAffine lease worker)
  | pop {id : Nat} (hHand : s.hands id = .popping) : Effect s (.pop id) (s.pop id)
  | steal {id : Nat} {victim : Option Nat} {s' : Scheduler} (hHand : s.hands id = .stealing)
      (hSteal : s.steal id victim = some s') : Effect s (.steal id victim) s'
  | popGlobal {id : Nat} (hHand : s.hands id = .poppingGlobal) :
      Effect s (.popGlobal id) (s.popGlobal id)
  | checkCancelled {id : Nat} {lease : StreamLease} (hHand : s.hands id = .taken lease) :
      Effect s (.checkCancelled id) (s.checkCancelled id lease)
  | checkDemand {id : Nat} {lease : StreamLease} (hHand : s.hands id = .live lease) :
      Effect s (.checkDemand id) (s.checkDemand id lease)
  | park {id : Nat} {lease : StreamLease} (hHand : s.hands id = .parking lease) :
      Effect s (.park id) ((s.setHand id .popping).parkLease lease)
  | poll {id : Nat} {lease : StreamLease} {kind : PollKind} (hHand : s.hands id = .polling lease) :
      Effect s (.poll id kind) (s.poll id lease kind)
  | dispatch {id : Nat} {lease : StreamLease} {kind : PollKind}
      (hHand : s.hands id = .polled lease kind) :
      Effect s (.dispatch id) (s.dispatch id lease kind)
  | request {streamCtx : Nat} {n : UInt32} :
      Effect s (.request streamCtx n)
        ((s.editControl streamCtx (StreamControl.request · n)).owe streamCtx .consumer)
  | wake {streamCtx : Nat} {waker : Waker} (hOwed : s.owed streamCtx waker ≠ 0) :
      Effect s (.wake streamCtx waker) (s.wake streamCtx waker)
  | requeue {streamCtx : Nat} {s' : Scheduler} (hRequeue : s.requeue streamCtx = some s') :
      Effect s (.requeue streamCtx) s'
  | cancel {streamCtx : Nat} :
      Effect s (.cancel streamCtx) (s.editControl streamCtx StreamControl.cancel)

theorem effect_of_step {s s' : Scheduler} {act : Act} (hStep : s.step act = some s') :
    Effect s act s' := by
  cases act with
  | schedule lease =>
      simp only [step] at hStep
      split at hStep
      next => cases hStep
      next hFresh => exact Option.some.inj hStep ▸ .schedule hFresh
  | scheduleAffine lease worker =>
      simp only [step] at hStep
      split at hStep
      next => cases hStep
      next hFresh => exact Option.some.inj hStep ▸ .scheduleAffine hFresh
  | pop id =>
      simp only [step] at hStep
      split at hStep
      next hHand =>
        split at hStep
        next => exact Option.some.inj hStep ▸ .pop hHand
        next => cases hStep
      next => cases hStep
  | steal id victim =>
      simp only [step] at hStep
      split at hStep
      next hHand => exact .steal hHand hStep
      next => cases hStep
  | popGlobal id =>
      simp only [step] at hStep
      split at hStep
      next hHand => exact Option.some.inj hStep ▸ .popGlobal hHand
      next => cases hStep
  | checkCancelled id =>
      simp only [step] at hStep
      split at hStep
      next hHand => exact Option.some.inj hStep ▸ .checkCancelled hHand
      next => cases hStep
  | checkDemand id =>
      simp only [step] at hStep
      split at hStep
      next hHand => exact Option.some.inj hStep ▸ .checkDemand hHand
      next => cases hStep
  | park id =>
      simp only [step] at hStep
      split at hStep
      next hHand => exact Option.some.inj hStep ▸ .park hHand
      next => cases hStep
  | poll id kind =>
      simp only [step] at hStep
      split at hStep
      next hHand => exact Option.some.inj hStep ▸ .poll hHand
      next => cases hStep
  | dispatch id =>
      simp only [step] at hStep
      split at hStep
      next hHand => exact Option.some.inj hStep ▸ .dispatch hHand
      next => cases hStep
  | request streamCtx n => exact Option.some.inj hStep ▸ .request
  | wake streamCtx waker =>
      simp only [step] at hStep
      split at hStep
      next => cases hStep
      next hOwed => exact Option.some.inj hStep ▸ .wake hOwed
  | requeue streamCtx => exact .requeue hStep
  | cancel streamCtx => exact Option.some.inj hStep ▸ .cancel

end Scheduler
end CelerMem.Async
