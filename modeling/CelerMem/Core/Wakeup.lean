import CelerMem.Core.SchedulerCustody

/-! Lost wakeups. `wake` does nothing to a lease that is not in the parking lot, so a
wake that comes between a worker's decision to park a lease and the parking is lost.
As long as no such wake is the last one, a parked lease with demand is always woken. -/
namespace CelerMem.Async

/-- The stream whose lease goes from this hand to the parking lot: there was no demand,
or the poll returned `Pending`. -/
def Hand.bound : Hand → Option Nat
  | .parking lease => some lease.streamCtx
  | .polled lease .pending => some lease.streamCtx
  | _ => none

namespace Scheduler
variable {s s' : Scheduler} {lease : StreamLease} {id t : Nat} {hand : Hand}

/-- The control of the stream has unmet demand, is below the watermark and not cancelled. -/
def Advances (s : Scheduler) (t : Nat) : Prop :=
  ∃ control, s.controls t = some control ∧ control.shouldAdvance = true

/-- Calls of `wake` for the stream that have not been executed yet. -/
def wakesOwed (s : Scheduler) (t : Nat) : Nat := s.owed t .consumer + s.owed t .continuation

/-- The lease of the stream is parked, or on its way there. -/
def Parks (s : Scheduler) (t : Nat) : Prop :=
  t ∈ s.holdings .lot ∨ ∃ id, (s.hands id).bound = some t

/-- Every lease that should not stay parked will be woken. -/
def Sheltered (s : Scheduler) : Prop := ∀ t, Parks s t → Advances s t → 0 < s.wakesOwed t

/-- The last wake for a lease that should advance is not executed while a worker has
decided to park the lease and has not parked it yet. -/
def Timely (s : Scheduler) : Act → Prop
  | .wake t _ => (∃ id, (s.hands id).bound = some t) → Advances s t → 1 < s.wakesOwed t
  | _ => True

theorem bound_holds {t : Nat} (h : hand.bound = some t) : hand.holds = [t] := by
  cases hand with
  | parking lease =>
      obtain rfl := Option.some.inj h
      rfl
  | polled lease kind =>
      cases kind with
      | pending =>
          obtain rfl := Option.some.inj h
          rfl
      | _ => cases h
  | _ => cases h

theorem parks_setHand (h : Parks (s.setHand id hand) t) :
    (t ∈ s.holdings .lot ∨ ∃ i, i ≠ id ∧ (s.hands i).bound = some t) ∨ hand.bound = some t := by
  rcases h with hLot | ⟨i, hBound⟩
  · exact .inl (.inl hLot)
  · by_cases hEq : i = id
    · subst hEq
      exact .inr (by simpa [setHand] using hBound)
    · exact .inl (.inr ⟨i, hEq, by simpa [setHand, hEq] using hBound⟩)

theorem wakesOwed_owe (streamCtx : Nat) (waker : Waker) (t : Nat) :
    (s.owe streamCtx waker).wakesOwed t =
      if t = streamCtx then s.wakesOwed t + 1 else s.wakesOwed t := by
  by_cases hEq : t = streamCtx
  · subst hEq
    cases waker with
    | consumer => simp [wakesOwed, owe, setOwed, Nat.add_right_comm]
    | continuation => simp [wakesOwed, owe, setOwed, Nat.add_assoc]
  · simp [wakesOwed, owe, setOwed, hEq]

theorem wakesOwed_spend {streamCtx : Nat} {waker : Waker} (hOwed : s.owed streamCtx waker ≠ 0)
    (t : Nat) : (s.setOwed streamCtx waker (s.owed streamCtx waker - 1)).wakesOwed t =
      if t = streamCtx then s.wakesOwed t - 1 else s.wakesOwed t := by
  by_cases hEq : t = streamCtx
  · subst hEq
    cases waker with
    | consumer =>
        simp only [wakesOwed, setOwed, if_true, and_self, true_and, reduceCtorEq, if_false]
        omega
    | continuation =>
        simp only [wakesOwed, setOwed, if_true, and_self, true_and, reduceCtorEq, if_false]
        omega
  · simp [wakesOwed, setOwed, hEq]

namespace Sheltered

/-- Nobody new is parked, and no wake is spent. -/
theorem frame (hSheltered : Sheltered s) (hParks : ∀ t, Parks s' t → Parks s t)
    (hControls : s'.controls = s.controls) (hOwed : s'.owed = s.owed) : Sheltered s' := by
  intro t hPark hAdvance
  have hSame : s'.wakesOwed t = s.wakesOwed t := by rw [wakesOwed, wakesOwed, hOwed]
  rw [hSame]
  refine hSheltered t (hParks t hPark) ?_
  rwa [Advances, ← hControls]

/-- A worker goes on to a point from which it does not park. -/
theorem turnHand (hSheltered : Sheltered s) (id : Nat) (hand : Hand) (hBound : hand.bound = none)
    (hLot : s'.parkingLot = s.parkingLot) (hHands : s'.hands = (s.setHand id hand).hands)
    (hControls : s'.controls = s.controls) (hOwed : s'.owed = s.owed) : Sheltered s' := by
  refine hSheltered.frame ?_ hControls hOwed
  intro t hPark
  have hSet : Parks (s.setHand id hand) t := by
    rcases hPark with hIn | ⟨i, hi⟩
    · exact .inl (by rwa [holdings, hLot] at hIn)
    · exact .inr ⟨i, hHands ▸ hi⟩
  rcases parks_setHand hSet with (hIn | ⟨i, -, hi⟩) | hNew
  · exact .inl hIn
  · exact .inr ⟨i, hi⟩
  · rw [hBound] at hNew
    cases hNew

/-- The lease in a hand that was on its way to the parking lot arrives there. -/
theorem arrive (hSheltered : Sheltered s) (hBound : (s.hands id).bound = some lease.streamCtx) :
    Sheltered ((s.setHand id .popping).parkLease lease) := by
  refine hSheltered.frame ?_ rfl rfl
  rintro t (hIn | ⟨i, hi⟩)
  · rw [holdings_parkLease, if_pos rfl] at hIn
    rcases List.mem_append.mp hIn with hOld | hNew
    · exact .inl hOld
    · rw [List.mem_singleton.mp hNew]
      exact .inr ⟨id, hBound⟩
  · rcases parks_setHand (.inr ⟨i, hi⟩) with (hOld | ⟨j, -, hj⟩) | hNew
    · exact .inl hOld
    · exact .inr ⟨j, hj⟩
    · cases hNew

theorem scheduleAffine (hSheltered : Sheltered s) (lease : StreamLease) (worker : UInt32) :
    Sheltered (s.scheduleAffine lease worker) := by
  unfold Scheduler.scheduleAffine
  split
  next => exact hSheltered.frame (fun t hPark => hPark) rfl rfl
  next => exact hSheltered.frame (fun t hPark => hPark) rfl rfl

/-- A failed check decides to park the lease, which has nothing to advance on then. -/
theorem checkDemand (hSheltered : Sheltered s) (id : Nat) (lease : StreamLease) :
    Sheltered (s.checkDemand id lease) := by
  unfold Scheduler.checkDemand
  split
  next => exact hSheltered.turnHand id _ rfl rfl rfl rfl rfl
  next control hControl =>
    split
    next => exact hSheltered.turnHand id _ rfl rfl rfl rfl rfl
    next hIdle =>
      intro t hPark hAdvance
      rcases parks_setHand hPark with (hIn | ⟨i, -, hi⟩) | hNew
      · exact hSheltered t (.inl hIn) hAdvance
      · exact hSheltered t (.inr ⟨i, hi⟩) hAdvance
      · obtain ⟨control', hControl', hAdvance'⟩ := hAdvance
        have hEq : lease.streamCtx = t := Option.some.inj hNew
        subst hEq
        obtain rfl := Option.some.inj (hControl.symm.trans hControl')
        exact absurd hAdvance' hIdle

/-- A poll that decides to park the lease has registered a continuation. -/
theorem poll (hSheltered : Sheltered s) (id : Nat) (lease : StreamLease) (kind : PollKind) :
    Sheltered (s.poll id lease kind) := by
  unfold Scheduler.poll
  split
  next =>
    dsimp only
    split
    next hPending =>
      intro t hPark hAdvance
      rw [wakesOwed_owe]
      split
      next => exact Nat.succ_pos _
      next hNe =>
        have hSet : Parks (s.setHand id (.polled lease kind)) t := hPark
        rcases parks_setHand hSet with (hIn | ⟨i, -, hi⟩) | hNew
        · exact hSheltered t (.inl hIn) hAdvance
        · exact hSheltered t (.inr ⟨i, hi⟩) hAdvance
        · subst hPending
          exact absurd (Option.some.inj hNew).symm hNe
    next hOther =>
      have hBound : (Hand.polled lease kind).bound = none := by
        cases kind with
        | pending => exact absurd rfl hOther
        | _ => rfl
      exact hSheltered.turnHand id _ hBound rfl rfl rfl rfl
  next => exact hSheltered.turnHand id _ rfl rfl rfl rfl rfl

theorem dispatch (hSheltered : Sheltered s) (hKept : Kept s) {kind : PollKind}
    (hPolled : s.hands id = .polled lease kind) : Sheltered (s.dispatch id lease kind) := by
  cases kind with
  | emit =>
      intro t hPark hAdvance
      have hSet : Parks (s.setHand id .popping) t := hPark
      have hHolds : lease.streamCtx ∈ s.holdings (.hand id) := by
        rw [holdings, hPolled]
        exact List.mem_singleton_self _
      have hOld : Parks s t ∧ t ≠ lease.streamCtx := by
        rcases parks_setHand hSet with (hIn | ⟨i, hNe, hi⟩) | hNew
        · refine ⟨.inl hIn, ?_⟩
          rintro rfl
          exact absurd (hKept.exclusive.unique _ _ _ hIn hHolds) (by simp)
        · refine ⟨.inr ⟨i, hi⟩, ?_⟩
          rintro rfl
          have hOther : lease.streamCtx ∈ s.holdings (.hand i) := by
            rw [holdings, bound_holds hi]
            exact List.mem_singleton_self _
          have hPlace := hKept.exclusive.unique _ _ _ hOther hHolds
          exact hNe (Place.hand.inj hPlace)
        · cases hNew
      refine hSheltered t hOld.1 ?_
      obtain ⟨control, hControl, hAdvance⟩ := hAdvance
      have hSame : (s.editControl lease.streamCtx StreamControl.onEmit).controls t = s.controls t := by
        simp [editControl, hOld.2]
      exact ⟨control, hSame ▸ hControl, hAdvance⟩
  | pending =>
      refine hSheltered.arrive ?_
      rw [hPolled]
      rfl
  | yield => exact hSheltered.turnHand id .popping rfl rfl rfl rfl rfl
  | done => exact hSheltered.turnHand id .popping rfl rfl rfl rfl rfl
  | error => exact hSheltered.turnHand id .popping rfl rfl rfl rfl rfl

/-- Whoever grants demand still owes the wake for it. -/
theorem request (hSheltered : Sheltered s) (streamCtx : Nat) (n : UInt32) :
    Sheltered ((s.editControl streamCtx (StreamControl.request · n)).owe streamCtx .consumer) := by
  intro t hPark hAdvance
  rw [wakesOwed_owe]
  split
  next => exact Nat.succ_pos _
  next hNe =>
    refine hSheltered t hPark ?_
    obtain ⟨control, hControl, hAdvance⟩ := hAdvance
    have hSame : (s.editControl streamCtx (StreamControl.request · n)).controls t = s.controls t := by
      simp [editControl, hNe]
    exact ⟨control, hSame ▸ hControl, hAdvance⟩

theorem cancel (hSheltered : Sheltered s) (streamCtx : Nat) :
    Sheltered (s.editControl streamCtx StreamControl.cancel) := by
  intro t hPark hAdvance
  obtain ⟨control, hControl, hAdvance⟩ := hAdvance
  by_cases hEq : t = streamCtx
  · subst hEq
    simp only [editControl, Function.update_self] at hControl
    obtain ⟨old, -, rfl⟩ := Option.map_eq_some_iff.mp hControl
    exact absurd hAdvance (by simp [StreamControl.shouldAdvance_cancel])
  · have hSame : (s.editControl streamCtx StreamControl.cancel).controls t = s.controls t := by
      simp [editControl, hEq]
    exact hSheltered t hPark ⟨control, hSame ▸ hControl, hAdvance⟩

theorem wake (hSheltered : Sheltered s) (hKept : Kept s) {streamCtx : Nat} {waker : Waker}
    (hOwed : s.owed streamCtx waker ≠ 0) (hTimely : Timely s (.wake streamCtx waker)) :
    Sheltered (s.wake streamCtx waker) := by
  have hSpent : ∀ t, (s.wake streamCtx waker).wakesOwed t =
      if t = streamCtx then s.wakesOwed t - 1 else s.wakesOwed t := by
    intro t
    rw [← wakesOwed_spend hOwed t]
    unfold Scheduler.wake
    dsimp only
    split <;> rfl
  have hAdvances : ∀ t, Advances (s.wake streamCtx waker) t → Advances s t := by
    intro t hAdvance
    unfold Scheduler.wake at hAdvance
    dsimp only at hAdvance
    split at hAdvance <;> exact hAdvance
  have hHands : (s.wake streamCtx waker).hands = s.hands := by
    unfold Scheduler.wake
    dsimp only
    split <;> rfl
  -- the lot holds at most one lease of the stream, and it is taken out
  have hLot : ∀ t, t ∈ (s.wake streamCtx waker).holdings .lot →
      t ∈ s.holdings .lot ∧ t ≠ streamCtx := by
    intro t hIn
    have hNodup := hKept.exclusive.nodup .lot
    unfold Scheduler.wake at hIn
    dsimp only at hIn
    cases hFound : s.parkingLot.find? (·.streamCtx = streamCtx) with
    | none =>
        rw [hFound] at hIn
        refine ⟨hIn, ?_⟩
        rintro rfl
        obtain ⟨lease, hLease, hCtx⟩ := List.mem_map.mp hIn
        exact absurd hCtx (by simpa using List.find?_eq_none.mp hFound lease hLease)
    | some lease =>
        rw [hFound] at hIn
        have hPerm := (perm_cons_eraseP hFound).map StreamLease.streamCtx
        have hCtx : lease.streamCtx = streamCtx := by simpa using List.find?_some hFound
        refine ⟨hPerm.mem_iff.mpr (List.mem_cons_of_mem _ hIn), ?_⟩
        rintro rfl
        exact (List.nodup_cons.mp (hPerm.nodup_iff.mp hNodup)).1 (hCtx ▸ hIn)
  intro t hPark hAdvance
  have hOld := hAdvances t hAdvance
  rw [hSpent]
  rcases hPark with hIn | ⟨id, hBound⟩
  · obtain ⟨hWas, hNe⟩ := hLot t hIn
    rw [if_neg hNe]
    exact hSheltered t (.inl hWas) hOld
  · rw [hHands] at hBound
    split
    next hEq =>
      subst hEq
      have hMore : 1 < s.wakesOwed t := hTimely ⟨id, hBound⟩ hOld
      omega
    next => exact hSheltered t (.inr ⟨id, hBound⟩) hOld

/-- A timely step keeps every lease sheltered. -/
theorem step (hSheltered : Sheltered s) (hKept : Kept s) {act : Act} (hTimely : Timely s act)
    (hStep : s.step act = some s') : Sheltered s' := by
  cases effect_of_step hStep with
  | schedule => exact hSheltered.frame (fun t hPark => hPark) rfl rfl
  | scheduleAffine =>
      refine Sheltered.scheduleAffine ?_ _ _
      exact hSheltered.frame (fun t hPark => hPark) rfl rfl
  | @pop id =>
      unfold Scheduler.pop
      split
      next => exact hSheltered.turnHand id _ rfl rfl rfl rfl rfl
      next => exact hSheltered.turnHand id (.taken _) rfl rfl rfl rfl rfl
  | @steal id victim _ _ hSteal =>
      unfold Scheduler.steal at hSteal
      split at hSteal
      next =>
        obtain rfl := Option.some.inj hSteal
        exact hSheltered.turnHand id _ rfl rfl rfl rfl rfl
      next =>
        split at hSteal
        next =>
          split at hSteal
          next =>
            obtain rfl := Option.some.inj hSteal
            exact hSheltered.turnHand id _ rfl rfl rfl rfl rfl
          next =>
            obtain rfl := Option.some.inj hSteal
            exact hSheltered.turnHand id (.taken _) rfl rfl rfl rfl rfl
        next => cases hSteal
  | @popGlobal id =>
      unfold Scheduler.popGlobal
      split
      next => exact hSheltered.turnHand id _ rfl rfl rfl rfl rfl
      next => exact hSheltered.turnHand id (.taken _) rfl rfl rfl rfl rfl
  | @checkCancelled id =>
      unfold Scheduler.checkCancelled
      split
      next => exact hSheltered.turnHand id _ rfl rfl rfl rfl rfl
      next =>
        split
        next => exact hSheltered.turnHand id _ rfl rfl rfl rfl rfl
        next => exact hSheltered.turnHand id _ rfl rfl rfl rfl rfl
  | checkDemand => exact hSheltered.checkDemand _ _
  | @park id lease hHand =>
      refine hSheltered.arrive ?_
      rw [hHand]
      rfl
  | poll => exact hSheltered.poll _ _ _
  | dispatch hHand => exact hSheltered.dispatch hKept hHand
  | request => exact hSheltered.request _ _
  | wake hOwed => exact hSheltered.wake hKept hOwed hTimely
  | requeue hRequeue =>
      unfold Scheduler.requeue at hRequeue
      split at hRequeue
      next => cases hRequeue
      next =>
        obtain rfl := Option.some.inj hRequeue
        refine Sheltered.scheduleAffine ?_ _ _
        exact hSheltered.frame (fun t hPark => hPark) rfl rfl
  | cancel => exact hSheltered.cancel _

end Sheltered
/-- In every run of timely steps, a parked lease whose control says that it should
advance has a wake still to come. -/
theorem parked_lease_is_woken {numWorkers : Nat} {controls : Nat → Option StreamControl}
    (run : Transition.RunsWhere Timely step (start numWorkers controls) s) :
    ∀ lease ∈ s.parkingLot, ∀ control, s.controls lease.streamCtx = some control →
      control.shouldAdvance = true → 0 < s.wakesOwed lease.streamCtx := by
  have hStart : Sheltered (start numWorkers controls) := by
    rintro t (hIn | ⟨id, hBound⟩)
    · cases hIn
    · cases hBound
  have hInv : Kept s ∧ Sheltered s := by
    refine @Transition.RunsWhere.preserves _ _ Timely step _ s (fun r => Kept r ∧ Sheltered r) ?_
      run ⟨kept_start numWorkers controls, hStart⟩
    rintro r act r' ⟨hKept, hSheltered⟩ hTimely hStep
    exact ⟨hKept.step hStep, hSheltered.step hKept hTimely hStep⟩
  intro lease hLease control hControl hAdvance
  exact hInv.2 lease.streamCtx (.inl (List.mem_map_of_mem hLease)) ⟨control, hControl, hAdvance⟩

/-! One lease for stream 7, which has no demand at first, and two workers. -/
namespace Demo

def idleStream : Scheduler := start 2 fun _ => some {}

/-- Worker 0 finds the lease in the global queue and its demand check fails. -/
def checking : List Act :=
  [.schedule { streamCtx := 7 }, .pop 0, .steal 0 none, .popGlobal 0, .checkCancelled 0,
    .checkDemand 0]

/-- The lease is parked before demand is granted. -/
def parkFirst : List Act := checking ++ ([.park 0, .request 7 1] : List Act)

/-- Demand is granted and the wake is executed before the lease is parked. -/
def wakeFirst : List Act := checking ++ ([.request 7 1, .wake 7 .consumer, .park 0] : List Act)

def after (acts : List Act) : Scheduler := (acts.foldlM step idleStream).getD idleStream

end Demo

theorem parked_lease_is_woken_demo : 0 < (Demo.after Demo.parkFirst).wakesOwed 7 := by
  have hRun : Transition.RunsWhere Timely step Demo.idleStream (Demo.after Demo.parkFirst) := by
    refine Transition.RunsWhere.of_foldlM Demo.parkFirst ?_ rfl
    intro act hAct s
    simp only [Demo.parkFirst, Demo.checking, List.cons_append, List.nil_append, List.mem_cons,
      List.not_mem_nil, or_false] at hAct
    rcases hAct with rfl | rfl | rfl | rfl | rfl | rfl | rfl | rfl <;> trivial
  exact parked_lease_is_woken hRun { streamCtx := 7 } (List.mem_singleton_self _)
    { requested := 1 } rfl rfl

/-- The wake is lost: the lease stays parked with demand, and nobody will wake it. -/
theorem wake_before_park_is_lost :
    ¬∀ s, Transition.Runs step Demo.idleStream s → ∀ lease ∈ s.parkingLot, ∀ control,
      s.controls lease.streamCtx = some control → control.shouldAdvance = true →
      0 < s.wakesOwed lease.streamCtx := by
  intro hAll
  have hRun : Transition.Runs step Demo.idleStream (Demo.after Demo.wakeFirst) :=
    Transition.RunsWhere.of_foldlM Demo.wakeFirst (fun _ _ _ => trivial) rfl
  have hWoken := hAll _ hRun { streamCtx := 7 } (List.mem_singleton_self _) { requested := 1 } rfl rfl
  exact Nat.lt_irrefl 0 hWoken

end Scheduler
end CelerMem.Async
