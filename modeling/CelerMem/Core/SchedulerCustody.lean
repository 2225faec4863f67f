import CelerMem.Core.Scheduler
import CelerMem.Library.Custody
import CelerMem.Library.Transition

/-! Where the leases are. A lease that was scheduled is in at most one deque, queue or
hand, once, whatever the workers and the waking threads do. -/
namespace CelerMem.Async

inductive Place where
  | global
  | deque (id : Nat)
  | lot
  | waking
  | hand (id : Nat)
  deriving DecidableEq

def Hand.holds (hand : Hand) : List Nat := hand.lease?.toList.map StreamLease.streamCtx

namespace Scheduler
open Custody

/-- The streams whose leases are at a place, in its order. -/
def holdings (s : Scheduler) : Place → List Nat
  | .global => s.globalQueue.map StreamLease.streamCtx
  | .deque id => (s.deques id).map StreamLease.streamCtx
  | .lot => s.parkingLot.map StreamLease.streamCtx
  | .waking => s.waking.map StreamLease.streamCtx
  | .hand id => (s.hands id).holds

/-- Every lease is in one place, and was scheduled. -/
structure Kept (s : Scheduler) : Prop where
  exclusive : Custody.Exclusive s.holdings
  known : ∀ p t, t ∈ s.holdings p → t ∈ s.scheduled

/-- The leases that a step lets go of: the stream has been cancelled, is at its end or has
failed, or there is no function to poll it with. -/
inductive LetsGo (s : Scheduler) : Act → Nat → Prop where
  | cancelled {id : Nat} {lease : StreamLease} {control : StreamControl}
      (hHand : s.hands id = .taken lease) (hControl : s.controls lease.streamCtx = some control)
      (hCancelled : control.cancelled = true) : LetsGo s (.checkCancelled id) lease.streamCtx
  | ended {id : Nat} {lease : StreamLease} {kind : PollKind}
      (hHand : s.hands id = .polled lease kind) (hKind : kind = .done ∨ kind = .error) :
      LetsGo s (.dispatch id) lease.streamCtx
  | unpolled {id : Nat} {lease : StreamLease} {kind : PollKind} (hNone : s.pollFn = false) :
      LetsGo s (.poll id kind) lease.streamCtx

variable {s s' : Scheduler} {lease : StreamLease} {id t : Nat} {hand : Hand}

/-! ### What the assignments do to the holdings -/

theorem holdings_setHand (p : Place) :
    (s.setHand id hand).holdings p = if p = .hand id then hand.holds else s.holdings p := by
  cases p with
  | hand i =>
      by_cases hEq : i = id
      · simp [holdings, setHand, hEq]
      · simp [holdings, setHand, hEq]
  | global => simp [holdings, setHand]
  | deque i => simp [holdings, setHand]
  | lot => simp [holdings, setHand]
  | waking => simp [holdings, setHand]

theorem holdings_pushDeque (p : Place) : (s.pushDeque id lease).holdings p =
    if p = .deque id then s.holdings p ++ [lease.streamCtx] else s.holdings p := by
  cases p with
  | deque i =>
      by_cases hEq : i = id
      · simp [holdings, pushDeque, hEq]
      · simp [holdings, pushDeque, hEq]
  | global => simp [holdings, pushDeque]
  | hand i => simp [holdings, pushDeque]
  | lot => simp [holdings, pushDeque]
  | waking => simp [holdings, pushDeque]

theorem holdings_pushGlobal (p : Place) : (s.pushGlobal lease).holdings p =
    if p = .global then s.holdings p ++ [lease.streamCtx] else s.holdings p := by
  cases p <;> simp [holdings, pushGlobal]

theorem holdings_parkLease (p : Place) : (s.parkLease lease).holdings p =
    if p = .lot then s.holdings p ++ [lease.streamCtx] else s.holdings p := by
  cases p <;> simp [holdings, parkLease]

/-- The counters, the wakes still to come and the list of streams are not places. -/
theorem holdings_editControl (streamCtx : Nat) (f : StreamControl → StreamControl) :
    (s.editControl streamCtx f).holdings = s.holdings := by
  funext p
  cases p <;> rfl

theorem holdings_setOwed (streamCtx : Nat) (waker : Waker) (count : Nat) :
    (s.setOwed streamCtx waker count).holdings = s.holdings := by
  funext p
  cases p <;> rfl

theorem holdings_scheduled (scheduled : List Nat) :
    ({ s with scheduled } : Scheduler).holdings = s.holdings := by
  funext p
  cases p <;> rfl

/-- A worker goes on with the lease in its hand, or with none as before. -/
theorem holdings_turnHand (hSame : hand.holds = (s.hands id).holds) :
    (s.setHand id hand).holdings = s.holdings := by
  funext p
  rw [holdings_setHand]
  split
  next hEq => rw [hEq, hSame, holdings]
  next => rfl

/-! ### Where a lease comes to -/

theorem given_of_append (q : Place)
    (hHoldings : ∀ p, s'.holdings p = if p = q then s.holdings p ++ [t] else s.holdings p) :
    Given s.holdings s'.holdings q t := by
  constructor
  · rw [hHoldings q, if_pos rfl]
    exact List.perm_append_singleton t _
  · intro r hr
    rw [hHoldings r, if_neg hr]

theorem given_pushDeque (id : Nat) :
    Given s.holdings (s.pushDeque id lease).holdings (.deque id) lease.streamCtx :=
  given_of_append (.deque id) holdings_pushDeque

theorem given_pushGlobal :
    Given s.holdings (s.pushGlobal lease).holdings .global lease.streamCtx :=
  given_of_append .global holdings_pushGlobal

theorem given_parkLease : Given s.holdings (s.parkLease lease).holdings .lot lease.streamCtx :=
  given_of_append .lot holdings_parkLease

theorem given_scheduleAffine (worker : UInt32) :
    ∃ q, Given s.holdings (s.scheduleAffine lease worker).holdings q lease.streamCtx := by
  unfold Scheduler.scheduleAffine
  split
  next => exact ⟨_, given_pushDeque _⟩
  next => exact ⟨_, given_pushGlobal⟩

/-- A worker with empty hands takes up a lease. -/
theorem given_takeUp (hEmpty : (s.hands id).holds = []) :
    Given s.holdings (s.takeUp id lease).holdings (.hand id) lease.streamCtx := by
  apply given_of_append (.hand id)
  intro p
  rw [Scheduler.takeUp, holdings_setHand]
  split
  next hEq =>
    subst hEq
    simp only [holdings, hEmpty]
    rfl
  next => rfl

/-! ### Where a lease leaves -/

/-- A worker lets go of the lease in its hand. -/
theorem taken_letGo (hHolds : (s.hands id).holds = [t]) (hEmpty : hand.holds = []) :
    Taken s.holdings (s.setHand id hand).holdings (.hand id) t := by
  constructor
  · rw [holdings_setHand, if_pos rfl, hEmpty, holdings, hHolds]
  · intro r hr
    rw [holdings_setHand, if_neg hr]

theorem taken_deque {rest : List StreamLease} (hDeque : (s.deques id).Perm (lease :: rest)) :
    Taken s.holdings { s with deques := Function.update s.deques id rest }.holdings (.deque id)
      lease.streamCtx := by
  constructor
  · simp only [holdings, Function.update_self]
    exact hDeque.map StreamLease.streamCtx
  · intro r hr
    cases r with
    | deque i =>
        have hNe : i ≠ id := fun hEq => hr (hEq ▸ rfl)
        simp [holdings, hNe]
    | _ => rfl

theorem taken_global {rest : List StreamLease} (hQueue : s.globalQueue.Perm (lease :: rest)) :
    Taken s.holdings { s with globalQueue := rest }.holdings .global lease.streamCtx := by
  refine ⟨hQueue.map StreamLease.streamCtx, ?_⟩
  intro r hr
  cases r with
  | global => exact absurd rfl hr
  | _ => rfl

theorem taken_lot {rest : List StreamLease} (hLot : s.parkingLot.Perm (lease :: rest)) :
    Taken s.holdings { s with parkingLot := rest }.holdings .lot lease.streamCtx := by
  refine ⟨hLot.map StreamLease.streamCtx, ?_⟩
  intro r hr
  cases r with
  | lot => exact absurd rfl hr
  | _ => rfl

theorem taken_waking {rest : List StreamLease} (hWaking : s.waking.Perm (lease :: rest)) :
    Taken s.holdings { s with waking := rest }.holdings .waking lease.streamCtx := by
  refine ⟨hWaking.map StreamLease.streamCtx, ?_⟩
  intro r hr
  cases r with
  | waking => exact absurd rfl hr
  | _ => rfl

/-- The element that is found first is the one that is erased. -/
theorem perm_cons_eraseP {α : Type} {q : α → Bool} {l : List α} {a : α} (h : l.find? q = some a) :
    l.Perm (a :: l.eraseP q) := by
  induction l with
  | nil => cases h
  | cons b rest ih =>
      by_cases hb : q b = true
      · rw [List.find?_cons_of_pos hb] at h
        rw [List.eraseP_cons_of_pos hb, Option.some.inj h]
      · rw [List.find?_cons_of_neg hb] at h
        rw [List.eraseP_cons_of_neg hb]
        exact ((ih h).cons b).trans (List.Perm.swap a b _)

theorem perm_cons_dropLast {α : Type} {l : List α} {a : α} (h : l.getLast? = some a) :
    l.Perm (a :: l.dropLast) := by
  conv_lhs => rw [← List.dropLast_append_getLast? a h]
  exact List.perm_append_singleton _ _

/-! ### What the steps do -/

theorem scheduled_scheduleAffine (worker : UInt32) :
    (s.scheduleAffine lease worker).scheduled = s.scheduled := by
  unfold Scheduler.scheduleAffine
  split <;> rfl

theorem scheduled_steal {victim : Option Nat} (hStep : s.steal id victim = some s') :
    s'.scheduled = s.scheduled := by
  unfold Scheduler.steal at hStep
  split at hStep
  next => exact Option.some.inj hStep ▸ rfl
  next =>
    split at hStep
    next =>
      split at hStep
      next => exact Option.some.inj hStep ▸ rfl
      next => exact Option.some.inj hStep ▸ rfl
    next => cases hStep

theorem scheduled_wake (streamCtx : Nat) (waker : Waker) :
    (s.wake streamCtx waker).scheduled = s.scheduled := by
  unfold Scheduler.wake
  dsimp only
  split <;> rfl

theorem scheduled_requeue {streamCtx : Nat} (hStep : s.requeue streamCtx = some s') :
    s'.scheduled = s.scheduled := by
  unfold Scheduler.requeue at hStep
  split at hStep
  next => cases hStep
  next => exact Option.some.inj hStep ▸ scheduled_scheduleAffine _

/-- A step that neither brings a lease in nor lets go of one. -/
abbrev Passes (s s' : Scheduler) : Prop := Moves s.holdings s'.holdings none none

theorem passes_of_same (hSame : s'.holdings = s.holdings) : Passes s s' := by
  rw [Passes, hSame]
  exact .same

theorem pop_passes (hPopping : s.hands id = .popping) : Passes s (s.pop id) := by
  have hEmpty : (s.hands id).holds = [] := by rw [hPopping]; rfl
  unfold Scheduler.pop
  cases hLast : (s.deques id).getLast? with
  | none => exact passes_of_same (holdings_turnHand hEmpty.symm)
  | some lease => exact .pass (taken_deque (perm_cons_dropLast hLast)) (given_takeUp hEmpty)

theorem steal_passes (hStealing : s.hands id = .stealing) {victim : Option Nat}
    (hStep : s.steal id victim = some s') : Passes s s' := by
  have hEmpty : (s.hands id).holds = [] := by rw [hStealing]; rfl
  unfold Scheduler.steal at hStep
  split at hStep
  next =>
    obtain rfl := Option.some.inj hStep
    exact passes_of_same (holdings_turnHand hEmpty.symm)
  next victim =>
    split at hStep
    next =>
      split at hStep
      next =>
        obtain rfl := Option.some.inj hStep
        exact passes_of_same (holdings_turnHand hEmpty.symm)
      next lease rest hDeque =>
        obtain rfl := Option.some.inj hStep
        exact .pass (taken_deque (List.Perm.of_eq hDeque)) (given_takeUp hEmpty)
    next => cases hStep

theorem popGlobal_passes (hPopping : s.hands id = .poppingGlobal) : Passes s (s.popGlobal id) := by
  have hEmpty : (s.hands id).holds = [] := by rw [hPopping]; rfl
  unfold Scheduler.popGlobal
  cases hLast : s.globalQueue.getLast? with
  | none => exact passes_of_same (holdings_turnHand hEmpty.symm)
  | some lease => exact .pass (taken_global (perm_cons_dropLast hLast)) (given_takeUp hEmpty)

theorem checkDemand_passes (hLive : s.hands id = .live lease) :
    Passes s (s.checkDemand id lease) := by
  have hHolds : (s.hands id).holds = [lease.streamCtx] := by rw [hLive]; rfl
  unfold Scheduler.checkDemand
  split
  next => exact passes_of_same (holdings_turnHand hHolds.symm)
  next =>
    split
    next => exact passes_of_same (holdings_turnHand hHolds.symm)
    next => exact passes_of_same (holdings_turnHand hHolds.symm)

theorem wake_passes (streamCtx : Nat) (waker : Waker) : Passes s (s.wake streamCtx waker) := by
  have hSpent : (s.setOwed streamCtx waker (s.owed streamCtx waker - 1)).holdings = s.holdings :=
    holdings_setOwed _ _ _
  unfold Scheduler.wake
  dsimp only
  cases hFound : s.parkingLot.find? (·.streamCtx = streamCtx) with
  | none => exact passes_of_same hSpent
  | some lease =>
      refine .pass (taken_lot (perm_cons_eraseP hFound)) (q := .waking) ?_
      apply given_of_append .waking
      intro p
      cases p <;> simp [holdings, Scheduler.setOwed]

theorem requeue_passes {streamCtx : Nat} (hStep : s.requeue streamCtx = some s') : Passes s s' := by
  unfold Scheduler.requeue at hStep
  split at hStep
  next => cases hStep
  next lease hFound =>
    obtain rfl := Option.some.inj hStep
    obtain ⟨q, hGiven⟩ := @given_scheduleAffine _ lease lease.workerAffinity
    exact .pass (taken_waking (perm_cons_eraseP hFound)) hGiven

/-- What a step does to the custody of the leases. A lease that comes in is scheduled for
the first time, and one that goes out has been let go of. -/
structure Accounts (s s' : Scheduler) (act : Act) (came gone : Option Nat) : Prop where
  moves : Moves s.holdings s'.holdings came gone
  scheduled : s'.scheduled = came.toList ++ s.scheduled
  fresh : ∀ t ∈ came, t ∉ s.scheduled
  dropped : ∀ t ∈ gone, LetsGo s act t

namespace Accounts
variable {act : Act}

theorem of_passes (hPasses : Passes s s') (hScheduled : s'.scheduled = s.scheduled) :
    Accounts s s' act none none where
  moves := hPasses
  scheduled := hScheduled
  fresh t ht := by cases ht
  dropped t ht := by cases ht

/-- A lease that is scheduled for the first time. -/
theorem of_given {q : Place} (hFresh : t ∉ s.scheduled) (hGiven : Given s.holdings s'.holdings q t)
    (hScheduled : s'.scheduled = t :: s.scheduled) : Accounts s s' act (some t) none where
  moves := .comes hGiven
  scheduled := hScheduled
  fresh u hu := Option.some.inj hu ▸ hFresh
  dropped u hu := by cases hu

/-- A worker drops the lease in its hand. -/
theorem of_dropped (hHolds : (s.hands id).holds = [t]) (hEmpty : hand.holds = [])
    (hLets : LetsGo s act t) : Accounts s (s.setHand id hand) act none (some t) where
  moves := .goes (taken_letGo hHolds hEmpty)
  scheduled := rfl
  fresh u hu := by cases hu
  dropped u hu := Option.some.inj hu ▸ hLets

theorem checkCancelled (hTaken : s.hands id = .taken lease) :
    ∃ gone, Accounts s (s.checkCancelled id lease) (.checkCancelled id) none gone := by
  have hHolds : (s.hands id).holds = [lease.streamCtx] := by rw [hTaken]; rfl
  unfold Scheduler.checkCancelled
  split
  next => exact ⟨none, of_passes (passes_of_same (holdings_turnHand hHolds.symm)) rfl⟩
  next control hControl =>
    split
    next hCancelled =>
      exact ⟨_, of_dropped hHolds rfl (.cancelled hTaken hControl hCancelled)⟩
    next => exact ⟨none, of_passes (passes_of_same (holdings_turnHand hHolds.symm)) rfl⟩

theorem poll (hPolling : s.hands id = .polling lease) (kind : PollKind) :
    ∃ gone, Accounts s (s.poll id lease kind) (.poll id kind) none gone := by
  have hHolds : (s.hands id).holds = [lease.streamCtx] := by rw [hPolling]; rfl
  have hPolled : (s.setHand id (.polled lease kind)).holdings = s.holdings :=
    holdings_turnHand hHolds.symm
  unfold Scheduler.poll
  split
  next =>
    dsimp only
    split
    next =>
      refine ⟨none, of_passes (passes_of_same ?_) rfl⟩
      rw [owe, holdings_setOwed, hPolled]
    next => exact ⟨none, of_passes (passes_of_same hPolled) rfl⟩
  next hNone => exact ⟨_, of_dropped hHolds rfl (.unpolled (by simpa using hNone))⟩

theorem dispatch {kind : PollKind} (hPolled : s.hands id = .polled lease kind) :
    ∃ gone, Accounts s (s.dispatch id lease kind) (.dispatch id) none gone := by
  have hHolds : (s.hands id).holds = [lease.streamCtx] := by rw [hPolled]; rfl
  have hTaken : Taken s.holdings (s.setHand id .popping).holdings (.hand id) lease.streamCtx :=
    taken_letGo hHolds rfl
  cases kind with
  | emit =>
      have hTaken' := hTaken
      rw [← holdings_editControl lease.streamCtx StreamControl.onEmit] at hTaken'
      exact ⟨none, of_passes (.pass hTaken' (given_pushDeque id)) rfl⟩
  | pending => exact ⟨none, of_passes (.pass hTaken given_parkLease) rfl⟩
  | yield => exact ⟨none, of_passes (.pass hTaken (given_pushDeque id)) rfl⟩
  | done => exact ⟨_, of_dropped hHolds rfl (.ended hPolled (.inl rfl))⟩
  | error => exact ⟨_, of_dropped hHolds rfl (.ended hPolled (.inr rfl))⟩

/-- No step loses sight of a lease or puts it in a second place. -/
theorem of_step (hStep : s.step act = some s') : ∃ came gone, Accounts s s' act came gone := by
  cases effect_of_step hStep with
  | @schedule lease hFresh =>
      refine ⟨some lease.streamCtx, none, of_given hFresh (q := .global) ?_ rfl⟩
      rw [← holdings_scheduled (lease.streamCtx :: s.scheduled)]
      exact given_pushGlobal
  | @scheduleAffine lease worker hFresh =>
      obtain ⟨q, hGiven⟩ := @given_scheduleAffine
        { s with scheduled := lease.streamCtx :: s.scheduled } lease worker
      rw [holdings_scheduled] at hGiven
      refine ⟨some lease.streamCtx, none, of_given hFresh hGiven ?_⟩
      unfold Scheduler.scheduleAffine
      split <;> rfl
  | @pop id hHand =>
      refine ⟨none, none, of_passes (pop_passes hHand) ?_⟩
      unfold Scheduler.pop
      split <;> rfl
  | @steal id victim _ hHand hSteal =>
      exact ⟨none, none, of_passes (steal_passes hHand hSteal) (scheduled_steal hSteal)⟩
  | @popGlobal id hHand =>
      refine ⟨none, none, of_passes (popGlobal_passes hHand) ?_⟩
      unfold Scheduler.popGlobal
      split <;> rfl
  | checkCancelled hHand => exact ⟨none, checkCancelled hHand⟩
  | @checkDemand id lease hHand =>
      refine ⟨none, none, of_passes (checkDemand_passes hHand) ?_⟩
      unfold Scheduler.checkDemand
      split <;> rfl
  | @park id lease hHand =>
      have hHolds : (s.hands id).holds = [lease.streamCtx] := by rw [hHand]; rfl
      exact ⟨none, none, of_passes (.pass (taken_letGo hHolds rfl) given_parkLease) rfl⟩
  | poll hHand => exact ⟨none, poll hHand _⟩
  | dispatch hHand => exact ⟨none, dispatch hHand⟩
  | request =>
      refine ⟨none, none, of_passes (passes_of_same ?_) rfl⟩
      rw [owe, holdings_setOwed, holdings_editControl]
  | @wake streamCtx waker hOwed =>
      exact ⟨none, none, of_passes (wake_passes streamCtx waker) (scheduled_wake streamCtx waker)⟩
  | requeue hRequeue =>
      exact ⟨none, none, of_passes (requeue_passes hRequeue) (scheduled_requeue hRequeue)⟩
  | cancel => exact ⟨none, none, of_passes (passes_of_same (holdings_editControl _ _)) rfl⟩

end Accounts

namespace Kept

theorem moves {came gone : Option Nat} (hKept : Kept s)
    (hMoves : Moves s.holdings s'.holdings came gone)
    (hScheduled : s'.scheduled = came.toList ++ s.scheduled) (hFresh : ∀ t ∈ came, t ∉ s.scheduled) :
    Kept s' where
  exclusive := hMoves.exclusive hKept.exclusive fun t ht p hIn => hFresh t ht (hKept.known p t hIn)
  known p t ht := by
    rw [hScheduled, List.mem_append, Option.mem_toList]
    rcases hMoves.before ht with ⟨q, hq⟩ | hCame
    · exact .inr (hKept.known q t hq)
    · exact .inl hCame

theorem step (hKept : Kept s) {act : Act} (hStep : s.step act = some s') : Kept s' := by
  obtain ⟨came, gone, hAccounts⟩ := Accounts.of_step hStep
  exact hKept.moves hAccounts.moves hAccounts.scheduled hAccounts.fresh

end Kept

theorem kept_start (numWorkers : Nat) (controls : Nat → Option StreamControl) :
    Kept (start numWorkers controls) := by
  have hNone : ∀ p, (start numWorkers controls).holdings p = [] := by
    intro p
    cases p <;> rfl
  refine ⟨⟨fun p => hNone p ▸ List.nodup_nil, ?_⟩, ?_⟩
  · intro p q t hp
    rw [hNone] at hp
    cases hp
  · intro p t hp
    rw [hNone] at hp
    cases hp

end Scheduler
end CelerMem.Async
