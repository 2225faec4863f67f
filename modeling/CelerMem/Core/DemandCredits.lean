import CelerMem.Core.StreamControl
import CelerMem.Library.Transition

/-! The demand of one lease. Its consumer and the worker that has the lease share three
atomic counters; each load, store and addition is one step, and between two of them the
other party may act. -/
namespace CelerMem.Async

namespace StreamControl

/-- The first half of `on_emit`. -/
def spend (c : StreamControl) : StreamControl := { c with requested := c.requested - 1 }

/-- The second half of `on_emit`. -/
def store (c : StreamControl) : StreamControl := { c with buffered := c.buffered + 1 }

/-- Downstream consumed a buffered chunk. -/
def onConsume (c : StreamControl) : StreamControl := { c with buffered := c.buffered - 1 }

end StreamControl

/-- Where the lease is, and what its worker does next. -/
inductive Phase where
  | unscheduled
  /-- In the global queue. -/
  | global
  /-- In the deque of a worker. It is late when it came after that worker had found its
  deque empty; only such a lease is still there when the worker drains its deque. -/
  | deque (late : Bool)
  | parkingLot
  /-- Out of the parking lot and not yet pushed. -/
  | waking
  /-- The worker loads `cancelled`. -/
  | taken
  /-- `should_advance` loads `requested`. -/
  | loadingRequested
  /-- `should_advance` loads `buffered`. -/
  | loadingBuffered
  /-- `should_advance` loads `cancelled`. -/
  | loadingCancelled
  | parking
  | polling
  /-- The chunk is delivered; `on_emit` subtracts from `requested`. -/
  | emitted
  /-- `on_emit` adds to `buffered`. -/
  | spent
  | requeueing
  /-- `drain_remaining` has the lease. -/
  | draining
  | dropped
  deriving DecidableEq

/-- What the stream was polled under: the demand at that moment, and whether it had been
cancelled when the worker last looked, or took the lease to drain it. -/
structure PollRecord where
  requested : UInt32
  calledOff : Bool

/-- The counters, where the lease is, and the books that only the statements read: what
was granted, delivered and consumed, and how often `on_emit` has spent and stored. -/
structure Demand where
  control : StreamControl := {}
  phase : Phase := .unscheduled
  shutdown : Bool := false
  calledOff : Bool := false
  granted : Nat := 0
  delivered : Nat := 0
  consumed : Nat := 0
  spent : Nat := 0
  stored : Nat := 0
  polls : List PollRecord := []

/-- One step of the worker that has the lease, of its consumer, or of another thread. -/
inductive Step where
  | schedule
  | scheduleAffine (late : Bool)
  /-- A worker pops or steals the lease. -/
  | take
  /-- `drain_remaining` pops the lease. -/
  | takeToDrain
  /-- The worker takes its next step with the lease, other than a poll. -/
  | work
  | poll (kind : PollKind)
  | wake
  | requeue (late : Bool)
  | request (n : UInt32)
  | consume
  | cancel
  | shutdown

namespace Demand

def goTo (d : Demand) (phase : Phase) : Demand := { d with phase }

/-- The worker looks whether the stream has been cancelled. -/
def look (d : Demand) : Demand := { d with calledOff := d.control.cancelled }

def work (d : Demand) : Option Demand :=
  match d.phase with
  | .taken => some (d.look.goTo (if d.control.cancelled then .dropped else .loadingRequested))
  | .loadingRequested =>
      some (d.goTo (if d.control.requested > 0 then .loadingBuffered else .parking))
  | .loadingBuffered =>
      some (d.goTo (if d.control.buffered < StreamControl.defaultHighWatermark
        then .loadingCancelled else .parking))
  | .loadingCancelled => some (d.look.goTo (if d.control.cancelled then .parking else .polling))
  | .parking => some (d.goTo .parkingLot)
  | .emitted => some ({ d with control := d.control.spend, spent := d.spent + 1 }.goTo .spent)
  | .spent => some ({ d with control := d.control.store, stored := d.stored + 1 }.goTo .requeueing)
  | .requeueing => some (d.goTo (.deque false))
  | _ => none

/-- The poll function delivers a chunk before it returns `Emit`. -/
def polled (d : Demand) (kind : PollKind) : Demand :=
  { d with
    polls := ⟨d.control.requested, d.calledOff⟩ :: d.polls
    delivered := if kind = .emit then d.delivered + 1 else d.delivered }

/-- A worker dispatches the result; `drain_remaining` ignores it. -/
def poll (d : Demand) (kind : PollKind) : Option Demand :=
  match d.phase with
  | .polling =>
      some ((d.polled kind).goTo (match kind with
        | .emit => .emitted
        | .pending => .parking
        | .yield => .requeueing
        | .done | .error => .dropped))
  | .draining => some ((d.polled kind).goTo .dropped)
  | _ => none

/-- A consumer keeps its outstanding demand below 2^32, and consumes what was delivered. -/
def step (d : Demand) : Step → Option Demand
  | .schedule => if d.phase = .unscheduled then some (d.goTo .global) else none
  | .scheduleAffine late => if d.phase = .unscheduled then some (d.goTo (.deque late)) else none
  | .take =>
      match d.phase with
      | .global | .deque _ => some (d.goTo .taken)
      | _ => none
  | .takeToDrain =>
      if d.phase = .deque true ∧ d.shutdown then some (d.look.goTo .draining) else none
  | .work => d.work
  | .poll kind => d.poll kind
  | .wake => if d.phase = .parkingLot then some (d.goTo .waking) else none
  | .requeue late => if d.phase = .waking then some (d.goTo (.deque late)) else none
  | .request n =>
      if d.control.requested.toNat + n.toNat < 2 ^ 32 then
        some { d with control := d.control.request n, granted := d.granted + n.toNat }
      else none
  | .consume =>
      if d.consumed < d.delivered then
        some { d with control := d.control.onConsume, consumed := d.consumed + 1 }
      else none
  | .cancel => some { d with control := d.control.cancel }
  | .shutdown => some { d with shutdown := true }

/-- What a consumer may rely on. The counters have not wrapped: each of them is what came
in less what went out. -/
structure Accounted (d : Demand) : Prop where
  delivered : d.delivered ≤ d.granted
  requested : d.spent + d.control.requested.toNat = d.granted
  buffered : d.consumed + d.control.buffered.toNat = d.stored
  watermark : d.control.buffered ≤ StreamControl.defaultHighWatermark
  polls : ∀ poll ∈ d.polls, 0 < poll.requested ∧ poll.calledOff = false

/-- Nothing is consumed before it was counted as buffered, and what is drained at shutdown
has demand and was not cancelled. -/
def Orderly (d : Demand) : Step → Prop
  | .consume => 0 < d.control.buffered
  | .poll _ => d.phase = .draining → 0 < d.control.requested ∧ d.calledOff = false
  | _ => True

/-- Every chunk that was delivered is paid for and counted. -/
def Level (d : Demand) : Prop := d.delivered = d.spent ∧ d.stored = d.spent

/-- What holds while the lease is in a phase. -/
def Holds (d : Demand) : Phase → Prop
  | .loadingBuffered => d.Level ∧ 0 < d.control.requested.toNat
  | .loadingCancelled => d.Level ∧ 0 < d.control.requested.toNat ∧ d.control.buffered.toNat < 16
  | .polling =>
      d.Level ∧ 0 < d.control.requested.toNat ∧ d.control.buffered.toNat < 16 ∧ d.calledOff = false
  | .emitted =>
      d.delivered = d.spent + 1 ∧ d.stored = d.spent ∧ 0 < d.control.requested.toNat ∧
        d.control.buffered.toNat < 16
  | .spent => d.delivered = d.spent ∧ d.stored + 1 = d.spent ∧ d.control.buffered.toNat < 16
  | .dropped => d.delivered ≤ d.granted
  | _ => d.Level

structure Sound (d : Demand) : Prop where
  requested : d.spent + d.control.requested.toNat = d.granted
  buffered : d.consumed + d.control.buffered.toNat = d.stored
  watermark : d.control.buffered.toNat ≤ 16
  polls : ∀ poll ∈ d.polls, 0 < poll.requested ∧ poll.calledOff = false
  phase : d.Holds d.phase

variable {d d' : Demand}

theorem Level.delivered_le (hLevel : d.Level)
    (hRequested : d.spent + d.control.requested.toNat = d.granted) : d.delivered ≤ d.granted := by
  have hDelivered := hLevel.1
  omega

/-- In every phase no more has been delivered than was granted. -/
theorem Sound.delivered_le (hSound : d.Sound) : d.delivered ≤ d.granted := by
  have hRequested := hSound.requested
  have hPhase := hSound.phase
  cases hEq : d.phase <;> rw [hEq] at hPhase
  case loadingBuffered => exact hPhase.1.delivered_le hRequested
  case loadingCancelled => exact hPhase.1.delivered_le hRequested
  case polling => exact hPhase.1.delivered_le hRequested
  case emitted =>
    obtain ⟨hDelivered, -, hDemand, -⟩ := hPhase
    omega
  case spent =>
    have hDelivered := hPhase.1
    omega
  case dropped => exact hPhase
  all_goals exact Level.delivered_le hPhase hRequested

theorem Sound.accounted (hSound : d.Sound) : d.Accounted where
  delivered := hSound.delivered_le
  requested := hSound.requested
  buffered := hSound.buffered
  watermark := UInt32.le_iff_toNat_le.mpr hSound.watermark
  polls := hSound.polls

/-- What a consumer may do to the counters: more demand, fewer buffered chunks. -/
structure Eases (d d' : Demand) : Prop where
  delivered : d'.delivered = d.delivered
  spent : d'.spent = d.spent
  stored : d'.stored = d.stored
  calledOff : d'.calledOff = d.calledOff
  requested : d.control.requested.toNat ≤ d'.control.requested.toNat
  buffered : d'.control.buffered.toNat ≤ d.control.buffered.toNat
  granted : d.granted ≤ d'.granted

/-- Every phase keeps what it holds. -/
theorem Eases.holds (hEases : Eases d d') {phase : Phase} (hHolds : d.Holds phase) :
    d'.Holds phase := by
  obtain ⟨hDelivered, hSpent, hStored, hCalledOff, hRequested, hBuffered, hGranted⟩ := hEases
  cases phase <;> simp only [Holds, Level] at hHolds ⊢ <;> grind

namespace Sound

theorem goTo (hSound : d.Sound) {phase : Phase} (hHolds : d.Holds phase) : (d.goTo phase).Sound where
  requested := hSound.requested
  buffered := hSound.buffered
  watermark := hSound.watermark
  polls := hSound.polls
  phase := hHolds

theorem lookAndGo (hSound : d.Sound) {phase : Phase} (hHolds : d.look.Holds phase) :
    (d.look.goTo phase).Sound where
  requested := hSound.requested
  buffered := hSound.buffered
  watermark := hSound.watermark
  polls := hSound.polls
  phase := hHolds

/-- There was demand when the stream was polled, and there is no less of it now. -/
theorem spend (hSound : d.Sound) (hEmitted : d.Holds .emitted) :
    ({ d with control := d.control.spend, spent := d.spent + 1 }.goTo .spent).Sound := by
  obtain ⟨hDelivered, hStored, hDemand, hRoom⟩ := hEmitted
  have hOne : (1 : UInt32) ≤ d.control.requested := UInt32.le_iff_toNat_le.mpr hDemand
  have hRequested : (d.control.requested - 1).toNat = d.control.requested.toNat - 1 :=
    UInt32.toNat_sub_of_le _ _ hOne
  constructor
  · have hBefore := hSound.requested
    simp only [Demand.goTo, StreamControl.spend, hRequested]
    omega
  · exact hSound.buffered
  · exact hSound.watermark
  · exact hSound.polls
  · exact ⟨hDelivered, congrArg (· + 1) hStored, hRoom⟩

/-- There was room when the stream was polled, and there is no less of it now. -/
theorem store (hSound : d.Sound) (hSpent : d.Holds .spent) :
    ({ d with control := d.control.store, stored := d.stored + 1 }.goTo .requeueing).Sound := by
  obtain ⟨hDelivered, hStored, hRoom⟩ := hSpent
  have hBuffered : (d.control.buffered + 1).toNat = d.control.buffered.toNat + 1 := by
    rw [UInt32.toNat_add, Nat.mod_eq_of_lt]
    · rfl
    · show d.control.buffered.toNat + 1 < 2 ^ 32
      omega
  constructor
  · exact hSound.requested
  · have hBefore := hSound.buffered
    simp only [Demand.goTo, StreamControl.store, hBuffered]
    omega
  · simp only [Demand.goTo, StreamControl.store, hBuffered]
    omega
  · exact hSound.polls
  · exact ⟨hDelivered, hStored⟩

/-- The worker checks the cancellation and the demand, parks the lease, or does its half of
`on_emit`. -/
theorem work (hSound : d.Sound) (hStep : d.work = some d') : d'.Sound := by
  have hPhase := hSound.phase
  unfold Demand.work at hStep
  split at hStep
  next hTaken =>
    obtain rfl := Option.some.inj hStep
    rw [hTaken] at hPhase
    have hLevel : d.Level := hPhase
    split
    next => exact hSound.lookAndGo (hLevel.delivered_le hSound.requested)
    next => exact hSound.lookAndGo hLevel
  next hLoading =>
    obtain rfl := Option.some.inj hStep
    rw [hLoading] at hPhase
    have hLevel : d.Level := hPhase
    split
    next hDemand => exact hSound.goTo ⟨hLevel, UInt32.lt_iff_toNat_lt.mp hDemand⟩
    next => exact hSound.goTo hLevel
  next hLoading =>
    obtain rfl := Option.some.inj hStep
    rw [hLoading] at hPhase
    obtain ⟨hLevel, hDemand⟩ := hPhase
    split
    next hRoom => exact hSound.goTo ⟨hLevel, hDemand, UInt32.lt_iff_toNat_lt.mp hRoom⟩
    next => exact hSound.goTo hLevel
  next hLoading =>
    obtain rfl := Option.some.inj hStep
    rw [hLoading] at hPhase
    obtain ⟨hLevel, hDemand, hRoom⟩ := hPhase
    split
    next => exact hSound.lookAndGo hLevel
    next hLive => exact hSound.lookAndGo ⟨hLevel, hDemand, hRoom, Bool.not_eq_true _ ▸ hLive⟩
  next hParking =>
    obtain rfl := Option.some.inj hStep
    rw [hParking] at hPhase
    exact hSound.goTo hPhase
  next hEmitted =>
    obtain rfl := Option.some.inj hStep
    rw [hEmitted] at hPhase
    exact hSound.spend hPhase
  next hSpent =>
    obtain rfl := Option.some.inj hStep
    rw [hSpent] at hPhase
    exact hSound.store hPhase
  next hRequeueing =>
    obtain rfl := Option.some.inj hStep
    rw [hRequeueing] at hPhase
    exact hSound.goTo hPhase
  next => cases hStep

theorem polled_polls (hSound : d.Sound) (hDemand : 0 < d.control.requested)
    (hLive : d.calledOff = false) (kind : PollKind) :
    ∀ poll ∈ (d.polled kind).polls, 0 < poll.requested ∧ poll.calledOff = false := by
  intro poll hPoll
  rcases List.mem_cons.mp hPoll with rfl | hOld
  · exact ⟨hDemand, hLive⟩
  · exact hSound.polls poll hOld

theorem poll (hSound : d.Sound) {kind : PollKind} (hOrderly : d.Orderly (.poll kind))
    (hStep : d.poll kind = some d') : d'.Sound := by
  have hPhase := hSound.phase
  unfold Demand.poll at hStep
  split at hStep
  next hPolling =>
    obtain rfl := Option.some.inj hStep
    rw [hPolling] at hPhase
    obtain ⟨hLevel, hDemand, hRoom, hLive⟩ := hPhase
    have hPolls := hSound.polled_polls (UInt32.lt_iff_toNat_lt.mpr hDemand) hLive kind
    refine ⟨hSound.requested, hSound.buffered, hSound.watermark, hPolls, ?_⟩
    cases kind with
    | emit => exact ⟨congrArg (· + 1) hLevel.1, hLevel.2, hDemand, hRoom⟩
    | pending => exact hLevel
    | yield => exact hLevel
    | done => exact hLevel.delivered_le hSound.requested
    | error => exact hLevel.delivered_le hSound.requested
  next hDraining =>
    obtain rfl := Option.some.inj hStep
    rw [hDraining] at hPhase
    obtain ⟨hDemand, hLive⟩ := hOrderly hDraining
    have hPolls := hSound.polled_polls hDemand hLive kind
    refine ⟨hSound.requested, hSound.buffered, hSound.watermark, hPolls, ?_⟩
    have hLevel : d.Level := hPhase
    have hRequested := hSound.requested
    have hDelivered := hLevel.1
    have hOne : 0 < d.control.requested.toNat := UInt32.lt_iff_toNat_lt.mp hDemand
    show (if kind = .emit then d.delivered + 1 else d.delivered) ≤ d.granted
    split <;> omega
  next => cases hStep

/-- The sum does not wrap, so there is more demand than before. -/
theorem request (hSound : d.Sound) {n : UInt32}
    (hFits : d.control.requested.toNat + n.toNat < 2 ^ 32) :
    Sound { d with control := d.control.request n, granted := d.granted + n.toNat } := by
  have hRequested : (d.control.requested + n).toNat = d.control.requested.toNat + n.toNat := by
    rw [UInt32.toNat_add, Nat.mod_eq_of_lt hFits]
  constructor
  · have hBefore := hSound.requested
    simp only [StreamControl.request, hRequested]
    omega
  · exact hSound.buffered
  · exact hSound.watermark
  · exact hSound.polls
  · have hMore : d.control.requested.toNat ≤ (d.control.requested + n).toNat := by omega
    have hEases : Eases d { d with
        control := d.control.request n, granted := d.granted + n.toNat } :=
      ⟨rfl, rfl, rfl, rfl, hMore, le_rfl, Nat.le_add_right _ _⟩
    exact hEases.holds hSound.phase

/-- There is a buffered chunk, so there is one fewer than before. -/
theorem consume (hSound : d.Sound) (hStored : 0 < d.control.buffered) :
    Sound { d with control := d.control.onConsume, consumed := d.consumed + 1 } := by
  have hOne : (1 : UInt32) ≤ d.control.buffered :=
    UInt32.le_iff_toNat_le.mpr (UInt32.lt_iff_toNat_lt.mp hStored)
  have hBuffered : (d.control.buffered - 1).toNat = d.control.buffered.toNat - 1 :=
    UInt32.toNat_sub_of_le _ _ hOne
  have hPositive : 0 < d.control.buffered.toNat := UInt32.lt_iff_toNat_lt.mp hStored
  constructor
  · exact hSound.requested
  · have hBefore := hSound.buffered
    simp only [StreamControl.onConsume, hBuffered]
    omega
  · have hBefore := hSound.watermark
    simp only [StreamControl.onConsume, hBuffered]
    omega
  · exact hSound.polls
  · have hFewer : (d.control.buffered - 1).toNat ≤ d.control.buffered.toNat := by omega
    have hEases : Eases d { d with control := d.control.onConsume, consumed := d.consumed + 1 } :=
      ⟨rfl, rfl, rfl, rfl, le_rfl, hFewer, le_rfl⟩
    exact hEases.holds hSound.phase

theorem step (hSound : d.Sound) {event : Step} (hOrderly : d.Orderly event)
    (hStep : d.step event = some d') : d'.Sound := by
  have hPhase := hSound.phase
  cases event with
  | schedule =>
      obtain ⟨hUnscheduled, ⟨⟩⟩ := Option.ite_none_right_eq_some.mp hStep
      rw [hUnscheduled] at hPhase
      exact hSound.goTo hPhase
  | scheduleAffine late =>
      obtain ⟨hUnscheduled, ⟨⟩⟩ := Option.ite_none_right_eq_some.mp hStep
      rw [hUnscheduled] at hPhase
      exact hSound.goTo hPhase
  | take =>
      simp only [Demand.step] at hStep
      split at hStep
      next hGlobal =>
        obtain rfl := Option.some.inj hStep
        rw [hGlobal] at hPhase
        exact hSound.goTo hPhase
      next hDeque =>
        obtain rfl := Option.some.inj hStep
        rw [hDeque] at hPhase
        exact hSound.goTo hPhase
      next => cases hStep
  | takeToDrain =>
      obtain ⟨⟨hDeque, -⟩, ⟨⟩⟩ := Option.ite_none_right_eq_some.mp hStep
      rw [hDeque] at hPhase
      exact hSound.lookAndGo hPhase
  | work => exact hSound.work hStep
  | poll kind => exact hSound.poll hOrderly hStep
  | wake =>
      obtain ⟨hParked, ⟨⟩⟩ := Option.ite_none_right_eq_some.mp hStep
      rw [hParked] at hPhase
      exact hSound.goTo hPhase
  | requeue late =>
      obtain ⟨hWaking, ⟨⟩⟩ := Option.ite_none_right_eq_some.mp hStep
      rw [hWaking] at hPhase
      exact hSound.goTo hPhase
  | request n =>
      obtain ⟨hFits, ⟨⟩⟩ := Option.ite_none_right_eq_some.mp hStep
      exact hSound.request hFits
  | consume =>
      obtain ⟨-, ⟨⟩⟩ := Option.ite_none_right_eq_some.mp hStep
      exact hSound.consume hOrderly
  | cancel =>
      obtain rfl := Option.some.inj hStep
      exact ⟨hSound.requested, hSound.buffered, hSound.watermark, hSound.polls,
        Eases.holds ⟨rfl, rfl, rfl, rfl, le_rfl, le_rfl, le_rfl⟩ hPhase⟩
  | shutdown =>
      obtain rfl := Option.some.inj hStep
      exact ⟨hSound.requested, hSound.buffered, hSound.watermark, hSound.polls,
        Eases.holds ⟨rfl, rfl, rfl, rfl, le_rfl, le_rfl, le_rfl⟩ hPhase⟩

theorem start : ({} : Demand).Sound where
  requested := rfl
  buffered := rfl
  watermark := Nat.zero_le 16
  polls _ hPoll := by cases hPoll
  phase := ⟨rfl, rfl⟩

end Sound

/-- Nobody acts while a worker checks the demand: its loads are `should_advance`. -/
theorem loads_alone (hPhase : d.phase = .loadingRequested) :
    ∃ n d', (fun s => s.bind Demand.work)^[n] (some d) = some d' ∧ d'.control = d.control ∧
      d'.phase = if d.control.shouldAdvance then .polling else .parking := by
  by_cases hDemand : d.control.requested > 0
  · by_cases hRoom : d.control.buffered < StreamControl.defaultHighWatermark
    · refine ⟨3, d.look.goTo (if d.control.cancelled then .parking else .polling), ?_, rfl, ?_⟩
      · simp [Demand.work, hPhase, hDemand, hRoom, Demand.goTo, look]
      · cases hCancelled : d.control.cancelled <;>
          simp [StreamControl.shouldAdvance, hDemand, hRoom, hCancelled, Demand.goTo]
    · refine ⟨2, d.goTo .parking, ?_, rfl, ?_⟩
      · simp [Demand.work, hPhase, hDemand, hRoom, Demand.goTo]
      · simp [StreamControl.shouldAdvance, hRoom, Demand.goTo]
  · refine ⟨1, d.goTo .parking, ?_, rfl, ?_⟩
    · simp [Demand.work, hPhase, hDemand]
    · simp [StreamControl.shouldAdvance, hDemand, Demand.goTo]

end Demand

/-- When nothing is consumed too early and nothing is drained without demand, the credits
are accounted for in every state of every run. -/
theorem demand_is_accounted {d : Demand}
    (hRun : Transition.RunsWhere Demand.Orderly Demand.step {} d) : d.Accounted :=
  (hRun.preserves (fun _ _ _ hSound hOrderly hStep => hSound.step hOrderly hStep)
    Demand.Sound.start).accounted

namespace Demand

/-- A lease with demand is polled, up to the delivery of its chunk. -/
def beforeDelivery : List Step := [.schedule, .request 1, .take, .work, .work, .work, .work]

/-- The consumer consumes the chunk before `on_emit` has counted it. -/
def earlyConsume : List Step := beforeDelivery ++ [.poll .emit, .consume]

/-- A cancelled lease without demand reaches a worker that is about to drain its deque. -/
def lateLease : List Step := [.scheduleAffine true, .cancel, .shutdown, .takeToDrain, .poll .emit]

def after (steps : List Step) : Demand := (steps.foldlM step {}).getD {}

end Demand

open Demand in
theorem demand_is_accounted_demo :
    (Demand.after (beforeDelivery ++ [.poll .emit, .work, .work, .consume])).Accounted := by
  have hBefore : Transition.RunsWhere Orderly Demand.step {} (Demand.after beforeDelivery) := by
    refine Transition.RunsWhere.of_foldlM beforeDelivery ?_ rfl
    intro event hEvent d
    simp only [beforeDelivery, List.mem_cons, List.not_mem_nil, or_false] at hEvent
    rcases hEvent with rfl | rfl | rfl | rfl | rfl | rfl | rfl <;> trivial
  have hPolled := hBefore.tail (.poll .emit) (fun hDraining => by cases hDraining) rfl
  have hCounted : Transition.RunsWhere Orderly Demand.step {}
      (Demand.after (beforeDelivery ++ [.poll .emit, .work, .work])) :=
    (hPolled.tail .work trivial rfl).tail .work trivial rfl
  have hStored : (0 : UInt32) < 1 := by decide
  exact demand_is_accounted (hCounted.tail .consume hStored rfl)

open Demand in
/-- `buffered` wraps around when a chunk is consumed too early; and a lease that is drained
at shutdown is polled without demand and after it was cancelled. -/
theorem demand_is_not_accounted :
    (∃ d, Transition.Runs Demand.step {} d ∧ d.shutdown = false ∧
      StreamControl.defaultHighWatermark < d.control.buffered) ∧
    ∃ d, Transition.Runs Demand.step {} d ∧ d.consumed = 0 ∧ d.granted < d.delivered ∧
      ∃ poll ∈ d.polls, poll.requested = 0 ∧ poll.calledOff = true := by
  have hEarly : Transition.Runs Demand.step {} (Demand.after earlyConsume) :=
    Transition.RunsWhere.of_foldlM earlyConsume (fun _ _ _ => trivial) rfl
  have hLate : Transition.Runs Demand.step {} (Demand.after lateLease) :=
    Transition.RunsWhere.of_foldlM lateLease (fun _ _ _ => trivial) rfl
  refine ⟨⟨_, hEarly, rfl, by decide⟩, _, hLate, rfl, by decide, ?_⟩
  exact ⟨_, List.mem_singleton_self _, rfl, rfl⟩

end CelerMem.Async
