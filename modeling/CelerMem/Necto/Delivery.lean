import CelerMem.Necto.ActorSteps

/-! Delivery to actors is first-in first-out and exactly once. While an actor is
ticked, the envelopes that were pulled from its channel and not yet processed are
in its hand; the invariant counts them between the processed and the pending ones. -/
namespace CelerMem.Necto
variable {σ : Type}

/-- What has been processed, then the hand, then the channel is what was accepted. -/
structure InFlight (capacity : Nat) (hand : List Envelope) (h : ActorHandle σ) : Prop where
  fifo : h.processed.map Prod.fst ++ hand ++ h.channel.queue = h.accepted
  once : (h.accepted.map Envelope.key).Nodup
  seen : ∀ env ∈ h.accepted, env.key ∈ h.dedup.seen
  awake : ∀ call ∈ h.processed, call.2 = .active
  busy : hand ≠ [] → h.lifecycle = .active
  sized : h.channel.capacity = capacity

namespace InFlight
variable {capacity : Nat} {hand rest : List Envelope} {h : ActorHandle σ} {msg : Envelope}

/-- A handle that `make_handle_for` builds. -/
theorem fresh (hQueue : h.channel.queue = []) (hAccepted : h.accepted = [])
    (hProcessed : h.processed = []) (hSized : h.channel.capacity = capacity) :
    InFlight capacity [] h where
  fifo := by simp [hQueue, hAccepted, hProcessed]
  once := by simp [hAccepted]
  seen := by simp [hAccepted]
  awake := by simp [hProcessed]
  busy hHand := absurd rfl hHand
  sized := hSized

theorem accept (hInv : InFlight capacity hand h) (env : Envelope) :
    InFlight capacity hand (h.accept env).2 := by
  rcases h.accept_cases env with hSame | ⟨hNew, hRemember⟩ | ⟨hActive, hNew, hRoom, hTake⟩
  · rw [hSame]
    exact hInv
  · rw [hRemember]
    exact { hInv with seen := fun e he => Finset.mem_insert_of_mem (hInv.seen e he) }
  · rw [hTake]
    obtain ⟨-, hQueue, hCapacity⟩ := ChannelBuf.push_of_room env hRoom
    have hNotAccepted : env.key ∉ h.accepted.map Envelope.key := by
      intro hMem
      obtain ⟨e, he, hKey⟩ := List.mem_map.mp hMem
      exact hNew (hKey ▸ hInv.seen e he)
    refine ⟨?_, ?_, ?_, hInv.awake, hInv.busy, hCapacity.trans hInv.sized⟩
    · simp only [hQueue, ← hInv.fifo, List.append_assoc]
    · simp only [List.map_append, List.map_cons, List.map_nil]
      exact hInv.once.append (by simp) (by simpa using hNotAccepted)
    · intro e he
      rcases List.mem_append.mp he with he | he
      · exact Finset.mem_insert_of_mem (hInv.seen e he)
      · rw [List.mem_singleton.mp he]
        exact Finset.mem_insert_self _ _

/-- `on_receive` is called with the first envelope of the hand. -/
theorem enter (hInv : InFlight capacity (msg :: rest) h) :
    InFlight capacity rest { h with processed := h.processed ++ [(msg, h.lifecycle)] } where
  fifo := by simpa using hInv.fifo
  once := hInv.once
  seen := hInv.seen
  awake call hCall := by
    rcases List.mem_append.mp hCall with hCall | hCall
    · exact hInv.awake call hCall
    · rw [List.mem_singleton.mp hCall]
      exact hInv.busy (List.cons_ne_nil msg rest)
  busy _ := hInv.busy (List.cons_ne_nil msg rest)
  sized := hInv.sized

/-- Pulling moves the whole channel of an active actor to its empty hand. -/
theorem pull (hInv : InFlight capacity [] h) (hActive : h.lifecycle = .active) :
    InFlight capacity h.channel.queue { h with channel := h.channel.clear } where
  fifo := by simpa using hInv.fifo
  once := hInv.once
  seen := hInv.seen
  awake := hInv.awake
  busy _ := hActive
  sized := hInv.sized

end InFlight

namespace ActorSystem
variable {capacity : Nat} {hands : Nat → List Envelope} {hand hand' : List Envelope}
variable {s t : ActorSystem σ} {ref : ActorRef}

structure Holding (capacity : Nat) (hands : Nat → List Envelope) (s : ActorSystem σ) : Prop where
  sized : s.channelCapacity = capacity
  handles : ∀ (i : Nat) h, s.actors[i]? = some h → InFlight capacity (hands i) h

/-- One actor is being ticked, the others have empty hands. -/
def inHand (ref : ActorRef) (hand : List Envelope) (i : Nat) : List Envelope :=
  if ref.index.toNat = i then hand else []

/-- No actor is being ticked. -/
abbrev Quiet (capacity : Nat) (s : ActorSystem σ) : Prop := Holding capacity (fun _ => []) s

theorem quiet_iff (ref : ActorRef) : Quiet capacity s ↔ Holding capacity (inHand ref []) s := by
  have hNil : inHand ref [] = fun _ => [] := by
    funext i
    simp [inHand]
  rw [hNil]

namespace Holding

theorem evolves (hInv : Holding capacity hands s)
    (hEvolves : Evolves (fun h h' => ∀ hand, InFlight capacity hand h → InFlight capacity hand h') s t) :
    Holding capacity hands t where
  sized := hEvolves.capacity.trans hInv.sized
  handles i h' ht := by
    obtain ⟨h, hs, hKeeps⟩ := hEvolves.earlier ht
    exact hKeeps (hands i) (hInv.handles i h hs)

theorem deliver (hInv : Holding capacity hands s) (env : Envelope) :
    Holding capacity hands (s.deliver env).2 :=
  hInv.evolves (Evolves.deliver (fun _ _ h => h) (fun _ env _ h => h.accept env) s env)

theorem runScript (hInv : Holding capacity hands s) (ctx : ActorContext) (script : Script σ) :
    Holding capacity hands (s.runScript ctx script).2.2 :=
  hInv.evolves (Evolves.runScript (fun _ _ h => h) (fun _ _ _ hab hbc hand h => hbc hand (hab hand h))
    (fun _ env _ h => h.accept env) script s ctx)

/-- An assignment to the handle of the actor that is being ticked. -/
theorem update (hInv : Holding capacity (inHand ref hand) s) {f : ActorHandle σ → ActorHandle σ}
    (hMove : ∀ h, s.handle? ref = some h → InFlight capacity hand h → InFlight capacity hand' (f h)) :
    Holding capacity (inHand ref hand') (s.update ref f) where
  sized := hInv.sized
  handles i h' ht := by
    rcases actors_update_cases ht with ⟨rfl, h, hs, rfl⟩ | ⟨hIndex, hSame⟩
    · have hHand := hInv.handles _ h hs
      rw [inHand, if_pos rfl] at hHand ⊢
      exact hMove h hs hHand
    · have hHand := hInv.handles i h' hSame
      rw [inHand, if_neg hIndex] at hHand ⊢
      exact hHand

/-- Envelopes in the hand of no actor do not matter. -/
theorem of_no_handle (hInv : Holding capacity (inHand ref hand) s) (hNone : s.handle? ref = none) :
    Holding capacity (inHand ref hand') s where
  sized := hInv.sized
  handles i h hs := by
    have hIndex : ref.index.toNat ≠ i := by
      rintro rfl
      exact absurd hs (by rw [← handle?, hNone]; simp)
    have hHand := hInv.handles i h hs
    rw [inHand, if_neg hIndex] at hHand ⊢
    exact hHand

theorem receive {msg : Envelope} {rest : List Envelope}
    (hInv : Holding capacity (inHand ref (msg :: rest)) s) (ctx : ActorContext) :
    Holding capacity (inHand ref rest) (s.receive ref ctx msg).2 := by
  unfold ActorSystem.receive
  cases hRef : s.handle? ref with
  | none => exact hInv.of_no_handle hRef
  | some h =>
      have hEntered : Holding capacity (inHand ref rest)
          (s.update ref fun h => { h with processed := h.processed ++ [(msg, h.lifecycle)] }) :=
        hInv.update fun h _ hHand => hHand.enter
      exact (hEntered.runScript ctx _).update fun h _ hHand => { hHand with }

theorem receiveAll (hInv : Holding capacity (inHand ref hand) s) (ctx : ActorContext) :
    Holding capacity (inHand ref []) (s.receiveAll ref ctx hand).2 := by
  induction hand generalizing s ctx with
  | nil => exact hInv
  | cons msg rest ih => exact ih (hInv.receive ctx) _

end Holding

/-- A tick of an active actor takes all its pending envelopes into its hand and
processes them; here their number has to fit the 32-bit length of a chunk. -/
theorem Holding.tick (hInv : Quiet capacity s) (hFits : capacity < uint32Size) (ref : ActorRef) :
    Quiet capacity (s.tick ref).2 := by
  by_cases hIdle : ∀ h, s.handle? ref = some h → h.lifecycle = .dormant ∨ h.channel.queue = []
  · rw [tick_of_idle hIdle]
    exact hInv
  simp only [not_forall, not_or] at hIdle
  obtain ⟨h, hRef, hAwake, hPending⟩ := hIdle
  have hActive : h.lifecycle = .active := by
    cases hLifecycle : h.lifecycle with
    | active => rfl
    | dormant => exact absurd hLifecycle hAwake
  have hHandle := hInv.handles _ h hRef
  have hLength : h.channel.queue.length < uint32Size :=
    (hHandle.sized ▸ h.channel.bounded).trans_lt hFits
  rw [tick_of_pending hRef hActive hPending hLength, quiet_iff ref]
  have hPulled : Holding capacity (inHand ref h.channel.queue)
      (s.update ref fun h' => { h' with channel := h.channel.clear }) := by
    refine ((quiet_iff ref).mp hInv).update ?_
    intro h' hRef' hHand
    obtain rfl := Option.some.inj (hRef.symm.trans hRef')
    exact hHand.pull hActive
  exact (hPulled.receiveAll _).update fun _ _ hHand => { hHand with }

theorem Holding.makeHandleFor (hInv : Quiet capacity s) (impl : σ) (vt : ActorVTable σ)
    (name : String) : Quiet capacity (s.makeHandleFor impl vt name).2 where
  sized := hInv.sized
  handles i h hi := by
    simp only [ActorSystem.makeHandleFor] at hi
    rcases List.mem_append.mp (List.mem_of_getElem? hi) with hOld | hNew
    · obtain ⟨j, hj⟩ := List.mem_iff_getElem?.mp hOld
      exact hInv.handles j h hj
    · obtain rfl := List.mem_singleton.mp hNew
      exact InFlight.fresh rfl rfl rfl hInv.sized

/-- Every call keeps the invariant. -/
theorem Holding.step (hInv : Quiet capacity s) (hFits : capacity < uint32Size) (call : Call σ)
    (h : s.step call = some t) : Quiet capacity t := by
  have hTick : ∀ (s : ActorSystem σ) (ref : ActorRef), Quiet capacity s →
      Quiet capacity (s.tick ref).2 := fun s ref hInv => hInv.tick hFits ref
  cases call with
  | deliver env =>
      obtain rfl := Option.some.inj h
      exact hInv.deliver env
  | inject «to» payload =>
      obtain rfl := Option.some.inj h
      exact hInv.deliver _
  | spawn name impl vt =>
      obtain rfl := Option.some.inj h
      exact hInv.makeHandleFor impl vt name
  | cloneSpawn proto name =>
      obtain rfl := Option.some.inj h
      unfold cloneSpawn
      split
      next => exact hInv
      next => exact hInv.makeHandleFor _ _ _
  | setLifecycle ref lc =>
      obtain rfl := Option.some.inj h
      refine (quiet_iff ref).mpr (((quiet_iff ref).mp hInv).update ?_)
      exact fun h _ hInv => { hInv with busy := fun hHand => absurd rfl hHand }
  | setCluster ref cid =>
      obtain rfl := Option.some.inj h
      exact (quiet_iff ref).mpr (((quiet_iff ref).mp hInv).update fun h _ hInv => { hInv with })
  | channelDrain ref =>
      obtain rfl := Option.some.inj h
      refine (quiet_iff ref).mpr (((quiet_iff ref).mp hInv).update ?_)
      exact fun h _ hInv => InFlight.fresh rfl rfl rfl hInv.sized
  | tick ref =>
      obtain rfl := Option.some.inj h
      exact hInv.tick hFits ref
  | tickAll =>
      obtain ⟨result, hRun, rfl⟩ := Option.map_eq_some_iff.mp h
      exact tickAll_preserves hTick hInv hRun
  | drain maxRounds =>
      obtain ⟨result, hRun, rfl⟩ := Option.map_eq_some_iff.mp h
      exact drain_preserves hTick maxRounds hInv hRun

theorem Reachable.quiet (hReach : Reachable capacity s) (hFits : capacity < uint32Size) :
    Quiet capacity s := by
  refine hReach.preserves (fun s call t hInv _ hStep => hInv.step hFits call hStep) ?_
  exact { sized := rfl, handles := fun i h hi => by simp at hi }

end ActorSystem

/-- Exactly-once first-in first-out delivery, as one actor sees it between calls. -/
structure Delivered (h : ActorHandle σ) : Prop where
  fifo : h.processed.map Prod.fst ++ h.channel.queue = h.accepted
  once : (h.processed.map fun call => call.1.key).Nodup
  awake : ∀ call ∈ h.processed, call.2 = .active

theorem InFlight.delivered {capacity : Nat} {h : ActorHandle σ} (hInv : InFlight capacity [] h) :
    Delivered h where
  fifo := by simpa using hInv.fifo
  once := by
    have hKeys : (h.processed.map fun call => call.1.key) =
        (h.processed.map Prod.fst).map Envelope.key := by
      rw [List.map_map]
      rfl
    have hOnce := hInv.once
    rw [← hInv.fifo, List.append_nil, List.map_append] at hOnce
    rw [hKeys]
    exact hOnce.of_append_left
  awake := hInv.awake

/-! With room for 2^32 envelopes the length of the pulled chunk wraps around to zero. -/
namespace Flood

/-- An actor that ignores what it receives. -/
def sink : ActorVTable Unit := ⟨fun _ _ _ _ => .done (), id⟩

def letter (n : Nat) : Envelope := { seq := UInt64.ofNat n, «to» := ⟨0⟩, payload := [] }

theorem letter_key_inj {i j : Nat} (hi : i < 2 ^ 64) (hj : j < 2 ^ 64)
    (h : (letter i).key = (letter j).key) : i = j := by
  have hSeq : (UInt64.ofNat i).toNat = (UInt64.ofNat j).toNat :=
    congrArg (fun key => key.seq.toNat) h
  rwa [UInt64.toNat_ofNat_of_lt' hi, UInt64.toNat_ofNat_of_lt' hj] at hSeq

/-- The first `n` letters were accepted and wait in the channel. -/
structure Flooded (capacity n : Nat) (h : ActorHandle Unit) : Prop where
  active : h.lifecycle = .active
  queue : h.channel.queue = (List.range n).map letter
  sized : h.channel.capacity = capacity
  accepted : h.accepted = h.channel.queue
  processed : h.processed = []
  unseen : ∀ i, n ≤ i → i < 2 ^ 64 → (letter i).key ∉ h.dedup.seen

/-- A system of one actor. -/
def alone (capacity : Nat) (h : ActorHandle Unit) : ActorSystem Unit :=
  { actors := [h], channelCapacity := capacity }

theorem flooded_step {capacity n : Nat} {h : ActorHandle Unit} (hRoom : n < capacity)
    (hFits : n < 2 ^ 64) (hFlooded : Flooded capacity n h) :
    ∃ h', (alone capacity h).step (.deliver (letter n)) = some (alone capacity h') ∧
      Flooded capacity (n + 1) h' := by
  have hLength : h.channel.queue.length < h.channel.capacity := by
    rw [hFlooded.queue, hFlooded.sized, List.length_map, List.length_range]
    exact hRoom
  have hAwake : h.lifecycle ≠ .dormant := by simp [hFlooded.active]
  obtain ⟨-, hQueue, hCapacity⟩ := ChannelBuf.push_of_room (letter n) hLength
  have hTake := ActorHandle.accept_of_room hAwake (hFlooded.unseen n (Nat.le_refl n) hFits) hLength
  refine ⟨(h.accept (letter n)).2, rfl, ?_⟩
  rw [hTake]
  refine ⟨hFlooded.active, ?_, hCapacity.trans hFlooded.sized, ?_, hFlooded.processed, ?_⟩
  · simp only [hQueue, hFlooded.queue, List.range_succ, List.map_append, List.map_cons, List.map_nil]
  · simp only [hQueue, hFlooded.accepted]
  · intro i hLess hi hSeen
    rcases Finset.mem_insert.mp hSeen with hEq | hOld
    · have := letter_key_inj hi hFits hEq
      omega
    · exact hFlooded.unseen i (by omega) hi hOld

theorem flooded_reachable {capacity n : Nat} (hRoom : n ≤ capacity) (hFits : n ≤ uint32Size) :
    ∃ h, ActorSystem.RunsUndrained { channelCapacity := capacity } (alone capacity h) ∧
      Flooded capacity n h := by
  induction n with
  | zero =>
      refine ⟨_, Transition.RunsWhere.refl.tail (.spawn "sink" () sink) (by simp) rfl, ?_⟩
      exact ⟨rfl, rfl, rfl, rfl, rfl, fun i _ _ => Finset.notMem_empty _⟩
  | succ n ih =>
      obtain ⟨h, hReach, hFlooded⟩ := ih (by omega) (by omega)
      simp only [uint32Size] at hFits
      obtain ⟨h', hStep, hFlooded'⟩ := flooded_step (by omega) (by omega) hFlooded
      exact ⟨h', hReach.tail _ (by simp) hStep, hFlooded'⟩

/-- 2^32 accepted envelopes are neither processed nor pending after one tick. -/
theorem lost {capacity : Nat} (hRoom : uint32Size ≤ capacity) :
    ∃ s : ActorSystem Unit, ActorSystem.RunsUndrained { channelCapacity := capacity } s ∧
      ∃ h ∈ s.actors, ¬Delivered h := by
  obtain ⟨h, hReach, hFlooded⟩ := flooded_reachable hRoom (Nat.le_refl _)
  have hLength : h.channel.queue.length = uint32Size := by
    rw [hFlooded.queue, List.length_map, List.length_range]
  have hPending : h.channel.queue ≠ [] := by
    rw [← List.length_pos_iff, hLength]
    simp [uint32Size]
  have hWraps : h.channel.queue.length % uint32Size = 0 := by
    rw [hLength, Nat.mod_self]
  have hTick : ((alone capacity h).tick ⟨0⟩).2 =
      alone capacity { h with channel := h.channel.clear } :=
    ActorSystem.tick_of_overflow rfl hFlooded.active hPending hWraps
  refine ⟨_, hReach.tail (.tick ⟨0⟩) (by simp) (congrArg some hTick), _, List.mem_singleton_self _, ?_⟩
  intro hDelivered
  have hFifo := hDelivered.fifo
  simp only [hFlooded.processed, ChannelBuf.clear_queue, List.map_nil, List.append_nil,
    hFlooded.accepted] at hFifo
  exact hPending hFifo.symm

end Flood

/-- Every run keeps exactly-once first-in first-out delivery for every actor exactly
when the channels hold fewer than 2^32 envelopes. -/
theorem exactly_once_fifo_iff (capacity : Nat) :
    (∀ (σ : Type) (s : ActorSystem σ), ActorSystem.RunsUndrained { channelCapacity := capacity } s →
      ∀ h ∈ s.actors, Delivered h) ↔ capacity < uint32Size := by
  constructor
  · intro hAll
    by_contra hRoom
    obtain ⟨s, hReach, h, hMem, hLost⟩ := Flood.lost (Nat.not_lt.mp hRoom)
    exact hLost (hAll Unit s hReach h hMem)
  · intro hFits σ s hReach h hMem
    obtain ⟨i, hi⟩ := List.mem_iff_getElem?.mp hMem
    have hQuiet := ActorSystem.Reachable.quiet hReach.unrestricted hFits
    exact (hQuiet.handles i h hi).delivered

/-- A channel capacity of 2^32 loses envelopes. -/
theorem exactly_once_fifo_fails :
    ¬∀ (σ : Type) (s : ActorSystem σ), ActorSystem.RunsUndrained { channelCapacity := 4294967296 } s →
      ∀ h ∈ s.actors, Delivered h := by
  intro hAll
  obtain ⟨s, hReach, h, hMem, hLost⟩ := Flood.lost (Nat.le_refl uint32Size)
  exact hLost (hAll Unit s hReach h hMem)

end CelerMem.Necto
