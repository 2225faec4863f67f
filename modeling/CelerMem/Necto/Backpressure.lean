import CelerMem.Necto.Delivery

/-! Retrying an envelope that `deliver` refused. A dormant receiver is left as it
was, and the retry goes through; a full one has already remembered the envelope,
so the retry is taken for a duplicate. -/
namespace CelerMem.Necto
variable {σ : Type}

namespace ActorHandle

/-- The receiver is dormant, or its channel is full and the envelope is new to it. -/
def Refuses (h : ActorHandle σ) (env : Envelope) : Prop :=
  h.lifecycle = .dormant ∨
    env.key ∉ h.dedup.seen ∧ h.channel.capacity ≤ h.channel.queue.length

/-- Active with room in the channel. -/
def Ready (h : ActorHandle σ) : Prop :=
  h.lifecycle = .active ∧ h.channel.queue.length < h.channel.capacity

/-- How often `on_receive` was called with an envelope of this pair. -/
def timesProcessed (h : ActorHandle σ) (key : DedupSet.Key) : Nat :=
  (h.processed.map fun call => call.1.key).count key

end ActorHandle

namespace ActorSystem
variable {capacity : Nat} {s t u : ActorSystem σ} {ref : ActorRef} {env : Envelope}
variable {h h' : ActorHandle σ}

/-- A retry at `t` is accepted, and whenever its receiver is ticked later on, without
a `channel_drain` in between, it has processed the envelope exactly once. -/
structure Retried (t : ActorSystem σ) (env : Envelope) : Prop where
  accepted : (t.deliver env).1 = true
  once : ∀ u h, RunsUndrained (t.deliver env).2 u → u.handle? env.to = some h →
    h.lifecycle = .active →
    ∃ h', (u.tick env.to).2.handle? env.to = some h' ∧ h'.timesProcessed env.key = 1

/-- The failed `deliver` took the receiver from `h` to `h'` without a change to its
channel or its duplicate filter, and a new envelope can be delivered again at any
later time when the receiver is ready, unless something else delivered it meanwhile. -/
structure RetrySafe (s : ActorSystem σ) (env : Envelope) (h h' : ActorHandle σ) : Prop where
  channel : h'.channel = h.channel
  dedup : h'.dedup = h.dedup
  retried : env.key ∉ h.dedup.seen → ∀ t later, Transition.Runs step (s.deliver env).2 t →
    t.handle? env.to = some later → later.Ready →
    (env.key ∈ later.dedup.seen → env.key ∈ h'.dedup.seen) → t.Retried env

/-! ### What the calls do to the history of an actor -/

theorem deliver_of_handle (hTo : s.handle? env.to = some h) :
    s.deliver env = ((h.accept env).1, s.update env.to fun _ => (h.accept env).2) := by
  simp [deliver, hTo]

theorem handle?_deliver (hTo : s.handle? env.to = some h) :
    (s.deliver env).2.handle? env.to = some (h.accept env).2 := by
  simp [deliver_of_handle hTo, hTo]

/-- The envelopes for which `deliver` returns true are the accepted ones. -/
theorem accept_accepted (h : ActorHandle σ) (env : Envelope) :
    (h.accept env).2.accepted = if (h.accept env).1 then h.accepted ++ [env] else h.accepted := by
  rcases h.accept_cases env with hSame | ⟨-, hRemember⟩ | ⟨-, -, -, hTake⟩
  · simp [hSame]
  · simp [hRemember]
  · simp [hTake]

/-- `deliver` answers false to a receiver that refuses or knows the envelope. -/
theorem deliver_false_iff (hTo : s.handle? env.to = some h) :
    (s.deliver env).1 = false ↔ h.Refuses env ∨ env.key ∈ h.dedup.seen := by
  rw [deliver_of_handle hTo]
  by_cases hDormant : h.lifecycle = .dormant
  · simp [ActorHandle.accept_of_dormant hDormant, ActorHandle.Refuses, hDormant]
  by_cases hKnown : env.key ∈ h.dedup.seen
  · simp [ActorHandle.accept_of_known hDormant hKnown, hKnown]
  rcases Nat.lt_or_ge h.channel.queue.length h.channel.capacity with hRoom | hFull
  · simp [ActorHandle.accept_of_room hDormant hKnown hRoom, ActorHandle.Refuses, hDormant, hKnown, hRoom]
  · simp [ActorHandle.accept_of_full hDormant hKnown hFull, ActorHandle.Refuses, hKnown, hFull]

/-- Accepted envelopes stay accepted, in their order. -/
def Grows (h h' : ActorHandle σ) : Prop := h.accepted <+: h'.accepted

theorem Grows.refl (h : ActorHandle σ) : Grows h h := List.prefix_rfl

theorem Grows.trans {a b c : ActorHandle σ} (first : Grows a b) (second : Grows b c) : Grows a c :=
  List.IsPrefix.trans first second

theorem Grows.accept (h : ActorHandle σ) (env : Envelope) : Grows h (h.accept env).2 := by
  rw [Grows, accept_accepted]
  split
  next => exact List.prefix_append _ _
  next => exact List.prefix_rfl

theorem receive_grows (s : ActorSystem σ) (ref : ActorRef) (ctx : ActorContext) (msg : Envelope) :
    Evolves Grows s (s.receive ref ctx msg).2 := by
  have hTrans : ∀ a b c : ActorHandle σ, Grows a b → Grows b c → Grows a c :=
    fun _ _ _ => Grows.trans
  unfold receive
  split
  next => exact Evolves.refl Grows.refl s
  next h _ =>
    refine Evolves.trans hTrans ?_ (Evolves.update Grows.refl fun h _ => List.prefix_rfl)
    refine Evolves.trans hTrans ?_ (Evolves.runScript Grows.refl hTrans Grows.accept _ _ _)
    exact Evolves.update Grows.refl fun h _ => List.prefix_rfl

theorem receiveAll_grows (msgs : List Envelope) (s : ActorSystem σ) (ref : ActorRef)
    (ctx : ActorContext) : Evolves Grows s (s.receiveAll ref ctx msgs).2 := by
  induction msgs generalizing s ctx with
  | nil => exact Evolves.refl Grows.refl s
  | cons msg rest ih =>
      exact (receive_grows s ref ctx msg).trans (fun _ _ _ => Grows.trans) (ih _ _)

theorem tick_grows (s : ActorSystem σ) (ref : ActorRef) : Evolves Grows s (s.tick ref).2 := by
  have hTrans : ∀ a b c : ActorHandle σ, Grows a b → Grows b c → Grows a c :=
    fun _ _ _ => Grows.trans
  have hPulled : ∀ channel, Evolves Grows s (s.update ref fun h => { h with channel }) :=
    fun channel => Evolves.update Grows.refl fun h _ => List.prefix_rfl
  unfold tick
  split
  next => exact Evolves.refl Grows.refl s
  next h _ =>
    split
    next => exact Evolves.refl Grows.refl s
    next =>
      dsimp only
      split
      next => exact hPulled _
      next chunk _ =>
        split
        next => exact hPulled _
        next =>
          refine Evolves.trans hTrans ?_ (Evolves.update Grows.refl fun h _ => List.prefix_rfl)
          exact (hPulled _).trans hTrans (receiveAll_grows _ _ _ _)

/-- No call but `channel_drain` takes back what an actor has accepted. -/
theorem step_accepted {call : Call σ} (hUndrained : ¬∃ ref, call = .channelDrain ref)
    (hStep : s.step call = some t) {i : Nat} (hs : s.actors[i]? = some h) :
    ∃ h', t.actors[i]? = some h' ∧ Grows h h' := by
  have hTick : ∀ (r : ActorSystem σ) (ref : ActorRef), Evolves Grows s r →
      Evolves Grows s (r.tick ref).2 :=
    fun r ref hr => hr.trans (fun _ _ _ => Grows.trans) (tick_grows r ref)
  have hStart : Evolves Grows s s := Evolves.refl Grows.refl s
  have hSpawn : ∀ impl vt name, ∃ h', (s.makeHandleFor impl vt name).2.actors[i]? = some h' ∧
      Grows h h' := by
    intro impl vt name
    exact ⟨h, List.getElem?_append_left (List.getElem?_eq_some_iff.mp hs).1 ▸ hs, Grows.refl h⟩
  cases call with
  | deliver env =>
      obtain rfl := Option.some.inj hStep
      exact (Evolves.deliver Grows.refl Grows.accept s env).later hs
  | inject «to» payload =>
      obtain rfl := Option.some.inj hStep
      exact (Evolves.deliver Grows.refl Grows.accept s _).later hs
  | spawn name impl vt =>
      obtain rfl := Option.some.inj hStep
      exact hSpawn impl vt name
  | cloneSpawn proto name =>
      obtain rfl := Option.some.inj hStep
      unfold cloneSpawn
      split
      next => exact ⟨h, hs, Grows.refl h⟩
      next => exact hSpawn _ _ _
  | setLifecycle ref lc =>
      obtain rfl := Option.some.inj hStep
      refine Evolves.later (Evolves.update Grows.refl ?_) hs
      exact fun h _ => List.prefix_rfl
  | setCluster ref cid =>
      obtain rfl := Option.some.inj hStep
      refine Evolves.later (Evolves.update Grows.refl ?_) hs
      exact fun h _ => List.prefix_rfl
  | channelDrain ref => exact absurd ⟨ref, rfl⟩ hUndrained
  | tick ref =>
      obtain rfl := Option.some.inj hStep
      exact (tick_grows s ref).later hs
  | tickAll =>
      obtain ⟨result, hRun, rfl⟩ := Option.map_eq_some_iff.mp hStep
      exact (tickAll_preserves hTick hStart hRun).later hs
  | drain maxRounds =>
      obtain ⟨result, hRun, rfl⟩ := Option.map_eq_some_iff.mp hStep
      exact (drain_preserves hTick maxRounds hStart hRun).later hs

theorem runs_accepted (run : RunsUndrained s t) {i : Nat} (hs : s.actors[i]? = some h)
    (ht : t.actors[i]? = some h') : Grows h h' := by
  have hLater : ∃ later, t.actors[i]? = some later ∧ Grows h later := by
    refine @Transition.RunsWhere.preserves _ _ _ step s t
      (fun r => ∃ later, r.actors[i]? = some later ∧ Grows h later) ?_ run ⟨h, hs, Grows.refl h⟩
    rintro r call r' ⟨middle, hMiddle, hGrows⟩ hUndrained hStep
    obtain ⟨later, hLater, hMore⟩ := step_accepted hUndrained hStep hMiddle
    exact ⟨later, hLater, hGrows.trans hMore⟩
  obtain ⟨later, hLater, hGrows⟩ := hLater
  obtain rfl := Option.some.inj (hLater.symm.trans ht)
  exact hGrows

/-- No call of `on_receive` happened in between. -/
def Unprocessing (h h' : ActorHandle σ) : Prop := h'.processed = h.processed

theorem Unprocessing.refl (h : ActorHandle σ) : Unprocessing h h := rfl

theorem Unprocessing.trans (a b c : ActorHandle σ) (first : Unprocessing a b)
    (second : Unprocessing b c) : Unprocessing a c :=
  Eq.trans second first

theorem Unprocessing.accept (h : ActorHandle σ) (env : Envelope) :
    Unprocessing h (h.accept env).2 := by
  rcases h.accept_cases env with hSame | ⟨-, hRemember⟩ | ⟨-, -, -, hTake⟩
  · rw [hSame, Unprocessing]
  · rw [hRemember, Unprocessing]
  · rw [hTake, Unprocessing]

theorem receive_processed (hRef : s.handle? ref = some h) (ctx : ActorContext) (msg : Envelope) :
    ∃ h', (s.receive ref ctx msg).2.handle? ref = some h' ∧
      h'.processed.map Prod.fst = h.processed.map Prod.fst ++ [msg] := by
  simp only [receive, hRef]
  set entered := s.update ref fun h => { h with processed := h.processed ++ [(msg, h.lifecycle)] }
    with hEntered
  set script := h.vt.onReceive h.impl msg ctx.self ctx.cluster
  have hInside : entered.handle? ref =
      some { h with processed := h.processed ++ [(msg, h.lifecycle)] } := by
    simp [hEntered, hRef]
  have hRan : Evolves Unprocessing entered (entered.runScript ctx script).2.2 :=
    Evolves.runScript Unprocessing.refl Unprocessing.trans Unprocessing.accept script entered ctx
  obtain ⟨h', hLater, hProcessed⟩ := hRan.later hInside
  have hAfter : (entered.runScript ctx script).2.2.handle? ref = some h' := hLater
  refine ⟨_, by rw [handle?_update_self, hAfter]; rfl, ?_⟩
  rw [Unprocessing] at hProcessed
  simp [hProcessed]

theorem receiveAll_processed (msgs : List Envelope) (hRef : s.handle? ref = some h)
    (ctx : ActorContext) :
    ∃ h', (s.receiveAll ref ctx msgs).2.handle? ref = some h' ∧
      h'.processed.map Prod.fst = h.processed.map Prod.fst ++ msgs := by
  induction msgs generalizing s h ctx with
  | nil => exact ⟨h, hRef, (List.append_nil _).symm⟩
  | cons msg rest ih =>
      obtain ⟨h₁, hFirst, hOne⟩ := receive_processed hRef ctx msg
      obtain ⟨h₂, hRest, hAll⟩ := ih hFirst (s.receive ref ctx msg).1
      refine ⟨h₂, hRest, ?_⟩
      rw [hAll, hOne, List.append_assoc]
      rfl

/-- A tick of an active actor processes all that it has accepted so far. -/
theorem tick_processed (hReach : s.Reachable capacity) (hFits : capacity < uint32Size)
    (hRef : s.handle? ref = some h) (hActive : h.lifecycle = .active) :
    ∃ h', (s.tick ref).2.handle? ref = some h' ∧ h'.processed.map Prod.fst = h.accepted := by
  have hInv := (hReach.quiet hFits).handles _ h hRef
  have hFifo : h.processed.map Prod.fst ++ h.channel.queue = h.accepted := by
    simpa using hInv.fifo
  by_cases hEmpty : h.channel.queue = []
  · have hIdle : ∀ h', s.handle? ref = some h' → h'.lifecycle = .dormant ∨ h'.channel.queue = [] := by
      intro h' hRef'
      obtain rfl := Option.some.inj (hRef.symm.trans hRef')
      exact .inr hEmpty
    rw [tick_of_idle hIdle]
    exact ⟨h, hRef, by rw [← hFifo, hEmpty, List.append_nil]⟩
  · have hLength : h.channel.queue.length < uint32Size :=
      (hInv.sized ▸ h.channel.bounded).trans_lt hFits
    have hPulled : (s.update ref fun h' => { h' with channel := h.channel.clear }).handle? ref =
        some { h with channel := h.channel.clear } := by
      simp [hRef]
    obtain ⟨h', hDone, hAll⟩ := receiveAll_processed h.channel.queue hPulled
      ⟨h.self, h.cluster, h.nextSeq⟩
    rw [tick_of_pending hRef hActive hEmpty hLength]
    refine ⟨_, by rw [handle?_update_self, hDone]; rfl, ?_⟩
    rw [← hFifo]
    exact hAll

theorem count_of_accepted (hReach : s.Reachable capacity) (hFits : capacity < uint32Size)
    (hRef : s.handle? env.to = some h) (hActive : h.lifecycle = .active) (hMem : env ∈ h.accepted) :
    ∃ h', (s.tick env.to).2.handle? env.to = some h' ∧ h'.timesProcessed env.key = 1 := by
  obtain ⟨h', hTicked, hAll⟩ := tick_processed hReach hFits hRef hActive
  refine ⟨h', hTicked, ?_⟩
  have hKeys : (h'.processed.map fun call => call.1.key) = h.accepted.map Envelope.key := by
    rw [← hAll, List.map_map]
    rfl
  rw [ActorHandle.timesProcessed, hKeys]
  exact List.count_eq_one_of_mem ((hReach.quiet hFits).handles _ h hRef).once
    (List.mem_map_of_mem hMem)

/-- A ready receiver takes an envelope that is new to it. -/
theorem deliver_of_ready (hTo : s.handle? env.to = some h) (hReady : h.Ready)
    (hNew : env.key ∉ h.dedup.seen) :
    (s.deliver env).1 = true ∧ ∃ h', (s.deliver env).2.handle? env.to = some h' ∧
      h'.accepted = h.accepted ++ [env] := by
  obtain ⟨hActive, hRoom⟩ := hReady
  have hAwake : h.lifecycle ≠ .dormant := by simp [hActive]
  have hTake := ActorHandle.accept_of_room hAwake hNew hRoom
  refine ⟨by rw [deliver_of_handle hTo, hTake], (h.accept env).2, handle?_deliver hTo, ?_⟩
  rw [hTake]

/-- A new envelope for a ready receiver. -/
theorem retried_of_ready (hReach : s.Reachable capacity) (hFits : capacity < uint32Size)
    (hTo : s.handle? env.to = some h) (hReady : h.Ready) (hNew : env.key ∉ h.dedup.seen) :
    s.Retried env := by
  obtain ⟨hTaken, taker, hTaker, hAccepted⟩ := deliver_of_ready hTo hReady hNew
  refine ⟨hTaken, ?_⟩
  intro u later run hLater hActive'
  have hGrows : Grows taker later := runs_accepted run hTaker hLater
  have hMem : env ∈ later.accepted := by
    refine hGrows.subset ?_
    rw [hAccepted]
    exact List.mem_append_right _ (List.mem_singleton_self env)
  have hReach' : u.Reachable capacity := (hReach.tail (.deliver env) rfl).trans run.unrestricted
  exact count_of_accepted hReach' hFits hLater hActive' hMem

end ActorSystem

open ActorSystem

/-- A refused `deliver` is safe to retry when its receiver was dormant, and only then. -/
theorem failed_deliver_recovers_iff {capacity : Nat} {s : ActorSystem σ} {env : Envelope}
    {h h' : ActorHandle σ} (hReach : s.Reachable capacity) (hTo : s.handle? env.to = some h)
    (hRefuses : h.Refuses env) (hAfter : (s.deliver env).2.handle? env.to = some h') :
    (s.RetrySafe env h h' → h.lifecycle = .dormant) ∧
      (capacity < uint32Size → h.lifecycle = .dormant → s.RetrySafe env h h') := by
  obtain rfl : (h.accept env).2 = h' := Option.some.inj ((handle?_deliver hTo).symm.trans hAfter)
  constructor
  · intro hSafe
    by_contra hAwake
    obtain ⟨hNew, hFull⟩ := hRefuses.resolve_left hAwake
    have hDedup := hSafe.dedup
    rw [ActorHandle.accept_of_full hAwake hNew hFull] at hDedup
    exact hNew (hDedup ▸ Finset.mem_insert_self env.key h.dedup.seen)
  · intro hFits hDormant
    have hSame : h.accept env = (false, h) := ActorHandle.accept_of_dormant hDormant
    refine ⟨by rw [hSame], by rw [hSame], ?_⟩
    intro hNew t later run hLater hReady hMeanwhile
    have hReach' : t.Reachable capacity := (hReach.tail (.deliver env) rfl).trans run
    rw [hSame] at hMeanwhile
    exact retried_of_ready hReach' hFits hLater hReady (fun hSeen => hNew (hMeanwhile hSeen))

/-- A sleeping receiver. -/
def dormantSystem : ActorSystem Unit :=
  (({ channelCapacity := 1 } : ActorSystem Unit).spawn "sink" () Flood.sink).2.setLifecycle ⟨0⟩ .dormant

theorem failed_deliver_recovers_dormant :
    ∃ h h', dormantSystem.handle? ⟨0⟩ = some h ∧ dormantSystem.RetrySafe (Flood.letter 1) h h' := by
  have hReach : dormantSystem.Reachable 1 :=
    (Transition.Runs.tail .refl (.spawn "sink" () Flood.sink) rfl).tail (.setLifecycle ⟨0⟩ .dormant) rfl
  exact ⟨_, _, rfl, (failed_deliver_recovers_iff hReach rfl (.inl rfl) rfl).2 (by simp [uint32Size]) rfl⟩

/-- A receiver whose one place is taken. -/
def fullSystem : ActorSystem Unit :=
  ((({ channelCapacity := 1 } : ActorSystem Unit).spawn "sink" () Flood.sink).2.deliver
    (Flood.letter 0)).2

/-- The retry is refused although the receiver has been ticked and is empty. -/
theorem retry_refused_after_full :
    fullSystem.Reachable 1 ∧
      (∃ h h', fullSystem.handle? ⟨0⟩ = some h ∧ h.Refuses (Flood.letter 1) ∧
        (fullSystem.deliver (Flood.letter 1)).2.handle? ⟨0⟩ = some h' ∧
        ¬fullSystem.RetrySafe (Flood.letter 1) h h') ∧
      (((fullSystem.deliver (Flood.letter 1)).2.tick ⟨0⟩).2.deliver (Flood.letter 1)).1 = false := by
  refine ⟨?_, ⟨_, _, rfl, .inr ⟨by decide, by decide⟩, rfl, ?_⟩, by rfl⟩
  · exact (Transition.Runs.tail .refl (.spawn "sink" () Flood.sink) rfl).tail
      (.deliver (Flood.letter 0)) rfl
  · intro hSafe
    exact absurd hSafe.dedup (by decide)

end CelerMem.Necto
