import CelerMem.Necto.Actor

/-! The public calls on an actor system as a transition system, and what one call
can do to the handles of the actors. -/
namespace CelerMem.Necto

/-- One call from outside; the sends of an actor happen within its ticks. -/
inductive Call (σ : Type) where
  | deliver (env : Envelope)
  | inject («to» : ActorRef) (payload : Bytes)
  | spawn (name : String) (impl : σ) (vt : ActorVTable σ)
  | cloneSpawn (proto : ActorRef) (name : String)
  | setLifecycle (ref : ActorRef) (lc : AgentLifecycle)
  | setCluster (ref : ActorRef) (cid : ClusterId)
  | channelDrain (ref : ActorRef)
  | tick (ref : ActorRef)
  | tickAll
  | drain (maxRounds : Nat)

variable {σ : Type}

namespace ActorSystem

/-- The state after one call that returns. -/
def step (s : ActorSystem σ) : Call σ → Option (ActorSystem σ)
  | .deliver env => some (s.deliver env).2
  | .inject «to» payload => some (s.inject «to» payload).2
  | .spawn name impl vt => some (s.spawn name impl vt).2
  | .cloneSpawn proto name => some (s.cloneSpawn proto name).2
  | .setLifecycle ref lc => some (s.setLifecycle ref lc)
  | .setCluster ref cid => some (s.setCluster ref cid)
  | .channelDrain ref => some (s.channelDrain ref)
  | .tick ref => some (s.tick ref).2
  | .tickAll => s.tickAll.map Prod.snd
  | .drain maxRounds => (s.drain maxRounds).map Prod.snd

/-- States that calls reach from an empty system. -/
def Reachable (capacity : Nat) (s : ActorSystem σ) : Prop :=
  Transition.Runs step { channelCapacity := capacity } s

/-- Runs in which no channel is drained from outside. -/
def RunsUndrained : ActorSystem σ → ActorSystem σ → Prop :=
  Transition.RunsWhere (fun _ call => ¬∃ ref, call = .channelDrain ref) step

end ActorSystem

namespace ActorHandle
variable {h : ActorHandle σ} {env : Envelope}

theorem accept_of_dormant (hDormant : h.lifecycle = .dormant) : h.accept env = (false, h) := by
  simp [accept, hDormant]

/-- Refusing a duplicate changes nothing. -/
theorem accept_of_known (hActive : h.lifecycle ≠ .dormant) (hKnown : env.key ∈ h.dedup.seen) :
    h.accept env = (false, h) := by
  simp [accept, hActive, DedupSet.checkAndInsert, hKnown, Finset.insert_eq_of_mem]

/-- The duplicate filter remembers an envelope that the channel then refuses. -/
theorem accept_of_full (hActive : h.lifecycle ≠ .dormant) (hNew : env.key ∉ h.dedup.seen)
    (hFull : h.channel.capacity ≤ h.channel.queue.length) :
    h.accept env = (false, { h with dedup := ⟨insert env.key h.dedup.seen⟩ }) := by
  simp [accept, hActive, DedupSet.checkAndInsert, hNew, ChannelBuf.push_of_full hFull]

theorem accept_of_room (hActive : h.lifecycle ≠ .dormant) (hNew : env.key ∉ h.dedup.seen)
    (hRoom : h.channel.queue.length < h.channel.capacity) :
    h.accept env =
      (true, { h with
        dedup := ⟨insert env.key h.dedup.seen⟩
        channel := (h.channel.push env).2
        accepted := h.accepted ++ [env] }) := by
  simp [accept, hActive, DedupSet.checkAndInsert, hNew, (ChannelBuf.push_of_room env hRoom).1]

/-- Everything that `accept` can do: nothing, remembering alone, or taking the envelope. -/
theorem accept_cases (h : ActorHandle σ) (env : Envelope) :
    h.accept env = (false, h) ∨
    (env.key ∉ h.dedup.seen ∧
      h.accept env = (false, { h with dedup := ⟨insert env.key h.dedup.seen⟩ })) ∨
    (h.lifecycle ≠ .dormant ∧ env.key ∉ h.dedup.seen ∧
      h.channel.queue.length < h.channel.capacity ∧
      h.accept env =
        (true, { h with
          dedup := ⟨insert env.key h.dedup.seen⟩
          channel := (h.channel.push env).2
          accepted := h.accepted ++ [env] })) := by
  by_cases hDormant : h.lifecycle = .dormant
  · exact .inl (accept_of_dormant hDormant)
  by_cases hKnown : env.key ∈ h.dedup.seen
  · exact .inl (accept_of_known hDormant hKnown)
  rcases Nat.lt_or_ge h.channel.queue.length h.channel.capacity with hRoom | hFull
  · exact .inr (.inr ⟨hDormant, hKnown, hRoom, accept_of_room hDormant hKnown hRoom⟩)
  · exact .inr (.inl ⟨hKnown, accept_of_full hDormant hKnown hFull⟩)

end ActorHandle

namespace ActorSystem
variable {R : ActorHandle σ → ActorHandle σ → Prop} {s t u : ActorSystem σ} {ref : ActorRef}

/-- The same actors, each handle related to the earlier one at its index. -/
structure Evolves (R : ActorHandle σ → ActorHandle σ → Prop) (s t : ActorSystem σ) : Prop where
  capacity : t.channelCapacity = s.channelCapacity
  length : t.actors.length = s.actors.length
  related : ∀ (i : Nat) h h', s.actors[i]? = some h → t.actors[i]? = some h' → R h h'

namespace Evolves

theorem refl (hRefl : ∀ h, R h h) (s : ActorSystem σ) : Evolves R s s where
  capacity := rfl
  length := rfl
  related i h h' hs ht := by
    obtain rfl := Option.some.inj (hs.symm.trans ht)
    exact hRefl h

/-- The handle that an actor has later. -/
theorem later (hEvolves : Evolves R s t) {i : Nat} {h : ActorHandle σ}
    (hs : s.actors[i]? = some h) : ∃ h', t.actors[i]? = some h' ∧ R h h' := by
  have hIndex : i < t.actors.length := by
    rw [hEvolves.length]
    exact (List.getElem?_eq_some_iff.mp hs).1
  exact ⟨t.actors[i], List.getElem?_eq_getElem hIndex,
    hEvolves.related i h _ hs (List.getElem?_eq_getElem hIndex)⟩

/-- The handle that an actor had earlier. -/
theorem earlier (hEvolves : Evolves R s t) {i : Nat} {h' : ActorHandle σ}
    (ht : t.actors[i]? = some h') : ∃ h, s.actors[i]? = some h ∧ R h h' := by
  have hIndex : i < s.actors.length := by
    rw [← hEvolves.length]
    exact (List.getElem?_eq_some_iff.mp ht).1
  exact ⟨s.actors[i], List.getElem?_eq_getElem hIndex,
    hEvolves.related i _ h' (List.getElem?_eq_getElem hIndex) ht⟩

theorem trans (hTrans : ∀ a b c, R a b → R b c → R a c) (first : Evolves R s t)
    (second : Evolves R t u) : Evolves R s u where
  capacity := second.capacity.trans first.capacity
  length := second.length.trans first.length
  related i h h'' hs hu := by
    obtain ⟨h', ht, hFirst⟩ := first.later hs
    exact hTrans h h' h'' hFirst (second.related i h' h'' ht hu)

/-- An assignment to one handle relates every other handle to itself. -/
theorem update (hRefl : ∀ h, R h h) {f : ActorHandle σ → ActorHandle σ}
    (hMove : ∀ h, s.handle? ref = some h → R h (f h)) : Evolves R s (s.update ref f) where
  capacity := rfl
  length := by simp [ActorSystem.update]
  related i h h' hs ht := by
    rcases actors_update_cases ht with ⟨rfl, h₀, hRef, rfl⟩ | ⟨-, hSame⟩
    · obtain rfl := Option.some.inj (hRef.symm.trans hs)
      exact hMove h₀ hRef
    · obtain rfl := Option.some.inj (hs.symm.trans hSame)
      exact hRefl h

theorem deliver (hRefl : ∀ h, R h h) (hAccept : ∀ h env, R h (h.accept env).2)
    (s : ActorSystem σ) (env : Envelope) : Evolves R s (s.deliver env).2 := by
  unfold ActorSystem.deliver
  cases hTo : s.handle? env.to with
  | none => exact refl hRefl s
  | some h =>
      refine update hRefl ?_
      intro h' hTo'
      obtain rfl := Option.some.inj (hTo.symm.trans hTo')
      exact hAccept h env

/-- During one call of `on_receive` only deliveries touch the system. -/
theorem runScript (hRefl : ∀ h, R h h) (hTrans : ∀ a b c, R a b → R b c → R a c)
    (hAccept : ∀ h env, R h (h.accept env).2) (script : Script σ) (s : ActorSystem σ)
    (ctx : ActorContext) : Evolves R s (s.runScript ctx script).2.2 := by
  induction script generalizing s ctx with
  | done impl => exact refl hRefl s
  | send «to» payload next ih =>
      have hSend : Evolves R s (s.send ctx «to» payload).2.2 := deliver hRefl hAccept s _
      exact hSend.trans hTrans (ih _ _ _)

end Evolves
/-- A tick of an active actor with pending envelopes processes all of them, as long
as their number fits the 32-bit length of a chunk. -/
theorem tick_of_pending {h : ActorHandle σ} (hRef : s.handle? ref = some h)
    (hActive : h.lifecycle = .active) (hPending : h.channel.queue ≠ [])
    (hFits : h.channel.queue.length < uint32Size) :
    (s.tick ref).2 =
      let done := (s.update ref fun h' => { h' with channel := h.channel.clear }).receiveAll ref
        ⟨h.self, h.cluster, h.nextSeq⟩ h.channel.queue
      done.2.update ref fun h => { h with nextSeq := done.1.nextSeq } := by
  have hList : (Chunk.from h.channel.queue).toList = h.channel.queue :=
    Chunk.toList_from_of_lt hFits
  have hNotEmpty : ¬(Chunk.from h.channel.queue).empty = true := by
    rw [Chunk.empty_iff, hList]
    exact hPending
  simp [tick, hRef, hActive, ChannelBuf.pull_of_pending hPending, hNotEmpty, hList]

/-- A pulled chunk whose length wraps around to zero is dropped with all its envelopes. -/
theorem tick_of_overflow {h : ActorHandle σ} (hRef : s.handle? ref = some h)
    (hActive : h.lifecycle = .active) (hPending : h.channel.queue ≠ [])
    (hWraps : h.channel.queue.length % uint32Size = 0) :
    (s.tick ref).2 = s.update ref fun h' => { h' with channel := h.channel.clear } := by
  have hEmpty : (Chunk.from h.channel.queue).empty = true := by
    rw [Chunk.empty_iff, Chunk.toList_from, hWraps, List.take_zero]
  simp [tick, hRef, hActive, ChannelBuf.pull_of_pending hPending, hEmpty]

/-- The other ticks leave the actors as they are. -/
theorem tick_of_idle (hIdle : ∀ h, s.handle? ref = some h →
      h.lifecycle = .dormant ∨ h.channel.queue = []) : (s.tick ref).2 = s := by
  unfold tick
  cases hRef : s.handle? ref with
  | none => rfl
  | some h =>
      by_cases hDormant : h.lifecycle = .dormant
      · simp [hDormant]
      · have hEmpty := (hIdle h hRef).resolve_left hDormant
        have hSame : s.update ref (fun h' => { h' with channel := h.channel }) = s := by
          refine update_eq_self ?_
          intro h' hRef'
          obtain rfl := Option.some.inj (hRef.symm.trans hRef')
          rfl
        simp [hDormant, ChannelBuf.pull_of_empty hEmpty, hSame]

/-- A pass of the loop over the actors that goes round again has ticked one. -/
theorem tickNext_again {state next : UInt32 × Nat × ActorSystem σ}
    (hPass : tickNext state = some (.again next)) :
    state.1.toNat < state.2.2.actors.length ∧
      next = (state.1 + 1, state.2.1 + (state.2.2.tick ⟨state.1⟩).1,
        (state.2.2.tick ⟨state.1⟩).2) := by
  unfold tickNext at hPass
  split at hPass
  next hInside => exact ⟨hInside, (Loop.Turn.again.inj (Option.some.inj hPass)).symm⟩
  next => simp at hPass

theorem tickNext_leave {state : UInt32 × Nat × ActorSystem σ} {result : Nat × ActorSystem σ}
    (hPass : tickNext state = some (.leave result)) :
    state.2.2.actors.length ≤ state.1.toNat ∧ result = state.2 := by
  unfold tickNext at hPass
  split at hPass
  next => simp at hPass
  next hOutside =>
    exact ⟨Nat.not_lt.mp hOutside, (Loop.Turn.leave.inj (Option.some.inj hPass)).symm⟩

/-- Total correctness is not at stake here: what every tick preserves holds when the
loop over the actors comes back. -/
theorem tickAll_preserves {Inv : ActorSystem σ → Prop} (hTick : ∀ s ref, Inv s → Inv (s.tick ref).2)
    (hInv : Inv s) {result : Nat × ActorSystem σ} (h : s.tickAll = some result) : Inv result.2 := by
  have hAgain : ∀ state next, Inv state.2.2 → tickNext state = some (.again next) →
      Inv next.2.2 := by
    intro state next hState hPass
    obtain ⟨-, rfl⟩ := tickNext_again hPass
    exact hTick state.2.2 ⟨state.1⟩ hState
  have hLeave : ∀ state r, Inv state.2.2 → tickNext state = some (.leave r) → Inv r.2 := by
    intro state r hState hPass
    obtain ⟨-, rfl⟩ := tickNext_leave hPass
    exact hState
  exact @Loop.run_invariant _ _ tickNext (0, 0, s) result (fun state => Inv state.2.2)
    (fun r => Inv r.2) hAgain hLeave hInv h

theorem drain_preserves {Inv : ActorSystem σ → Prop} (hTick : ∀ s ref, Inv s → Inv (s.tick ref).2)
    (rounds : Nat) (hInv : Inv s) {result : Nat × ActorSystem σ} (h : s.drain rounds = some result) :
    Inv result.2 := by
  induction rounds generalizing s result with
  | zero =>
      obtain rfl := Option.some.inj h
      exact hInv
  | succ rounds ih =>
      simp only [drain, Option.bind_eq_bind, Option.bind_eq_some_iff] at h
      obtain ⟨⟨n, s'⟩, hRound, hRest⟩ := h
      have hInv' := tickAll_preserves hTick hInv hRound
      split at hRest
      next =>
        obtain rfl := Option.some.inj hRest
        exact hInv'
      next =>
        obtain ⟨⟨total, s''⟩, hDrain, hEq⟩ := Option.bind_eq_some_iff.mp hRest
        obtain rfl := Option.some.inj hEq
        have hLast : Inv (total, s'').2 := ih hInv' hDrain
        exact hLast

end ActorSystem
end CelerMem.Necto
