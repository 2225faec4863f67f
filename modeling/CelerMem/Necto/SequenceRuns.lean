import CelerMem.Necto.SequenceNumbers

/-! Runs of an actor system with its sends. Every sender numbers what it sends in order,
unless its 64-bit counter wraps around or its 32-bit index is that of the external
sender, whose envelopes all carry the number 0. -/
namespace CelerMem.Necto
open Numbering
variable {σ : Type}

/-- No pair is used twice, a ready receiver takes what it is sent, and what it has
processed from one sender came in the order of the numbers. -/
structure SendsInOrder (l : Logged σ) : Prop where
  unique : (l.log.map fun sent => sent.envelope.key).Nodup
  accepted : ∀ sent ∈ l.log, ∀ h, sent.receiver = some h → h.Ready → sent.accepted = true
  ordered : ∀ h ∈ l.system.actors, (h.processed.map Prod.fst).Pairwise fun a b =>
    a.from = b.from → a.seq < b.seq

/-- If an actor has the index of the external sender, it is not ticked. -/
def ActorSystem.SparesExternal (s : ActorSystem σ) : Call σ → Prop
  | .tick ref => ref = external → s.handle? external = none
  | .tickAll | .drain _ => s.handle? external = none
  | _ => True

/-- Behaviours send through their contexts only, and no channel is drained from outside. -/
def Call.Ordinary (call : Call σ) : Prop :=
  (¬∃ env, call = .deliver env) ∧ ¬∃ ref, call = .channelDrain ref

def Logged.Allowed (l : Logged σ) (call : Call σ) : Prop :=
  call.Ordinary ∧ l.system.SparesExternal call

namespace ActorSystem
variable {log : List (Sent σ)} {s : ActorSystem σ} {ref : ActorRef}

/-- Ticks do not add actors. -/
theorem handle?_tick_none {other : ActorRef} (hNone : s.handle? other = none) (ref : ActorRef) :
    (s.tick ref).2.handle? other = none := by
  rw [handle?, List.getElem?_eq_none_iff] at hNone ⊢
  rwa [tick_length]

theorem Resting.ticks (refs : List ActorRef) (hInv : Resting log s)
    (hSpares : s.handle? external = none) (hFits : CountersFit (log ++ s.ticksSends refs)) :
    Resting (log ++ s.ticksSends refs) (s.ticks refs) := by
  induction refs generalizing log s with
  | nil =>
      rw [ticksSends, List.append_nil]
      exact hInv
  | cons ref rest ih =>
      simp only [ticksSends, ← List.append_assoc] at hFits ⊢
      exact ih (hInv.tick (fun _ => hSpares) hFits.left) (handle?_tick_none hSpares ref) hFits

theorem handle?_ticks_none (refs : List ActorRef) (hNone : s.handle? ref = none) :
    (s.ticks refs).handle? ref = none := by
  rw [handle?, List.getElem?_eq_none_iff] at hNone ⊢
  rwa [ticks_length]

theorem Resting.drain (rounds : Nat) (hInv : Resting log s) (hSpares : s.handle? external = none)
    {result : Nat × ActorSystem σ} (hDrain : s.drain rounds = some result)
    (hFits : CountersFit (log ++ s.drainSends rounds)) :
    Resting (log ++ s.drainSends rounds) result.2 := by
  induction rounds generalizing log s result with
  | zero =>
      obtain rfl := Option.some.inj hDrain
      rw [drainSends, List.append_nil]
      exact hInv
  | succ rounds ih =>
      simp only [ActorSystem.drain, Option.bind_eq_bind, Option.bind_eq_some_iff] at hDrain
      obtain ⟨⟨n, t⟩, hRound, hRest⟩ := hDrain
      have hTicks : t = s.ticks s.refs := tickAll_eq_ticks hRound
      simp only [drainSends, hRound, ← List.append_assoc] at hFits ⊢
      have hInv' : Resting (log ++ s.ticksSends s.refs) t := by
        rw [hTicks]
        exact hInv.ticks s.refs hSpares hFits.left
      split at hRest
      next hQuiet =>
        obtain rfl := Option.some.inj hRest
        rw [if_pos hQuiet, List.append_nil]
        exact hInv'
      next hBusy =>
        obtain ⟨⟨total, u⟩, hMore, hSame⟩ := Option.bind_eq_some_iff.mp hRest
        obtain rfl := Option.some.inj hSame
        rw [if_neg hBusy] at hFits ⊢
        have hSpares' : t.handle? external = none := hTicks ▸ handle?_ticks_none s.refs hSpares
        have hLast := ih hInv' hSpares' hMore hFits
        exact hLast

/-- A new actor starts to count at 0, and nobody has used its reference. -/
theorem Resting.makeHandleFor (hInv : Resting log s) (impl : σ) (vt : ActorVTable σ) (name : String) :
    Resting log (s.makeHandleFor impl vt name).2 := by
  have hCases : ∀ (i : Nat) h, (s.makeHandleFor impl vt name).2.actors[i]? = some h →
      s.actors[i]? = some h ∨ i = s.actors.length ∧ h =
        { impl, vt, channel := ChannelBuf.make s.channelCapacity,
          self := ⟨UInt32.ofNat s.actors.length⟩, name } := by
    intro i h hi
    simp only [ActorSystem.makeHandleFor, List.getElem?_append] at hi
    split at hi
    next => exact .inl hi
    next hBeyond =>
      obtain ⟨hIndex, hHandle⟩ := List.getElem?_eq_some_iff.mp hi
      simp only [List.length_singleton] at hIndex
      exact .inr ⟨by omega, by simpa using hHandle.symm⟩
  refine { hInv with present := ?_, handles := ?_, own := ?_, counted := ?_ }
  · intro sent hMem
    have hOld := hInv.present sent hMem
    simp only [ActorSystem.makeHandleFor, List.length_append, List.length_singleton]
    omega
  · intro i h hi
    rcases hCases i h hi with hOld | ⟨-, rfl⟩
    · exact hInv.handles i h hOld
    · exact Ordered.fresh rfl rfl rfl
  · intro ref h hi
    rcases hCases _ h hi with hOld | ⟨hIndex, rfl⟩
    · exact hInv.own ref h hOld
    · refine ActorRef.eq_of_index ?_
      simp only [← hIndex, UInt32.ofNat_toNat]
  · intro ref h hi
    rcases hCases _ h hi with hOld | ⟨hIndex, rfl⟩
    · exact hInv.counted ref h hOld
    · have hNone : sends log ref = 0 := by
        refine count_eq_zero ?_
        rintro sent hMem rfl
        exact absurd (hInv.present sent hMem) (by omega)
      rw [Counter, hNone]
      rfl

/-- An assignment that concerns neither the envelopes nor the counter of an actor. -/
theorem Resting.update (hInv : Resting log s) {f : ActorHandle σ → ActorHandle σ}
    (hSame : ∀ h, (f h).processed = h.processed ∧ (f h).channel = h.channel ∧
      (f h).dedup = h.dedup ∧ (f h).self = h.self ∧ (f h).nextSeq = h.nextSeq) :
    Resting log (s.update ref f) := by
  have hCases : ∀ (i : Nat) h', (s.update ref f).actors[i]? = some h' →
      ∃ h, s.actors[i]? = some h ∧ (h' = h ∨ h' = f h) := by
    intro i h' hi
    rcases actors_update_cases hi with ⟨rfl, h, hs, rfl⟩ | ⟨-, hBefore⟩
    · exact ⟨h, hs, .inr rfl⟩
    · exact ⟨h', hBefore, .inl rfl⟩
  refine { hInv with present := ?_, handles := ?_, own := ?_, counted := ?_ }
  · intro sent hMem
    simpa [ActorSystem.update] using hInv.present sent hMem
  · intro i h' hi
    obtain ⟨h, hs, rfl | rfl⟩ := hCases i h' hi
    · exact hInv.handles i h' hs
    · obtain ⟨hProcessed, hChannel, hDedup, -, -⟩ := hSame h
      refine (hInv.handles i h hs).sublist hDedup ?_
      simp only [ActorHandle.history, hProcessed, hChannel]
      exact List.Sublist.refl _
  · intro other h' hi
    obtain ⟨h, hs, rfl | rfl⟩ := hCases _ h' hi
    · exact hInv.own other h' hs
    · exact (hSame h).2.2.2.1.trans (hInv.own other h hs)
  · intro other h' hi
    obtain ⟨h, hs, rfl | rfl⟩ := hCases _ h' hi
    · exact hInv.counted other h' hs
    · rw [Counter, (hSame h).2.2.2.2]
      exact hInv.counted other h hs

/-- An injected envelope is the only one that its receiver takes from outside. -/
theorem Resting.inject (hInv : Resting log s) («to» : ActorRef) (payload : Bytes) :
    Resting log (s.inject «to» payload).2 := by
  have hDelivered : InOrder log (fun _ => []) (s.deliver (injected «to» payload)).2 := by
    refine hInv.toInOrder.deliver (.inl rfl) ?_
    intro h hTo key hKey hFrom hOther
    rcases (hInv.handles _ h hTo).known key hKey with hSame | ⟨sent, hMem, rfl⟩
    · exact absurd hSame hOther
    · exact absurd (ActorRef.eq_of_index hFrom) (hInv.internal sent hMem)
  refine { hDelivered with counted := ?_ }
  intro ref h' hAfter
  obtain ⟨h, hBefore, -, hNext⟩ := (deliver_counters s (injected «to» payload)).earlier hAfter
  rw [Counter, hNext]
  exact hInv.counted ref h hBefore

end ActorSystem

open ActorSystem

namespace Logged
variable {l l' : Logged σ} {call : Call σ}

/-- Every allowed call keeps the invariant, as long as the counters fit. -/
theorem step_resting (hInv : Resting l.log l.system) (hAllowed : l.Allowed call)
    (hStep : l.step call = some l') (hFits : CountersFit l'.log) : Resting l'.log l'.system := by
  obtain ⟨⟨hNoDeliver, hNoDrain⟩, hSpares⟩ := hAllowed
  obtain ⟨t, hCall, rfl⟩ := Option.map_eq_some_iff.mp hStep
  cases call with
  | deliver env => exact absurd ⟨env, rfl⟩ hNoDeliver
  | channelDrain ref => exact absurd ⟨ref, rfl⟩ hNoDrain
  | inject «to» payload =>
      obtain rfl := Option.some.inj hCall
      simp only [stepSends, List.append_nil]
      exact hInv.inject «to» payload
  | spawn name impl vt =>
      obtain rfl := Option.some.inj hCall
      simp only [stepSends, List.append_nil]
      exact hInv.makeHandleFor impl vt name
  | cloneSpawn proto name =>
      obtain rfl := Option.some.inj hCall
      simp only [stepSends, List.append_nil, cloneSpawn]
      split
      next => exact hInv
      next => exact hInv.makeHandleFor _ _ _
  | setLifecycle ref lc =>
      obtain rfl := Option.some.inj hCall
      simp only [stepSends, List.append_nil]
      exact hInv.update fun h => ⟨rfl, rfl, rfl, rfl, rfl⟩
  | setCluster ref cid =>
      obtain rfl := Option.some.inj hCall
      simp only [stepSends, List.append_nil]
      exact hInv.update fun h => ⟨rfl, rfl, rfl, rfl, rfl⟩
  | tick ref =>
      obtain rfl := Option.some.inj hCall
      exact hInv.tick hSpares hFits
  | tickAll =>
      obtain ⟨result, hRun, rfl⟩ := Option.map_eq_some_iff.mp hCall
      simp only [tickAll_eq_ticks hRun]
      exact hInv.ticks _ hSpares hFits
  | drain maxRounds =>
      obtain ⟨result, hRun, rfl⟩ := Option.map_eq_some_iff.mp hCall
      exact hInv.drain maxRounds hSpares hRun hFits

/-- The invariant of a state between calls has all that is asked of it. -/
theorem inOrder_of_resting (hInv : Resting l.log l.system) (hFits : CountersFit l.log) :
    SendsInOrder l where
  unique := by
    refine List.pairwise_map.mpr ((hInv.numbered.increasing hFits).imp ?_)
    intro a b hLess hSame
    obtain ⟨hFrom, hSeq⟩ := DedupSet.Key.mk.inj hSame
    have hNumber := hLess (ActorRef.eq_of_index hFrom)
    exact absurd (congrArg UInt64.toNat hSeq) hNumber.ne
  accepted := hInv.accepted
  ordered h hMem := by
    obtain ⟨i, hi⟩ := List.mem_iff_getElem?.mp hMem
    have hPast := (hInv.handles i h hi).increasing
    simp only [ActorHandle.history, List.append_nil] at hPast
    exact (List.pairwise_append.mp hPast).1

end Logged

/-- As long as no actor sends more than 2^64 times, and an actor that has the index of the
external sender is not ticked, every run numbers its sends in order. -/
theorem sends_in_order {capacity : Nat} {l : Logged σ}
    (run : Transition.RunsWhere Logged.Allowed Logged.step ⟨[], { channelCapacity := capacity }⟩ l)
    (hFits : CountersFit l.log) : SendsInOrder l := by
  have hStart : @Resting σ [] { channelCapacity := capacity } :=
    { numbered := .nil
      internal := by simp
      present := by simp
      accepted := by simp
      handles := by simp
      own := by simp [handle?]
      counted := by simp [handle?] }
  have hInv : CountersFit l.log → Resting l.log l.system := by
    refine @Transition.RunsWhere.preserves _ _ Logged.Allowed Logged.step _ l
      (fun l => CountersFit l.log → Resting l.log l.system) ?_ run (fun _ => hStart)
    intro before call after hBefore hAllowed hStep hFits
    obtain ⟨t, hCall, hSame⟩ := Option.map_eq_some_iff.mp hStep
    have hPrior : CountersFit before.log := by
      rw [← hSame] at hFits
      exact hFits.left
    exact Logged.step_resting (hBefore hPrior) hAllowed hStep hFits
  exact Logged.inOrder_of_resting (hInv hFits) hFits

/-! Actors that send to the first of them: one actor, and so many that the last one has
the index of the external sender. -/
namespace Collision

/-- An actor that sends an empty payload to the first actor. -/
def forward : ActorVTable Unit := ⟨fun _ _ _ _ => .send ⟨0⟩ [] fun _ => .done (), id⟩

def member (i : Nat) : ActorHandle Unit :=
  { impl := (), vt := forward, channel := ChannelBuf.make 2, self := ⟨UInt32.ofNat i⟩, name := "" }

def crowd (n : Nat) : ActorSystem Unit :=
  { actors := (List.range n).map member, channelCapacity := 2 }

def start : Logged Unit := ⟨[], { channelCapacity := 2 }⟩

theorem crowd_spawn (n : Nat) : ((crowd n).spawn "" () forward).2 = crowd (n + 1) := by
  simp [crowd, spawn, makeHandleFor, List.range_succ, member]

theorem crowd_handle {n : Nat} {ref : ActorRef} (h : ref.index.toNat < n) :
    (crowd n).handle? ref = some (member ref.index.toNat) := by
  simp [handle?, crowd, h]

/-- Spawning is allowed under any restriction on the calls that lets it through. -/
theorem crowd_reachable {allowed : Logged Unit → Call Unit → Prop}
    (hSpawn : ∀ l, allowed l (.spawn "" () forward)) (n : Nat) :
    Transition.RunsWhere allowed Logged.step start ⟨[], crowd n⟩ := by
  induction n with
  | zero => exact .refl
  | succ n ih =>
      refine ih.tail _ (hSpawn _) ?_
      simp [Logged.step, ActorSystem.step, stepSends, crowd_spawn]

theorem crowd_sends_in_order : ∃ l : Logged Unit, l.log.length = 2 ∧ SendsInOrder l := by
  have one : Transition.RunsWhere Logged.Allowed Logged.step start ⟨[], crowd 1⟩ :=
    crowd_reachable (fun _ => by simp [Logged.Allowed, Call.Ordinary, SparesExternal]) 1
  have two := ((one.tail (.inject ⟨0⟩ []) (by simp [Logged.Allowed, Call.Ordinary, SparesExternal])
    rfl).tail (.tick ⟨0⟩) (by simp [Logged.Allowed, Call.Ordinary, SparesExternal]; decide) rfl).tail
    (.tick ⟨0⟩) (by simp [Logged.Allowed, Call.Ordinary, SparesExternal]; decide) rfl
  refine ⟨_, rfl, sends_in_order two ?_⟩
  intro ref
  exact List.countP_le_length.trans (by decide)

/-- The first actor and the one with the index of the external sender are injected. -/
def injectedBoth (s : ActorSystem Unit) : ActorSystem Unit :=
  ((s.inject ⟨0⟩ []).2.inject external []).2

/-- What an injection makes of a fresh member. -/
def woken (i : Nat) («to» : ActorRef) : ActorHandle Unit := ((member i).accept (injected «to» [])).2

theorem inject_member {s : ActorSystem Unit} {«to» : ActorRef} {i : Nat}
    (hTo : s.handle? «to» = some (member i)) :
    (s.inject «to» []).2 = s.update «to» fun _ => woken i «to» := by
  have hDelivered := @deliver_of_handle Unit s (injected «to» []) (member i) hTo
  exact congrArg Prod.snd hDelivered

variable {s : ActorSystem Unit} {i : Nat}

theorem injectedBoth_handles (hFirst : s.handle? ⟨0⟩ = some (member 0))
    (hExternal : s.handle? external = some (member i)) :
    (injectedBoth s).handle? ⟨0⟩ = some (woken 0 ⟨0⟩) ∧
      (injectedBoth s).handle? external = some (woken i external) := by
  have hOther : (⟨0⟩ : ActorRef) ≠ external := by decide
  have hStill : (s.inject ⟨0⟩ []).2.handle? external = some (member i) := by
    rw [inject_member hFirst, handle?_update_other hOther.symm, hExternal]
  rw [injectedBoth, inject_member hStill, handle?_update_other hOther, handle?_update_self, hStill,
    inject_member hFirst, handle?_update_self, hFirst]
  exact ⟨rfl, rfl⟩

/-- The first send of the second actor is taken for the injection that the first one had. -/
theorem first_send_refused (hFirst : s.handle? ⟨0⟩ = some (member 0))
    (hExternal : s.handle? external = some (member i)) (hSelf : UInt32.ofNat i = external.index) :
    ∃ sent, (injectedBoth s).tickSends external = [sent] ∧
      ∃ h, sent.receiver = some h ∧ h.Ready ∧ sent.accepted = false := by
  obtain ⟨hZero, hSender⟩ := injectedBoth_handles hFirst hExternal
  have hOther : (⟨0⟩ : ActorRef) ≠ external := by decide
  have hAwake : (woken i external).lifecycle = .active := rfl
  have hQueue : (woken i external).channel.queue = [injected external []] := rfl
  have hSends := (tick_eq hSender (by simp [hAwake]) (by simp [hQueue])).2
  set pulled := (injectedBoth s).update external fun h' =>
    { h' with channel := (woken i external).channel.clear }
  have hPulled : pulled.handle? external =
      some { woken i external with channel := (woken i external).channel.clear } := by
    rw [handle?_update_self, hSender]
    rfl
  set entered := pulled.update external fun h =>
    { h with processed := h.processed ++ [(injected external [], h.lifecycle)] } with hEntered
  have hReceiver : entered.handle? ⟨0⟩ = some (woken 0 ⟨0⟩) := by
    rw [handle?_update_other hOther, handle?_update_other hOther, hZero]
  set ctx : ActorContext := ⟨(woken i external).self, (woken i external).cluster, 0⟩
  have hLogged : (injectedBoth s).tickSends external =
      [⟨outgoing ctx ⟨0⟩ [], entered.handle? ⟨0⟩, (entered.send ctx ⟨0⟩ []).1⟩] := by
    rw [hSends]
    change pulled.receiveSends external ctx (injected external []) ++ [] = _
    rw [List.append_nil, receiveSends, hPulled]
    rfl
  have hEnvelope : outgoing ctx ⟨0⟩ [] = injected ⟨0⟩ [] := by
    have hIndex : (woken i external).self = external := congrArg ActorRef.mk hSelf
    simp only [outgoing, injected, ctx, hIndex]
  have hRefused : (entered.send ctx ⟨0⟩ []).1 = false := by
    have hFalse : (entered.deliver (outgoing ctx ⟨0⟩ [])).1 = false := by
      rw [hEnvelope]
      exact (@deliver_false_iff Unit entered (injected ⟨0⟩ []) _ hReceiver).mpr (.inr (by decide))
    exact hFalse
  exact ⟨_, hLogged, woken 0 ⟨0⟩, hReceiver, ⟨rfl, by decide⟩, hRefused⟩

theorem injectedBoth_run
    (run : Transition.RunsWhere (fun _ call => call.Ordinary) Logged.step start ⟨[], s⟩) :
    Transition.RunsWhere (fun _ call => call.Ordinary) Logged.step start
      ⟨(injectedBoth s).tickSends external, ((injectedBoth s).tick external).2⟩ :=
  ((run.tail (.inject ⟨0⟩ []) (by simp [Call.Ordinary]) rfl).tail (.inject external [])
    (by simp [Call.Ordinary]) rfl).tail (.tick external) (by simp [Call.Ordinary]) rfl

end Collision

open Collision

/-- With 2^32 - 1 actors the last one has the index of the external sender. -/
theorem sends_in_order_fails : ¬∀ l : Logged Unit,
    Transition.RunsWhere (fun _ call => call.Ordinary) Logged.step ⟨[], { channelCapacity := 2 }⟩ l →
      CountersFit l.log → SendsInOrder l := by
  intro hAll
  obtain ⟨s, hCrowd, hFirst, hExternal⟩ : ∃ s : ActorSystem Unit,
      Transition.RunsWhere (fun _ call => call.Ordinary) Logged.step start ⟨[], s⟩ ∧
        s.handle? ⟨0⟩ = some (member 0) ∧ s.handle? external = some (member 4294967294) :=
    ⟨crowd 4294967295, crowd_reachable (fun _ => by simp [Call.Ordinary]) _,
      crowd_handle (by decide), crowd_handle (by decide)⟩
  obtain ⟨sent, hSends, h, hReceiver, hReady, hRefused⟩ := first_send_refused hFirst hExternal rfl
  have hFits : CountersFit ((injectedBoth s).tickSends external) := by
    intro ref
    rw [hSends]
    exact List.countP_le_length.trans (by simp)
  have hMem : sent ∈ (injectedBoth s).tickSends external := by
    rw [hSends]
    exact List.mem_singleton_self sent
  have hAccepted := (hAll _ (injectedBoth_run hCrowd) hFits).accepted sent hMem h hReceiver hReady
  exact Bool.false_ne_true (hRefused.symm.trans hAccepted)

end CelerMem.Necto
