import CelerMem.Necto.Injection
import CelerMem.Necto.SendLog

/-! Sequence numbers over whole runs. The invariant ties the counter of every actor to
the log of sends, and what an actor remembers to that log and to the one injected
envelope it can have taken; while an actor is ticked, its counter is in the context. -/
namespace CelerMem.Necto
open Numbering
variable {σ : Type}

/-- How often an actor has sent. -/
abbrev sends (log : List (Sent σ)) (ref : ActorRef) : Nat := count Sent.sender log ref

/-- No sequence number has wrapped around. -/
def CountersFit (log : List (Sent σ)) : Prop := ∀ ref, sends log ref ≤ 2 ^ 64

theorem CountersFit.left {log more : List (Sent σ)} (hFits : CountersFit (log ++ more)) :
    CountersFit log :=
  fun ref => (count_le_append log more ref).trans (hFits ref)

/-- What the duplicate filter remembers of an injected envelope. -/
def externalKey : DedupSet.Key := ⟨ActorSystem.external.index, 0⟩

theorem ActorRef.eq_of_index {a b : ActorRef} (h : a.index = b.index) : a = b := by
  cases a
  cases b
  exact congrArg ActorRef.mk h

/-! ### One actor -/

/-- What was processed, then what was pulled, then what is pending. -/
def ActorHandle.history (h : ActorHandle σ) (hand : List Envelope) : List Envelope :=
  h.processed.map Prod.fst ++ hand ++ h.channel.queue

structure Ordered (log : List (Sent σ)) (hand : List Envelope) (h : ActorHandle σ) : Prop where
  remembered : ∀ env ∈ h.history hand, env.key ∈ h.dedup.seen
  increasing : (h.history hand).Pairwise fun a b => a.from = b.from → a.seq < b.seq
  known : ∀ key ∈ h.dedup.seen, key = externalKey ∨ ∃ sent ∈ log, sent.envelope.key = key

namespace Ordered
variable {log more : List (Sent σ)} {hand rest : List Envelope} {h : ActorHandle σ}
variable {env msg : Envelope}

theorem fresh (hQueue : h.channel.queue = []) (hProcessed : h.processed = [])
    (hSeen : h.dedup.seen = ∅) : Ordered log [] h where
  remembered := by simp [ActorHandle.history, hQueue, hProcessed]
  increasing := by simp [ActorHandle.history, hQueue, hProcessed]
  known := by simp [hSeen]

theorem append (hInv : Ordered log hand h) (more : List (Sent σ)) : Ordered (log ++ more) hand h where
  remembered := hInv.remembered
  increasing := hInv.increasing
  known key hKey := by
    refine (hInv.known key hKey).imp_right ?_
    rintro ⟨sent, hMem, hSame⟩
    exact ⟨sent, List.mem_append_left _ hMem, hSame⟩

/-- Less of the history. -/
theorem sublist {h' : ActorHandle σ} (hInv : Ordered log hand h) (hSeen : h'.dedup = h.dedup)
    (hLess : (h'.history rest).Sublist (h.history hand)) : Ordered log rest h' where
  remembered env hMem := by
    rw [hSeen]
    exact hInv.remembered env (hLess.subset hMem)
  increasing := hInv.increasing.sublist hLess
  known key hKey := hInv.known key (hSeen ▸ hKey)

/-- A logged or injected envelope, numbered higher than what the actor remembers of its
sender. -/
theorem accept (hInv : Ordered log hand h)
    (hKnown : env.key = externalKey ∨ ∃ sent ∈ log, sent.envelope.key = env.key)
    (hLater : ∀ key ∈ h.dedup.seen, key.from = env.from.index → key ≠ env.key → key.seq < env.seq) :
    Ordered log hand (h.accept env).2 := by
  have hKnown' : ∀ key ∈ insert env.key h.dedup.seen,
      key = externalKey ∨ ∃ sent ∈ log, sent.envelope.key = key := by
    intro key hKey
    rcases Finset.mem_insert.mp hKey with rfl | hOld
    · exact hKnown
    · exact hInv.known key hOld
  rcases h.accept_cases env with hSame | ⟨-, hRemember⟩ | ⟨-, hNew, hRoom, hTake⟩
  · rw [hSame]
    exact hInv
  · rw [hRemember]
    exact ⟨fun e he => Finset.mem_insert_of_mem (hInv.remembered e he), hInv.increasing, hKnown'⟩
  · rw [hTake]
    have hQueue := (ChannelBuf.push_of_room env hRoom).2.1
    have hHistory : h.processed.map Prod.fst ++ hand ++ (h.channel.push env).2.queue =
        h.history hand ++ [env] := by
      simp only [hQueue, ActorHandle.history, List.append_assoc]
    refine ⟨?_, ?_, hKnown'⟩
    · intro e he
      simp only [ActorHandle.history, hHistory] at he
      rcases List.mem_append.mp he with hOld | hLast
      · exact Finset.mem_insert_of_mem (hInv.remembered e hOld)
      · rw [List.mem_singleton.mp hLast]
        exact Finset.mem_insert_self _ _
    · simp only [ActorHandle.history, hHistory]
      refine List.pairwise_append.mpr ⟨hInv.increasing, List.pairwise_singleton _ _, ?_⟩
      intro e he last hLast hSender
      obtain rfl := List.mem_singleton.mp hLast
      have hSeen := hInv.remembered e he
      exact hLater e.key hSeen (congrArg ActorRef.index hSender) fun hSame => hNew (hSame ▸ hSeen)

/-- Pulling moves pending envelopes to the hand; those beyond the 32-bit length are lost. -/
theorem pull (hInv : Ordered log [] h) (n : Nat) :
    Ordered log (h.channel.queue.take n) { h with channel := h.channel.clear } := by
  refine hInv.sublist rfl ?_
  simp only [ActorHandle.history, ChannelBuf.clear_queue, List.append_nil]
  exact (List.Sublist.refl _).append (List.take_sublist n _)

theorem enter (hInv : Ordered log (msg :: rest) h) :
    Ordered log rest { h with processed := h.processed ++ [(msg, h.lifecycle)] } := by
  refine hInv.sublist rfl ?_
  simp [ActorHandle.history]

end Ordered

namespace ActorSystem
variable {log more : List (Sent σ)} {hands : Nat → List Envelope} {hand rest : List Envelope}
variable {s t : ActorSystem σ} {ref : ActorRef} {ctx : ActorContext} {env msg : Envelope}

/-! ### The system between two deliveries -/

structure InOrder (log : List (Sent σ)) (hands : Nat → List Envelope) (s : ActorSystem σ) : Prop where
  numbered : Numbered (2 ^ 64) Sent.sender Sent.number log
  internal : ∀ sent ∈ log, sent.sender ≠ external
  present : ∀ sent ∈ log, sent.sender.index.toNat < s.actors.length
  accepted : ∀ sent ∈ log, ∀ h, sent.receiver = some h → h.Ready → sent.accepted = true
  handles : ∀ (i : Nat) h, s.actors[i]? = some h → Ordered log (hands i) h
  own : ∀ ref h, s.handle? ref = some h → h.self = ref

/-- The counter of an actor that has sent what is in the log. -/
def Counter (log : List (Sent σ)) (ref : ActorRef) (nextSeq : UInt64) : Prop :=
  nextSeq.toNat = sends log ref % 2 ^ 64

/-- No actor is being ticked. -/
structure Resting (log : List (Sent σ)) (s : ActorSystem σ) : Prop
    extends InOrder log (fun _ => []) s where
  counted : ∀ ref h, s.handle? ref = some h → Counter log ref h.nextSeq

/-- One actor is being ticked. -/
structure Ticking (log : List (Sent σ)) (ref : ActorRef) (hand : List Envelope) (ctx : ActorContext)
    (s : ActorSystem σ) : Prop extends InOrder log (inHand ref hand) s where
  running : ctx.self = ref
  counter : Counter log ref ctx.nextSeq
  others : ∀ other h, other ≠ ref → s.handle? other = some h → Counter log other h.nextSeq
  there : ref.index.toNat < s.actors.length
  notExternal : ref ≠ external

/-- Deliveries leave the counters alone. -/
def SameCounter (h h' : ActorHandle σ) : Prop := h'.self = h.self ∧ h'.nextSeq = h.nextSeq

theorem SameCounter.refl (h : ActorHandle σ) : SameCounter h h := ⟨rfl, rfl⟩

theorem SameCounter.accept (h : ActorHandle σ) (env : Envelope) : SameCounter h (h.accept env).2 := by
  rcases h.accept_cases env with hSame | ⟨-, hRemember⟩ | ⟨-, -, -, hTake⟩
  · rw [hSame]
    exact refl h
  · rw [hRemember]
    exact ⟨rfl, rfl⟩
  · rw [hTake]
    exact ⟨rfl, rfl⟩

theorem deliver_counters (s : ActorSystem σ) (env : Envelope) :
    Evolves SameCounter s (s.deliver env).2 :=
  Evolves.deliver SameCounter.refl SameCounter.accept s env

theorem InOrder.deliver (hInv : InOrder log hands s)
    (hKnown : env.key = externalKey ∨ ∃ sent ∈ log, sent.envelope.key = env.key)
    (hLater : ∀ h, s.handle? env.to = some h → ∀ key ∈ h.dedup.seen, key.from = env.from.index →
      key ≠ env.key → key.seq < env.seq) : InOrder log hands (s.deliver env).2 := by
  cases hTo : s.handle? env.to with
  | none =>
      simp only [ActorSystem.deliver, hTo]
      exact hInv
  | some h =>
      rw [deliver_of_handle hTo]
      refine { hInv with present := ?_, handles := ?_, own := ?_ }
      · intro sent hMem
        simpa [update] using hInv.present sent hMem
      · intro i h' hi
        rcases actors_update_cases hi with ⟨rfl, -, -, rfl⟩ | ⟨-, hSame⟩
        · exact (hInv.handles _ h hTo).accept hKnown (hLater h hTo)
        · exact hInv.handles i h' hSame
      · intro ref h' hAfter
        rw [← deliver_of_handle hTo] at hAfter
        obtain ⟨h, hBefore, hSame⟩ := (deliver_counters s env).earlier hAfter
        exact hSame.1.trans (hInv.own ref h hBefore)

/-- The log grows by a send that is numbered and answered as it should be. -/
theorem InOrder.snoc (hInv : InOrder log hands s) {sent : Sent σ}
    (hNumber : sent.number = sends log sent.sender % 2 ^ 64) (hInternal : sent.sender ≠ external)
    (hPresent : sent.sender.index.toNat < s.actors.length)
    (hAccepted : ∀ h, sent.receiver = some h → h.Ready → sent.accepted = true) :
    InOrder (log ++ [sent]) hands s where
  numbered := hInv.numbered.snoc hNumber
  internal := by
    intro other hMem
    rcases List.mem_append.mp hMem with hOld | hNew
    · exact hInv.internal other hOld
    · rwa [List.mem_singleton.mp hNew]
  present := by
    intro other hMem
    rcases List.mem_append.mp hMem with hOld | hNew
    · exact hInv.present other hOld
    · rwa [List.mem_singleton.mp hNew]
  accepted := by
    intro other hMem
    rcases List.mem_append.mp hMem with hOld | hNew
    · exact hInv.accepted other hOld
    · rwa [List.mem_singleton.mp hNew]
  handles i h hi := (hInv.handles i h hi).append _
  own := hInv.own

/-! ### A tick -/

/-- What was delivered by the actor that is ticked carries a smaller number than its next send. -/
theorem Ticking.earlier (hInv : Ticking log ref hand ctx s) (hFits : sends log ref < 2 ^ 64)
    {h : ActorHandle σ} {other : ActorRef} (hOther : s.handle? other = some h) {key : DedupSet.Key}
    (hKey : key ∈ h.dedup.seen) (hFrom : key.from = ref.index) : key.seq < ctx.nextSeq := by
  rcases (hInv.handles _ h hOther).known key hKey with rfl | ⟨sent, hMem, rfl⟩
  · exact absurd (ActorRef.eq_of_index hFrom.symm) hInv.notExternal
  · have hLess := hInv.numbered.number_lt hFits.le hMem (ActorRef.eq_of_index hFrom)
    rw [UInt64.lt_iff_toNat_lt, hInv.counter, Nat.mod_eq_of_lt hFits]
    exact hLess

theorem Ticking.send (hInv : Ticking log ref hand ctx s) (hFits : sends log ref < 2 ^ 64)
    («to» : ActorRef) (payload : Bytes) :
    Ticking (log ++ [⟨outgoing ctx «to» payload, s.handle? «to», (s.send ctx «to» payload).1⟩])
      ref hand (s.send ctx «to» payload).2.1 (s.send ctx «to» payload).2.2 := by
  have hSelf : ctx.self = ref := hInv.running
  set env := outgoing ctx «to» payload with hEnv
  set sent : Sent σ := ⟨env, s.handle? «to», (s.send ctx «to» payload).1⟩
  have hSender : sent.sender = ref := hSelf
  have hEarlier : ∀ h, s.handle? env.to = some h → ∀ key ∈ h.dedup.seen,
      key.from = env.from.index → key.seq < env.seq := by
    intro h hTo key hKey hFrom
    exact hInv.earlier hFits hTo hKey (hFrom.trans (congrArg ActorRef.index hSelf))
  have hAccepted : ∀ h, sent.receiver = some h → h.Ready → sent.accepted = true := by
    intro h hTo hReady
    have hNew : env.key ∉ h.dedup.seen :=
      fun hKey => absurd (hEarlier h hTo env.key hKey rfl) (UInt64.lt_irrefl _)
    exact (@deliver_of_ready σ s env h hTo hReady hNew).1
  have hLogged : InOrder (log ++ [sent]) (inHand ref hand) s := by
    refine hInv.toInOrder.snoc ?_ ?_ ?_ hAccepted
    · rw [hSender]
      exact hInv.counter
    · rw [hSender]
      exact hInv.notExternal
    · rw [hSender]
      exact hInv.there
  have hEvolves : Evolves SameCounter s (s.send ctx «to» payload).2.2 := deliver_counters s env
  have hAfter : InOrder (log ++ [sent]) (inHand ref hand) (s.send ctx «to» payload).2.2 := by
    refine hLogged.deliver (.inr ⟨sent, List.mem_append_right _ (List.mem_singleton_self _), rfl⟩) ?_
    exact fun h hTo key hKey hFrom _ => hEarlier h hTo key hKey hFrom
  refine { hAfter with
    running := hSelf
    counter := ?_
    others := ?_
    there := ?_
    notExternal := hInv.notExternal }
  · have hNext : (ctx.nextSeq + 1).toNat = sends (log ++ [sent]) ref % 2 ^ 64 := by
      rw [UInt64.toNat_add, UInt64.toNat_one, hInv.counter, Nat.mod_add_mod, sends, sends,
        count_append, count_singleton_self hSender]
    exact hNext
  · intro other h' hOther hLater
    obtain ⟨h, hBefore, hSame⟩ := hEvolves.earlier hLater
    rw [Counter, hSame.2, hInv.others other h hOther hBefore, sends, sends, count_append,
      count_singleton_other (hSender.trans_ne hOther.symm), Nat.add_zero]
  · rw [hEvolves.length]
    exact hInv.there

theorem Ticking.runScript (script : Script σ) (hInv : Ticking log ref hand ctx s)
    (hFits : sends (log ++ s.scriptSends ctx script) ref ≤ 2 ^ 64) :
    Ticking (log ++ s.scriptSends ctx script) ref hand (s.runScript ctx script).2.1
      (s.runScript ctx script).2.2 := by
  induction script generalizing log ctx s with
  | done impl =>
      rw [scriptSends, List.append_nil]
      exact hInv
  | send «to» payload next ih =>
      rw [scriptSends, List.append_cons] at hFits ⊢
      refine ih _ (hInv.send ?_ «to» payload) hFits
      have hOne := (count_le_append _ _ ref).trans hFits
      have hSender : Sent.sender (⟨outgoing ctx «to» payload, s.handle? «to»,
          (s.send ctx «to» payload).1⟩ : Sent σ) = ref := hInv.running
      rw [count_append, count_singleton_self hSender] at hOne
      exact hOne

/-- An assignment to the actor that is ticked, other than to its counter. -/
theorem Ticking.update (hInv : Ticking log ref hand ctx s) {f : ActorHandle σ → ActorHandle σ}
    (hMove : ∀ h, s.handle? ref = some h → Ordered log hand h →
      Ordered log rest (f h) ∧ (f h).self = h.self) :
    Ticking log ref rest ctx (s.update ref f) where
  numbered := hInv.numbered
  internal := hInv.internal
  present sent hMem := by simpa [ActorSystem.update] using hInv.present sent hMem
  accepted := hInv.accepted
  handles i h' hi := by
    rcases actors_update_cases hi with ⟨rfl, h, hs, rfl⟩ | ⟨hIndex, hSame⟩
    · have hHand := hInv.handles _ h hs
      rw [inHand, if_pos rfl] at hHand ⊢
      exact (hMove h hs hHand).1
    · have hHand := hInv.handles i h' hSame
      rw [inHand, if_neg hIndex] at hHand ⊢
      exact hHand
  own other h' hAfter := by
    by_cases hOther : other = ref
    · subst hOther
      rw [handle?_update_self] at hAfter
      obtain ⟨h, hBefore, rfl⟩ := Option.map_eq_some_iff.mp hAfter
      have hHand := hInv.handles _ h hBefore
      rw [inHand, if_pos rfl] at hHand
      exact (hMove h hBefore hHand).2.trans (hInv.own other h hBefore)
    · rw [handle?_update_other hOther] at hAfter
      exact hInv.own other h' hAfter
  running := hInv.running
  counter := hInv.counter
  others other h hOther hAfter := by
    rw [handle?_update_other hOther] at hAfter
    exact hInv.others other h hOther hAfter
  there := by simpa [ActorSystem.update] using hInv.there
  notExternal := hInv.notExternal

theorem Ticking.receive (hInv : Ticking log ref (msg :: rest) ctx s)
    (hFits : sends (log ++ s.receiveSends ref ctx msg) ref ≤ 2 ^ 64) :
    Ticking (log ++ s.receiveSends ref ctx msg) ref rest (s.receive ref ctx msg).1
      (s.receive ref ctx msg).2 := by
  obtain ⟨h, hRef⟩ : ∃ h, s.handle? ref = some h := ⟨_, List.getElem?_eq_getElem hInv.there⟩
  simp only [ActorSystem.receive, receiveSends, hRef] at hFits ⊢
  exact ((hInv.update fun h _ hHand => ⟨hHand.enter, rfl⟩).runScript _ hFits).update
    fun h _ hHand => ⟨hHand.sublist rfl (List.Sublist.refl _), rfl⟩

theorem Ticking.receiveAll (hInv : Ticking log ref hand ctx s)
    (hFits : sends (log ++ s.receiveAllSends ref ctx hand) ref ≤ 2 ^ 64) :
    Ticking (log ++ s.receiveAllSends ref ctx hand) ref [] (s.receiveAll ref ctx hand).1
      (s.receiveAll ref ctx hand).2 := by
  induction hand generalizing log ctx s with
  | nil =>
      rw [receiveAllSends, List.append_nil]
      exact hInv
  | cons msg rest ih =>
      simp only [receiveAllSends, ← List.append_assoc] at hFits ⊢
      exact ih (hInv.receive ((count_le_append _ _ ref).trans hFits)) hFits

/-- An actor starts to be ticked with what it pulls, and its counter in the context. -/
theorem Resting.start (hInv : Resting log s) (hExternal : ref ≠ external) {h : ActorHandle σ}
    (hRef : s.handle? ref = some h) (n : Nat) :
    Ticking log ref (h.channel.queue.take n) ⟨h.self, h.cluster, h.nextSeq⟩
      (s.update ref fun h' => { h' with channel := h.channel.clear }) := by
  have hTicking : Ticking log ref [] ⟨h.self, h.cluster, h.nextSeq⟩ s := by
    refine { hInv.toInOrder with
      handles := ?_
      running := hInv.own ref h hRef
      counter := hInv.counted ref h hRef
      others := fun other h' _ => hInv.counted other h'
      there := (List.getElem?_eq_some_iff.mp hRef).1
      notExternal := hExternal }
    intro i h' hi
    rw [inHand, ite_self]
    exact hInv.handles i h' hi
  refine hTicking.update ?_
  intro h' hRef' hHand
  obtain rfl := Option.some.inj (hRef.symm.trans hRef')
  exact ⟨hHand.pull n, rfl⟩

/-- At the end the counter is written back. -/
theorem Ticking.finish (hInv : Ticking log ref [] ctx s) :
    Resting log (s.update ref fun h => { h with nextSeq := ctx.nextSeq }) := by
  have hWritten : Ticking log ref [] ctx (s.update ref fun h => { h with nextSeq := ctx.nextSeq }) :=
    hInv.update fun h _ hHand => ⟨hHand.sublist rfl (List.Sublist.refl _), rfl⟩
  refine { hWritten.toInOrder with handles := ?_, counted := ?_ }
  · intro i h hi
    have hHand := hWritten.handles i h hi
    rwa [inHand, ite_self] at hHand
  · intro other h' hAfter
    by_cases hOther : other = ref
    · subst hOther
      rw [handle?_update_self] at hAfter
      obtain ⟨h, hBefore, rfl⟩ := Option.map_eq_some_iff.mp hAfter
      exact hInv.counter
    · exact hWritten.others other h' hOther hAfter

theorem Resting.tick (hInv : Resting log s) (hSpares : ref = external → s.handle? external = none)
    (hFits : CountersFit (log ++ s.tickSends ref)) :
    Resting (log ++ s.tickSends ref) (s.tick ref).2 := by
  by_cases hIdle : ∀ h, s.handle? ref = some h → h.lifecycle = .dormant ∨ h.channel.queue = []
  · rw [tick_of_idle hIdle, tickSends_of_idle hIdle, List.append_nil]
    exact hInv
  simp only [not_forall, not_or] at hIdle
  obtain ⟨h, hRef, hAwake, hPending⟩ := hIdle
  have hExternal : ref ≠ external := by
    intro hSame
    have hNone := hSpares hSame
    rw [← hSame, hRef] at hNone
    cases hNone
  obtain ⟨hTick, hSends⟩ := tick_eq hRef hAwake hPending
  rw [hSends] at hFits ⊢
  rw [hTick]
  exact ((hInv.start hExternal hRef _).receiveAll (hFits ref)).finish

end ActorSystem
end CelerMem.Necto
