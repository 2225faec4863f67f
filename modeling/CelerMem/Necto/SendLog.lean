import CelerMem.Library.Numbering
import CelerMem.Necto.Backpressure

/-! A log of what actors send. The functions here follow those of the system call by
call and collect the calls of `send`; the states are those of the system itself. -/
namespace CelerMem.Necto
variable {σ : Type}

/-- A call of `send`: what it put together, the handle it was for, what it returned. -/
structure Sent (σ : Type) where
  envelope : Envelope
  receiver : Option (ActorHandle σ)
  accepted : Bool

namespace Sent

def sender (sent : Sent σ) : ActorRef := sent.envelope.from

def number (sent : Sent σ) : Nat := sent.envelope.seq.toNat

end Sent

namespace ActorSystem

/-- What `send` puts together. -/
def outgoing (ctx : ActorContext) («to» : ActorRef) (payload : Bytes) : Envelope :=
  { seq := ctx.nextSeq, «from» := ctx.self, «to», payload }

/-- The sends of one call of `on_receive`. -/
def scriptSends (s : ActorSystem σ) (ctx : ActorContext) : Script σ → List (Sent σ)
  | .done _ => []
  | .send «to» payload next =>
      let sent := s.send ctx «to» payload
      ⟨outgoing ctx «to» payload, s.handle? «to», sent.1⟩ ::
        scriptSends sent.2.2 sent.2.1 (next sent.1)

def receiveSends (s : ActorSystem σ) (ref : ActorRef) (ctx : ActorContext) (msg : Envelope) :
    List (Sent σ) :=
  match s.handle? ref with
  | none => []
  | some h =>
      let entered := s.update ref fun h => { h with processed := h.processed ++ [(msg, h.lifecycle)] }
      entered.scriptSends ctx (h.vt.onReceive h.impl msg ctx.self ctx.cluster)

def receiveAllSends (s : ActorSystem σ) (ref : ActorRef) (ctx : ActorContext) :
    List Envelope → List (Sent σ)
  | [] => []
  | msg :: rest =>
      let received := s.receive ref ctx msg
      s.receiveSends ref ctx msg ++ receiveAllSends received.2 ref received.1 rest

def tickSends (s : ActorSystem σ) (ref : ActorRef) : List (Sent σ) :=
  match s.handle? ref with
  | none => []
  | some h =>
      if h.lifecycle = .dormant then []
      else
        let pulled := h.channel.pull
        let s := s.update ref fun h => { h with channel := pulled.2 }
        match pulled.1 with
        | none => []
        | some chunk =>
            if chunk.empty then []
            else s.receiveAllSends ref ⟨h.self, h.cluster, h.nextSeq⟩ chunk.toList

/-- Ticks one after another. -/
def ticks (s : ActorSystem σ) : List ActorRef → ActorSystem σ
  | [] => s
  | ref :: rest => ticks (s.tick ref).2 rest

def ticksSends (s : ActorSystem σ) : List ActorRef → List (Sent σ)
  | [] => []
  | ref :: rest => s.tickSends ref ++ ticksSends (s.tick ref).2 rest

/-- The first `n` actors, in the order of `tick_all`. -/
def refsBelow (n : Nat) : List ActorRef := (List.range n).map fun i => ⟨UInt32.ofNat i⟩

def refs (s : ActorSystem σ) : List ActorRef := refsBelow s.actors.length

def drainSends (s : ActorSystem σ) : Nat → List (Sent σ)
  | 0 => []
  | rounds + 1 =>
      s.ticksSends s.refs ++
        match s.tickAll with
        | none => []
        | some (n, t) => if n = 0 then [] else drainSends t rounds

/-- The sends of one call from outside. -/
def stepSends (s : ActorSystem σ) : Call σ → List (Sent σ)
  | .tick ref => s.tickSends ref
  | .tickAll => s.ticksSends s.refs
  | .drain maxRounds => s.drainSends maxRounds
  | _ => []

end ActorSystem

/-- A system with the sends of all its actors so far. -/
structure Logged (σ : Type) where
  log : List (Sent σ)
  system : ActorSystem σ

def Logged.step (l : Logged σ) (call : Call σ) : Option (Logged σ) :=
  (l.system.step call).map fun t => ⟨l.log ++ l.system.stepSends call, t⟩

namespace ActorSystem
variable {s t : ActorSystem σ} {ref other : ActorRef}

theorem ticks_append (s : ActorSystem σ) (first second : List ActorRef) :
    s.ticks (first ++ second) = (s.ticks first).ticks second := by
  induction first generalizing s with
  | nil => rfl
  | cons ref rest ih => exact ih _

theorem tick_length (s : ActorSystem σ) (ref : ActorRef) :
    (s.tick ref).2.actors.length = s.actors.length :=
  (tick_grows s ref).length

theorem ticks_length (s : ActorSystem σ) (refs : List ActorRef) :
    (s.ticks refs).actors.length = s.actors.length := by
  induction refs generalizing s with
  | nil => rfl
  | cons ref rest ih => exact (ih _).trans (tick_length s ref)

theorem ticks_refsBelow_succ (s : ActorSystem σ) (i : UInt32) :
    s.ticks (refsBelow (i.toNat + 1)) = ((s.ticks (refsBelow i.toNat)).tick ⟨i⟩).2 := by
  simp only [refsBelow, List.range_succ, List.map_append, List.map_cons, List.map_nil,
    ticks_append, UInt32.ofNat_toNat]
  rfl

/-- The loop of `tick_all` has ticked the actors below its counter, unless there are so
many of them that the counter wraps around and the loop has no end. -/
structure TickedBelow (s : ActorSystem σ) (state : UInt32 × Nat × ActorSystem σ) : Prop where
  length : state.2.2.actors.length = s.actors.length
  inside : s.actors.length < uint32Size → state.1.toNat ≤ s.actors.length
  ticked : s.actors.length < uint32Size → state.2.2 = s.ticks (refsBelow state.1.toNat)

theorem TickedBelow.again {state next : UInt32 × Nat × ActorSystem σ} (hBelow : TickedBelow s state)
    (hPass : tickNext state = some (.again next)) : TickedBelow s next := by
  obtain ⟨i, total, t⟩ := state
  obtain ⟨hLength, -, hTicked⟩ := hBelow
  obtain ⟨hInside, rfl⟩ := tickNext_again hPass
  simp only at hTicked hLength hInside
  have hNext : s.actors.length < uint32Size → (i + 1).toNat = i.toNat + 1 := by
    intro hSmall
    simp only [uint32Size] at hSmall
    rw [UInt32.toNat_add, UInt32.toNat_one, Nat.mod_eq_of_lt (by omega)]
  refine ⟨(tick_length t ⟨i⟩).trans hLength, ?_, ?_⟩
  · intro hSmall
    rw [hNext hSmall]
    omega
  · intro hSmall
    rw [hNext hSmall, ticks_refsBelow_succ, ← hTicked hSmall]

theorem TickedBelow.leave {state : UInt32 × Nat × ActorSystem σ} {result : Nat × ActorSystem σ}
    (hBelow : TickedBelow s state) (hPass : tickNext state = some (.leave result)) :
    result.2 = s.ticks s.refs := by
  obtain ⟨i, total, t⟩ := state
  obtain ⟨hLength, hInside, hTicked⟩ := hBelow
  obtain ⟨hOutside, rfl⟩ := tickNext_leave hPass
  simp only at hInside hTicked hLength hOutside
  have hSmall : s.actors.length < uint32Size := by
    have hBound := i.toNat_lt
    simp only [uint32Size]
    omega
  have hEnd : i.toNat = s.actors.length := by
    have hAtMost := hInside hSmall
    omega
  have hSame := hTicked hSmall
  rwa [hEnd] at hSame

/-- What `tick_all` does when its loop comes to an end. -/
theorem tickAll_eq_ticks {result : Nat × ActorSystem σ} (h : s.tickAll = some result) :
    result.2 = s.ticks s.refs := by
  have hStart : TickedBelow s (0, 0, s) := ⟨rfl, fun _ => Nat.zero_le _, fun _ => rfl⟩
  exact @Loop.run_invariant _ _ tickNext (0, 0, s) result (TickedBelow s)
    (fun r => r.2 = s.ticks s.refs) (fun _ _ hBelow => hBelow.again) (fun _ _ hBelow => hBelow.leave)
    hStart h

/-- A tick and its sends, however the length of the chunk wraps around. -/
theorem tick_eq {h : ActorHandle σ} (hRef : s.handle? ref = some h)
    (hActive : h.lifecycle ≠ .dormant) (hPending : h.channel.queue ≠ []) :
    let pulled := s.update ref fun h' => { h' with channel := h.channel.clear }
    let msgs := h.channel.queue.take (h.channel.queue.length % uint32Size)
    let done := pulled.receiveAll ref ⟨h.self, h.cluster, h.nextSeq⟩ msgs
    (s.tick ref).2 = done.2.update ref (fun h => { h with nextSeq := done.1.nextSeq }) ∧
      s.tickSends ref = pulled.receiveAllSends ref ⟨h.self, h.cluster, h.nextSeq⟩ msgs := by
  intro pulled msgs done
  have hList : (Chunk.from h.channel.queue).toList = msgs := Chunk.toList_from _
  by_cases hEmpty : (Chunk.from h.channel.queue).empty = true
  · have hNone : msgs = [] := by rw [← hList, (Chunk.empty_iff _).mp hEmpty]
    have hSame : done.2.update ref (fun h => { h with nextSeq := done.1.nextSeq }) = pulled := by
      simp only [done, hNone, receiveAll]
      refine update_eq_self ?_
      intro h' hRef'
      simp only [pulled, handle?_update_self, hRef, Option.map_some, Option.some.injEq] at hRef'
      rw [← hRef']
    rw [hSame]
    simp [tick, tickSends, hRef, hActive, ChannelBuf.pull_of_pending hPending, hEmpty, hNone,
      receiveAllSends, pulled]
  · simp [tick, tickSends, hRef, hActive, ChannelBuf.pull_of_pending hPending, hEmpty, hList,
      pulled, done]

/-- No sends without pending envelopes. -/
theorem tickSends_of_idle (hIdle : ∀ h, s.handle? ref = some h →
      h.lifecycle = .dormant ∨ h.channel.queue = []) : s.tickSends ref = [] := by
  unfold tickSends
  cases hRef : s.handle? ref with
  | none => rfl
  | some h =>
      by_cases hDormant : h.lifecycle = .dormant
      · simp [hDormant]
      · have hEmpty := (hIdle h hRef).resolve_left hDormant
        simp [hDormant, ChannelBuf.pull_of_empty hEmpty]

end ActorSystem
end CelerMem.Necto
