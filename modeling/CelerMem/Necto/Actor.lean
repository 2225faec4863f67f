import CelerMem.Library.Loop
import CelerMem.Library.Transition
import CelerMem.Necto.Channel
import Mathlib

/-! The brokerless actor runtime: handles with a bounded inbox and a duplicate
filter, delivery, and the tick and drain loops. The implementations of all actors
share the type `σ`; every handle carries its own vtable. -/
namespace CelerMem.Necto

/-- Index into the vector of actors; `UINT32_MAX` is no actor. -/
structure ActorRef where
  index : UInt32 := 0xFFFFFFFF
  deriving DecidableEq

/-- A sub-cluster; `UINT32_MAX` is the dormant pool. -/
structure ClusterId where
  index : UInt32 := 0xFFFFFFFF
  deriving DecidableEq

def ClusterId.valid (cid : ClusterId) : Bool := cid.index != 0xFFFFFFFF

inductive AgentLifecycle where
  | active
  | dormant
  deriving DecidableEq

structure Envelope where
  seq : UInt64 := 0
  «from» : ActorRef := {}
  «to» : ActorRef := {}
  payload : Bytes
  deriving DecidableEq

/-- What the duplicate filter remembers of an envelope. -/
structure DedupSet.Key where
  «from» : UInt32
  seq : UInt64
  deriving DecidableEq

def Envelope.key (env : Envelope) : DedupSet.Key := ⟨env.from.index, env.seq⟩

structure DedupSet where
  seen : Finset DedupSet.Key
  deriving DecidableEq

namespace DedupSet

/-- True if the envelope is new. -/
def checkAndInsert (d : DedupSet) (env : Envelope) : Bool × DedupSet :=
  (decide (env.key ∉ d.seen), ⟨insert env.key d.seen⟩)

def clear (_ : DedupSet) : DedupSet := ⟨∅⟩

end DedupSet

/-- The send capability that `on_receive` is given. -/
structure ActorContext where
  self : ActorRef
  cluster : ClusterId
  nextSeq : UInt64

/-- What one call of `on_receive` does: it sends through its context, sees after
each send whether the envelope was taken, and returns in a new state. -/
inductive Script (σ : Type) where
  | done (impl : σ)
  | send («to» : ActorRef) (payload : Bytes) (next : Bool → Script σ)

/-- `on_receive` reads its own reference and its cluster from the context. -/
structure ActorVTable (σ : Type) where
  onReceive : σ → Envelope → ActorRef → ClusterId → Script σ
  clone : σ → σ

/-- The last two fields are history since the channel was last drained: `accepted`
lists the envelopes for which `deliver` returned true, `processed` the calls of
`on_receive` with the lifecycle that the actor had then. No function reads them. -/
structure ActorHandle (σ : Type) where
  impl : σ
  vt : ActorVTable σ
  channel : ChannelBuf Envelope
  dedup : DedupSet := ⟨∅⟩
  self : ActorRef
  name : String
  nextSeq : UInt64 := 0
  lifecycle : AgentLifecycle := .active
  cluster : ClusterId := {}
  accepted : List Envelope := []
  processed : List (Envelope × AgentLifecycle) := []

structure ActorSystem (σ : Type) where
  actors : List (ActorHandle σ) := []
  channelCapacity : Nat := 1024

namespace ActorHandle
variable {σ : Type}

/-- The part of `deliver` that concerns the receiver: a dormant one drops the
envelope, a known pair is refused, and a new one is remembered and then pushed. -/
def accept (h : ActorHandle σ) (env : Envelope) : Bool × ActorHandle σ :=
  if h.lifecycle = .dormant then (false, h)
  else
    let checked := h.dedup.checkAndInsert env
    let remembering := { h with dedup := checked.2 }
    if !checked.1 then (false, remembering)
    else
      let pushed := h.channel.push env
      (pushed.1, { remembering with
        channel := pushed.2
        accepted := if pushed.1 then h.accepted ++ [env] else h.accepted })

end ActorHandle

namespace ActorSystem
variable {σ : Type}

def handle? (s : ActorSystem σ) (ref : ActorRef) : Option (ActorHandle σ) :=
  s.actors[ref.index.toNat]?

/-- Assignments to fields of `actors_[ref.index]`. -/
def update (s : ActorSystem σ) (ref : ActorRef) (f : ActorHandle σ → ActorHandle σ) :
    ActorSystem σ :=
  { s with actors := s.actors.modify ref.index.toNat f }

/-- The number of actors is cast to 32 bits. -/
def makeHandleFor (s : ActorSystem σ) (impl : σ) (vt : ActorVTable σ) (name : String) :
    ActorRef × ActorSystem σ :=
  let ref : ActorRef := ⟨UInt32.ofNat s.actors.length⟩
  let h : ActorHandle σ :=
    { impl, vt, channel := ChannelBuf.make s.channelCapacity, self := ref, name }
  (ref, { s with actors := s.actors ++ [h] })

def spawn (s : ActorSystem σ) (name : String) (impl : σ) (vt : ActorVTable σ) :
    ActorRef × ActorSystem σ :=
  s.makeHandleFor impl vt name

/-- Fresh channel, reference, name and duplicate filter; the behaviour is copied. -/
def cloneSpawn (s : ActorSystem σ) (proto : ActorRef) (name : String) :
    ActorRef × ActorSystem σ :=
  match s.handle? proto with
  | none => ({}, s)
  | some src => s.makeHandleFor (src.vt.clone src.impl) src.vt name

def deliver (s : ActorSystem σ) (env : Envelope) : Bool × ActorSystem σ :=
  match s.handle? env.to with
  | none => (false, s)
  | some h => ((h.accept env).1, s.update env.to fun _ => (h.accept env).2)

/-- The sender of injected envelopes. -/
def external : ActorRef := ⟨0xFFFFFFFE⟩

def inject (s : ActorSystem σ) («to» : ActorRef) (payload : Bytes) : Bool × ActorSystem σ :=
  s.deliver { seq := 0, «from» := external, «to», payload }

/-- `ActorContext::send`: the sequence number is spent whether or not the envelope
is taken. -/
def send (s : ActorSystem σ) (ctx : ActorContext) («to» : ActorRef) (payload : Bytes) :
    Bool × ActorContext × ActorSystem σ :=
  let sent := s.deliver { seq := ctx.nextSeq, «from» := ctx.self, «to», payload }
  (sent.1, { ctx with nextSeq := ctx.nextSeq + 1 }, sent.2)

/-- Executes one call of `on_receive`. -/
def runScript (s : ActorSystem σ) (ctx : ActorContext) :
    Script σ → σ × ActorContext × ActorSystem σ
  | .done impl => (impl, ctx, s)
  | .send «to» payload next =>
      let sent := s.send ctx «to» payload
      runScript sent.2.2 sent.2.1 (next sent.1)

/-- `h.vt_->on_receive(h.impl_, msg, ctx)`. -/
def receive (s : ActorSystem σ) (ref : ActorRef) (ctx : ActorContext) (msg : Envelope) :
    ActorContext × ActorSystem σ :=
  match s.handle? ref with
  | none => (ctx, s)
  | some h =>
      let entered := s.update ref fun h => { h with processed := h.processed ++ [(msg, h.lifecycle)] }
      let ran := entered.runScript ctx (h.vt.onReceive h.impl msg ctx.self ctx.cluster)
      (ran.2.1, ran.2.2.update ref fun h => { h with impl := ran.1 })

/-- The loop of `tick` over the pulled chunk. -/
def receiveAll (s : ActorSystem σ) (ref : ActorRef) (ctx : ActorContext) :
    List Envelope → ActorContext × ActorSystem σ
  | [] => (ctx, s)
  | msg :: rest =>
      let received := s.receive ref ctx msg
      receiveAll received.2 ref received.1 rest

/-- Pulls the inbox of one active actor and calls `on_receive` for each envelope. -/
def tick (s : ActorSystem σ) (ref : ActorRef) : Nat × ActorSystem σ :=
  match s.handle? ref with
  | none => (0, s)
  | some h =>
      if h.lifecycle = .dormant then (0, s)
      else
        let pulled := h.channel.pull
        let s := s.update ref fun h => { h with channel := pulled.2 }
        match pulled.1 with
        | none => (0, s)
        | some chunk =>
            if chunk.empty then (0, s)
            else
              let done := s.receiveAll ref ⟨h.self, h.cluster, h.nextSeq⟩ chunk.toList
              (chunk.size, done.2.update ref fun h => { h with nextSeq := done.1.nextSeq })

/-- One pass of the loop in `tick_all` over the counter, the total and the actors. -/
def tickNext (state : UInt32 × Nat × ActorSystem σ) :
    Option (Loop.Turn (UInt32 × Nat × ActorSystem σ) (Nat × ActorSystem σ)) :=
  if state.1.toNat < state.2.2.actors.length then
    let ticked := state.2.2.tick ⟨state.1⟩
    some (.again (state.1 + 1, state.2.1 + ticked.1, ticked.2))
  else some (.leave state.2)

/-- The loop counter has 32 bits, so with 2^32 actors the loop never ends. -/
def tickAll (s : ActorSystem σ) : Option (Nat × ActorSystem σ) := Loop.run tickNext (0, 0, s)

/-- Rounds of `tick_all` until one does nothing, `max_rounds` at most. -/
def drain (s : ActorSystem σ) : Nat → Option (Nat × ActorSystem σ)
  | 0 => some (0, s)
  | rounds + 1 => do
      let (n, s) ← s.tickAll
      if n = 0 then some (0, s)
      else
        let (total, s) ← drain s rounds
        some (n + total, s)

/-- Drops what is pending and forgets what was delivered; the history starts again. -/
def channelDrain (s : ActorSystem σ) (ref : ActorRef) : ActorSystem σ :=
  s.update ref fun h =>
    { h with channel := h.channel.clear, dedup := h.dedup.clear, accepted := [], processed := [] }

def setLifecycle (s : ActorSystem σ) (ref : ActorRef) (lc : AgentLifecycle) : ActorSystem σ :=
  s.update ref fun h => { h with lifecycle := lc }

def setCluster (s : ActorSystem σ) (ref : ActorRef) (cid : ClusterId) : ActorSystem σ :=
  s.update ref fun h => { h with cluster := cid }

variable {s : ActorSystem σ} {ref : ActorRef}

theorem actors_update (f : ActorHandle σ → ActorHandle σ) (i : Nat) :
    (s.update ref f).actors[i]? =
      if ref.index.toNat = i then s.actors[i]?.map f else s.actors[i]? := by
  rw [update, List.getElem?_modify]
  split <;> simp

/-- The handle at an index is the assigned one, or the one that was there. -/
theorem actors_update_cases {f : ActorHandle σ → ActorHandle σ} {i : Nat} {h' : ActorHandle σ}
    (hAfter : (s.update ref f).actors[i]? = some h') :
    (ref.index.toNat = i ∧ ∃ h, s.handle? ref = some h ∧ h' = f h) ∨
      (ref.index.toNat ≠ i ∧ s.actors[i]? = some h') := by
  rw [actors_update] at hAfter
  split at hAfter
  next hIndex =>
    obtain ⟨h, hBefore, rfl⟩ := Option.map_eq_some_iff.mp hAfter
    exact .inl ⟨hIndex, h, by rw [handle?, hIndex, hBefore], rfl⟩
  next hIndex => exact .inr ⟨hIndex, hAfter⟩

@[simp] theorem handle?_update_self (f : ActorHandle σ → ActorHandle σ) :
    (s.update ref f).handle? ref = (s.handle? ref).map f := by
  simp [handle?, actors_update]

theorem handle?_update_other {other : ActorRef} (hOther : other ≠ ref)
    (f : ActorHandle σ → ActorHandle σ) : (s.update ref f).handle? other = s.handle? other := by
  have hIndex : ref.index.toNat ≠ other.index.toNat := by
    intro hSame
    obtain ⟨i⟩ := other
    obtain ⟨j⟩ := ref
    exact hOther (congrArg ActorRef.mk (UInt32.toNat_inj.mp hSame).symm)
  rw [handle?, actors_update, if_neg hIndex, handle?]

/-- An assignment of the value that is there already. -/
theorem update_eq_self {f : ActorHandle σ → ActorHandle σ}
    (hSame : ∀ h, s.handle? ref = some h → f h = h) : s.update ref f = s := by
  have hActors : (s.update ref f).actors = s.actors := by
    refine List.ext_getElem? ?_
    intro i
    rw [actors_update]
    split
    next hIndex =>
      subst hIndex
      cases hRef : s.actors[ref.index.toNat]? with
      | none => rfl
      | some h => exact congrArg some (hSame h hRef)
    next => rfl
  cases s
  simp_all [update]

@[simp] theorem update_channelCapacity (f : ActorHandle σ → ActorHandle σ) :
    (s.update ref f).channelCapacity = s.channelCapacity := rfl

end ActorSystem
end CelerMem.Necto
