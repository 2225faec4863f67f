import CelerMem.Core.Stream
import CelerMem.Core.StreamControl

/-! `AsyncStreamHandle<T>` and the pollable streams of `async_stream.hpp`. As with
`StreamHandle<T>`, the owner of a handle sees the answers to polls after any calls. -/
namespace CelerMem.Async

variable {α β Impl : Type}

/-- The vtable entries that lead to a stream state. -/
inductive AsyncCall where
  | poll (budget : StreamBudget) (cx : TaskContext)
  | request (n : Nat)
  | cancel
  | clone
  deriving DecidableEq

/-- `observe calls budget cx` is what a poll answers after `calls`; `none` stands for
a poll, there or earlier, that does not return. -/
structure AsyncStreamHandle (α : Type) where
  observe : List AsyncCall → StreamBudget → TaskContext → Option (PollResult α)

/-- What `make_async_stream_handle` requires of an implementation. -/
class AsyncImpl (Impl : Type) (α : outParam Type) where
  poll : StreamBudget → TaskContext → Impl → Option (PollResult α × Impl)
  request : Nat → Impl → Impl
  cancel : Impl → Impl
  /-- The copy constructor. -/
  copy : Impl → Impl

def observeFrom [AsyncImpl Impl α] (impl : Impl) :
    List AsyncCall → StreamBudget → TaskContext → Option (PollResult α)
  | [], budget, cx => (AsyncImpl.poll budget cx impl).map Prod.fst
  | .poll b c :: calls, budget, cx =>
      match AsyncImpl.poll b c impl with
      | none => none
      | some (_, next) => observeFrom next calls budget cx
  | .request n :: calls, budget, cx => observeFrom (AsyncImpl.request n impl) calls budget cx
  | .cancel :: calls, budget, cx => observeFrom (AsyncImpl.cancel impl) calls budget cx
  | .clone :: calls, budget, cx => observeFrom (AsyncImpl.copy impl) calls budget cx

def makeAsyncStreamHandle [AsyncImpl Impl α] (impl : Impl) : AsyncStreamHandle α :=
  ⟨observeFrom impl⟩

namespace AsyncStreamHandle

/-- The stream after a call. -/
def after (h : AsyncStreamHandle α) (call : AsyncCall) : AsyncStreamHandle α :=
  ⟨fun calls => h.observe (call :: calls)⟩

def poll (budget : StreamBudget) (cx : TaskContext) (h : AsyncStreamHandle α) :
    Option (PollResult α × AsyncStreamHandle α) :=
  (h.observe [] budget cx).map fun r => (r, h.after (.poll budget cx))

def request (n : Nat) (h : AsyncStreamHandle α) : AsyncStreamHandle α := h.after (.request n)

def cancel (h : AsyncStreamHandle α) : AsyncStreamHandle α := h.after .cancel

def clone (h : AsyncStreamHandle α) : AsyncStreamHandle α := h.after .clone

end AsyncStreamHandle

@[simp] theorem makeAsyncStreamHandle_poll [AsyncImpl Impl α] (budget : StreamBudget)
    (cx : TaskContext) (impl : Impl) :
    (makeAsyncStreamHandle impl).poll budget cx =
      (AsyncImpl.poll budget cx impl).map fun p => (p.1, makeAsyncStreamHandle p.2) := by
  cases h : AsyncImpl.poll budget cx impl with
  | none => simp [AsyncStreamHandle.poll, makeAsyncStreamHandle, observeFrom, h]
  | some p =>
      simp [AsyncStreamHandle.poll, AsyncStreamHandle.after, makeAsyncStreamHandle, observeFrom, h]

@[simp] theorem makeAsyncStreamHandle_clone [AsyncImpl Impl α] (impl : Impl) :
    (makeAsyncStreamHandle impl).clone = makeAsyncStreamHandle (AsyncImpl.copy impl) := rfl

/-! ## to_async -/

structure SyncBridgeImpl (α : Type) where
  source : StreamHandle α
  done : Bool

/-- A pull is always ready, so this never answers pending. -/
def SyncBridgeImpl.poll (s : SyncBridgeImpl α) : Option (PollResult α × SyncBridgeImpl α) :=
  if s.done then some (.done, s)
  else do
    let (r, source) ← s.source.pull
    let s := { s with source }
    match r with
    | .error e => some (.error e, s)
    | .ok none => some (.done, { s with done := true })
    | .ok (some chunk) => some (.emit chunk, s)

instance : AsyncImpl (SyncBridgeImpl α) α where
  poll _ _ := SyncBridgeImpl.poll
  request _ s := s
  cancel s := { s with done := true }
  copy s := ⟨s.source.clone, s.done⟩

def toAsync (source : StreamHandle α) : AsyncStreamHandle α :=
  makeAsyncStreamHandle (⟨source, false⟩ : SyncBridgeImpl α)

/-! ## par_map -/

structure ParMapImpl (α β : Type) where
  source : AsyncStreamHandle α
  fn : α → β
  sourceDone : Bool

def ParMapImpl.poll (budget : StreamBudget) (cx : TaskContext) (s : ParMapImpl α β) :
    Option (PollResult β × ParMapImpl α β) :=
  if s.sourceDone then some (.done, s)
  else do
    let (r, source) ← s.source.poll budget cx
    let s := { s with source }
    match r with
    | .emit chunk =>
        let mapped := Chunk.build chunk.size (chunk.toList.map s.fn) (by simp) chunk.size_lt
        some (.emit mapped, s)
    | .pending => some (.pending, s)
    | .yield => some (.yield, s)
    | .done => some (.done, { s with sourceDone := true })
    | .error e => some (.error e, s)

instance : AsyncImpl (ParMapImpl α β) β where
  poll := ParMapImpl.poll
  request n s := { s with source := s.source.request n }
  cancel s := { s with source := s.source.cancel }
  copy s := ⟨s.source.clone, s.fn, s.sourceDone⟩

def parMap (source : AsyncStreamHandle α) (fn : α → β) : AsyncStreamHandle β :=
  makeAsyncStreamHandle (⟨source, fn, false⟩ : ParMapImpl α β)

/-! ## par_eval -/

/-- `sources` and `done_flags` side by side, as the constructors make both of one
length. The rotation index is taken not to wrap around. -/
structure ParEvalImpl (α : Type) where
  slots : List (AsyncStreamHandle α × Bool)
  nextIdx : Nat

namespace ParEvalImpl

/-- The rest of the round with `left` sources still to try. -/
def scan (budget : StreamBudget) (cx : TaskContext) :
    Nat → ParEvalImpl α → Option (PollResult α × ParEvalImpl α)
  | 0, s => some (if s.slots.all Prod.snd then .done else .pending, s)
  | left + 1, s =>
      let idx := s.nextIdx % s.slots.length
      let s := { s with nextIdx := s.nextIdx + 1 }
      match s.slots[idx]? with
      | none => none
      | some (_, true) => scan budget cx left s
      | some (source, false) => do
          let (r, source) ← source.poll budget cx
          let s := { s with slots := s.slots.set idx (source, false) }
          match r with
          | .emit chunk => some (.emit chunk, s)
          | .pending => scan budget cx left s
          | .yield => scan budget cx left s
          | .done => scan budget cx left { s with slots := s.slots.set idx (source, true) }
          | .error e => some (.error e, s)

def poll (budget : StreamBudget) (cx : TaskContext) (s : ParEvalImpl α) :
    Option (PollResult α × ParEvalImpl α) :=
  if s.slots.isEmpty then some (.done, s) else scan budget cx s.slots.length s

end ParEvalImpl

/-- The copy constructor starts the rotation again. -/
instance : AsyncImpl (ParEvalImpl α) α where
  poll := ParEvalImpl.poll
  request n s := { s with slots := s.slots.map fun slot => (slot.1.request n, slot.2) }
  cancel s := { s with slots := s.slots.map fun slot => (slot.1.cancel, slot.2) }
  copy s := ⟨s.slots.map fun slot => (slot.1.clone, slot.2), 0⟩

def parEval (sources : List (AsyncStreamHandle α)) : AsyncStreamHandle α :=
  makeAsyncStreamHandle (⟨sources.map fun source => (source, false), 0⟩ : ParEvalImpl α)

/-! ## concat_map -/

structure ConcatMapImpl (α β : Type) where
  source : AsyncStreamHandle α
  fn : α → AsyncStreamHandle β
  activeChild : Option (AsyncStreamHandle β)
  sourceDone : Bool

namespace ConcatMapImpl

/-- The part of a pass that runs without an active child. -/
def advance (budget : StreamBudget) (cx : TaskContext) (s : ConcatMapImpl α β) :
    Option (Loop.Turn (ConcatMapImpl α β) (PollResult β × ConcatMapImpl α β)) :=
  if s.sourceDone then some (.leave (.done, s))
  else do
    let (r, source) ← s.source.poll budget cx
    let s := { s with source }
    match r with
    | .emit chunk =>
        -- The loop over the chunk breaks after its first element.
        match chunk.toList with
        | [] => some (.again s)
        | elem :: _ => some (.again { s with activeChild := some (s.fn elem) })
    | .pending => some (.leave (.pending, s))
    | .yield => some (.leave (.yield, s))
    | .done => some (.leave (.done, { s with sourceDone := true }))
    | .error e => some (.leave (.error e, s))

def turn (budget : StreamBudget) (cx : TaskContext) (s : ConcatMapImpl α β) :
    Option (Loop.Turn (ConcatMapImpl α β) (PollResult β × ConcatMapImpl α β)) :=
  match s.activeChild with
  | none => s.advance budget cx
  | some child => do
      let (r, child) ← child.poll budget cx
      match r with
      | .done => advance budget cx { s with activeChild := none }
      | r => some (.leave (r, { s with activeChild := some child }))

def poll (budget : StreamBudget) (cx : TaskContext) (s : ConcatMapImpl α β) :
    Option (PollResult β × ConcatMapImpl α β) :=
  Loop.run (turn budget cx) s

end ConcatMapImpl

/-- The copy constructor leaves the active child out. -/
instance : AsyncImpl (ConcatMapImpl α β) β where
  poll := ConcatMapImpl.poll
  request n s :=
    match s.activeChild with
    | some child => { s with activeChild := some (child.request n) }
    | none => { s with source := s.source.request n }
  cancel s :=
    { s with activeChild := s.activeChild.map AsyncStreamHandle.cancel, source := s.source.cancel }
  copy s := ⟨s.source.clone, s.fn, none, s.sourceDone⟩

def concatMap (source : AsyncStreamHandle α) (fn : α → AsyncStreamHandle β) :
    AsyncStreamHandle β :=
  makeAsyncStreamHandle (⟨source, fn, none, false⟩ : ConcatMapImpl α β)

/-! ## merge_map -/

structure MergeMapImpl (α β : Type) where
  source : AsyncStreamHandle α
  fn : α → AsyncStreamHandle β
  activeChildren : List (AsyncStreamHandle β)
  maxConcurrent : Nat
  sourceDone : Bool

namespace MergeMapImpl

/-- The loop over a chunk, which breaks once `max_concurrent` children are active. -/
def pushChildren (fn : α → AsyncStreamHandle β) (maxConcurrent : Nat) :
    List α → List (AsyncStreamHandle β) → List (AsyncStreamHandle β)
  | [], active => active
  | elem :: elems, active =>
      let active := active ++ [fn elem]
      if maxConcurrent ≤ active.length then active else pushChildren fn maxConcurrent elems active

/-- One pass of the loop that activates children. -/
def activateTurn (budget : StreamBudget) (cx : TaskContext) (s : MergeMapImpl α β) :
    Option (Loop.Turn (MergeMapImpl α β) (VoidResult × MergeMapImpl α β)) :=
  if !s.sourceDone && s.activeChildren.length < s.maxConcurrent then do
    let (r, source) ← s.source.poll budget cx
    let s := { s with source }
    match r with
    | .emit chunk =>
        let activeChildren := pushChildren s.fn s.maxConcurrent chunk.toList s.activeChildren
        some (.again { s with activeChildren })
    | .pending => some (.leave (.ok (), s))
    | .yield => some (.leave (.ok (), s))
    | .done => some (.leave (.ok (), { s with sourceDone := true }))
    | .error e => some (.leave (.error e, s))
  else some (.leave (.ok (), s))

/-- The loop over the active children: the first chunk or error is the answer, and
finished children are erased on the way. -/
def pollChildren (budget : StreamBudget) (cx : TaskContext) :
    List (AsyncStreamHandle β) → Option (Option (PollResult β) × List (AsyncStreamHandle β))
  | [] => some (none, [])
  | child :: rest => do
      let (r, child) ← child.poll budget cx
      match r with
      | .emit chunk => some (some (.emit chunk), child :: rest)
      | .pending =>
          let (r, rest) ← pollChildren budget cx rest
          some (r, child :: rest)
      | .yield =>
          let (r, rest) ← pollChildren budget cx rest
          some (r, child :: rest)
      | .done => pollChildren budget cx rest
      | .error e => some (some (.error e), child :: rest)

def poll (budget : StreamBudget) (cx : TaskContext) (s : MergeMapImpl α β) :
    Option (PollResult β × MergeMapImpl α β) := do
  let (r, s) ← Loop.run (activateTurn budget cx) s
  match r with
  | .error e => some (.error e, s)
  | .ok () =>
      let (r, activeChildren) ← pollChildren budget cx s.activeChildren
      let s := { s with activeChildren }
      match r with
      | some r => some (r, s)
      | none => some (if s.activeChildren.isEmpty && s.sourceDone then .done else .pending, s)

end MergeMapImpl

instance : AsyncImpl (MergeMapImpl α β) β where
  poll := MergeMapImpl.poll
  request n s := { s with activeChildren := s.activeChildren.map (·.request n) }
  cancel s :=
    { s with activeChildren := s.activeChildren.map (·.cancel), source := s.source.cancel }
  copy s := ⟨s.source.clone, s.fn, s.activeChildren.map (·.clone), s.maxConcurrent, s.sourceDone⟩

def mergeMap (source : AsyncStreamHandle α) (fn : α → AsyncStreamHandle β)
    (maxConcurrent : Nat) : AsyncStreamHandle β :=
  makeAsyncStreamHandle (⟨source, fn, [], maxConcurrent, false⟩ : MergeMapImpl α β)

/-! ## collect_blocking -/

def collectBlockingTurn (cx : TaskContext) : AsyncStreamHandle α × List α →
    Option (Loop.Turn (AsyncStreamHandle α × List α) (Result (List α)))
  | (stream, result) => do
      let (r, stream) ← stream.poll .unbounded cx
      match r with
      | .emit chunk => some (.again (stream, result ++ chunk.toList))
      | .pending => some (.again (stream, result))
      | .yield => some (.again (stream, result))
      | .done => some (.leave (.ok result))
      | .error e => some (.leave (.error e))

def collectBlocking (stream : AsyncStreamHandle α) : Option (Result (List α)) :=
  Loop.run (collectBlockingTurn ⟨0⟩) (stream, [])

end CelerMem.Async
