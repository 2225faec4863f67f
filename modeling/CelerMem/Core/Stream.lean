import CelerMem.Core.Chunk
import CelerMem.Library.Loop

/-! `StreamHandle<T>`, the factories of `stream.hpp` and `collect`. A stream
object is erased behind a vtable with `pull` and `clone`; whoever owns the handle
sees no more of it than the results of pulls after any calls made through it. -/
namespace CelerMem

variable {α β Impl : Type}

/-- `Result<std::optional<Chunk<T>>>`: an error, `nullopt` for done, or a chunk. -/
abbrev Pulled (α : Type) := Result (Option (Chunk α))

/-- The two vtable entries that lead to a stream state. -/
inductive StreamCall where
  | pull
  | clone
  deriving DecidableEq, Repr

/-- `observe calls` is what a pull answers after `calls`; `none` stands for a
pull, there or earlier, that does not return. -/
structure StreamHandle (α : Type) where
  observe : List StreamCall → Option (Pulled α)

/-- What `make_stream_handle` requires of an implementation. -/
class StreamImpl (Impl : Type) (α : outParam Type) where
  pull : Impl → Option (Pulled α × Impl)
  /-- The copy constructor. -/
  copy : Impl → Impl

def observeFrom [StreamImpl Impl α] (impl : Impl) : List StreamCall → Option (Pulled α)
  | [] => (StreamImpl.pull impl).map Prod.fst
  | .pull :: calls =>
      match StreamImpl.pull impl with
      | none => none
      | some (_, next) => observeFrom next calls
  | .clone :: calls => observeFrom (StreamImpl.copy impl) calls

def makeStreamHandle [StreamImpl Impl α] (impl : Impl) : StreamHandle α :=
  ⟨observeFrom impl⟩

namespace StreamHandle

def pull (h : StreamHandle α) : Option (Pulled α × StreamHandle α) :=
  (h.observe []).map fun r => (r, ⟨fun calls => h.observe (.pull :: calls)⟩)

def clone (h : StreamHandle α) : StreamHandle α :=
  ⟨fun calls => h.observe (.clone :: calls)⟩

end StreamHandle

@[simp] theorem makeStreamHandle_pull [StreamImpl Impl α] (impl : Impl) :
    (makeStreamHandle impl).pull =
      (StreamImpl.pull impl).map fun p => (p.1, makeStreamHandle p.2) := by
  cases h : StreamImpl.pull impl with
  | none => simp [StreamHandle.pull, makeStreamHandle, observeFrom, h]
  | some p => simp [StreamHandle.pull, makeStreamHandle, observeFrom, h]

@[simp] theorem makeStreamHandle_clone [StreamImpl Impl α] (impl : Impl) :
    (makeStreamHandle impl).clone = makeStreamHandle (StreamImpl.copy impl) := rfl

/-! ## Factories -/

namespace Stream

structure EmptyImpl (α : Type) where

instance : StreamImpl (EmptyImpl α) α where
  pull s := some (.ok none, s)
  copy s := s

def empty : StreamHandle α := makeStreamHandle (⟨⟩ : EmptyImpl α)

structure SingletonImpl (α : Type) where
  value : Option α

def SingletonImpl.pull (s : SingletonImpl α) : Option (Pulled α × SingletonImpl α) :=
  match s.value with
  | none => some (.ok none, s)
  | some value => some (.ok (some (Chunk.singleton value)), ⟨none⟩)

instance : StreamImpl (SingletonImpl α) α where
  pull := SingletonImpl.pull
  copy s := ⟨s.value⟩

def singleton (value : α) : StreamHandle α := makeStreamHandle (⟨some value⟩ : SingletonImpl α)

/-- Also `FromStringImpl`, which copies the string into a vector first. -/
structure FromVectorImpl (α : Type) where
  data : Option (List α)

def FromVectorImpl.pull (s : FromVectorImpl α) : Option (Pulled α × FromVectorImpl α) :=
  match s.data with
  | none => some (.ok none, s)
  | some [] => some (.ok none, s)
  | some data => some (.ok (some (Chunk.from data)), ⟨none⟩)

instance : StreamImpl (FromVectorImpl α) α where
  pull := FromVectorImpl.pull
  copy s := ⟨s.data⟩

def fromVector (data : List α) : StreamHandle α := makeStreamHandle (⟨some data⟩ : FromVectorImpl α)

def fromString (s : Bytes) : StreamHandle Byte := fromVector s

/-! ## Terminal operation -/

def collectTurn : StreamHandle α × List α →
    Option (Loop.Turn (StreamHandle α × List α) (Result (List α)))
  | (stream, out) => do
      let (r, stream) ← stream.pull
      match r with
      | .error e => some (.leave (.error e))
      | .ok none => some (.leave (.ok out))
      | .ok (some chunk) => some (.again (stream, out ++ chunk.toList))

/-- `collect`, and `collect_string` for bytes. -/
def collect (stream : StreamHandle α) : Option (Result (List α)) :=
  Loop.run collectTurn (stream, [])

end Stream
end CelerMem
