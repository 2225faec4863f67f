import CelerMem.Core.SymbolTable
import CelerMem.Library.Objects
import CelerMem.Necto.Actor

/-! The names of the actors. `ActorSystem` lists them beside the actors; the symbol table
over that list is rebuilt when a name is resolved and actors have been spawned since. What
all this is for is `Registry`. -/
namespace CelerMem.Necto

variable {σ : Type}

/-- The fields of `ActorSystem` that concern names, next to the others. -/
structure NamedSystem (σ : Type) where
  system : ActorSystem σ
  nameKeys : List Bytes := []
  names : FlatSymbolTable := ⟨[], 0, 0⟩
  namesDirty : Bool := true

/-- The calls that deal with names. -/
inductive NameCall (σ : Type) where
  | spawn (name : Bytes) (impl : σ) (vt : ActorVTable σ)
  | cloneSpawn (proto : ActorRef) (name : Bytes)
  | resolve (name : Bytes)

inductive NameResult where
  | spawned (ref : ActorRef)
  | resolved (ref : Option ActorRef)
  deriving DecidableEq

namespace NamedSystem

def make (capacity : Nat) : NamedSystem σ := { system := { channelCapacity := capacity } }

def rebuildNames (hashKey : Bytes → Nat) (s : NamedSystem σ) : NamedSystem σ :=
  if !s.namesDirty then s
  else
    let values := List.range s.nameKeys.length
    { s with names := FlatSymbolTable.build hashKey s.nameKeys values, namesDirty := false }

def makeHandleFor (s : NamedSystem σ) (impl : σ) (vt : ActorVTable σ) (name : Bytes) :
    ActorRef × NamedSystem σ :=
  let (ref, system) := s.system.makeHandleFor impl vt (text name)
  (ref, { s with system, nameKeys := s.nameKeys ++ [name], namesDirty := true })

def spawn (s : NamedSystem σ) (name : Bytes) (impl : σ) (vt : ActorVTable σ) :
    ActorRef × NamedSystem σ :=
  s.makeHandleFor impl vt name

def cloneSpawn (s : NamedSystem σ) (proto : ActorRef) (name : Bytes) :
    ActorRef × NamedSystem σ :=
  match s.system.handle? proto with
  | none => ({}, s)
  | some src => s.makeHandleFor (src.vt.clone src.impl) src.vt name

/-- An index is cast to the 32 bits of a reference. -/
def resolve (hashKey : Bytes → Nat) (s : NamedSystem σ) (name : Bytes) :
    Option ActorRef × NamedSystem σ :=
  let s := s.rebuildNames hashKey
  ((s.names.find hashKey name).map fun idx => ⟨UInt32.ofNat idx⟩, s)

def call (hashKey : Bytes → Nat) (c : NameCall σ) (s : NamedSystem σ) :
    NameResult × NamedSystem σ :=
  match c with
  | .spawn name impl vt =>
      let (ref, s) := s.spawn name impl vt
      (.spawned ref, s)
  | .cloneSpawn proto name =>
      let (ref, s) := s.cloneSpawn proto name
      (.spawned ref, s)
  | .resolve name =>
      let (ref, s) := s.resolve hashKey name
      (.resolved ref, s)

end NamedSystem

/-! ## The registry -/

/-- The actors with their names, in the order in which they were spawned. -/
abbrev Registry := List (Bytes × ActorRef)

namespace Registry

/-- The next actor is listed under the reference that the caller is given. -/
def enter (name : Bytes) (r : Registry) : NameResult × Registry :=
  let ref : ActorRef := ⟨UInt32.ofNat r.length⟩
  (.spawned ref, r ++ [(name, ref)])

/-- The first one of the name. -/
def resolve (name : Bytes) (r : Registry) : Option ActorRef :=
  (r.find? fun entry => entry.1 == name).map Prod.snd

/-- A prototype that is no actor is not cloned. -/
def call (c : NameCall σ) (r : Registry) : NameResult × Registry :=
  match c with
  | .spawn name _ _ => r.enter name
  | .cloneSpawn proto name =>
      if proto.index.toNat < r.length then r.enter name else (.spawned {}, r)
  | .resolve name => (.resolved (r.resolve name), r)

end Registry

/-! ## The system is the registry -/

namespace NamedSystem
variable {hashKey : Bytes → Nat} {s : NamedSystem σ} {r : Registry}

/-- What the fields agree on: every actor carries its name and its reference, and a table
that is not dirty is that of the names there are now. -/
structure Lists (hashKey : Bytes → Nat) (s : NamedSystem σ) (r : Registry) : Prop where
  actors : (s.system.actors.map fun h => (h.name, h.self)) = r.map fun entry =>
    (text entry.1, entry.2)
  keys : s.nameKeys = r.map Prod.fst
  refs : ∀ (i : Nat) (entry : Bytes × ActorRef), r[i]? = some entry →
    entry.2 = ⟨UInt32.ofNat i⟩
  table : s.namesDirty = false → s.names = FlatSymbolTable.buildIndexed hashKey s.nameKeys

theorem Lists.length (h : s.Lists hashKey r) : s.system.actors.length = r.length := by
  have hLengths := congrArg List.length h.actors
  rwa [List.length_map, List.length_map] at hLengths

theorem make_lists (capacity : Nat) : (make capacity : NamedSystem σ).Lists hashKey [] where
  actors := rfl
  keys := rfl
  refs := by
    intro i entry hEntry
    simp at hEntry
  table := by
    intro hClean
    cases hClean

theorem Lists.makeHandleFor (h : s.Lists hashKey r) (impl : σ) (vt : ActorVTable σ) (name : Bytes) :
    NameResult.spawned (s.makeHandleFor impl vt name).1 = (r.enter name).1 ∧
      (s.makeHandleFor impl vt name).2.Lists hashKey (r.enter name).2 := by
  have hRef : (s.makeHandleFor impl vt name).1 = ⟨UInt32.ofNat r.length⟩ := by
    rw [← h.length]
    rfl
  refine ⟨congrArg NameResult.spawned hRef, ?_, ?_, ?_, ?_⟩
  · show ((s.system.actors ++ [_]).map _) = _
    rw [Registry.enter, List.map_append, List.map_append, h.actors, h.length]
    rfl
  · show s.nameKeys ++ [name] = _
    rw [Registry.enter, List.map_append, h.keys]
    rfl
  · intro i entry hEntry
    rw [Registry.enter, List.getElem?_append] at hEntry
    split at hEntry
    · exact h.refs i entry hEntry
    · rename_i hLast
      obtain ⟨hIndex, rfl⟩ := List.getElem?_eq_some_iff.mp hEntry
      have hEnd : i = r.length := by
        rw [List.length_singleton] at hIndex
        omega
      simp [hEnd]
  · intro hClean
    cases hClean

theorem Lists.rebuildNames (h : s.Lists hashKey r) : (s.rebuildNames hashKey).Lists hashKey r ∧
    (s.rebuildNames hashKey).names = FlatSymbolTable.buildIndexed hashKey s.nameKeys := by
  cases hDirty : s.namesDirty with
  | false =>
      have hSame : s.rebuildNames hashKey = s := by
        simp [NamedSystem.rebuildNames, hDirty]
      rw [hSame]
      exact ⟨h, h.table hDirty⟩
  | true =>
      have hRebuilt : s.rebuildNames hashKey =
          { s with names := FlatSymbolTable.buildIndexed hashKey s.nameKeys, namesDirty := false } := by
        simp [NamedSystem.rebuildNames, hDirty, FlatSymbolTable.buildIndexed]
      rw [hRebuilt]
      exact ⟨⟨h.actors, h.keys, h.refs, fun _ => rfl⟩, rfl⟩

/-- The first index of a name leads to the first entry. -/
theorem Lists.resolve (h : s.Lists hashKey r) (name : Bytes) :
    (s.resolve hashKey name).1 = r.resolve name ∧ (s.resolve hashKey name).2.Lists hashKey r := by
  obtain ⟨hLists, hTable⟩ := h.rebuildNames
  refine ⟨?_, hLists⟩
  show ((s.rebuildNames hashKey).names.find hashKey name).map _ = _
  rw [hTable, FlatSymbolTable.find_buildIndexed, h.keys, List.findIdx?_map, Registry.resolve]
  cases hFound : r.findIdx? ((fun key => key == name) ∘ Prod.fst) with
  | none =>
      rw [List.findIdx?_eq_none_iff] at hFound
      rw [List.find?_eq_none.mpr fun entry hMem => by simpa using hFound entry hMem]
      rfl
  | some i =>
      obtain ⟨hIndex, hName, hBefore⟩ := List.findIdx?_eq_some_iff_getElem.mp hFound
      have hFirst : r.find? (fun entry => entry.1 == name) = some r[i] := by
        rw [List.find?_eq_some_iff_getElem]
        exact ⟨hName, i, hIndex, rfl, fun j hj => by simpa using hBefore j hj⟩
      rw [hFirst, Option.map_some, Option.map_some,
        h.refs i r[i] (List.getElem?_eq_getElem hIndex)]

theorem call_simulates (hashKey : Bytes → Nat) :
    SequentialObject.Simulates (fun (s : NamedSystem σ) r => s.Lists hashKey r) (call hashKey)
      Registry.call := by
  intro c s r hLists
  cases c with
  | spawn name impl vt => exact hLists.makeHandleFor impl vt name
  | cloneSpawn proto name =>
      by_cases hProto : proto.index.toNat < r.length
      · obtain ⟨src, hSrc⟩ : ∃ src, s.system.handle? proto = some src :=
          ⟨_, List.getElem?_eq_getElem (by rwa [hLists.length])⟩
        simp only [call, cloneSpawn, hSrc, Registry.call, if_pos hProto]
        exact hLists.makeHandleFor _ _ name
      · have hNone : s.system.handle? proto = none := by
          apply List.getElem?_eq_none
          rw [hLists.length]
          exact Nat.not_lt.mp hProto
        simp only [call, cloneSpawn, hNone, Registry.call, if_neg hProto]
        exact ⟨trivial, hLists⟩
  | resolve name =>
      obtain ⟨hResult, hNext⟩ := hLists.resolve name
      exact ⟨congrArg NameResult.resolved hResult, hNext⟩

/-- Whatever is spawned, cloned and resolved in between, every call answers as the registry
does: a name is resolved to the first actor that was spawned under it. -/
theorem resolves_first_spawned (hashKey : Bytes → Nat) (capacity : Nat) (calls : List (NameCall σ)) :
    (SequentialObject.run (call hashKey) calls (make capacity)).1 =
      (SequentialObject.run Registry.call calls []).1 :=
  ((call_simulates hashKey).run calls _ _ (make_lists capacity)).1

end NamedSystem
end CelerMem.Necto
