import CelerMem.Materialization.Materialize
import Mathlib

/-! Targets whose writes are atomic, and one of them: a table held in memory whose
calls fail as a list of faults says. -/
namespace CelerMem.Materialization

/-- One operation of a batch. Backends refuse a put without a value. -/
def applyOp (m : Bytes → Option Bytes) (op : BatchOp) : Bytes → Option Bytes :=
  match op.kind with
  | .put => Function.update m op.key op.value
  | .del => Function.update m op.key none

/-- A target whose calls either take effect as a whole or fail without effect. The
state may decide on its own which of them fail. -/
structure AtomicTarget (σ : Type) where
  ops : TargetOps σ
  contents : σ → Bytes → Option Bytes
  get_law : ∀ k s, contents (ops.get k s).2 = contents s ∧
    ((ops.get k s).1 = .ok (contents s k) ∨ ∃ e, (ops.get k s).1 = .error e)
  put_law : ∀ k v s,
    (ops.put k v s).1 = .ok () ∧
        contents (ops.put k v s).2 = Function.update (contents s) k (some v) ∨
      (∃ e, (ops.put k v s).1 = .error e) ∧ contents (ops.put k v s).2 = contents s
  scan_law : ∀ pfx s, contents (ops.prefixScan pfx s).2 = contents s ∧
    ∀ kvs, (ops.prefixScan pfx s).1 = .ok kvs →
      ∀ kv, kv ∈ kvs ↔ pfx <+: kv.key ∧ contents s kv.key = some kv.value
  batch_law : ∀ batch s,
    (ops.batch batch s).1 = .ok () ∧
        contents (ops.batch batch s).2 = batch.foldl applyOp (contents s) ∨
      (∃ e, (ops.batch batch s).1 = .error e) ∧ contents (ops.batch batch s).2 = contents s

/-! ## In memory -/

/-- Each call takes one entry of `faults`; without one it succeeds. -/
structure Memory where
  entries : List KVPair
  unique : (entries.map KVPair.key).Nodup
  faults : List Bool

namespace Memory
variable {α : Type}

def contents (m : Memory) (k : Bytes) : Option Bytes :=
  (m.entries.find? fun kv => kv.key == k).map KVPair.value

def erase (m : Memory) (k : Bytes) : Memory where
  entries := m.entries.filter fun kv => kv.key != k
  unique := m.unique.sublist (List.filter_sublist.map KVPair.key)
  faults := m.faults

def insert (m : Memory) (k v : Bytes) : Memory where
  entries := ⟨k, v⟩ :: (m.erase k).entries
  unique := by
    rw [List.map_cons, List.nodup_cons]
    refine ⟨?_, (m.erase k).unique⟩
    intro h
    obtain ⟨kv, hMem, rfl⟩ := List.mem_map.mp h
    simp [erase] at hMem
  faults := m.faults

def apply (m : Memory) (op : BatchOp) : Memory :=
  match op.kind, op.value with
  | .put, some v => m.insert op.key v
  | .put, none => m.erase op.key
  | .del, _ => m.erase op.key

/-- A call that the next fault turns into an error. -/
def call (f : Memory → Result α × Memory) (m : Memory) : Result α × Memory :=
  match m.faults with
  | [] => f m
  | false :: faults => f { m with faults }
  | true :: faults => (.error ⟨"Memory", "fault"⟩, { m with faults })

def ops : TargetOps Memory where
  get k := call fun m => (.ok (m.contents k), m)
  put k v := call fun m => (.ok (), m.insert k v)
  prefixScan pfx := call fun m => (.ok (m.entries.filter fun kv => pfx.isPrefixOf kv.key), m)
  batch batch := call fun m => (.ok (), batch.foldl apply m)

theorem contents_erase (m : Memory) (k : Bytes) :
    (m.erase k).contents = Function.update m.contents k none := by
  funext k'
  by_cases hKey : k' = k
  · rw [hKey, Function.update_self]
    simp [contents, erase]
  · rw [Function.update_of_ne hKey]
    unfold contents erase
    congr 1
    rw [List.find?_filter]
    congr 1
    funext kv
    by_cases hSame : kv.key = k'
    · simp [hSame, hKey]
    · simp [hSame]

theorem contents_insert (m : Memory) (k v : Bytes) :
    (m.insert k v).contents = Function.update m.contents k (some v) := by
  funext k'
  by_cases hKey : k' = k
  · rw [hKey, Function.update_self]
    simp [contents, insert]
  · have hErase := congrFun (m.contents_erase k) k'
    rw [Function.update_of_ne hKey] at hErase
    rw [Function.update_of_ne hKey, ← hErase]
    unfold contents insert
    rw [List.find?_cons_of_neg (by simpa using Ne.symm hKey)]

theorem contents_apply (m : Memory) (op : BatchOp) :
    (m.apply op).contents = applyOp m.contents op := by
  unfold apply applyOp
  split
  · rename_i hKind hValue
    rw [hKind, hValue, contents_insert]
  · rename_i hKind hValue
    rw [hKind, hValue, contents_erase]
  · rename_i hKind
    rw [hKind, contents_erase]

theorem contents_foldl_apply (batch : List BatchOp) (m : Memory) :
    (batch.foldl apply m).contents = batch.foldl applyOp m.contents := by
  induction batch generalizing m with
  | nil => rfl
  | cons op batch ih => rw [List.foldl_cons, List.foldl_cons, ih, contents_apply]

/-- A call succeeds on the memory without its next fault, or fails and leaves it. -/
theorem call_cases (f : Memory → Result α × Memory) (m : Memory) :
    (∃ m' : Memory, m'.entries = m.entries ∧ call f m = f m') ∨
      (∃ e, (call f m).1 = .error e) ∧ (call f m).2.entries = m.entries := by
  unfold call
  split
  · exact Or.inl ⟨m, rfl, rfl⟩
  · rename_i faults _
    exact Or.inl ⟨{ m with faults }, rfl, rfl⟩
  · exact Or.inr ⟨⟨_, rfl⟩, rfl⟩

theorem contents_congr {m m' : Memory} (h : m'.entries = m.entries) : m'.contents = m.contents := by
  funext k
  rw [contents, contents, h]

theorem mem_entries_iff (m : Memory) (kv : KVPair) :
    kv ∈ m.entries ↔ m.contents kv.key = some kv.value := by
  have hUnique := m.unique
  unfold contents
  generalize m.entries = entries at hUnique
  induction entries with
  | nil => simp
  | cons first entries ih =>
      rw [List.map_cons, List.nodup_cons] at hUnique
      by_cases hKey : first.key = kv.key
      · rw [List.find?_cons_of_pos (by simpa using hKey), List.mem_cons]
        constructor
        · rintro (rfl | hMem)
          · rfl
          · exact absurd (List.mem_map.mpr ⟨kv, hMem, hKey.symm⟩) hUnique.1
        · intro hValue
          left
          have hSame : first.value = kv.value := by simpa using hValue
          cases kv
          cases first
          simp_all
      · have hRest := ih hUnique.2
        rw [List.find?_cons_of_neg (by simpa using hKey), List.mem_cons]
        refine (or_iff_right ?_).trans hRest
        rintro rfl
        exact hKey rfl

def target : AtomicTarget Memory where
  ops := ops
  contents := contents
  get_law k m := by
    rcases call_cases (fun m => (.ok (m.contents k), m)) m with ⟨m', hSame, hCall⟩ | ⟨hError, hSame⟩
    · have hContents := contents_congr hSame
      simp only [ops, hCall, hContents]
      exact ⟨trivial, Or.inl trivial⟩
    · exact ⟨contents_congr hSame, Or.inr hError⟩
  put_law k v m := by
    rcases call_cases (fun m => (.ok (), m.insert k v)) m with ⟨m', hSame, hCall⟩ | ⟨hError, hSame⟩
    · simp only [ops, hCall, contents_insert, contents_congr hSame]
      exact Or.inl ⟨trivial, trivial⟩
    · exact Or.inr ⟨hError, contents_congr hSame⟩
  scan_law pfx m := by
    rcases call_cases
      (fun m => (.ok (m.entries.filter fun kv => pfx.isPrefixOf kv.key), m)) m with
      ⟨m', hSame, hCall⟩ | ⟨⟨e, hError⟩, hSame⟩
    · simp only [ops, hCall]
      refine ⟨contents_congr hSame, ?_⟩
      rintro kvs hOk kv
      obtain rfl := Except.ok.inj hOk
      rw [List.mem_filter, hSame, mem_entries_iff, List.isPrefixOf_iff_prefix, and_comm]
    · refine ⟨contents_congr hSame, ?_⟩
      intro kvs hOk
      cases hError.symm.trans hOk
  batch_law batch m := by
    rcases call_cases (fun m => (.ok (), batch.foldl apply m)) m with ⟨m', hSame, hCall⟩ | ⟨hError, hSame⟩
    · simp only [ops, hCall, contents_foldl_apply, contents_congr hSame]
      exact Or.inl ⟨trivial, trivial⟩
    · exact Or.inr ⟨hError, contents_congr hSame⟩

end Memory
end CelerMem.Materialization
