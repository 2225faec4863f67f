import CelerMem.Core.Types
import CelerMem.Library.Edits
import Mathlib

/-! What a table of a backend is for: keys with their values, the operations of a batch in
their order, and scans of the keys that start with a prefix. -/
namespace CelerMem

abbrev Contents := Bytes → Option Bytes

def missingValue : Error := ⟨"StoreBatch", "put op missing value"⟩

/-- The contents after some operations, in order; the first put without a value fails. -/
def applyOps : List BatchOp → Contents → Result Contents
  | [], s => .ok s
  | op :: ops, s =>
      match op.kind, op.value with
      | .put, none => .error missingValue
      | .put, some value => applyOps ops (Function.update s op.key (some value))
      | .del, _ => applyOps ops (Function.update s op.key none)

/-- What an operation does to its key. -/
def BatchOp.edit (op : BatchOp) : Bytes × Option Bytes :=
  match op.kind with
  | .put => (op.key, op.value)
  | .del => (op.key, none)

/-- A put has a value. -/
def BatchOp.Complete (op : BatchOp) : Prop := op.kind = .put → op.value ≠ none

@[simp] theorem BatchOp.edit_fst (op : BatchOp) : op.edit.1 = op.key := by
  unfold BatchOp.edit
  cases op.kind with
  | put => rfl
  | del => rfl

theorem BatchOp.edit_snd_eq_none_iff {op : BatchOp} (h : op.Complete) :
    op.edit.2 = none ↔ op.kind = .del := by
  unfold BatchOp.edit
  cases hKind : op.kind with
  | put => exact iff_of_false (h hKind) (by simp)
  | del => exact iff_of_true rfl rfl

theorem applyOps_cons {op : BatchOp} (ops : List BatchOp) (h : op.Complete) (s : Contents) :
    applyOps (op :: ops) s = applyOps ops (Function.update s op.edit.1 op.edit.2) := by
  obtain ⟨kind, cfName, key, value⟩ := op
  cases kind with
  | del => rfl
  | put =>
      cases value with
      | none => exact absurd rfl (h rfl)
      | some value => rfl

theorem applyOps_eq {ops : List BatchOp} (h : ∀ op ∈ ops, op.Complete) (s : Contents) :
    applyOps ops s = .ok (Edits.apply s (ops.map BatchOp.edit)) := by
  induction ops generalizing s with
  | nil => rfl
  | cons op ops ih =>
      have hRest : ∀ other ∈ ops, other.Complete :=
        fun other hMem => h other (List.mem_cons_of_mem op hMem)
      rw [applyOps_cons ops (h op List.mem_cons_self), List.map_cons, Edits.apply_cons]
      exact ih hRest _

/-- `starts_with`. -/
def startsWith (key start : Bytes) : Bool := start.isPrefixOf key

theorem startsWith_iff {key start : Bytes} : startsWith key start = true ↔ start <+: key :=
  List.isPrefixOf_iff_prefix

/-- Where an empty result is taken for no value. -/
theorem collected_eq_iff {collected value : Bytes} :
    (if collected.isEmpty then none else some collected) = some value ↔
      value ≠ [] ∧ collected = value := by
  constructor
  · intro hSame
    split at hSame
    · cases hSame
    · rename_i hSome
      obtain rfl := Option.some.inj hSame
      rw [List.isEmpty_iff] at hSome
      exact ⟨hSome, rfl⟩
  · rintro ⟨hNonempty, rfl⟩
    rw [if_neg (by rwa [List.isEmpty_iff])]

/-- The pairs whose keys start with a prefix, once each and in the order of their keys. -/
structure Contents.Scanned (contents : Contents) (start : Bytes) (rows : List KVPair) : Prop where
  mem_iff : ∀ kv, kv ∈ rows ↔ contents kv.key = some kv.value ∧ start <+: kv.key
  sorted : rows.Pairwise fun a b => a.key < b.key

/-- A scan has one result. -/
theorem Contents.Scanned.unique {contents : Contents} {start : Bytes} {rows rows' : List KVPair}
    (h : contents.Scanned start rows) (h' : contents.Scanned start rows') : rows = rows' := by
  have hPerm : rows.Perm rows' := by
    apply (List.perm_ext_iff_of_nodup ?_ ?_).mpr
    · intro kv
      rw [h.mem_iff, h'.mem_iff]
    · exact h.sorted.imp fun hLess hSame => (hSame ▸ hLess).ne rfl
    · exact h'.sorted.imp fun hLess hSame => (hSame ▸ hLess).ne rfl
  exact hPerm.eq_of_pairwise (fun a b _ _ hLess hMore => absurd hLess hMore.asymm) h.sorted
    h'.sorted

/-- The scan of all keys shows the whole table. -/
theorem Contents.Scanned.contents_eq {contents contents' : Contents} {rows : List KVPair}
    (h : contents.Scanned [] rows) (h' : contents'.Scanned [] rows) : contents = contents' := by
  funext key
  apply Option.ext
  intro value
  have hRow := h.mem_iff ⟨key, value⟩
  have hRow' := h'.mem_iff ⟨key, value⟩
  rw [and_iff_left List.nil_prefix] at hRow hRow'
  exact hRow.symm.trans hRow'

/-- A table as its rows, in the order of their keys. -/
structure SortedTable where
  rows : List KVPair
  sorted : rows.Pairwise fun a b => a.key < b.key

namespace SortedTable

def contents (table : SortedTable) : Contents := fun key =>
  (table.rows.find? fun kv => kv.key == key).map KVPair.value

theorem contents_eq_some_iff (table : SortedTable) (key value : Bytes) :
    table.contents key = some value ↔ ⟨key, value⟩ ∈ table.rows := by
  obtain ⟨rows, hSorted⟩ := table
  unfold contents
  induction rows with
  | nil => simp
  | cons kv rows ih =>
      obtain ⟨hFirst, hRest⟩ := List.pairwise_cons.mp hSorted
      rw [List.find?_cons, List.mem_cons]
      by_cases hKey : kv.key = key
      · have hLater : ⟨key, value⟩ ∉ rows := fun hMem => (hFirst _ hMem).ne hKey
        rw [beq_iff_eq.mpr hKey, or_iff_left hLater, Option.map_some, Option.some_inj]
        constructor
        · intro hValue
          rw [← hKey, ← hValue]
        · intro hSame
          rw [← hSame]
      · have hOther : ⟨key, value⟩ ≠ kv := fun hSame => hKey (congrArg KVPair.key hSame.symm)
        rw [beq_eq_false_iff_ne.mpr hKey, or_iff_right hOther]
        exact ih hRest

/-- Any part of the rows is found by the keys it is made of. -/
theorem mem_filter_iff (table : SortedTable) (selects : Bytes → Bool) (kv : KVPair) :
    kv ∈ table.rows.filter (fun row => selects row.key) ↔
      table.contents kv.key = some kv.value ∧ selects kv.key = true := by
  rw [List.mem_filter, contents_eq_some_iff]

theorem filter_sorted (table : SortedTable) (selects : KVPair → Bool) :
    (table.rows.filter selects).Pairwise fun a b => a.key < b.key :=
  table.sorted.sublist List.filter_sublist

end SortedTable
end CelerMem
