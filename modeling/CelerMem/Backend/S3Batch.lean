import CelerMem.Backend.S3
import Mathlib

/-! The batch of S3: its puts come first and its deletes last, so it is the batch of the
other backends for some lists of operations only. -/
namespace CelerMem
namespace S3Backend

open Edits

variable {ω : Type} {backend : S3Backend ω} {objects : ω → Contents} {w w' : ω}

/-- An operation on the object of its key. -/
def resolveOp (backend : S3Backend ω) (op : BatchOp) : BatchOp :=
  { op with key := backend.resolveKey op.key }

theorem resolveKey_injective (backend : S3Backend ω) : Function.Injective backend.resolveKey :=
  fun _ _ h => List.append_cancel_left h

theorem putAll_objects (hStores : backend.client.Stores objects) {puts : List (Bytes × Bytes)}
    (h : backend.putAll puts w = (.ok (), w')) :
    objects w' = apply (objects w) (puts.map fun p => (backend.resolveKey p.1, some p.2)) := by
  induction puts generalizing w with
  | nil =>
      obtain ⟨-, rfl⟩ := Prod.mk.inj h
      rfl
  | cons p puts ih =>
      obtain ⟨key, value⟩ := p
      rw [putAll] at h
      cases hPut : backend.put key value w with
      | mk result w₁ =>
          rw [hPut] at h
          cases result with
          | error e => cases (Prod.mk.inj h).1
          | ok _ =>
              rw [put] at hPut
              split at hPut
              · cases (Prod.mk.inj hPut).1
              · rename_i hObject
                obtain ⟨-, rfl⟩ := Prod.mk.inj hPut
                rw [List.map_cons, apply_cons, ← hStores.putObject hObject]
                exact ih h

theorem deleteAll_objects {client : S3Client ω} (hStores : client.Stores objects)
    {deleteKeys : List Bytes} (h : deleteAll client deleteKeys w = (.ok (), w')) (key : Bytes) :
    objects w' key = if key ∈ deleteKeys then none else objects w key := by
  induction deleteKeys, w using deleteAll.induct client with
  | case1 w =>
      rw [deleteAll] at h
      obtain ⟨-, rfl⟩ := Prod.mk.inj h
      rw [if_neg List.not_mem_nil]
  | case2 w first rest err w₁ hDelete =>
      rw [deleteAll, hDelete] at h
      cases (Prod.mk.inj h).1
  | case3 w first rest failed message errors w₁ hDelete =>
      rw [deleteAll, hDelete] at h
      cases (Prod.mk.inj h).1
  | case4 w first rest w₁ hDelete ih =>
      rw [deleteAll, hDelete] at h
      rw [ih h, hStores.deleteObjects hDelete]
      have hSplit : key ∈ first :: rest ↔ key ∈ (first :: rest).drop maxKeysPerCall ∨
          key ∈ (first :: rest).take maxKeysPerCall := by
        rw [or_comm, ← List.mem_append, List.take_append_drop]
      by_cases hLater : key ∈ (first :: rest).drop maxKeysPerCall
      · rw [if_pos hLater, if_pos (hSplit.mpr (Or.inl hLater))]
      · rw [if_neg hLater]
        exact if_congr ((or_iff_right hLater).symm.trans hSplit.symm) rfl rfl

/-- The partition keeps the order of the puts and that of the deletes. -/
theorem partitionOps_ok {ops : List BatchOp} {puts : List (Bytes × Bytes)} {deleteKeys : List Bytes}
    (h : backend.partitionOps ops = .ok (puts, deleteKeys)) :
    (∀ op ∈ ops, op.Complete) ∧
      puts.map (fun p => (backend.resolveKey p.1, some p.2)) =
        (ops.map fun op => (backend.resolveOp op).edit).filter sets ∧
      deleteKeys.map (fun key => (key, none)) =
        (ops.map fun op => (backend.resolveOp op).edit).filter fun e => !sets e := by
  induction ops generalizing puts deleteKeys with
  | nil =>
      obtain ⟨rfl, rfl⟩ := Prod.mk.inj (Except.ok.inj h)
      exact ⟨by simp, rfl, rfl⟩
  | cons op ops ih =>
      obtain ⟨kind, cfName, key, value⟩ := op
      rw [partitionOps] at h
      cases hRest : backend.partitionOps ops with
      | error e =>
          rw [hRest] at h
          cases kind with
          | del => cases h
          | put => cases value <;> cases h
      | ok parts =>
          obtain ⟨morePuts, moreKeys⟩ := parts
          obtain ⟨hComplete, hPuts, hDeletes⟩ := ih hRest
          rw [hRest] at h
          cases kind with
          | del =>
              obtain ⟨rfl, rfl⟩ := Prod.mk.inj (Except.ok.inj h)
              refine ⟨?_, hPuts, ?_⟩
              · intro op hMem
                rcases List.mem_cons.mp hMem with rfl | hMem
                · exact fun hKind => nomatch hKind
                · exact hComplete op hMem
              · exact congrArg ((backend.resolveKey key, none) :: ·) hDeletes
          | put =>
              cases value with
              | none => cases h
              | some value =>
                  obtain ⟨rfl, rfl⟩ := Prod.mk.inj (Except.ok.inj h)
                  refine ⟨?_, ?_, hDeletes⟩
                  · intro op hMem
                    rcases List.mem_cons.mp hMem with rfl | hMem
                    · exact fun _ hNone => nomatch hNone
                    · exact hComplete op hMem
                  · exact congrArg ((backend.resolveKey key, some value) :: ·) hPuts

/-- What a batch does to the objects. -/
theorem batch_objects (hStores : backend.client.Stores objects) {ops : List BatchOp}
    (h : backend.batch ops w = (.ok (), w')) :
    (∀ op ∈ ops, op.Complete) ∧
      objects w' = setsFirst (objects w) (ops.map fun op => (backend.resolveOp op).edit) := by
  rw [batch] at h
  cases hParts : backend.partitionOps ops with
  | error e =>
      rw [hParts] at h
      cases (Prod.mk.inj h).1
  | ok parts =>
      obtain ⟨puts, deleteKeys⟩ := parts
      obtain ⟨hComplete, hPuts, hDeletes⟩ := partitionOps_ok hParts
      refine ⟨hComplete, ?_⟩
      rw [hParts] at h
      cases hRun : backend.putAll puts w with
      | mk result w₁ =>
          simp only [hRun] at h
          cases result with
          | error e => cases (Prod.mk.inj h).1
          | ok _ =>
              funext key
              have hRemovals : ∀ e ∈ deleteKeys.map (fun key => ((key, none) : Bytes × Option Bytes)),
                  e.2 = none := by
                intro e hMem
                obtain ⟨key, -, rfl⟩ := List.mem_map.mp hMem
                rfl
              have hKeys : (deleteKeys.map fun key => ((key, none) : Bytes × Option Bytes)).map
                  Prod.fst = deleteKeys := by
                rw [List.map_map]
                exact List.map_id deleteKeys
              rw [setsFirst, ← hPuts, ← hDeletes, ← putAll_objects hStores hRun,
                apply_removals hRemovals, hKeys, deleteAll_objects hStores h key]
              by_cases hMem : key ∈ deleteKeys
              · rw [if_pos hMem, if_pos hMem]
              · rw [if_neg hMem, if_neg hMem]

/-- A successful batch is its operations in order if and only if no key is put by the last of
its operations and deleted by an earlier one. -/
theorem batch_in_order_iff (hStores : backend.client.Stores objects) {ops : List BatchOp}
    (h : backend.batch ops w = (.ok (), w')) :
    applyOps (ops.map backend.resolveOp) (objects w) = .ok (objects w') ↔
      ∀ before op after, ops = before ++ op :: after → op.kind = .put →
        (∀ later ∈ after, later.key ≠ op.key) →
          ∀ earlier ∈ before, earlier.key = op.key → earlier.kind ≠ .del := by
  obtain ⟨hComplete, hObjects⟩ := batch_objects hStores h
  have hResolved : ∀ op ∈ ops.map backend.resolveOp, op.Complete := by
    intro op hMem
    obtain ⟨plain, hPlain, rfl⟩ := List.mem_map.mp hMem
    exact hComplete plain hPlain
  have hEdit : ∀ op ∈ ops, (backend.resolveOp op).edit.2 = none ↔ op.kind = .del :=
    fun op hMem => BatchOp.edit_snd_eq_none_iff (hComplete op hMem)
  rw [applyOps_eq hResolved, List.map_map, Except.ok.injEq, hObjects, eq_comm]
  refine (setsFirst_eq_apply_iff _ _).trans ?_
  constructor
  · rintro hOrder before op after rfl hPut hLast earlier hEarlier hKey hDel
    have hValue : (backend.resolveOp op).edit.2 ≠ none := by
      rw [Ne, hEdit op (by simp), hPut]
      exact fun hKind => nomatch hKind
    obtain ⟨value, hValue⟩ := Option.ne_none_iff_exists'.mp hValue
    have hSet : (backend.resolveOp op).edit = (backend.resolveKey op.key, some value) :=
      Prod.ext (BatchOp.edit_fst _) hValue
    have hRemoved : (backend.resolveOp earlier).edit = (backend.resolveKey op.key, none) := by
      have hNone := (hEdit earlier (List.mem_append_left _ hEarlier)).mpr hDel
      exact Prod.ext ((BatchOp.edit_fst _).trans (congrArg backend.resolveKey hKey)) hNone
    refine hOrder (before.map fun op => (backend.resolveOp op).edit) (backend.resolveKey op.key)
      value (after.map fun op => (backend.resolveOp op).edit) ?_ ?_ ?_
    · rw [List.map_append, List.map_cons, hSet]
    · intro hLater
      obtain ⟨e, hEdit, hSame⟩ := List.mem_map.mp hLater
      obtain ⟨later, hMem, rfl⟩ := List.mem_map.mp hEdit
      rw [BatchOp.edit_fst] at hSame
      exact hLast later hMem (backend.resolveKey_injective hSame)
    · exact List.mem_map.mpr ⟨earlier, hEarlier, hRemoved⟩
  · intro hOrder edited key value rest hEdits hLast hRemoved
    obtain ⟨before, later, rfl, rfl, hRest⟩ := List.map_eq_append_iff.mp hEdits
    obtain ⟨op, after, rfl, hSet, rfl⟩ := List.map_eq_cons_iff.mp hRest
    obtain ⟨earlier, hEarlier, hNone⟩ := List.mem_map.mp hRemoved
    have hKey : backend.resolveKey op.key = key :=
      (BatchOp.edit_fst _).symm.trans (congrArg Prod.fst hSet)
    have hKey' : backend.resolveKey earlier.key = key :=
      (BatchOp.edit_fst _).symm.trans (congrArg Prod.fst hNone)
    refine hOrder before op after rfl ?_ ?_ earlier hEarlier
      (backend.resolveKey_injective (hKey'.trans hKey.symm)) ?_
    · cases hKind : op.kind with
      | put => rfl
      | del =>
          have hAbsent := (hEdit op (by simp)).mpr hKind
          rw [show (backend.resolveOp op).edit = (key, some value) from hSet] at hAbsent
          cases hAbsent
    · intro other hMem hSame
      apply hLast
      refine List.mem_map.mpr ⟨_, List.mem_map.mpr ⟨other, hMem, rfl⟩, ?_⟩
      rw [← hKey, ← hSame]
      exact BatchOp.edit_fst _
    · exact (hEdit earlier (List.mem_append_left _ hEarlier)).mp (congrArg Prod.snd hNone)

/-! ## Two operations on one key -/

open Materialization (Memory)

/-- A bucket with one object, where the ranges of a stream are of two bytes. -/
def oneObject : Memory := ⟨[⟨ascii "t/a", [7]⟩], by simp, []⟩

def smallRanges : S3Backend Memory := ⟨memoryClient, ascii "t/", 2, Nat.zero_lt_two⟩

def putThenDelete : List BatchOp :=
  [⟨.put, [], ascii "a", some [8]⟩, ⟨.put, [], ascii "b", some [9]⟩, ⟨.del, [], ascii "a", none⟩]

def deleteThenPut : List BatchOp :=
  [⟨.del, [], ascii "a", none⟩, ⟨.put, [], ascii "a", some [8]⟩]

theorem smallRanges_batch_putThenDelete : smallRanges.batch putThenDelete oneObject =
    (.ok (), ((oneObject.insert (ascii "t/a") [8]).insert (ascii "t/b") [9]).erase
      (ascii "t/a")) := by
  simp [batch, putThenDelete, partitionOps, putAll, put, smallRanges, memoryClient, deleteAll,
    maxKeysPerCall]
  rfl

theorem smallRanges_batch_deleteThenPut : smallRanges.batch deleteThenPut oneObject =
    (.ok (), (oneObject.insert (ascii "t/a") [8]).erase (ascii "t/a")) := by
  simp [batch, deleteThenPut, partitionOps, putAll, put, smallRanges, memoryClient, deleteAll,
    maxKeysPerCall]
  rfl

/-- A key that is put first and deleted later. -/
theorem batch_in_order_iff_putThenDelete :
    applyOps (putThenDelete.map smallRanges.resolveOp) oneObject.contents =
      .ok (((oneObject.insert (ascii "t/a") [8]).insert (ascii "t/b") [9]).erase
        (ascii "t/a")).contents ↔
      ∀ before op after, putThenDelete = before ++ op :: after → op.kind = .put →
        (∀ later ∈ after, later.key ≠ op.key) →
          ∀ earlier ∈ before, earlier.key = op.key → earlier.kind ≠ .del :=
  batch_in_order_iff memoryClient_stores smallRanges_batch_putThenDelete

/-- The object that is put last is gone. -/
theorem batch_loses_put : ¬ ∀ m', smallRanges.batch deleteThenPut oneObject = (.ok (), m') →
    applyOps (deleteThenPut.map smallRanges.resolveOp) oneObject.contents = .ok m'.contents := by
  intro h
  have hSame := congrFun (Except.ok.inj (h _ smallRanges_batch_deleteThenPut)) (ascii "t/a")
  rw [Memory.contents_erase, Function.update_self] at hSame
  cases hSame

end S3Backend
end CelerMem
