import CelerMem.Backend.QPDFWrites
import CelerMem.Backend.S3Batch
import CelerMem.Backend.S3Get
import Mathlib

/-! The value that is put against the one that `get` returns. Both backends collect a stream,
and take an empty result for no value. -/
namespace CelerMem

variable {ω : Type}

/-- `get` returns the value of the key, and for other keys what it returned before. -/
def ReadsBack (before after : Bytes → Option (Result (Option Bytes))) (key value : Bytes) : Prop :=
  after key = some (.ok (some value)) ∧ ∀ other, other ≠ key → after other = before other

/-! ## QPDF -/

namespace QPDFBackend
variable [Libqpdf]

omit [Libqpdf] in
/-- A value is read back if and only if it is not empty and fits into a chunk. -/
theorem answer_eq_iff (value : Bytes) :
    answer (some value) = some value ↔ value ≠ [] ∧ value.length < uint32Size := by
  have hArrives : (Chunk.from value).toList = value ↔ value.length < uint32Size := by
    constructor
    · intro hSame
      have hLength := (Chunk.from value).size_lt
      rwa [← Chunk.length_toList, hSame] at hLength
    · exact Chunk.toList_from_of_lt
  rw [← hArrives]
  exact collected_eq_iff

theorem put_readsBack_iff {backend : QPDFBackend} {key value : Bytes} {outcome : WriteOutcome}
    (h : (backend.put key value outcome).1 = .ok ()) :
    ReadsBack backend.get (backend.put key value outcome).2.get key value ↔
      value ≠ [] ∧ value.length < uint32Size := by
  obtain ⟨state, tableName⟩ := backend
  cases state with
  | none => cases h
  | some state =>
      obtain ⟨state', hState, hEdited⟩ := run_edited state tableName (.put key value) outcome
      have hContents : state'.pdf.contents tableName =
          Function.update (state.pdf.contents tableName) key (some value) := by
        rw [hEdited.contents, Function.update_self]
        rfl
      change (put ⟨some state, tableName⟩ key value outcome).2 = _ at hState
      rw [hState, ReadsBack, get_eq, hContents, Function.update_self, Option.some_inj,
        Except.ok.injEq, answer_eq_iff]
      refine and_iff_left ?_
      intro other hOther
      rw [get_eq, get_eq, hContents, Function.update_of_ne hOther]

end QPDFBackend

/-! ## S3 -/

namespace S3Backend
variable {backend : S3Backend ω} {objects : ω → Contents} {w : ω} {key value : Bytes}

theorem put_readsBack_iff (hStores : backend.client.Stores objects)
    (h : (backend.put key value w).1 = .ok ()) (hReads : backend.client.Reads (objects w) w)
    (hReads' : backend.client.Reads (objects (backend.put key value w).2)
      (backend.put key value w).2) :
    ReadsBack (backend.get · w) (backend.get · (backend.put key value w).2) key value ↔
      value ≠ [] ∧ min backend.chunkSize value.length < uint32Size := by
  have hObjects : objects (backend.put key value w).2 =
      Function.update (objects w) (backend.resolveKey key) (some value) := by
    unfold put at h ⊢
    split at h
    · cases h
    · rename_i w' hPut
      exact hStores.putObject hPut
  rw [ReadsBack, get_eq hReads', hObjects, Function.update_self, Option.some_inj,
    Except.ok.injEq, answer_eq_iff]
  refine and_iff_left ?_
  intro other hOther
  rw [get_eq hReads', get_eq hReads, hObjects,
    Function.update_of_ne (backend.resolveKey_injective.ne hOther)]

end S3Backend

/-! ## Both -/

/-- A value that was put is returned, and other keys are as they were, if and only if it is not
empty and the chunks of the streams can take it. -/
theorem put_get_iff [Libqpdf] {key value : Bytes} {qpdf : QPDFBackend} {outcome : WriteOutcome}
    (hQpdf : (qpdf.put key value outcome).1 = .ok ()) {s3 : S3Backend ω} {objects : ω → Contents}
    {w : ω} (hStores : s3.client.Stores objects) (hS3 : (s3.put key value w).1 = .ok ())
    (hReads : s3.client.Reads (objects w) w)
    (hReads' : s3.client.Reads (objects (s3.put key value w).2) (s3.put key value w).2) :
    (ReadsBack qpdf.get (qpdf.put key value outcome).2.get key value ↔
      value ≠ [] ∧ value.length < uint32Size) ∧
    (ReadsBack (s3.get · w) (s3.get · (s3.put key value w).2) key value ↔
      value ≠ [] ∧ min s3.chunkSize value.length < uint32Size) :=
  ⟨QPDFBackend.put_readsBack_iff hQpdf, S3Backend.put_readsBack_iff hStores hS3 hReads hReads'⟩

open S3Backend (smallRanges oneObject)

theorem put_get_iff_small :
    (ReadsBack (QPDFBackend.get ⟨some QPDFScopeState.fresh, ascii "t"⟩)
      (QPDFBackend.put ⟨some QPDFScopeState.fresh, ascii "t"⟩ (ascii "b") [8] .written).2.get
      (ascii "b") [8] ↔ ([8] : Bytes) ≠ [] ∧ ([8] : Bytes).length < uint32Size) ∧
    (ReadsBack (smallRanges.get · oneObject)
      (smallRanges.get · (smallRanges.put (ascii "b") [8] oneObject).2) (ascii "b") [8] ↔
      ([8] : Bytes) ≠ [] ∧ min smallRanges.chunkSize ([8] : Bytes).length < uint32Size) :=
  put_get_iff rfl memoryClient_stores rfl (memoryClient_reads (by decide))
    (memoryClient_reads (by decide))

/-- Both backends take an empty value for no value. -/
theorem put_loses_empty_value :
    (¬ ∀ (state : QPDFScopeState) (tableName key value : Bytes) (outcome : WriteOutcome),
      state.Reachable → (QPDFBackend.put ⟨some state, tableName⟩ key value outcome).1 = .ok () →
        ReadsBack (QPDFBackend.get ⟨some state, tableName⟩)
          (QPDFBackend.put ⟨some state, tableName⟩ key value outcome).2.get key value) ∧
    ¬ ∀ key value : Bytes, (smallRanges.put key value oneObject).1 = .ok () →
      ReadsBack (smallRanges.get · oneObject)
        (smallRanges.get · (smallRanges.put key value oneObject).2) key value := by
  constructor
  · intro h
    have hRead := h QPDFScopeState.fresh (ascii "t") (ascii "b") [] .written
      QPDFScopeState.fresh_reachable rfl
    exact ((QPDFBackend.put_readsBack_iff rfl).mp hRead).1 rfl
  · intro h
    have hRead := h (ascii "b") [] rfl
    exact ((S3Backend.put_readsBack_iff memoryClient_stores rfl (memoryClient_reads (by decide))
      (memoryClient_reads (by decide))).mp hRead).1 rfl

end CelerMem
