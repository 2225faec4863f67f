import CelerMem.Backend.QPDFWrites
import Mathlib

/-! Writes of `QPDFBackend` that fail. What a call has done to the document is not undone, so
nothing changes only if the call would not change anything in the first place. -/
namespace CelerMem

/-- The last edit of each key, before a put without a value, gives it what it has. -/
def WriteCall.Restates (call : WriteCall) (contents : Contents) : Prop :=
  ∀ before key value after, call.edits = before ++ (key, value) :: after →
    key ∉ after.map Prod.fst → contents key = value

namespace QPDFBackend

open QPDFScopeState

section Failure
variable [Libqpdf]

/-- Each table of the scope is read as before. -/
structure SameReads (before after : QPDFBackend) : Prop where
  get : ∀ tableName key,
    get { after with tableName } key = get { before with tableName } key
  prefixScan : ∀ tableName start,
    prefixScan { after with tableName } start = prefixScan { before with tableName } start

variable {state state' : QPDFScopeState} {tableName : Bytes} {call : WriteCall}
  {outcome : WriteOutcome}

theorem sameReads_iff (hNamed : state.pdf.Named) (hNamed' : state'.pdf.Named) :
    SameReads ⟨some state, tableName⟩ ⟨some state', tableName⟩ ↔
      state'.pdf.contents = state.pdf.contents := by
  constructor
  · intro hSame
    funext table
    have hScan := hSame.prefixScan table []
    rw [prefixScan_eq, prefixScan_eq, Option.some_inj, Except.ok.injEq] at hScan
    have hScanned := QPDFScanStream.takeSnapshot_scanned hNamed table []
    have hScanned' := QPDFScanStream.takeSnapshot_scanned hNamed' table []
    rw [hScan] at hScanned'
    exact hScanned'.contents_eq hScanned
  · intro hContents
    constructor
    · intro table key
      rw [get_eq, get_eq, hContents]
    · intro table start
      have hScanned := QPDFScanStream.takeSnapshot_scanned hNamed table start
      have hScanned' := QPDFScanStream.takeSnapshot_scanned hNamed' table start
      rw [hContents] at hScanned'
      rw [prefixScan_eq, prefixScan_eq, hScanned'.unique hScanned]

/-! ## Calls that do not fail -/

theorem flushLocked_ok_iff (state : QPDFScopeState) (outcome : WriteOutcome) :
    (state.flushLocked outcome).1 = .ok () ↔ state.dirty = false ∨ outcome = .written := by
  unfold flushLocked
  cases state.dirty with
  | false => simp
  | true =>
      cases outcome with
      | written => simp [atomicWritePdf]
      | notWritten what => simp [atomicWritePdf]
      | notRenamed message => simp [atomicWritePdf]

theorem flushTable_ok_iff (backend : QPDFBackend) (state : QPDFScopeState)
    (tableDict : PdfDictionary PdfObject) (dirty : Bool) (outcome : WriteOutcome) :
    (backend.flushTable state tableDict dirty outcome).1 = .ok () ↔
      dirty = false ∨ outcome = .written :=
  flushLocked_ok_iff _ outcome

theorem editTable_ok_iff (ops : List BatchOp) (tableDict : PdfDictionary PdfObject)
    (dirty : Bool) :
    (editTable ops tableDict dirty).1 = .ok () ↔ ∀ op ∈ ops, op.Complete := by
  induction ops generalizing tableDict dirty with
  | nil => simp [editTable]
  | cons op ops ih =>
      obtain ⟨kind, cfName, key, value⟩ := op
      rw [editTable, List.forall_mem_cons]
      cases kind with
      | put =>
          cases value with
          | none => simp [BatchOp.Complete]
          | some value => simp [BatchOp.Complete, ih]
      | del =>
          dsimp only
          split
          · simp [BatchOp.Complete, ih]
          · simp [BatchOp.Complete, ih]

/-- Without a reason to write, the loop of a batch has changed nothing. -/
theorem editTable_clean {ops : List BatchOp} {tableDict : PdfDictionary PdfObject} {dirty : Bool}
    (h : (editTable ops tableDict dirty).2.2 = false) :
    dirty = false ∧ (editTable ops tableDict dirty).2.1 = tableDict := by
  induction ops generalizing tableDict dirty with
  | nil => exact ⟨h, rfl⟩
  | cons op ops ih =>
      obtain ⟨kind, cfName, key, value⟩ := op
      rw [editTable] at h ⊢
      cases kind with
      | put =>
          cases value with
          | none => exact ⟨h, rfl⟩
          | some value => exact absurd (ih h).1 Bool.true_eq_false.mp
      | del =>
          dsimp only at h ⊢
          split at h
          · exact absurd (ih h).1 Bool.true_eq_false.mp
          · rename_i hAbsent
            rw [if_neg hAbsent]
            exact ih h

theorem run_ok_of_written (state : QPDFScopeState) (tableName : Bytes)
    (hComplete : ∀ op ∈ call.ops, op.Complete) :
    (run ⟨some state, tableName⟩ call .written).1 = .ok () := by
  cases call with
  | put key value => exact (flushTable_ok_iff _ _ _ _ _).mpr (Or.inr rfl)
  | del key =>
      rw [run, del]
      dsimp only
      split
      · exact (flushTable_ok_iff _ _ _ _ _).mpr (Or.inr rfl)
      · rfl
  | batch ops =>
      have hLoop := (editTable_ok_iff ops (state.getTableDictLocked tableName).1
        (state.getTableDictLocked tableName).2.dirty).mpr hComplete
      rw [run, batch]
      dsimp only
      split
      · rename_i hError
        rw [hError] at hLoop
        cases hLoop
      · exact (flushTable_ok_iff _ _ _ _ _).mpr (Or.inr rfl)

/-- A call that does not fail has values for its puts. -/
theorem complete_of_run_ok (h : (run ⟨some state, tableName⟩ call outcome).1 = .ok ()) :
    ∀ op ∈ call.ops, op.Complete := by
  cases call with
  | put key value => simp [WriteCall.ops, BatchOp.Complete]
  | del key => simp [WriteCall.ops, BatchOp.Complete]
  | batch ops =>
      apply (editTable_ok_iff ops (state.getTableDictLocked tableName).1
        (state.getTableDictLocked tableName).2.dirty).mp
      rw [run, batch] at h
      dsimp only at h
      split at h
      · cases h
      · rename_i hLoop
        rw [hLoop]

/-- A call that does not fail, although the file could not be written, has nothing to write. -/
theorem apply_of_run_ok (h : (run ⟨some state, tableName⟩ call outcome).1 = .ok ())
    (hOutcome : outcome ≠ .written) :
    Edits.apply (state.pdf.contents tableName) call.edits = state.pdf.contents tableName := by
  cases call with
  | put key value =>
      rcases (flushTable_ok_iff _ _ _ _ _).mp h with hClean | hWritten
      · cases hClean
      · exact absurd hWritten hOutcome
  | del key =>
      rw [run, del] at h
      dsimp only at h
      split at h
      · rcases (flushTable_ok_iff _ _ _ _ _).mp h with hClean | hWritten
        · cases hClean
        · exact absurd hWritten hOutcome
      · rename_i hAbsent
        exact update_contents_of_not_hasKey hAbsent
  | batch ops =>
      rw [← (getTableDictLocked_spec state tableName).1, ← (editTable_spec ops _
        (state.getTableDictLocked tableName).2.dirty).1]
      apply congrArg PdfDictionary.contents
      rw [run, batch] at h
      dsimp only at h
      split at h
      · cases h
      · rename_i tableDict dirty hLoop
        rcases (flushTable_ok_iff _ _ _ _ _).mp h with hClean | hWritten
        · refine (editTable_clean ?_).2
          rw [hLoop]
          exact hClean
        · exact absurd hWritten hOutcome

/-! ## Calls that fail -/

/-- If a call fails, each table is read as before: exactly where the backend is closed, where
the file is written and no put lacks a value, or where the call restates the table. -/
theorem failed_call_sameReads_iff {backend : QPDFBackend}
    (hReachable : ∀ state, backend.state = some state → state.Reachable) (call : WriteCall)
    (outcome : WriteOutcome) :
    (∀ e, (backend.run call outcome).1 = .error e →
      SameReads backend (backend.run call outcome).2) ↔
    ∀ state, backend.state = some state →
      (outcome = .written ∧ ∀ op ∈ call.ops, op.Complete) ∨
        call.Restates (state.pdf.contents backend.tableName) := by
  obtain ⟨state, tableName⟩ := backend
  cases state with
  | none =>
      rw [run_closed]
      refine iff_of_true (fun _ _ => ⟨fun _ _ => rfl, fun _ _ => rfl⟩) ?_
      intro state hState
      cases hState
  | some state =>
      have hNamed := (hReachable state rfl).named
      obtain ⟨state', hState, hEdited⟩ := run_edited state tableName call outcome
      have hSame : SameReads ⟨some state, tableName⟩ (run ⟨some state, tableName⟩ call outcome).2 ↔
          call.Restates (state.pdf.contents tableName) := by
        rw [hState, sameReads_iff hNamed.pdf (hEdited.named hNamed).pdf, hEdited.contents,
          Function.update_eq_self_iff, Edits.apply_eq_self_iff]
        rfl
      rw [hSame]
      constructor
      · intro hHolds other hOther
        obtain rfl := Option.some.inj hOther
        cases hResult : (run ⟨some state, tableName⟩ call outcome).1 with
        | error e => exact Or.inr (hHolds e hResult)
        | ok _ =>
            by_cases hOutcome : outcome = .written
            · exact Or.inl ⟨hOutcome, complete_of_run_ok hResult⟩
            · exact Or.inr (Edits.apply_eq_self_iff.mp (apply_of_run_ok hResult hOutcome))
      · intro hCond e hFail
        rcases hCond state rfl with ⟨rfl, hComplete⟩ | hRestates
        · rw [run_ok_of_written state tableName hComplete] at hFail
          cases hFail
        · exact hRestates

end Failure

theorem failed_call_sameReads_iff_fresh :
    (∀ e, (run ⟨some fresh, ascii "t"⟩ (.put (ascii "a") [7]) (.notWritten "disk full")).1 =
        .error e →
      SameReads ⟨some fresh, ascii "t"⟩
        (run ⟨some fresh, ascii "t"⟩ (.put (ascii "a") [7]) (.notWritten "disk full")).2) ↔
    ∀ state, some fresh = some state →
      (WriteOutcome.notWritten "disk full" = .written ∧
        ∀ op ∈ (WriteCall.put (ascii "a") [7]).ops, op.Complete) ∨
        (WriteCall.put (ascii "a") [7]).Restates (state.pdf.contents (ascii "t")) := by
  have hReachable : ∀ state, some fresh = some state → state.Reachable := by
    intro state hState
    obtain rfl := Option.some.inj hState
    exact fresh_reachable
  exact failed_call_sameReads_iff hReachable _ _

/-- A value that could not be written to the file is returned from then on. -/
theorem failed_put_stays : ¬ ∀ (state : QPDFScopeState) (tableName : Bytes) (call : WriteCall)
    (outcome : WriteOutcome) (e : Error), state.Reachable →
      (run ⟨some state, tableName⟩ call outcome).1 = .error e →
        SameReads ⟨some state, tableName⟩ (run ⟨some state, tableName⟩ call outcome).2 := by
  intro h
  have hSame := h fresh (ascii "t") (.put (ascii "a") [7]) (.notWritten "disk full") _
    fresh_reachable rfl
  obtain ⟨state', hState, hEdited⟩ := run_edited fresh (ascii "t") (.put (ascii "a") [7])
    (.notWritten "disk full")
  have hNamed := fresh_reachable.named
  rw [hState, sameReads_iff hNamed.pdf (hEdited.named hNamed).pdf, hEdited.contents,
    Function.update_eq_self_iff] at hSame
  have hKey := congrFun hSame (ascii "a")
  change Function.update (fresh.pdf.contents (ascii "t")) (ascii "a") (some [7]) (ascii "a") = none
    at hKey
  rw [Function.update_self] at hKey
  cases hKey

end QPDFBackend
end CelerMem
