import CelerMem.Backend.QPDFTables
import Mathlib

/-! What the writes of `QPDFBackend` do to the tables of a scope, whether they fail or not, and
the states of a scope that they lead to. -/
namespace CelerMem

open PdfDictionaries

/-! ## Calls -/

instance (op : BatchOp) : Decidable op.Complete :=
  inferInstanceAs (Decidable (op.kind = .put → op.value ≠ none))

inductive WriteCall where
  | put (key value : Bytes)
  | del (key : Bytes)
  | batch (ops : List BatchOp)

def QPDFBackend.run [Libqpdf] (backend : QPDFBackend) (call : WriteCall) (outcome : WriteOutcome) :
    VoidResult × QPDFBackend :=
  match call with
  | .put key value => backend.put key value outcome
  | .del key => backend.del key outcome
  | .batch ops => backend.batch ops outcome

namespace WriteCall

def ops : WriteCall → List BatchOp
  | .put key value => [⟨.put, [], key, some value⟩]
  | .del key => [⟨.del, [], key, none⟩]
  | .batch ops => ops

/-- The edits that are made before the first put without a value. -/
def edits (call : WriteCall) : List (Bytes × Option Bytes) :=
  (call.ops.takeWhile fun op => op.Complete).map BatchOp.edit

end WriteCall

variable [Libqpdf]

/-! ## What a call leaves behind -/

namespace QPDFScopeState
variable {state state' : QPDFScopeState} {tableName : Bytes}

/-- The names are those of keys, in the document and in the one of the file. -/
structure Named (state : QPDFScopeState) : Prop where
  pdf : state.pdf.Named
  file : ∀ file, state.file = some file → (Libqpdf.processFile file).Named

/-- One table has been edited, and the names are still those of keys. -/
structure Edited (state : QPDFScopeState) (tableName : Bytes)
    (edits : List (Bytes × Option Bytes)) (state' : QPDFScopeState) : Prop where
  contents : state'.pdf.contents = Function.update state.pdf.contents tableName
    (Edits.apply (state.pdf.contents tableName) edits)
  named : state.Named → state'.Named

theorem flushLocked_cases (state : QPDFScopeState) (outcome : WriteOutcome) :
    (state.flushLocked outcome).2.pdf = state.pdf ∧
      ((state.flushLocked outcome).2.file = state.file ∨
        (state.flushLocked outcome).2.file = some (Libqpdf.write state.pdf)) := by
  unfold flushLocked
  split
  · exact ⟨rfl, Or.inl rfl⟩
  · cases outcome with
    | written => exact ⟨rfl, Or.inr rfl⟩
    | notWritten what => exact ⟨rfl, Or.inl rfl⟩
    | notRenamed message => exact ⟨rfl, Or.inl rfl⟩

theorem Named.flushLocked (h : state.Named) (outcome : WriteOutcome) :
    (state.flushLocked outcome).2.Named := by
  obtain ⟨hPdf, hFile⟩ := flushLocked_cases state outcome
  refine ⟨hPdf ▸ h.pdf, ?_⟩
  intro file hSome
  rcases hFile with hKept | hWritten
  · exact h.file file (hKept ▸ hSome)
  · obtain rfl := Option.some.inj (hWritten.symm.trans hSome)
    exact h.pdf.processFile_write

theorem getTableDictLocked_file (state : QPDFScopeState) (tableName : Bytes) :
    (state.getTableDictLocked tableName).2.file = state.file := by
  cases hTable : state.pdf.tableDict tableName with
  | none => rw [getTableDictLocked_none hTable, setTableDict]
  | some tableDict => rw [getTableDictLocked_some hTable]

theorem Named.getTableDictLocked (h : state.Named) (tableName : Bytes) :
    PdfDictionary.Named (state.getTableDictLocked tableName).1 ∧
      (state.getTableDictLocked tableName).2.Named := by
  obtain ⟨-, -, hNames⟩ := getTableDictLocked_spec state tableName
  obtain ⟨hDict, hPdf⟩ := hNames h.pdf
  refine ⟨hDict, hPdf, ?_⟩
  rw [getTableDictLocked_file]
  exact h.file

/-- To remove a key that the table does not have changes nothing. -/
theorem update_contents_of_not_hasKey {key : Bytes}
    (h : ¬ (state.getTableDictLocked tableName).1.hasKey (encodePdfName key)) :
    Function.update (state.pdf.contents tableName) key none = state.pdf.contents tableName := by
  rw [← (getTableDictLocked_spec state tableName).1]
  exact PdfDictionary.update_contents_of_not_hasKey h

variable {edits : List (Bytes × Option Bytes)}

theorem Edited.flushLocked (h : state.Edited tableName edits state') (outcome : WriteOutcome) :
    state.Edited tableName edits (state'.flushLocked outcome).2 := by
  refine ⟨?_, fun hNamed => (h.named hNamed).flushLocked outcome⟩
  rw [(flushLocked_cases state' outcome).1]
  exact h.contents

/-- The dictionary of the table has been changed, after it was found or created. -/
theorem edited_setTableDict {tableDict : PdfDictionary PdfObject}
    (hEdits : PdfDictionary.contents tableDict =
      Edits.apply (PdfDictionary.contents (state.getTableDictLocked tableName).1) edits)
    (hNamed : PdfDictionary.Named (state.getTableDictLocked tableName).1 →
      PdfDictionary.Named tableDict) (dirty : Bool) :
    state.Edited tableName edits
      { (state.getTableDictLocked tableName).2.setTableDict tableName tableDict with dirty } := by
  obtain ⟨hTable, hRest, -⟩ := getTableDictLocked_spec state tableName
  refine ⟨?_, ?_⟩
  · change ((state.getTableDictLocked tableName).2.setTableDict tableName
      tableDict).pdf.contents = _
    rw [contents_setTableDict, hRest, hEdits, hTable]
  · intro h
    obtain ⟨hDict, hLocked⟩ := h.getTableDictLocked tableName
    exact ⟨named_setTableDict hLocked.pdf (hNamed hDict) tableName, hLocked.file⟩

/-- The dictionary of the table has been found or created, and it is left at that. -/
theorem edited_getTableDictLocked
    (hEdits : Edits.apply (state.pdf.contents tableName) edits = state.pdf.contents tableName) :
    state.Edited tableName edits (state.getTableDictLocked tableName).2 := by
  constructor
  · rw [(getTableDictLocked_spec state tableName).2.1, hEdits, Function.update_eq_self]
  · intro h
    exact (h.getTableDictLocked tableName).2

end QPDFScopeState

namespace QPDFBackend

open QPDFScopeState

theorem flushTable_edited {state : QPDFScopeState} {tableName : Bytes}
    {tableDict : PdfDictionary PdfObject} {edits : List (Bytes × Option Bytes)}
    (hEdits : PdfDictionary.contents tableDict =
      Edits.apply (PdfDictionary.contents (state.getTableDictLocked tableName).1) edits)
    (hNamed : PdfDictionary.Named (state.getTableDictLocked tableName).1 →
      PdfDictionary.Named tableDict) (dirty : Bool) (outcome : WriteOutcome)
    (before : Option QPDFScopeState) : ∃ state',
      (flushTable ⟨before, tableName⟩ (state.getTableDictLocked tableName).2 tableDict dirty
        outcome).2 = ⟨some state', tableName⟩ ∧ state.Edited tableName edits state' :=
  ⟨_, rfl, (edited_setTableDict hEdits hNamed dirty).flushLocked outcome⟩

theorem editTable_spec (ops : List BatchOp) (tableDict : PdfDictionary PdfObject) (dirty : Bool) :
    PdfDictionary.contents (editTable ops tableDict dirty).2.1 =
        Edits.apply (PdfDictionary.contents tableDict) (WriteCall.batch ops).edits ∧
      (PdfDictionary.Named tableDict →
        PdfDictionary.Named (editTable ops tableDict dirty).2.1) := by
  induction ops generalizing tableDict dirty with
  | nil => exact ⟨rfl, id⟩
  | cons op ops ih =>
      obtain ⟨kind, cfName, key, value⟩ := op
      rw [editTable]
      cases kind with
      | put =>
          cases value with
          | none => exact ⟨rfl, id⟩
          | some value =>
              obtain ⟨hContents, hNamed⟩ :=
                ih (replaceKey tableDict (encodePdfName key) (.string value)) true
              rw [PdfDictionary.contents_replaceKey] at hContents
              exact ⟨hContents, fun h => hNamed (h.replaceKey key _)⟩
      | del =>
          dsimp only
          split
          · obtain ⟨hContents, hNamed⟩ := ih (removeKey tableDict (encodePdfName key)) true
            rw [PdfDictionary.contents_removeKey] at hContents
            exact ⟨hContents, fun h => hNamed (h.removeKey _)⟩
          · rename_i hAbsent
            obtain ⟨hContents, hNamed⟩ := ih tableDict dirty
            rw [← PdfDictionary.update_contents_of_not_hasKey hAbsent] at hContents
            exact ⟨hContents, hNamed⟩

/-- What a call does before the flush stays, however the call ends. -/
theorem run_edited (state : QPDFScopeState) (tableName : Bytes) (call : WriteCall)
    (outcome : WriteOutcome) : ∃ state',
      (run ⟨some state, tableName⟩ call outcome).2 = ⟨some state', tableName⟩ ∧
        state.Edited tableName call.edits state' := by
  cases call with
  | put key value =>
      exact flushTable_edited (PdfDictionary.contents_replaceKey _ key value)
        (fun h => h.replaceKey key _) true outcome _
  | del key =>
      rw [run, del]
      dsimp only
      split
      · exact flushTable_edited (PdfDictionary.contents_removeKey _ key) (fun h => h.removeKey _) true
          outcome _
      · rename_i hAbsent
        exact ⟨_, rfl, edited_getTableDictLocked (update_contents_of_not_hasKey hAbsent)⟩
  | batch ops =>
      obtain ⟨hEdits, hNamed⟩ := editTable_spec ops (state.getTableDictLocked tableName).1
        (state.getTableDictLocked tableName).2.dirty
      rw [run, batch]
      dsimp only
      split
      · rename_i e tableDict dirty hLoop
        rw [hLoop] at hEdits hNamed
        exact ⟨_, rfl, edited_setTableDict hEdits hNamed dirty⟩
      · rename_i tableDict dirty hLoop
        rw [hLoop] at hEdits hNamed
        exact flushTable_edited hEdits hNamed dirty outcome _

theorem run_closed (tableName : Bytes) (call : WriteCall) (outcome : WriteOutcome) :
    (run ⟨none, tableName⟩ call outcome).2 = ⟨none, tableName⟩ := by
  cases call with
  | put key value => rfl
  | del key => rfl
  | batch ops => rfl

end QPDFBackend

/-! ## Reachable states -/

namespace QPDFScopeState

/-- The states of a scope that is opened on no file, or on one without tables, and that is used,
closed and opened again. -/
inductive Reachable : QPDFScopeState → Prop where
  | opened {createIfMissing : Bool} {pdfPath : String} {file : Option Libqpdf.File}
      {outcome : OpenOutcome} {state : QPDFScopeState}
      (hFile : ∀ written, file = some written → (Libqpdf.processFile written).celerKv = none)
      (hOpen : openScopePdf createIfMissing pdfPath file outcome = .ok state) : Reachable state
  | reopened {createIfMissing : Bool} {outcome : OpenOutcome} {state state' : QPDFScopeState}
      (h : Reachable state)
      (hOpen : openScopePdf createIfMissing state.filePath state.file outcome = .ok state') :
      Reachable state'
  | written {state state' : QPDFScopeState} (h : Reachable state) (tableName : Bytes)
      (call : WriteCall) (outcome : WriteOutcome)
      (hRun : (QPDFBackend.run ⟨some state, tableName⟩ call outcome).2.state = some state') :
      Reachable state'
  | compacted {state state' : QPDFScopeState} (h : Reachable state) (tableName : Bytes)
      (outcome : WriteOutcome)
      (hCompact : (QPDFBackend.compact ⟨some state, tableName⟩ outcome).2.state = some state') :
      Reachable state'
  | closed {state state' : QPDFScopeState} (h : Reachable state) (tableName : Bytes)
      (outcome : WriteOutcome)
      (hClose : (QPDFBackend.close ⟨some state, tableName⟩ outcome).2.1 = some state') :
      Reachable state'

theorem named_openScopePdf {createIfMissing : Bool} {pdfPath : String}
    {file : Option Libqpdf.File} {outcome : OpenOutcome} {state : QPDFScopeState}
    (hFile : ∀ written, file = some written → (Libqpdf.processFile written).Named)
    (hOpen : openScopePdf createIfMissing pdfPath file outcome = .ok state) : state.Named := by
  unfold openScopePdf at hOpen
  split at hOpen
  · cases hOpen
  · split at hOpen
    · rename_i written
      split at hOpen
      · cases hOpen
      · obtain rfl := Except.ok.inj hOpen
        exact ⟨hFile written rfl, hFile⟩
    · split at hOpen
      · have hBlank : Named ⟨⟨none⟩, pdfPath, none, true⟩ :=
          ⟨.blank, fun _ hNone => nomatch hNone⟩
        split at hOpen
        · cases hOpen
        · rename_i opened hFlush
          obtain rfl := Except.ok.inj hOpen
          have hNamed := hBlank.flushLocked outcome.write
          rwa [hFlush] at hNamed
      · cases hOpen

theorem Reachable.named {state : QPDFScopeState} (h : state.Reachable) : state.Named := by
  induction h with
  | opened hFile hOpen =>
      refine named_openScopePdf ?_ hOpen
      intro written hSome tableName tableDict hTable
      rw [PdfDocument.tableDict, hFile written hSome] at hTable
      cases hTable
  | reopened _ hOpen ih => exact named_openScopePdf ih.file hOpen
  | written _ tableName call outcome hRun ih =>
      obtain ⟨state', hState, hEdited⟩ := QPDFBackend.run_edited _ tableName call outcome
      rw [hState] at hRun
      obtain rfl := Option.some.inj hRun
      exact hEdited.named ih
  | @compacted state _ _ _ outcome hCompact ih =>
      obtain rfl := Option.some.inj hCompact
      have hDirty : Named { state with dirty := true } := ⟨ih.pdf, ih.file⟩
      exact hDirty.flushLocked outcome
  | closed _ _ outcome hClose ih =>
      obtain rfl := Option.some.inj hClose
      exact ih.flushLocked outcome

/-- A scope that has just been opened on no file. -/
def fresh : QPDFScopeState := ⟨⟨none⟩, "kv.pdf", some (Libqpdf.write ⟨none⟩), false⟩

theorem fresh_reachable : fresh.Reachable :=
  @Reachable.opened _ true "kv.pdf" none ⟨none, none, .written⟩ fresh (fun _ hNone => nomatch hNone)
    rfl

end QPDFScopeState

/-! ## A library in memory -/

/-- Dictionaries as lists of names and their objects. -/
@[reducible] def PdfDictionaries.ofLists : PdfDictionaries where
  Dictionary α := AList fun _ : Bytes => α
  newDictionary := ∅
  getKey dictionary name := dictionary.lookup name
  getKeys dictionary := dictionary.keys
  replaceKey dictionary name object := dictionary.insert name object
  removeKey dictionary name := dictionary.erase name
  getKey_newDictionary name := AList.lookup_empty name
  getKey_replaceKey dictionary name object := by
    funext other
    by_cases hName : other = name
    · rw [hName, Function.update_self, AList.lookup_insert]
    · rw [Function.update_of_ne hName, AList.lookup_insert_ne hName]
  getKey_removeKey dictionary name := by
    funext other
    by_cases hName : other = name
    · rw [hName, Function.update_self, AList.lookup_erase]
    · rw [Function.update_of_ne hName, AList.lookup_erase_ne hName]
  mem_getKeys _ _ := AList.lookup_isSome.symm
  nodup_getKeys dictionary := dictionary.keys_nodup

/-- A file is the document that was written to it. -/
instance (priority := low) Libqpdf.inMemory : Libqpdf where
  toPdfDictionaries := .ofLists
  File := @PdfDocument .ofLists
  write := id
  processFile := id
  processFile_write _ := rfl

end CelerMem
