import CelerMem.Backend.QPDFFailure
import CelerMem.Library.Objects
import Mathlib

/-! A scope in use, as long as the process lives and after it. The tables of a scope share a
document, which goes to the file as a whole, and a crash leaves only the file. -/
namespace CelerMem

/-! ## Calls -/

/-- A call on a table of the scope. -/
inductive ScopeCall where
  | write (call : WriteCall) (outcome : WriteOutcome)
  | compact (outcome : WriteOutcome)
  | close (outcome : WriteOutcome)
  | get (key : Bytes)
  | prefixScan (start : Bytes)

inductive ScopeAnswer where
  | void (r : VoidResult)
  | value (r : Option (Result (Option Bytes)))
  | rows (r : Option (Result (List KVPair)))

/-- Reads count as calls without an error. -/
def ScopeAnswer.result : ScopeAnswer → VoidResult
  | .void r => r
  | _ => .ok ()

namespace QPDFScopeState
variable [Libqpdf]

/-- A table that is closed leaves the state to the tables that are still open. -/
def call (state : QPDFScopeState) (tableName : Bytes) : ScopeCall → ScopeAnswer × QPDFScopeState
  | .write call outcome =>
      let (r, backend) := QPDFBackend.run ⟨some state, tableName⟩ call outcome
      (.void r, backend.state.getD state)
  | .compact outcome =>
      let (r, backend) := QPDFBackend.compact ⟨some state, tableName⟩ outcome
      (.void r, backend.state.getD state)
  | .close outcome =>
      let (r, kept, _) := QPDFBackend.close ⟨some state, tableName⟩ outcome
      (.void r, kept.getD state)
  | .get key => (.value (QPDFBackend.get ⟨some state, tableName⟩ key), state)
  | .prefixScan start => (.rows (QPDFBackend.prefixScan ⟨some state, tableName⟩ start), state)

/-- The calls of all tables, one after the other. -/
def runCalls (state : QPDFScopeState) (calls : List (Bytes × ScopeCall)) :
    List ScopeAnswer × QPDFScopeState :=
  SequentialObject.run (fun c state => state.call c.1 c.2) calls state

end QPDFScopeState

namespace ScopeCall

/-- What a call edits in the map of its table, up to a put without a value. -/
def edits : ScopeCall → List (Bytes × Option Bytes)
  | .write call _ => call.edits
  | _ => []

end ScopeCall

/-! ## Each table has a map of its own -/

namespace QPDFScopeState

section Tables
variable [Libqpdf] {state state' : QPDFScopeState} {tableName : Bytes}

/-- A call edits its table, and the names stay those of keys. -/
theorem call_edited (state : QPDFScopeState) (tableName : Bytes) (c : ScopeCall) :
    state.Edited tableName c.edits (state.call tableName c).2 := by
  have hSame : ∀ next : QPDFScopeState, next.pdf = state.pdf → (state.Named → next.Named) →
      state.Edited tableName [] next := by
    intro next hPdf hNamed
    refine ⟨?_, hNamed⟩
    rw [hPdf, Edits.apply_nil, Function.update_eq_self]
  cases c with
  | write call outcome =>
      obtain ⟨next, hRun, hEdited⟩ := QPDFBackend.run_edited state tableName call outcome
      rw [QPDFScopeState.call]
      dsimp only
      rw [hRun]
      exact hEdited
  | compact outcome =>
      have hFlush := flushLocked_cases { state with dirty := true } outcome
      refine hSame _ hFlush.1 fun hNamed => ?_
      have hDirty : Named { state with dirty := true } := ⟨hNamed.pdf, hNamed.file⟩
      exact hDirty.flushLocked outcome
  | close outcome =>
      exact hSame _ (flushLocked_cases state outcome).1 fun hNamed => hNamed.flushLocked outcome
  | get key => exact hSame _ rfl id
  | prefixScan start => exact hSame _ rfl id

/-- The edits that are made through the handles of one table. -/
def tableEdits (tableName : Bytes) (calls : List (Bytes × ScopeCall)) :
    List (Bytes × Option Bytes) :=
  (calls.filter fun c => c.1 == tableName).flatMap fun c => c.2.edits

theorem runCalls_cons (state : QPDFScopeState) (c : Bytes × ScopeCall)
    (calls : List (Bytes × ScopeCall)) :
    (state.runCalls (c :: calls)).2 = ((state.call c.1 c.2).2.runCalls calls).2 := rfl

/-- A run makes the edits of each table in that table, and in no other one. -/
theorem runCalls_contents (state : QPDFScopeState) (calls : List (Bytes × ScopeCall)) :
    (∀ tableName, (state.runCalls calls).2.pdf.contents tableName =
      Edits.apply (state.pdf.contents tableName) (tableEdits tableName calls)) ∧
    (state.Named → (state.runCalls calls).2.Named) := by
  induction calls generalizing state with
  | nil => exact ⟨fun _ => rfl, id⟩
  | cons c calls ih =>
      obtain ⟨table, c⟩ := c
      have hEdited := state.call_edited table c
      obtain ⟨hContents, hNamed⟩ := ih (state.call table c).2
      rw [runCalls_cons]
      refine ⟨fun tableName => ?_, fun h => hNamed (hEdited.named h)⟩
      rw [hContents tableName, hEdited.contents, tableEdits, tableEdits]
      by_cases hTable : tableName = table
      · subst hTable
        rw [Function.update_self, List.filter_cons_of_pos (by simp), List.flatMap_cons,
          Edits.apply_append]
      · rw [Function.update_of_ne hTable, List.filter_cons_of_neg (by simpa using Ne.symm hTable)]

/-- Each table of a scope is a map of its own, whatever its name: what is read from it are the
edits that were made through its own handles, in order, however the writes ended and whatever
was called on the other tables meanwhile. -/
theorem scope_tables_independent (hReachable : state.Reachable) (calls : List (Bytes × ScopeCall))
    (tableName : Bytes) :
    (∀ key, QPDFBackend.get ⟨some (state.runCalls calls).2, tableName⟩ key = some (.ok
      (QPDFBackend.answer (Edits.apply (state.pdf.contents tableName)
        (tableEdits tableName calls) key)))) ∧
    ∀ start, ∃ rows, QPDFBackend.prefixScan ⟨some (state.runCalls calls).2, tableName⟩ start =
      some (.ok rows) ∧ Contents.Scanned (Edits.apply (state.pdf.contents tableName)
        (tableEdits tableName calls)) start rows := by
  obtain ⟨hContents, hNamed⟩ := state.runCalls_contents calls
  refine ⟨fun key => ?_, fun start => ⟨_, QPDFBackend.prefixScan_eq _ tableName start, ?_⟩⟩
  · rw [QPDFBackend.get_eq, hContents]
  · rw [← hContents]
    exact QPDFScanStream.takeSnapshot_scanned (hNamed hReachable.named).pdf tableName start

end Tables

theorem scope_tables_independent_fresh :
    (∀ key, QPDFBackend.get ⟨some (fresh.runCalls
        [(ascii "t", .write (.put (ascii "a") [1]) .written),
          (ascii "T", .write (.put (ascii "a") [2]) (.notWritten "disk full"))]).2, ascii "T"⟩ key =
      some (.ok (QPDFBackend.answer (Edits.apply (fresh.pdf.contents (ascii "T"))
        (tableEdits (ascii "T")
          [(ascii "t", .write (.put (ascii "a") [1]) .written),
            (ascii "T", .write (.put (ascii "a") [2]) (.notWritten "disk full"))]) key)))) ∧
    ∀ start, ∃ rows, QPDFBackend.prefixScan ⟨some (fresh.runCalls
        [(ascii "t", .write (.put (ascii "a") [1]) .written),
          (ascii "T", .write (.put (ascii "a") [2]) (.notWritten "disk full"))]).2, ascii "T"⟩
        start = some (.ok rows) ∧
      Contents.Scanned (Edits.apply (fresh.pdf.contents (ascii "T")) (tableEdits (ascii "T")
        [(ascii "t", .write (.put (ascii "a") [1]) .written),
          (ascii "T", .write (.put (ascii "a") [2]) (.notWritten "disk full"))])) start rows :=
  scope_tables_independent fresh_reachable _ _

/-! ## What the file has -/

section File
variable [Libqpdf] {state : QPDFScopeState}

/-- A call has brought the document to the file, or it has left the file alone, and then it has
failed or changed no table. -/
def Settles (state state' : QPDFScopeState) (r : VoidResult) : Prop :=
  state'.file = some (Libqpdf.write state'.pdf) ∨
    state'.file = state.file ∧ (r = .ok () → state'.pdf.contents = state.pdf.contents)

theorem settles_flushLocked (before : QPDFScopeState) (outcome : WriteOutcome)
    (hFile : state.file = before.file)
    (hClean : state.dirty = false → state.pdf.contents = before.pdf.contents) :
    before.Settles (state.flushLocked outcome).2 (state.flushLocked outcome).1 := by
  unfold flushLocked
  split
  next hDirty => exact .inr ⟨hFile, fun _ => hClean (by simpa using hDirty)⟩
  next =>
    cases outcome with
    | written => exact .inl rfl
    | notWritten what => exact .inr ⟨hFile, fun h => by cases h⟩
    | notRenamed message => exact .inr ⟨hFile, fun h => by cases h⟩

end File

end QPDFScopeState

namespace QPDFBackend
open QPDFScopeState
variable [Libqpdf] {state : QPDFScopeState} {tableName : Bytes}

theorem settles_flushTable {tableDict : PdfDictionary PdfObject} {dirty : Bool}
    (outcome : WriteOutcome) (before : Option QPDFScopeState)
    (hClean : dirty = false → tableDict = (state.getTableDictLocked tableName).1) :
    ∃ next, (flushTable ⟨before, tableName⟩ (state.getTableDictLocked tableName).2 tableDict dirty
        outcome).2 = ⟨some next, tableName⟩ ∧
      state.Settles next (flushTable ⟨before, tableName⟩ (state.getTableDictLocked tableName).2
        tableDict dirty outcome).1 := by
  refine ⟨_, rfl, settles_flushLocked state outcome (getTableDictLocked_file state tableName) ?_⟩
  intro hDirty
  have hEdited : state.Edited tableName []
      { (state.getTableDictLocked tableName).2.setTableDict tableName tableDict with dirty } :=
    edited_setTableDict (by rw [hClean hDirty]; rfl) (fun h => hClean hDirty ▸ h) dirty
  rw [hEdited.contents, Edits.apply_nil, Function.update_eq_self]

theorem run_settles (state : QPDFScopeState) (tableName : Bytes) (call : WriteCall)
    (outcome : WriteOutcome) :
    ∃ next, (run ⟨some state, tableName⟩ call outcome).2 = ⟨some next, tableName⟩ ∧
      state.Settles next (run ⟨some state, tableName⟩ call outcome).1 := by
  cases call with
  | put key value => exact settles_flushTable outcome _ (fun h => by cases h)
  | del key =>
      rw [run, del]
      dsimp only
      split
      · exact settles_flushTable outcome _ (fun h => by cases h)
      · rename_i hAbsent
        refine ⟨_, rfl, .inr ⟨getTableDictLocked_file state tableName, fun _ => ?_⟩⟩
        have hEdited : state.Edited tableName [] (state.getTableDictLocked tableName).2 :=
          edited_getTableDictLocked rfl
        rw [hEdited.contents, Edits.apply_nil, Function.update_eq_self]
  | batch ops =>
      have hClean : (editTable ops (state.getTableDictLocked tableName).1
          (state.getTableDictLocked tableName).2.dirty).2.2 = false →
          (editTable ops (state.getTableDictLocked tableName).1
            (state.getTableDictLocked tableName).2.dirty).2.1 =
              (state.getTableDictLocked tableName).1 := fun h => (editTable_clean h).2
      rw [run, batch]
      dsimp only
      split
      · rename_i e tableDict dirty hLoop
        exact ⟨_, rfl, .inr ⟨getTableDictLocked_file state tableName, fun h => by cases h⟩⟩
      · rename_i tableDict dirty hLoop
        rw [hLoop] at hClean
        exact settles_flushTable outcome _ hClean

end QPDFBackend

namespace QPDFScopeState

section Crash
variable [Libqpdf] {state : QPDFScopeState}

/-- What every call does to the file. -/
theorem call_settles (state : QPDFScopeState) (tableName : Bytes) (c : ScopeCall) :
    state.Settles (state.call tableName c).2 (ScopeAnswer.result (state.call tableName c).1) := by
  cases c with
  | write call outcome =>
      obtain ⟨next, hRun, hSettles⟩ := QPDFBackend.run_settles state tableName call outcome
      rw [QPDFScopeState.call]
      dsimp only
      rw [hRun]
      exact hSettles
  | compact outcome =>
      have hDirty : { state with dirty := true }.file = state.file := rfl
      exact settles_flushLocked state outcome hDirty (fun h => by cases h)
  | close outcome => exact settles_flushLocked state outcome rfl (fun _ => rfl)
  | get key => exact .inr ⟨rfl, fun _ => rfl⟩
  | prefixScan start => exact .inr ⟨rfl, fun _ => rfl⟩

theorem runCalls_append (state : QPDFScopeState) (first second : List (Bytes × ScopeCall)) :
    (state.runCalls (first ++ second)).2 = ((state.runCalls first).2.runCalls second).2 := by
  induction first generalizing state with
  | nil => rfl
  | cons c first ih => exact ih (state.call c.1 c.2).2

/-- None of the later calls has changed a table and returned without an error. -/
def Lost (state : QPDFScopeState) (before after : List (Bytes × ScopeCall)) : Prop :=
  ∀ mid c rest, after = mid ++ c :: rest →
    ScopeAnswer.result ((state.runCalls (before ++ mid)).2.call c.1 c.2).1 = .ok () →
      ((state.runCalls (before ++ mid)).2.call c.1 c.2).2.pdf.contents =
        (state.runCalls (before ++ mid)).2.pdf.contents

theorem file_of_run {file : Libqpdf.File} (hFile : state.file = some file)
    (hClean : (Libqpdf.processFile file).contents = state.pdf.contents)
    (calls : List (Bytes × ScopeCall)) :
    ∃ before after file, calls = before ++ after ∧ state.Lost before after ∧
      (state.runCalls calls).2.file = some file ∧
        (Libqpdf.processFile file).contents = (state.runCalls before).2.pdf.contents := by
  induction calls using List.reverseRecOn with
  | nil => exact ⟨[], [], file, rfl, fun mid c rest h => by simp at h, hFile, hClean⟩
  | append_singleton calls c ih =>
      obtain ⟨before, after, file, rfl, hLost, hFile, hContents⟩ := ih
      have hStep : (state.runCalls (before ++ after ++ [c])).2 =
          ((state.runCalls (before ++ after)).2.call c.1 c.2).2 := runCalls_append state _ [c]
      rcases call_settles (state.runCalls (before ++ after)).2 c.1 c.2 with hWritten | ⟨hKept, hOk⟩
      · refine ⟨before ++ after ++ [c], [],
          Libqpdf.write ((state.runCalls (before ++ after)).2.call c.1 c.2).2.pdf,
          (List.append_nil _).symm, fun mid c rest h => by simp at h, ?_, ?_⟩
        · rw [hStep]
          exact hWritten
        · rw [hStep, PdfDocument.contents_processFile_write]
      · refine ⟨before, after ++ [c], file, List.append_assoc _ _ _, ?_, ?_, hContents⟩
        · intro mid d rest hSplit hResult
          rcases List.eq_nil_or_concat rest with rfl | ⟨rest, last, rfl⟩
          · obtain ⟨rfl, hLast⟩ := List.append_inj' hSplit rfl
            obtain rfl : c = d := by simpa using hLast
            exact hOk hResult
          · have hAfter : after = mid ++ d :: rest := by
              have hShape : after ++ [c] = (mid ++ d :: rest) ++ [last] := by
                simpa using hSplit
              exact (List.append_inj' hShape rfl).1
            exact hLost mid d rest hAfter hResult
        · rw [hStep, hKept, hFile]

/-- An opened scope has its tables in the file. -/
theorem file_of_open {createIfMissing : Bool} {pdfPath : String} {file : Option Libqpdf.File}
    {outcome : OpenOutcome} (hOpen : openScopePdf createIfMissing pdfPath file outcome = .ok state) :
    (∃ opened, state.file = some opened ∧
      (Libqpdf.processFile opened).contents = state.pdf.contents) ∧
    ∀ written, file = some written → state.pdf = Libqpdf.processFile written := by
  unfold openScopePdf at hOpen
  split at hOpen
  next => cases hOpen
  next =>
    split at hOpen
    next written =>
      split at hOpen
      · cases hOpen
      · cases hOpen
        exact ⟨⟨written, rfl, rfl⟩, fun written h => by cases h; rfl⟩
    next =>
      refine ⟨?_, fun written h => by cases h⟩
      split at hOpen
      · split at hOpen
        · cases hOpen
        · rename_i opened hFlush
          obtain rfl := Except.ok.inj hOpen
          unfold flushLocked atomicWritePdf at hFlush
          cases hWrite : outcome.write with
          | written =>
              rw [hWrite] at hFlush
              cases hFlush
              exact ⟨_, rfl, PdfDocument.contents_processFile_write _⟩
          | notWritten what => simp [hWrite] at hFlush
          | notRenamed message => simp [hWrite] at hFlush
      · cases hOpen

/-- After a crash at any time the scope is opened again with its tables as they were after some
of the calls, and none of the later calls had changed a table and returned without an error. -/
theorem crash_recovers {createIfMissing : Bool} {pdfPath : String} {file : Option Libqpdf.File}
    {outcome : OpenOutcome} (hOpen : openScopePdf createIfMissing pdfPath file outcome = .ok state)
    (calls : List (Bytes × ScopeCall)) :
    ∃ before after, calls = before ++ after ∧ state.Lost before after ∧
      ∀ {createIfMissing' pdfPath' outcome' reopened},
        openScopePdf createIfMissing' pdfPath' (state.runCalls calls).2.file outcome' =
          .ok reopened → reopened.pdf.contents = (state.runCalls before).2.pdf.contents := by
  obtain ⟨opened, hOpened, hClean⟩ := (file_of_open hOpen).1
  obtain ⟨before, after, written, hCalls, hLost, hFile, hContents⟩ :=
    file_of_run hOpened hClean calls
  refine ⟨before, after, hCalls, hLost, fun hReopen => ?_⟩
  rw [(file_of_open hReopen).2 written hFile]
  exact hContents

end Crash

/-- The second put is not written to the file, and the third one brings both to it. -/
theorem crash_recovers_fresh :
    ∃ before after, [(ascii "t", .write (.put (ascii "a") [1]) .written),
      (ascii "u", .write (.put (ascii "b") [2]) (.notWritten "disk full")),
      (ascii "t", .write (.del (ascii "a")) .written),
      (ascii "u", .write (.del (ascii "b")) (.notRenamed "busy"))] = before ++ after ∧
      fresh.Lost before after ∧
      ∀ {createIfMissing' pdfPath' outcome' reopened},
        openScopePdf createIfMissing' pdfPath' (fresh.runCalls
          [(ascii "t", .write (.put (ascii "a") [1]) .written),
            (ascii "u", .write (.put (ascii "b") [2]) (.notWritten "disk full")),
            (ascii "t", .write (.del (ascii "a")) .written),
            (ascii "u", .write (.del (ascii "b")) (.notRenamed "busy"))]).2.file outcome' =
          .ok reopened → reopened.pdf.contents = (fresh.runCalls before).2.pdf.contents :=
  @crash_recovers _ fresh true "kv.pdf" none ⟨none, none, .written⟩ rfl _

end QPDFScopeState
end CelerMem
