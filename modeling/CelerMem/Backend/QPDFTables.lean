import CelerMem.Backend.QPDF
import Mathlib

/-! The tables in the document of a scope: what the reads of `QPDFBackend` make of them, and
what its writes do to them. -/
namespace CelerMem

open PdfDictionaries

variable [Libqpdf]

/-! ## Contents -/

def PdfObject.value : PdfObject → Option Bytes
  | .string value => some value
  | .other => none

namespace PdfDictionary
variable {tableDict : PdfDictionary PdfObject}

def contents (tableDict : PdfDictionary PdfObject) : Contents := fun key =>
  (getKey tableDict (encodePdfName key)).bind PdfObject.value

@[simp] theorem contents_newDictionary : contents newDictionary = fun _ => none := by
  funext key
  rw [contents, getKey_newDictionary, Option.bind_none]

theorem contents_replaceKey (tableDict : PdfDictionary PdfObject) (key value : Bytes) :
    contents (replaceKey tableDict (encodePdfName key) (.string value)) =
      Function.update (contents tableDict) key (some value) := by
  funext other
  rw [contents, getKey_replaceKey]
  by_cases hKey : other = key
  · rw [hKey, Function.update_self, Function.update_self]
    rfl
  · rw [Function.update_of_ne (encodePdfName_injective.ne hKey), Function.update_of_ne hKey]
    rfl

theorem contents_removeKey (tableDict : PdfDictionary PdfObject) (key : Bytes) :
    contents (removeKey tableDict (encodePdfName key)) =
      Function.update (contents tableDict) key none := by
  funext other
  rw [contents, getKey_removeKey]
  by_cases hKey : other = key
  · rw [hKey, Function.update_self, Function.update_self, Option.bind_none]
  · rw [Function.update_of_ne (encodePdfName_injective.ne hKey), Function.update_of_ne hKey]
    rfl

/-- A key that is not there need not be removed. -/
theorem update_contents_of_not_hasKey {key : Bytes}
    (h : ¬ tableDict.hasKey (encodePdfName key)) :
    Function.update (contents tableDict) key none = contents tableDict := by
  have hNone : contents tableDict key = none := by
    rw [contents, Option.not_isSome_iff_eq_none.mp h, Option.bind_none]
  rw [← hNone, Function.update_eq_self]

/-- The names of the dictionary are those of keys. -/
def Named (tableDict : PdfDictionary PdfObject) : Prop :=
  ∀ name, tableDict.hasKey name → ∃ key, name = encodePdfName key

theorem getKeys_newDictionary {α : Type} : getKeys (newDictionary : PdfDictionary α) = [] := by
  apply List.eq_nil_iff_forall_not_mem.mpr
  intro name hMem
  rw [mem_getKeys, getKey_newDictionary] at hMem
  cases hMem

theorem Named.newDictionary : Named newDictionary := by
  intro name hHas
  rw [hasKey, getKey_newDictionary] at hHas
  cases hHas

theorem Named.replaceKey (h : Named tableDict) (key : Bytes) (object : PdfObject) :
    Named (replaceKey tableDict (encodePdfName key) object) := by
  intro name hHas
  by_cases hName : name = encodePdfName key
  · exact ⟨key, hName⟩
  · rw [hasKey, getKey_replaceKey, Function.update_of_ne hName] at hHas
    exact h name hHas

theorem Named.removeKey (h : Named tableDict) (name : Bytes) :
    Named (removeKey tableDict name) := by
  intro other hHas
  by_cases hName : other = name
  · rw [hasKey, getKey_removeKey, hName, Function.update_self] at hHas
    cases hHas
  · rw [hasKey, getKey_removeKey, Function.update_of_ne hName] at hHas
    exact h other hHas

end PdfDictionary

namespace PdfDocument

/-- A table that is not in the document is empty. -/
def contents (pdf : PdfDocument) (tableName : Bytes) : Contents :=
  match pdf.tableDict tableName with
  | none => fun _ => none
  | some tableDict => PdfDictionary.contents tableDict

/-- The names in the dictionaries of the tables are those of keys. -/
def Named (pdf : PdfDocument) : Prop :=
  ∀ tableName tableDict, pdf.tableDict tableName = some tableDict → PdfDictionary.Named tableDict

theorem Named.blank : Named ⟨none⟩ := fun _ _ h => nomatch h

theorem objects_encodePdfName (pdf : PdfDocument) (tableName : Bytes) :
    pdf.objects (encodePdfName tableName) = (pdf.tableDict tableName).map getKey := rfl

theorem contents_eq_objects (pdf : PdfDocument) (tableName : Bytes) : pdf.contents tableName =
    match pdf.objects (encodePdfName tableName) with
    | none => fun _ => none
    | some object => fun key => (object (encodePdfName key)).bind PdfObject.value := by
  rw [contents, objects_encodePdfName]
  cases pdf.tableDict tableName with
  | none => rfl
  | some tableDict => rfl

/-- The tables of a document are read from the file that it was written to. -/
theorem contents_processFile_write (pdf : PdfDocument) :
    (Libqpdf.processFile (Libqpdf.write pdf)).contents = pdf.contents := by
  funext tableName
  rw [contents_eq_objects, contents_eq_objects, Libqpdf.processFile_write]

theorem Named.processFile_write {pdf : PdfDocument} (h : pdf.Named) :
    (Libqpdf.processFile (Libqpdf.write pdf)).Named := by
  intro tableName tableDict hTable name hHas
  have hObjects : (pdf.tableDict tableName).map getKey = some (getKey tableDict) := by
    rw [← objects_encodePdfName, ← Libqpdf.processFile_write, objects_encodePdfName, hTable]
    rfl
  obtain ⟨written, hWritten, hSame⟩ := Option.map_eq_some_iff.mp hObjects
  refine h tableName written hWritten name ?_
  rwa [PdfDictionary.hasKey, hSame]

end PdfDocument

namespace QPDFScopeState
variable {state : QPDFScopeState} {tableName : Bytes}

theorem tableDict_setTableDict (state : QPDFScopeState) (tableName : Bytes)
    (tableDict : PdfDictionary PdfObject) (other : Bytes) :
    (state.setTableDict tableName tableDict).pdf.tableDict other =
      if other = tableName then some tableDict else state.pdf.tableDict other := by
  rw [setTableDict, PdfDocument.tableDict, Option.bind_some]
  split
  · rename_i hSame
    rw [hSame, getKey_replaceKey, Function.update_self]
  · rename_i hOther
    rw [getKey_replaceKey, Function.update_of_ne (encodePdfName_injective.ne hOther),
      PdfDocument.tableDict]
    cases state.pdf.celerKv with
    | none => rw [Option.getD_none, getKey_newDictionary, Option.bind_none]
    | some celerKv => rw [Option.getD_some, Option.bind_some]

theorem contents_setTableDict (state : QPDFScopeState) (tableName : Bytes)
    (tableDict : PdfDictionary PdfObject) :
    (state.setTableDict tableName tableDict).pdf.contents =
      Function.update state.pdf.contents tableName (PdfDictionary.contents tableDict) := by
  funext other
  rw [PdfDocument.contents, tableDict_setTableDict]
  by_cases hSame : other = tableName
  · rw [if_pos hSame, hSame, Function.update_self]
  · rw [if_neg hSame, Function.update_of_ne hSame]
    rfl

theorem named_setTableDict (h : state.pdf.Named) {tableDict : PdfDictionary PdfObject}
    (hDict : PdfDictionary.Named tableDict) (tableName : Bytes) :
    (state.setTableDict tableName tableDict).pdf.Named := by
  intro other otherDict hOther
  rw [tableDict_setTableDict] at hOther
  split at hOther
  · obtain rfl := Option.some.inj hOther
    exact hDict
  · exact h other otherDict hOther

theorem getTableDictLocked_none (h : state.pdf.tableDict tableName = none) :
    state.getTableDictLocked tableName =
      (newDictionary, { state.setTableDict tableName newDictionary with dirty := true }) := by
  have hLookup :
      getKey (state.pdf.celerKv.getD newDictionary) (encodePdfName tableName) = none := by
    cases hKv : state.pdf.celerKv with
    | none => exact getKey_newDictionary _
    | some celerKv => rwa [PdfDocument.tableDict, hKv, Option.bind_some] at h
  simp only [getTableDictLocked, hLookup]
  rfl

theorem getTableDictLocked_some {tableDict : PdfDictionary PdfObject}
    (h : state.pdf.tableDict tableName = some tableDict) :
    state.getTableDictLocked tableName = (tableDict, state) := by
  obtain ⟨⟨celerKv⟩, filePath, file, dirty⟩ := state
  cases celerKv with
  | none => cases h
  | some celerKv =>
      have hLookup : getKey celerKv (encodePdfName tableName) = some tableDict := h
      simp only [getTableDictLocked, Option.getD_some, hLookup]

/-- The dictionary of a table that is created is empty, as the table was. -/
theorem getTableDictLocked_spec (state : QPDFScopeState) (tableName : Bytes) :
    PdfDictionary.contents (state.getTableDictLocked tableName).1 =
        state.pdf.contents tableName ∧
      (state.getTableDictLocked tableName).2.pdf.contents = state.pdf.contents ∧
      (state.pdf.Named → PdfDictionary.Named (state.getTableDictLocked tableName).1 ∧
        (state.getTableDictLocked tableName).2.pdf.Named) := by
  cases hTable : state.pdf.tableDict tableName with
  | none =>
      have hCreated := getTableDictLocked_none hTable
      rw [hCreated]
      have hTable' : state.pdf.contents tableName = fun _ => none := by
        rw [PdfDocument.contents, hTable]
      refine ⟨?_, ?_, ?_⟩
      · rw [PdfDictionary.contents_newDictionary, hTable']
      · change (state.setTableDict tableName newDictionary).pdf.contents = state.pdf.contents
        rw [contents_setTableDict, PdfDictionary.contents_newDictionary, ← hTable',
          Function.update_eq_self]
      · intro hNamed
        exact ⟨.newDictionary, named_setTableDict hNamed .newDictionary tableName⟩
  | some tableDict =>
      rw [getTableDictLocked_some hTable]
      refine ⟨?_, rfl, ?_⟩
      · rw [PdfDocument.contents, hTable]
      · intro hNamed
        exact ⟨hNamed tableName tableDict hTable, hNamed⟩

end QPDFScopeState

/-! ## Reads -/

/-- What arrives of a value, which is one chunk. -/
def arrives (value : Option Bytes) : Bytes :=
  match value with
  | none => []
  | some value => (Chunk.from value).toList

theorem QPDFGetStream.denotes (state : QPDFScopeState) (tableName key : Bytes) :
    Denotes (makeStreamHandle
      (⟨some state, ⟨tableName, key, false, false, none⟩⟩ : InScope QPDFGetStream))
      (arrives (state.pdf.contents tableName key)) .done := by
  have hPull : QPDFGetStream.pull (some state) ⟨tableName, key, false, false, none⟩ =
      match state.pdf.contents tableName key with
      | none => (.ok none, ⟨tableName, key, true, false, none⟩)
      | some value => (.ok (some (Chunk.from value)), ⟨tableName, key, true, true, some value⟩) := by
    simp only [pull, PdfDocument.contents, Bool.false_eq_true, if_false]
    cases state.pdf.tableDict tableName with
    | none => rfl
    | some tableDict =>
        simp only [PdfDictionary.contents]
        cases getKey tableDict (encodePdfName key) with
        | none => rfl
        | some object =>
            cases object with
            | string value => rfl
            | other => rfl
  cases hValue : state.pdf.contents tableName key with
  | none =>
      rw [hValue] at hPull
      exact Denotes.make_done (InScope.step_eq hPull)
  | some value =>
      rw [hValue] at hPull
      have hRest : Denotes (makeStreamHandle
          (⟨some state, ⟨tableName, key, true, true, some value⟩⟩ : InScope QPDFGetStream)) []
          .done := Denotes.make_done (InScope.step_eq rfl)
      have hAll := Denotes.make_chunk (InScope.step_eq hPull) hRest
      rwa [List.append_nil] at hAll

namespace QPDFBackend

/-- What `get` answers for a value. -/
def answer (value : Option Bytes) : Option Bytes :=
  if (arrives value).isEmpty then none else some (arrives value)

theorem get_eq (state : QPDFScopeState) (tableName key : Bytes) :
    get ⟨some state, tableName⟩ key =
      some (.ok (answer (state.pdf.contents tableName key))) := by
  have hCollected := (QPDFGetStream.denotes state tableName key).collect
  simp only [get, streamGet, hCollected, Option.map_some, Ending.result, answer]
  split
  · rfl
  · rfl

end QPDFBackend

/-! ## Scans -/

namespace QPDFScanStream
variable {state : Option QPDFScopeState}

omit [Libqpdf] in
/-- A chunk is what the cursor passes, and nothing behind it is changed. -/
theorem emit_of_lt {s : QPDFScanStream} {snapshot : List KVPair}
    (h : s.cursor < snapshot.length) : ∃ left,
      s.emit snapshot = (.ok (some (Chunk.from ((snapshot.drop s.cursor).take chunkSize))),
        { s with snapshot := some left
                 cursor := min (s.cursor + chunkSize) snapshot.length
                 done := snapshot.length ≤ min (s.cursor + chunkSize) snapshot.length }) ∧
      left.length = snapshot.length ∧
      left.drop (min (s.cursor + chunkSize) snapshot.length) =
        snapshot.drop (s.cursor + chunkSize) := by
  have hChunk : (snapshot.take (min (s.cursor + chunkSize) snapshot.length)).drop s.cursor =
      (snapshot.drop s.cursor).take chunkSize := by
    rw [List.drop_take, List.take_eq_take_iff, List.length_drop]
    omega
  refine ⟨_, by rw [emit, if_neg h.not_ge, ← hChunk], ?_, ?_⟩
  · simp only [List.length_append, List.length_map, List.length_drop, List.length_take]
    omega
  · have hFront : (snapshot.take s.cursor ++ ((snapshot.take
        (min (s.cursor + chunkSize) snapshot.length)).drop s.cursor).map fun _ => movedOut).length =
        min (s.cursor + chunkSize) snapshot.length := by
      simp only [List.length_append, List.length_map, List.length_drop, List.length_take]
      omega
    rw [List.drop_left' hFront, List.drop_eq_drop_iff]
    omega

omit [Libqpdf] in
theorem toList_chunk (pairs : List KVPair) :
    (Chunk.from (pairs.take chunkSize)).toList = pairs.take chunkSize := by
  apply Chunk.toList_from_of_lt
  exact (List.length_take_le _ _).trans_lt (show chunkSize < uint32Size by decide)

/-- The stream goes on with what is behind the cursor, whatever was moved out before it. -/
theorem denotes_of_pull {s : QPDFScanStream} {snapshot : List KVPair}
    (hPull : s.pull state = s.emit snapshot) :
    Denotes (makeStreamHandle (⟨state, s⟩ : InScope QPDFScanStream)) (snapshot.drop s.cursor)
      .done := by
  induction hLeft : snapshot.length - s.cursor using Nat.strong_induction_on
    generalizing s snapshot with
  | _ left ih =>
      by_cases hEnd : snapshot.length ≤ s.cursor
      · rw [emit, if_pos hEnd] at hPull
        rw [List.drop_eq_nil_of_le hEnd]
        exact Denotes.make_done (InScope.step_eq hPull)
      · obtain ⟨rest, hEmit, hLength, hRest⟩ := emit_of_lt (Nat.not_le.mp hEnd)
        have hSplit : snapshot.drop s.cursor =
            (Chunk.from ((snapshot.drop s.cursor).take chunkSize)).toList ++
              snapshot.drop (s.cursor + chunkSize) := by
          rw [toList_chunk, ← List.drop_drop, List.take_append_drop]
        rw [hSplit]
        refine Denotes.make_chunk (InScope.step_eq (hPull.trans hEmit)) ?_
        have hAhead : s.cursor < min (s.cursor + chunkSize) snapshot.length :=
          lt_min (Nat.lt_add_of_pos_right (by decide)) (Nat.not_le.mp hEnd)
        rw [← hRest]
        generalize min (s.cursor + chunkSize) snapshot.length = stop at *
        by_cases hLast : snapshot.length ≤ stop
        · rw [List.drop_eq_nil_of_le (hLength.trans_le hLast), decide_eq_true hLast]
          exact Denotes.make_done (InScope.step_eq rfl)
        · rw [decide_eq_false hLast]
          exact ih (rest.length - stop) (by omega) (s := ⟨_, _, _, _, _⟩) rfl rfl

theorem denotes (state : QPDFScopeState) (tableName start : Bytes) :
    Denotes (makeStreamHandle
      (⟨some state, ⟨tableName, start, false, none, 0⟩⟩ : InScope QPDFScanStream))
      (takeSnapshot state.pdf tableName start) .done :=
  denotes_of_pull rfl

theorem matching_eq_some_iff {start key : Bytes} {tableDict : PdfDictionary PdfObject}
    {kv : KVPair} : matching start tableDict (encodePdfName key) = some kv ↔
      kv.key = key ∧ PdfDictionary.contents tableDict key = some kv.value ∧ start <+: key := by
  have hStarts : (start.isEmpty || startsWith key start) = true ↔ start <+: key := by
    rw [Bool.or_eq_true, List.isEmpty_iff, startsWith_iff]
    constructor
    · rintro (rfl | hPrefix)
      · exact List.nil_prefix
      · exact hPrefix
    · exact Or.inr
  obtain ⟨kvKey, kvValue⟩ := kv
  simp only [matching, decodePdfName_encodePdfName, PdfDictionary.contents]
  split
  · rename_i hMatch
    rw [and_iff_left (hStarts.mp hMatch)]
    rcases getKey tableDict (encodePdfName key) with _ | (value | _)
    · simp
    · simp [PdfObject.value, eq_comm]
    · simp [PdfObject.value]
  · rename_i hOther
    constructor
    · intro hNone
      cases hNone
    · intro hMatch
      exact absurd (hStarts.mpr hMatch.2.2) hOther

theorem mem_matching_iff {tableDict : PdfDictionary PdfObject}
    (hNamed : PdfDictionary.Named tableDict) (start : Bytes) (kv : KVPair) :
    kv ∈ (getKeys tableDict).filterMap (matching start tableDict) ↔
      PdfDictionary.contents tableDict kv.key = some kv.value ∧ start <+: kv.key := by
  rw [List.mem_filterMap]
  constructor
  · rintro ⟨name, hMem, hMatch⟩
    obtain ⟨key, rfl⟩ := hNamed name ((mem_getKeys tableDict name).mp hMem)
    obtain ⟨rfl, hValue, hPrefix⟩ := matching_eq_some_iff.mp hMatch
    exact ⟨hValue, hPrefix⟩
  · rintro ⟨hValue, hPrefix⟩
    obtain ⟨object, hObject, -⟩ := Option.bind_eq_some_iff.mp hValue
    refine ⟨encodePdfName kv.key, (mem_getKeys tableDict _).mpr ?_,
      matching_eq_some_iff.mpr ⟨rfl, hValue, hPrefix⟩⟩
    rw [hObject]
    rfl

theorem matching_keys_ne {tableDict : PdfDictionary PdfObject}
    (hNamed : PdfDictionary.Named tableDict) (start : Bytes) :
    ((getKeys tableDict).filterMap (matching start tableDict)).Pairwise
      fun a b => a.key ≠ b.key := by
  rw [List.pairwise_filterMap]
  refine (nodup_getKeys tableDict).imp_of_mem ?_
  intro name name' hMem hMem' hNames kv hMatch kv' hMatch' hSame
  obtain ⟨key, rfl⟩ := hNamed name ((mem_getKeys tableDict name).mp hMem)
  obtain ⟨key', rfl⟩ := hNamed name' ((mem_getKeys tableDict name').mp hMem')
  rw [(matching_eq_some_iff.mp hMatch).1, (matching_eq_some_iff.mp hMatch').1] at hSame
  exact hNames (congrArg encodePdfName hSame)

omit [Libqpdf] in
theorem sorted_of_mergeSort (pairs : List KVPair) :
    (pairs.mergeSort fun a b => !decide (b.key < a.key)).Pairwise fun a b => a.key ≤ b.key := by
  have hSorted : (pairs.mergeSort fun a b => !decide (b.key < a.key)).Pairwise
      fun a b => (!decide (b.key < a.key)) = true := by
    apply List.pairwise_mergeSort
    · intro a b c hab hbc
      simp only [Bool.not_eq_true', decide_eq_false_iff_not, not_lt] at *
      exact hab.trans hbc
    · intro a b
      simp only [Bool.or_eq_true, Bool.not_eq_true', decide_eq_false_iff_not, not_lt]
      exact le_total a.key b.key
  exact hSorted.imp fun h => by simpa using h

omit [Libqpdf] in
/-- Sorting pairs of different keys leaves them in strict order. -/
theorem sorted_of_keys_ne {pairs : List KVPair} (h : pairs.Pairwise fun a b => a.key ≠ b.key) :
    (pairs.mergeSort fun a b => !decide (b.key < a.key)).Pairwise fun a b => a.key < b.key := by
  have hDistinct : (pairs.mergeSort fun a b => !decide (b.key < a.key)).Pairwise
      fun a b => a.key ≠ b.key :=
    (List.mergeSort_perm pairs _).symm.pairwise h fun hab => hab.symm
  exact ((sorted_of_mergeSort pairs).and hDistinct).imp fun h => lt_of_le_of_ne h.1 h.2

/-- The pairs of a snapshot are those of the table. -/
theorem takeSnapshot_scanned {pdf : PdfDocument} (hNamed : pdf.Named) (tableName start : Bytes) :
    (pdf.contents tableName).Scanned start (takeSnapshot pdf tableName start) := by
  unfold takeSnapshot PdfDocument.contents
  cases hTable : pdf.tableDict tableName with
  | none => exact ⟨by simp, List.Pairwise.nil⟩
  | some tableDict =>
      have hDict := hNamed tableName tableDict hTable
      refine ⟨?_, sorted_of_keys_ne (matching_keys_ne hDict start)⟩
      intro kv
      rw [List.mem_mergeSort]
      exact mem_matching_iff hDict start kv

end QPDFScanStream

theorem QPDFBackend.prefixScan_eq (state : QPDFScopeState) (tableName start : Bytes) :
    prefixScan ⟨some state, tableName⟩ start =
      some (.ok (QPDFScanStream.takeSnapshot state.pdf tableName start)) := by
  have hCollected := (QPDFScanStream.denotes state tableName start).collect
  simp only [prefixScan, streamScan, hCollected, Ending.result]

end CelerMem
