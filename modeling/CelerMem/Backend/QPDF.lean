import CelerMem.Backend.PdfName
import CelerMem.Core.Contents
import CelerMem.Core.Meaning
import Mathlib

/-! `QPDFBackend` and its two streams. A table is a dictionary in the document of a scope, and
the tables of the scope share that document. -/
namespace CelerMem

/-! ## libqpdf -/

/-- The backend writes and reads strings only. -/
inductive PdfObject where
  | string (value : Bytes)
  | other
  deriving DecidableEq, Repr

/-- The dictionaries of libqpdf. A name that a dictionary does not have has no object in it. -/
class PdfDictionaries where
  Dictionary : Type → Type
  newDictionary {α : Type} : Dictionary α
  getKey {α : Type} : Dictionary α → Bytes → Option α
  getKeys {α : Type} : Dictionary α → List Bytes
  replaceKey {α : Type} : Dictionary α → Bytes → α → Dictionary α
  removeKey {α : Type} : Dictionary α → Bytes → Dictionary α
  getKey_newDictionary {α : Type} (name : Bytes) :
    getKey (newDictionary : Dictionary α) name = none
  getKey_replaceKey {α : Type} (dictionary : Dictionary α) (name : Bytes) (object : α) :
    getKey (replaceKey dictionary name object) =
      Function.update (getKey dictionary) name (some object)
  getKey_removeKey {α : Type} (dictionary : Dictionary α) (name : Bytes) :
    getKey (removeKey dictionary name) = Function.update (getKey dictionary) name none
  mem_getKeys {α : Type} (dictionary : Dictionary α) (name : Bytes) :
    name ∈ getKeys dictionary ↔ (getKey dictionary name).isSome
  nodup_getKeys {α : Type} (dictionary : Dictionary α) : (getKeys dictionary).Nodup

open PdfDictionaries

abbrev PdfDictionary [PdfDictionaries] (α : Type) := Dictionary α

def PdfDictionary.hasKey [PdfDictionaries] {α : Type} (dictionary : PdfDictionary α)
    (name : Bytes) : Bool :=
  (getKey dictionary name).isSome

/-- Of the catalog only `/CelerKV` is looked at, the dictionary of the tables. -/
structure PdfDocument [PdfDictionaries] where
  celerKv : Option (PdfDictionary (PdfDictionary PdfObject))

/-- The objects under the names of the tables. -/
def PdfDocument.objects [PdfDictionaries] (pdf : PdfDocument) (tableKey : Bytes) :
    Option (Bytes → Option PdfObject) :=
  (pdf.celerKv.bind fun celerKv => getKey celerKv tableKey).map getKey

/-- A file that libqpdf has written is read with the same objects under the same names. -/
class Libqpdf extends PdfDictionaries where
  File : Type
  write : PdfDocument → File
  processFile : File → PdfDocument
  processFile_write (pdf : PdfDocument) : (processFile (write pdf)).objects = pdf.objects

variable [Libqpdf]

def PdfDocument.tableDict (pdf : PdfDocument) (tableName : Bytes) :
    Option (PdfDictionary PdfObject) :=
  pdf.celerKv.bind fun celerKv => getKey celerKv (encodePdfName tableName)

/-! ## The state of a scope -/

/-- `file` is what is found under `filePath`. -/
structure QPDFScopeState where
  pdf : PdfDocument
  filePath : String
  file : Option Libqpdf.File
  dirty : Bool

/-- How a write ends, with the message of what goes wrong. -/
inductive WriteOutcome where
  | written
  | notWritten (what : String)
  | notRenamed (message : String)
  deriving DecidableEq, Repr

namespace QPDFScopeState

/-- The file changes by the rename only. -/
def atomicWritePdf (state : QPDFScopeState) : WriteOutcome → VoidResult × QPDFScopeState
  | .written => (.ok (), { state with file := some (Libqpdf.write state.pdf) })
  | .notWritten what => (.error ⟨"QPDFWrite",
      "failed to write PDF to '" ++ state.filePath ++ "': " ++ what⟩, state)
  | .notRenamed message => (.error ⟨"QPDFWrite",
      "failed to rename temp PDF to '" ++ state.filePath ++ "': " ++ message⟩, state)

def flushLocked (state : QPDFScopeState) (outcome : WriteOutcome) : VoidResult × QPDFScopeState :=
  if !state.dirty then (.ok (), state)
  else
    match state.atomicWritePdf outcome with
    | (.ok (), state) => (.ok (), { state with dirty := false })
    | (.error e, state) => (.error e, state)

/-- The dictionary of a table, which is created if there is none. -/
def getTableDictLocked (state : QPDFScopeState) (tableName : Bytes) :
    PdfDictionary PdfObject × QPDFScopeState :=
  let celerKv := state.pdf.celerKv.getD newDictionary
  match getKey celerKv (encodePdfName tableName) with
  | some tableDict => (tableDict, { state with pdf := ⟨some celerKv⟩ })
  | none => (newDictionary, { state with
      pdf := ⟨some (replaceKey celerKv (encodePdfName tableName) newDictionary)⟩
      dirty := true })

/-- The changes that are made to the dictionary of a table through its handle. -/
def setTableDict (state : QPDFScopeState) (tableName : Bytes)
    (tableDict : PdfDictionary PdfObject) : QPDFScopeState :=
  { state with
    pdf := ⟨some (replaceKey (state.pdf.celerKv.getD newDictionary) (encodePdfName tableName)
      tableDict)⟩ }

end QPDFScopeState

/-! ## Streams -/

/-- A stream together with the state it points to, which nobody changes while it is drained. -/
structure InScope (Impl : Type) where
  state : Option QPDFScopeState
  impl : Impl

/-- A pull of the stream itself, at that state. -/
def InScope.step {Impl α : Type} (pull : Option QPDFScopeState → Impl → Pulled α × Impl)
    (s : InScope Impl) : Option (Pulled α × InScope Impl) :=
  let (r, impl) := pull s.state s.impl
  some (r, { s with impl })

theorem InScope.step_eq {Impl α : Type} {pull : Option QPDFScopeState → Impl → Pulled α × Impl}
    {state : Option QPDFScopeState} {impl next : Impl} {r : Pulled α}
    (h : pull state impl = (r, next)) :
    (⟨state, impl⟩ : InScope Impl).step pull = some (r, ⟨state, next⟩) := by
  rw [InScope.step, h]

structure QPDFGetStream where
  tableName : Bytes
  key : Bytes
  done : Bool
  found : Bool
  cachedValue : Option Bytes

/-- The value is read by the first pull, and kept for the copies. -/
def QPDFGetStream.pull (state : Option QPDFScopeState) (s : QPDFGetStream) :
    Pulled Byte × QPDFGetStream :=
  if s.done then (.ok none, s)
  else
    match s.cachedValue, state with
    | some value, _ => (.ok (some (Chunk.from value)), { s with done := true })
    | none, none => (.error ⟨"QPDFStreamGet", "backend is closed"⟩, s)
    | none, some state =>
        match state.pdf.tableDict s.tableName with
        | none => (.ok none, { s with done := true })
        | some tableDict =>
            match getKey tableDict (encodePdfName s.key) with
            | some (.string value) => (.ok (some (Chunk.from value)),
                { s with done := true, found := true, cachedValue := some value })
            | some .other | none => (.ok none, { s with done := true })

instance : StreamImpl (InScope QPDFGetStream) Byte where
  pull := InScope.step QPDFGetStream.pull
  copy s := s

structure QPDFScanStream where
  tableName : Bytes
  start : Bytes
  done : Bool
  snapshot : Option (List KVPair)
  cursor : Nat

namespace QPDFScanStream

/-- `kChunkSize`. -/
def chunkSize : Nat := 64

/-- The pair of a name of the dictionary, if it is a string under a key with the prefix. -/
def matching (start : Bytes) (tableDict : PdfDictionary PdfObject) (pdfKey : Bytes) :
    Option KVPair :=
  let decoded := decodePdfName pdfKey
  if start.isEmpty || startsWith decoded start then
    match getKey tableDict pdfKey with
    | some (.string value) => some ⟨decoded, value⟩
    | some .other | none => none
  else none

/-- What the first pull reads, sorted by key. -/
def takeSnapshot (pdf : PdfDocument) (tableName start : Bytes) : List KVPair :=
  match pdf.tableDict tableName with
  | none => []
  | some tableDict =>
      ((getKeys tableDict).filterMap (matching start tableDict)).mergeSort
        fun a b => !decide (b.key < a.key)

/-- The strings of a pair are empty once they have been moved out. -/
def movedOut : KVPair := ⟨[], []⟩

/-- The next chunk of the snapshot, whose pairs are moved out of it. -/
def emit (s : QPDFScanStream) (snapshot : List KVPair) : Pulled KVPair × QPDFScanStream :=
  if snapshot.length ≤ s.cursor then
    (.ok none, { s with snapshot := some snapshot, done := true })
  else
    let stop := min (s.cursor + chunkSize) snapshot.length
    let chunkData := (snapshot.take stop).drop s.cursor
    let left := snapshot.take s.cursor ++ chunkData.map (fun _ => movedOut) ++ snapshot.drop stop
    (.ok (some (Chunk.from chunkData)),
      { s with snapshot := some left, cursor := stop, done := snapshot.length ≤ stop })

def pull (state : Option QPDFScopeState) (s : QPDFScanStream) : Pulled KVPair × QPDFScanStream :=
  if s.done then (.ok none, s)
  else
    match s.snapshot, state with
    | some snapshot, _ => s.emit snapshot
    | none, none => (.error ⟨"QPDFStreamScan", "backend is closed"⟩, s)
    | none, some state => s.emit (takeSnapshot state.pdf s.tableName s.start)

end QPDFScanStream

instance : StreamImpl (InScope QPDFScanStream) KVPair where
  pull := InScope.step QPDFScanStream.pull
  copy s := s

/-! ## The backend -/

/-- A closed backend has no state. One that is open has a document as well. -/
structure QPDFBackend where
  state : Option QPDFScopeState
  tableName : Bytes

namespace QPDFBackend

def streamGet (backend : QPDFBackend) (key : Bytes) : Result (StreamHandle Byte) :=
  match backend.state with
  | none => .error ⟨"QPDFStreamGet", "backend is closed"⟩
  | some state => .ok (makeStreamHandle
      (⟨some state, ⟨backend.tableName, key, false, false, none⟩⟩ : InScope QPDFGetStream))

def streamScan (backend : QPDFBackend) (start : Bytes) : Result (StreamHandle KVPair) :=
  match backend.state with
  | none => .error ⟨"QPDFStreamScan", "backend is closed"⟩
  | some state => .ok (makeStreamHandle
      (⟨some state, ⟨backend.tableName, start, false, none, 0⟩⟩ : InScope QPDFScanStream))

/-- Nothing collected is taken for no value. -/
def get (backend : QPDFBackend) (key : Bytes) : Option (Result (Option Bytes)) :=
  match backend.streamGet key with
  | .error e => some (.error e)
  | .ok stream => (Stream.collect stream).map fun
      | .error e => .error e
      | .ok collected => if collected.isEmpty then .ok none else .ok (some collected)

def prefixScan (backend : QPDFBackend) (start : Bytes) : Option (Result (List KVPair)) :=
  match backend.streamScan start with
  | .error e => some (.error e)
  | .ok stream => Stream.collect stream

/-- The end of a write: the dictionary of the table is what the write has made of it, and the
document goes to the file if it is dirty. -/
def flushTable (backend : QPDFBackend) (state : QPDFScopeState)
    (tableDict : PdfDictionary PdfObject) (dirty : Bool) (outcome : WriteOutcome) :
    VoidResult × QPDFBackend :=
  let (r, state) :=
    { state.setTableDict backend.tableName tableDict with dirty }.flushLocked outcome
  (r, { backend with state := some state })

def put (backend : QPDFBackend) (key value : Bytes) (outcome : WriteOutcome) :
    VoidResult × QPDFBackend :=
  match backend.state with
  | none => (.error ⟨"QPDFPut", "backend is closed"⟩, backend)
  | some state =>
      let (tableDict, state) := state.getTableDictLocked backend.tableName
      backend.flushTable state (replaceKey tableDict (encodePdfName key) (.string value)) true outcome

/-- A key that is not there is no reason to write. -/
def del (backend : QPDFBackend) (key : Bytes) (outcome : WriteOutcome) :
    VoidResult × QPDFBackend :=
  match backend.state with
  | none => (.error ⟨"QPDFDel", "backend is closed"⟩, backend)
  | some state =>
      let (tableDict, state) := state.getTableDictLocked backend.tableName
      if tableDict.hasKey (encodePdfName key) then
        backend.flushTable state (removeKey tableDict (encodePdfName key)) true outcome
      else (.ok (), { backend with state := some state })

/-- The loop of a batch, which returns at a put without a value. -/
def editTable : List BatchOp → PdfDictionary PdfObject → Bool →
    VoidResult × PdfDictionary PdfObject × Bool
  | [], tableDict, dirty => (.ok (), tableDict, dirty)
  | op :: ops, tableDict, dirty =>
      match op.kind, op.value with
      | .put, none => (.error ⟨"StoreBatch", "put op missing value"⟩, tableDict, dirty)
      | .put, some value =>
          editTable ops (replaceKey tableDict (encodePdfName op.key) (.string value)) true
      | .del, _ =>
          if tableDict.hasKey (encodePdfName op.key) then
            editTable ops (removeKey tableDict (encodePdfName op.key)) true
          else editTable ops tableDict dirty

def batch (backend : QPDFBackend) (ops : List BatchOp) (outcome : WriteOutcome) :
    VoidResult × QPDFBackend :=
  match backend.state with
  | none => (.error ⟨"QPDFBatch", "backend is closed"⟩, backend)
  | some state =>
      let (tableDict, state) := state.getTableDictLocked backend.tableName
      match editTable ops tableDict state.dirty with
      | (.error e, tableDict, dirty) => (.error e, { backend with
          state := some { state.setTableDict backend.tableName tableDict with dirty } })
      | (.ok (), tableDict, dirty) => backend.flushTable state tableDict dirty outcome

def compact (backend : QPDFBackend) (outcome : WriteOutcome) : VoidResult × QPDFBackend :=
  match backend.state with
  | none => (.error ⟨"QPDFCompact", "backend is closed"⟩, backend)
  | some state =>
      let (r, state) := { state with dirty := true }.flushLocked outcome
      (r, { backend with state := some state })

/-- The tables that still share the state find it flushed. -/
def close (backend : QPDFBackend) (outcome : WriteOutcome) :
    VoidResult × Option QPDFScopeState × QPDFBackend :=
  match backend.state with
  | none => (.ok (), none, backend)
  | some state =>
      let (r, state) := state.flushLocked outcome
      (r, some state, { backend with state := none })

end QPDFBackend

/-! ## Opening a scope -/

/-- What the file system answers while a scope is opened; a directory is reported with the
message of the error. -/
structure OpenOutcome where
  directoryFailure : Option (String × String)
  processFailure : Option String
  write : WriteOutcome

/-- `file` is what is found under the path, if there is something. -/
def openScopePdf (createIfMissing : Bool) (pdfPath : String) (file : Option Libqpdf.File)
    (outcome : OpenOutcome) : Result QPDFScopeState :=
  match outcome.directoryFailure with
  | some (parent, message) =>
      .error ⟨"QPDFOpen", "failed to create directory '" ++ parent ++ "': " ++ message⟩
  | none =>
      match file with
      | some written =>
          match outcome.processFailure with
          | some what => .error ⟨"QPDFOpen", "failed to open PDF '" ++ pdfPath ++ "': " ++ what⟩
          | none => .ok ⟨Libqpdf.processFile written, pdfPath, some written, false⟩
      | none =>
          if createIfMissing then
            match QPDFScopeState.flushLocked ⟨⟨none⟩, pdfPath, none, true⟩ outcome.write with
            | (.error e, _) => .error e
            | (.ok (), state) => .ok state
          else .error ⟨"QPDFOpen",
            "PDF file '" ++ pdfPath ++ "' does not exist and create_if_missing is false"⟩

end CelerMem
