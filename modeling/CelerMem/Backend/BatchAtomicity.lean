import CelerMem.Backend.RocksDB
import CelerMem.Backend.SQLiteBatch

/-! `RocksDBBackend::batch`, and the batches of the two embedded backends. RocksDB writes a
`WriteBatch` as a whole; SQLite works under a savepoint, which has to be closed again. -/
namespace CelerMem

variable {ω : Type}

/-- The entries of a `WriteBatch`, and `Write`, which gives the message of a status that is
not ok. -/
structure RocksWriter (ω : Type) where
  write : List (Bytes × Option Bytes) → ω → Option String × ω

namespace RocksDBBackend

/-- `WriteBatch::Put` refuses keys and values of 4 GB, and its status is not looked at. -/
def batchPut (wb : List (Bytes × Option Bytes)) (key value : Bytes) : List (Bytes × Option Bytes) :=
  if key.length < uint32Size ∧ value.length < uint32Size then wb ++ [(key, some value)] else wb

def buildBatch : List BatchOp → List (Bytes × Option Bytes) → Result (List (Bytes × Option Bytes))
  | [], wb => .ok wb
  | op :: ops, wb =>
      match op.kind, op.value with
      | .put, none => .error missingValue
      | .put, some value => buildBatch ops (batchPut wb op.key value)
      | .del, _ => buildBatch ops (wb ++ [(op.key, none)])

def batch (db : Option (RocksWriter ω)) (ops : List BatchOp) (w : ω) : VoidResult × ω :=
  match db with
  | none => (.error ⟨"RocksDBBatch", "db is closed"⟩, w)
  | some db =>
      match buildBatch ops [] with
      | .error e => (.error e, w)
      | .ok wb =>
          match db.write wb w with
          | (some msg, w) => (.error ⟨"StoreBatch", msg⟩, w)
          | (none, w) => (.ok (), w)

end RocksDBBackend

/-- A `WriteBatch` whose keys and values are below 4 GB is written as a whole or not at all. -/
structure RocksWriter.Writes (db : RocksWriter ω) (contents : ω → Contents) : Prop where
  written : ∀ {wb w w'}, (∀ entry ∈ wb, entry.1.length < uint32Size) →
    db.write wb w = (none, w') → contents w' = Edits.apply (contents w) wb
  notWritten : ∀ {wb msg w w'}, db.write wb w = (some msg, w') → contents w' = contents w

/-- Keys and values that a `WriteBatch` takes. -/
def BatchOp.FitsRocks (op : BatchOp) : Prop :=
  op.key.length < uint32Size ∧ ∀ value, op.value = some value → value.length < uint32Size

namespace RocksDBBackend
variable {db : RocksWriter ω} {contents : ω → Contents} {w : ω} {ops : List BatchOp}

/-- A successful batch leaves its operations in order, a failed one what was there. -/
structure Atomic (contents : ω → Contents) (ops : List BatchOp) (w : ω) (outcome : VoidResult × ω) :
    Prop where
  applied : outcome.1 = .ok () → applyOps ops (contents w) = .ok (contents outcome.2)
  undone : ∀ e, outcome.1 = .error e → contents outcome.2 = contents w

/-- The entries are the edits of the operations, in order. -/
theorem buildBatch_ok (hFits : ∀ op ∈ ops, op.FitsRocks) {wb wb' : List (Bytes × Option Bytes)}
    (h : buildBatch ops wb = .ok wb') :
    (∀ op ∈ ops, op.Complete) ∧ wb' = wb ++ ops.map BatchOp.edit := by
  induction ops generalizing wb with
  | nil =>
      obtain rfl := Except.ok.inj h
      exact ⟨by simp, by simp⟩
  | cons op ops ih =>
      have hRest : ∀ other ∈ ops, other.FitsRocks :=
        fun other hMem => hFits other (List.mem_cons_of_mem op hMem)
      obtain ⟨hKey, hValue⟩ := hFits op List.mem_cons_self
      obtain ⟨kind, cfName, key, value⟩ := op
      cases kind with
      | del =>
          obtain ⟨hComplete, rfl⟩ := ih hRest h
          refine ⟨List.forall_mem_cons.mpr ⟨by simp [BatchOp.Complete], hComplete⟩, ?_⟩
          rw [List.append_assoc]
          rfl
      | put =>
          cases value with
          | none => cases h
          | some value =>
              have hTaken : batchPut wb key value = wb ++ [(key, some value)] :=
                if_pos ⟨hKey, hValue value rfl⟩
              change buildBatch ops (batchPut wb key value) = .ok wb' at h
              rw [hTaken] at h
              obtain ⟨hComplete, rfl⟩ := ih hRest h
              refine ⟨List.forall_mem_cons.mpr ⟨by simp [BatchOp.Complete], hComplete⟩, ?_⟩
              rw [List.append_assoc]
              rfl

theorem batch_atomic (hWrites : db.Writes contents) (hFits : ∀ op ∈ ops, op.FitsRocks) :
    Atomic contents ops w (batch (some db) ops w) := by
  cases hBuild : buildBatch ops [] with
  | error e =>
      have hBatch : batch (some db) ops w = (.error e, w) := by simp [batch, hBuild]
      rw [hBatch]
      exact ⟨by simp, fun _ _ => rfl⟩
  | ok wb =>
      obtain ⟨hComplete, hEntries⟩ := buildBatch_ok hFits hBuild
      rcases hWrite : db.write wb w with ⟨status, w'⟩
      cases status with
      | some msg =>
          have hBatch : batch (some db) ops w = (.error ⟨"StoreBatch", msg⟩, w') := by
            simp [batch, hBuild, hWrite]
          rw [hBatch]
          exact ⟨by simp, fun _ _ => hWrites.notWritten hWrite⟩
      | none =>
          have hBatch : batch (some db) ops w = (.ok (), w') := by simp [batch, hBuild, hWrite]
          have hKeys : ∀ entry ∈ wb, entry.1.length < uint32Size := by
            intro entry hMem
            rw [hEntries, List.nil_append] at hMem
            obtain ⟨op, hOp, rfl⟩ := List.mem_map.mp hMem
            rw [BatchOp.edit_fst]
            exact (hFits op hOp).1
          rw [hBatch]
          refine ⟨?_, by simp⟩
          intro _
          rw [applyOps_eq hComplete, hWrites.written hKeys hWrite, hEntries, List.nil_append]

end RocksDBBackend

/-! ## Both -/

section Both
variable {ω' : Type}

/-- A batch of RocksDB is atomic, and one of SQLite if and only if its savepoint is released,
as long as the keys and values are not too long. -/
theorem embedded_batch_atomic_iff {rocks : RocksWriter ω} {contents : ω → Contents} {w : ω}
    {sqlite : SQLiteCalls ω'} {tableName : Bytes} {session : ω' → SQLiteSession} {w' : ω'} (id : Nat)
    {ops : List BatchOp} (hWrites : rocks.Writes contents) (hKeeps : sqlite.Keeps tableName session)
    (hFits : ∀ op ∈ ops, op.FitsRocks) (hBinds : ∀ op ∈ ops, op.Binds sqlite.maxLength)
    (hClosed : (session w').savepoints = []) :
    RocksDBBackend.Atomic contents ops w (RocksDBBackend.batch (some rocks) ops w) ∧
      (SQLiteBackend.Atomic session ops w' (SQLiteBackend.batch (some sqlite) tableName id ops w') ↔
        SQLiteBackend.Releases sqlite tableName session (SQLiteBackend.savepointName id) ops w') :=
  ⟨RocksDBBackend.batch_atomic hWrites hFits,
    SQLiteBackend.atomic_iff_releases hKeeps id hClosed hBinds⟩

end Both

/-! ## Databases in memory -/

/-- A SQLite that fails at nothing but to release a savepoint, if it is locked. -/
def memorySQLite (locked : Bool) : SQLiteCalls SQLiteSession where
  exec sql s :=
    match sql with
    | .savepoint name => (.ok (), s.savepoint name)
    | .release name =>
        if locked then (.error (some "database is locked"), s)
        else
          match s.release name with
          | none => (.error (some "no such savepoint"), s)
          | some s' => (.ok (), s')
    | .rollbackTo name =>
        match s.rollbackTo name with
        | none => (.error (some "no such savepoint"), s)
        | some s' => (.ok (), s')
  prepare _ _ s := (true, s)
  step _ sql s :=
    match s.current.step sql with
    | none => (false, s)
    | some rows => (true, s.put rows)
  errmsg _ := "not an error"
  maxLength := 1000000000
  negativeBlob _ := none

theorem memorySQLite_keeps (locked : Bool) (tableName : Bytes) :
    (memorySQLite locked).Keeps tableName fun s => s where
  saved := by
    intro name w w' h
    exact (Prod.mk.inj h).2.symm
  released := by
    intro name w w' h
    simp only [memorySQLite] at h
    split at h
    next => cases (Prod.mk.inj h).1
    next =>
      split at h
      next => cases (Prod.mk.inj h).1
      next s' hRelease => rw [hRelease, (Prod.mk.inj h).2]
  rolledBack := by
    intro name w w' h
    simp only [memorySQLite] at h
    split at h
    next => cases (Prod.mk.inj h).1
    next s' hBack => rw [hBack, (Prod.mk.inj h).2]
  refused := by
    intro sql errmsg w w' h
    cases sql with
    | savepoint name => cases (Prod.mk.inj h).1
    | release name =>
        simp only [memorySQLite] at h
        split at h
        next => exact (Prod.mk.inj h).2.symm
        next =>
          split at h
          next => exact (Prod.mk.inj h).2.symm
          next => cases (Prod.mk.inj h).1
    | rollbackTo name =>
        simp only [memorySQLite] at h
        split at h
        next => exact (Prod.mk.inj h).2.symm
        next => cases (Prod.mk.inj h).1
  prepared := fun _ _ => rfl
  done := by
    intro sql w w' h
    simp only [memorySQLite] at h
    split at h
    next => cases (Prod.mk.inj h).1
    next rows hStep => exact ⟨rows, hStep, (Prod.mk.inj h).2.symm⟩
  failed := by
    intro sql w w' h
    simp only [memorySQLite] at h
    split at h
    next => exact .inl (Prod.mk.inj h).2.symm
    next => cases (Prod.mk.inj h).1

/-- A RocksDB that never fails. -/
def memoryRocks : RocksWriter Contents where
  write wb contents := (none, Edits.apply contents wb)

theorem memoryRocks_writes : memoryRocks.Writes fun contents => contents where
  written _ h := (Prod.mk.inj h).2.symm
  notWritten h := by cases (Prod.mk.inj h).1

def emptyTable : SQLiteSession := ⟨⟨fun _ => none, []⟩, []⟩

/-- A put and a delete of the same key, and another put. -/
def threeOps : List BatchOp :=
  [⟨.put, [], ascii "a", some [1]⟩, ⟨.del, [], ascii "a", none⟩, ⟨.put, [], ascii "b", some [2]⟩]

theorem embedded_batch_atomic_small :
    RocksDBBackend.Atomic (fun contents => contents) threeOps (fun _ => none)
      (RocksDBBackend.batch (some memoryRocks) threeOps fun _ => none) ∧
    SQLiteBackend.Atomic (fun s => s) threeOps emptyTable
      (SQLiteBackend.batch (some (memorySQLite false)) (ascii "t") 0 threeOps emptyTable) := by
  have hBoth := @embedded_batch_atomic_iff _ _ memoryRocks _ (fun _ => none) _ (ascii "t") _
    emptyTable 0 threeOps memoryRocks_writes (memorySQLite_keeps false (ascii "t"))
    (by simp [threeOps, BatchOp.FitsRocks, uint32Size, ascii])
    (by simp [threeOps, BatchOp.Binds, memorySQLite, ascii]) rfl
  refine ⟨hBoth.1, hBoth.2.mpr ⟨?_, ?_⟩⟩
  · intro w₁ w₂ hBegin hOps
    obtain rfl := (Prod.mk.inj hBegin).2
    obtain rfl := (Prod.mk.inj hOps).2
    rfl
  · intro w₁ stop w₂ hBegin hOps
    obtain rfl := (Prod.mk.inj hBegin).2
    cases (Prod.mk.inj hOps).1

/-- A key that is longer than SQLite takes is bound as `NULL`, and the batch succeeds. -/
theorem long_key_is_not_stored {key : Bytes} (hSmall : key.length < 2 ^ 31)
    (hLong : 1000000000 < key.length) :
    ¬ SQLiteBackend.Atomic (fun s => s) [⟨.put, [], key, some [1]⟩] emptyTable
      (SQLiteBackend.batch (some (memorySQLite false)) (ascii "t") 0 [⟨.put, [], key, some [1]⟩]
        emptyTable) := by
  have hNull : (memorySQLite false).bindText key = none := bindText_eq_none hSmall hLong
  have hOps : SQLiteBackend.runOps (memorySQLite false) (ascii "t") [⟨.put, [], key, some [1]⟩]
      (emptyTable.savepoint (SQLiteBackend.savepointName 0)) =
        (none, (emptyTable.savepoint (SQLiteBackend.savepointName 0)).put ⟨fun _ => none, [[1]]⟩) := by
    simp only [SQLiteBackend.runOps, SQLiteBackend.runOp, hNull]
    rfl
  have hBatch : SQLiteBackend.batch (some (memorySQLite false)) (ascii "t") 0
      [⟨.put, [], key, some [1]⟩] emptyTable = (.ok (), ⟨⟨fun _ => none, [[1]]⟩, []⟩) := by
    have hBegin : (memorySQLite false).exec (.savepoint (SQLiteBackend.savepointName 0)) emptyTable =
        (.ok (), emptyTable.savepoint (SQLiteBackend.savepointName 0)) := rfl
    simp only [SQLiteBackend.batch, hBegin, hOps]
    rfl
  rw [hBatch]
  intro hAtomic
  have hRows := (hAtomic.applied rfl).2.1
  cases hRows

/-- A `RELEASE` that fails leaves the new row to be read. -/
theorem failed_release_leaves_row :
    ¬ SQLiteBackend.Atomic (fun s => s) [⟨.put, [], ascii "a", some [1]⟩] emptyTable
      (SQLiteBackend.batch (some (memorySQLite true)) (ascii "t") 0
        [⟨.put, [], ascii "a", some [1]⟩] emptyTable) := by
  intro hAtomic
  have hSame := hAtomic.undone ⟨"StoreBatch", "database is locked"⟩ rfl
  have hRow := congrArg (fun s => s.current.contents (ascii "a")) hSame
  revert hRow
  decide

end CelerMem
