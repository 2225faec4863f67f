import CelerMem.Backend.SQLite
import CelerMem.Core.Chunk
import CelerMem.Library.Savepoints

/-! `SQLiteBackend::batch`, under a savepoint of its own. SQLite itself is a parameter: what
it answers to the statements of a batch, each of which may fail. -/
namespace CelerMem
open Savepoints

variable {ω : Type}

/-- The statements that are executed by `sqlite3_exec`. -/
inductive SavepointSql where
  | savepoint (name : String)
  | release (name : String)
  | rollbackTo (name : String)

/-- `INSERT OR REPLACE` and `DELETE ... WHERE key = ?`, with what is bound to them. A
parameter without a value is `NULL`. -/
inductive TableSql where
  | insertOrReplace (key value : Option Bytes)
  | deleteWhereKey (key : Option Bytes)

/-- The calls of SQLite on a connection. `exec` gives its error as a copy of the message,
which is null if there is no memory for it; `prepare` and `step` say whether they have come
to `SQLITE_OK` and `SQLITE_DONE`. -/
structure SQLiteCalls (ω : Type) where
  exec : SavepointSql → ω → Except (Option String) Unit × ω
  prepare : Bytes → BatchOp.Kind → ω → Bool × ω
  step : Bytes → TableSql → ω → Bool × ω
  errmsg : ω → String
  maxLength : Nat
  negativeBlob : Bytes → Option Bytes

def SQLiteCalls.bindText (db : SQLiteCalls ω) (text : Bytes) : Option Bytes :=
  CelerMem.bindText db.maxLength text

/-- As with a text, but what a blob of negative length is, nothing says. -/
def SQLiteCalls.bindBlob (db : SQLiteCalls ω) (blob : Bytes) : Option Bytes :=
  let n := blob.length % uint32Size
  if n < 2 ^ 31 then
    if n ≤ db.maxLength then some (blob.take n) else none
  else db.negativeBlob blob

namespace SQLiteBackend

/-- Why the loop over the operations returns. -/
inductive Stop where
  | missingValue
  | statement

/-- A statement of the loop. -/
def runStatement (db : SQLiteCalls ω) (tableName : Bytes) (kind : BatchOp.Kind) (sql : TableSql)
    (w : ω) : Option Stop × ω :=
  match db.prepare tableName kind w with
  | (false, w) => (some .statement, w)
  | (true, w) =>
      match db.step tableName sql w with
      | (false, w) => (some .statement, w)
      | (true, w) => (none, w)

def runOp (db : SQLiteCalls ω) (tableName : Bytes) (op : BatchOp) (w : ω) : Option Stop × ω :=
  match op.kind, op.value with
  | .put, none => (some .missingValue, w)
  | .put, some value =>
      runStatement db tableName .put (.insertOrReplace (db.bindText op.key) (db.bindBlob value)) w
  | .del, _ => runStatement db tableName .del (.deleteWhereKey (db.bindText op.key)) w

/-- The loop, up to the operation at which it returns. -/
def runOps (db : SQLiteCalls ω) (tableName : Bytes) : List BatchOp → ω → Option Stop × ω
  | [], w => (none, w)
  | op :: ops, w =>
      match runOp db tableName op w with
      | (some stop, w) => (some stop, w)
      | (none, w) => runOps db tableName ops w

/-- Whether these two statements fail is not looked at. -/
def cleanUp (db : SQLiteCalls ω) (sp : String) (w : ω) : ω :=
  (db.exec (.release sp) (db.exec (.rollbackTo sp) w).2).2

/-- The message is read after the clean-up. -/
def Stop.error (db : SQLiteCalls ω) (w : ω) : Stop → Error
  | .missingValue => CelerMem.missingValue
  | .statement => ⟨"StoreBatch", db.errmsg w⟩

/-- The name is built from what `next_savepoint_id` returns. -/
def savepointName (id : Nat) : String := "sp_" ++ toString id

/-- The five places at which the loop returns clean up in the same way. -/
def batch (db : Option (SQLiteCalls ω)) (tableName : Bytes) (id : Nat) (ops : List BatchOp) (w : ω) :
    VoidResult × ω :=
  match db with
  | none => (.error ⟨"SQLiteBatch", "db is closed"⟩, w)
  | some db =>
      let sp := savepointName id
      match db.exec (.savepoint sp) w with
      | (.error errmsg, w) => (.error ⟨"StoreBatch", errmsg.getD "unknown error"⟩, w)
      | (.ok (), w) =>
          match runOps db tableName ops w with
          | (some stop, w) =>
              let w := cleanUp db sp w
              (.error (stop.error db w), w)
          | (none, w) =>
              match db.exec (.release sp) w with
              | (.error errmsg, w) => (.error ⟨"StoreBatch", errmsg.getD "unknown error"⟩, w)
              | (.ok (), w) => (.ok (), w)

end SQLiteBackend

/-! ## What SQLite keeps -/

/-- The rows of a table with their values. A text that is a primary key may be `NULL`, and
then it is not equal to any key. -/
structure TableRows where
  contents : Contents
  nullKeyed : List Bytes

/-- What a statement does when it does not fail; a value has to be given. -/
def TableRows.step (rows : TableRows) : TableSql → Option TableRows
  | .insertOrReplace _ none => none
  | .insertOrReplace none (some value) => some { rows with nullKeyed := value :: rows.nullKeyed }
  | .insertOrReplace (some key) (some value) =>
      some { rows with contents := Function.update rows.contents key (some value) }
  | .deleteWhereKey none => some rows
  | .deleteWhereKey (some key) =>
      some { rows with contents := Function.update rows.contents key none }

/-- A table and its savepoints, as they are seen on the connection. -/
abbrev SQLiteSession := Session String TableRows

/-- The semantics of savepoints. A statement that fails changes nothing, unless it is one on
the table and SQLite gives up the whole transaction with it. -/
structure SQLiteCalls.Keeps (db : SQLiteCalls ω) (tableName : Bytes) (session : ω → SQLiteSession) :
    Prop where
  saved : ∀ {name w w'}, db.exec (.savepoint name) w = (.ok (), w') →
    session w' = (session w).savepoint name
  released : ∀ {name w w'}, db.exec (.release name) w = (.ok (), w') →
    (session w).release name = some (session w')
  rolledBack : ∀ {name w w'}, db.exec (.rollbackTo name) w = (.ok (), w') →
    (session w).rollbackTo name = some (session w')
  refused : ∀ {sql errmsg w w'}, db.exec sql w = (.error errmsg, w') → session w' = session w
  prepared : ∀ kind w, session (db.prepare tableName kind w).2 = session w
  done : ∀ {sql w w'}, db.step tableName sql w = (true, w') →
    ∃ rows, (session w).current.step sql = some rows ∧ session w' = (session w).put rows
  failed : ∀ {sql w w'}, db.step tableName sql w = (false, w') →
    session w' = session w ∨ session w' = (session w).rollback

/-- Keys and values that are bound as they are, or found to be too long. -/
def BatchOp.Binds (maxLength : Nat) (op : BatchOp) : Prop :=
  op.key.length < 2 ^ 31 ∧ op.key.length ≤ maxLength ∧
    ∀ value, op.value = some value → value.length < 2 ^ 31

namespace SQLiteBackend
variable {db : SQLiteCalls ω} {tableName : Bytes} {session : ω → SQLiteSession} {w w' : ω}

/-- A successful batch leaves its operations in order and nothing else, a failed one leaves
the table and the savepoints as they were. -/
structure Atomic (session : ω → SQLiteSession) (ops : List BatchOp) (w : ω) (outcome : VoidResult × ω) :
    Prop where
  applied : outcome.1 = .ok () →
    applyOps ops (session w).current.contents = .ok (session outcome.2).current.contents ∧
      (session outcome.2).current.nullKeyed = (session w).current.nullKeyed ∧
      (session outcome.2).savepoints = []
  undone : ∀ e, outcome.1 = .error e → session outcome.2 = session w

/-- Where the savepoint was set, the last `RELEASE` does not fail; and where the loop returned
and SQLite has not given up the transaction by itself, neither does the `RELEASE` of the
clean-up, nor its `ROLLBACK TO` unless there was nothing to undo. -/
structure Releases (db : SQLiteCalls ω) (tableName : Bytes) (session : ω → SQLiteSession) (sp : String)
    (ops : List BatchOp) (w : ω) : Prop where
  last : ∀ w₁ w₂, db.exec (.savepoint sp) w = (.ok (), w₁) → runOps db tableName ops w₁ = (none, w₂) →
    (db.exec (.release sp) w₂).1 = .ok ()
  cleanUp : ∀ w₁ stop w₂, db.exec (.savepoint sp) w = (.ok (), w₁) →
    runOps db tableName ops w₁ = (some stop, w₂) → (session w₂).savepoints ≠ [] →
    ((db.exec (.rollbackTo sp) w₂).1 = .ok () ∨ (session w₂).current = (session w).current) ∧
      (db.exec (.release sp) (db.exec (.rollbackTo sp) w₂).2).1 = .ok ()

/-! ### The loop -/

/-- The savepoint of the batch is the only one. -/
def Within (sp : String) (before : TableRows) (s : SQLiteSession) : Prop :=
  s.savepoints = [(sp, before)]

/-- Where the loop returns the savepoint is open, or SQLite has given up the transaction. -/
def Stopped (sp : String) (before : TableRows) (s : SQLiteSession) : Prop :=
  Within sp before s ∨ s = ⟨before, []⟩

section Loop
variable {sp : String} {before : TableRows} {stop : Stop}

theorem bindBlob_eq {blob : Bytes} (hSmall : blob.length < 2 ^ 31) :
    db.bindBlob blob = if blob.length ≤ db.maxLength then some blob else none := by
  have hLength : blob.length % uint32Size = blob.length :=
    Nat.mod_eq_of_lt (by simp only [uint32Size]; omega)
  simp only [SQLiteCalls.bindBlob, hLength, if_pos hSmall, List.take_length]

theorem runStatement_done (hKeeps : db.Keeps tableName session) {kind : BatchOp.Kind} {sql : TableSql}
    (h : runStatement db tableName kind sql w = (none, w')) :
    ∃ rows, (session w).current.step sql = some rows ∧ session w' = (session w).put rows := by
  have hPrepared := hKeeps.prepared kind w
  unfold runStatement at h
  split at h
  next => cases h
  next w₁ hPrepare =>
    split at h
    next => cases h
    next w₂ hStep =>
      obtain ⟨-, rfl⟩ := Prod.mk.inj h
      rw [hPrepare] at hPrepared
      rw [← hPrepared]
      exact hKeeps.done hStep

theorem runStatement_stop (hKeeps : db.Keeps tableName session) {kind : BatchOp.Kind} {sql : TableSql}
    (hWithin : Within sp before (session w))
    (h : runStatement db tableName kind sql w = (some stop, w')) :
    Stopped sp before (session w') := by
  have hPrepared := hKeeps.prepared kind w
  unfold runStatement at h
  split at h
  next w₁ hPrepare =>
    obtain ⟨-, rfl⟩ := Prod.mk.inj h
    rw [hPrepare] at hPrepared
    exact .inl (hPrepared ▸ hWithin)
  next w₁ hPrepare =>
    rw [hPrepare] at hPrepared
    split at h
    next w₂ hStep =>
      obtain ⟨-, rfl⟩ := Prod.mk.inj h
      rcases hKeeps.failed hStep with hSame | hRollback
      · exact .inl (by rw [hSame, hPrepared]; exact hWithin)
      · right
        rw [hRollback, hPrepared, Session.rollback, hWithin]
        rfl
    next => cases h

theorem runOp_done (hKeeps : db.Keeps tableName session) {op : BatchOp}
    (h : runOp db tableName op w = (none, w')) :
    ∃ rows, session w' = (session w).put rows ∧
      (op.Binds db.maxLength → op.Complete ∧
        rows.contents = Function.update (session w).current.contents op.edit.1 op.edit.2 ∧
        rows.nullKeyed = (session w).current.nullKeyed) := by
  obtain ⟨kind, cfName, key, value⟩ := op
  cases kind with
  | del =>
      obtain ⟨rows, hStep, hPut⟩ := runStatement_done hKeeps h
      refine ⟨rows, hPut, ?_⟩
      intro hBinds
      rw [SQLiteCalls.bindText, bindText_eq hBinds.1 hBinds.2.1] at hStep
      obtain rfl := Option.some.inj hStep
      exact ⟨by simp [BatchOp.Complete], rfl, rfl⟩
  | put =>
      cases value with
      | none => cases h
      | some value =>
          obtain ⟨rows, hStep, hPut⟩ := runStatement_done hKeeps h
          refine ⟨rows, hPut, ?_⟩
          intro hBinds
          rw [SQLiteCalls.bindText, bindText_eq hBinds.1 hBinds.2.1, bindBlob_eq (hBinds.2.2 value rfl)] at hStep
          split at hStep
          next =>
            obtain rfl := Option.some.inj hStep
            exact ⟨by simp [BatchOp.Complete], rfl, rfl⟩
          next => cases hStep

theorem runOp_stop (hKeeps : db.Keeps tableName session) {op : BatchOp}
    (hWithin : Within sp before (session w)) (h : runOp db tableName op w = (some stop, w')) :
    Stopped sp before (session w') := by
  unfold runOp at h
  split at h
  next =>
    obtain ⟨-, rfl⟩ := Prod.mk.inj h
    exact .inl hWithin
  next => exact runStatement_stop hKeeps hWithin h
  next => exact runStatement_stop hKeeps hWithin h

theorem runOps_done (hKeeps : db.Keeps tableName session) {ops : List BatchOp}
    (h : runOps db tableName ops w = (none, w')) :
    (session w').savepoints = (session w).savepoints ∧
      ((∀ op ∈ ops, op.Binds db.maxLength) →
        applyOps ops (session w).current.contents = .ok (session w').current.contents ∧
          (session w').current.nullKeyed = (session w).current.nullKeyed) := by
  induction ops generalizing w with
  | nil =>
      obtain ⟨-, rfl⟩ := Prod.mk.inj h
      exact ⟨rfl, fun _ => ⟨rfl, rfl⟩⟩
  | cons op ops ih =>
      unfold runOps at h
      split at h
      next => cases h
      next w₁ hOp =>
        obtain ⟨rows, hPut, hEdit⟩ := runOp_done hKeeps hOp
        obtain ⟨hSavepoints, hRest⟩ := ih h
        refine ⟨by rw [hSavepoints, hPut]; rfl, ?_⟩
        intro hBinds
        obtain ⟨hComplete, hContents, hNull⟩ := hEdit (hBinds op List.mem_cons_self)
        obtain ⟨hApplied, hNulls⟩ := hRest fun other hMem => hBinds other (List.mem_cons_of_mem op hMem)
        have hFirst := applyOps_cons ops hComplete (session w).current.contents
        rw [hPut, Session.put, hContents] at hApplied
        rw [hPut, Session.put, hNull] at hNulls
        exact ⟨hFirst.trans hApplied, hNulls⟩

theorem runOps_stop (hKeeps : db.Keeps tableName session) {ops : List BatchOp}
    (hWithin : Within sp before (session w)) (h : runOps db tableName ops w = (some stop, w')) :
    Stopped sp before (session w') := by
  induction ops generalizing w with
  | nil => cases h
  | cons op ops ih =>
      unfold runOps at h
      split at h
      next stop' w₁ hOp =>
        obtain ⟨-, rfl⟩ := Prod.mk.inj h
        exact runOp_stop hKeeps hWithin hOp
      next w₁ hOp =>
        obtain ⟨rows, hPut, -⟩ := runOp_done hKeeps hOp
        exact ih (by rw [hPut]; exact hWithin) h

/-- A `ROLLBACK TO` that does not fail restores the rows, and the savepoint stays open. -/
theorem rollbackTo_within (hKeeps : db.Keeps tableName session)
    (hWithin : Within sp before (session w)) :
    Within sp before (session (db.exec (.rollbackTo sp) w).2) ∧
      ((session (db.exec (.rollbackTo sp) w).2).current = before ↔
        (db.exec (.rollbackTo sp) w).1 = .ok () ∨ (session w).current = before) := by
  obtain ⟨rows, hSession⟩ : ∃ rows, session w = ⟨rows, [(sp, before)]⟩ := ⟨_, by rw [← hWithin]⟩
  rcases hReply : db.exec (.rollbackTo sp) w with ⟨reply, w₁⟩
  cases reply with
  | error errmsg =>
      rw [hKeeps.refused hReply]
      exact ⟨hWithin, by simp⟩
  | ok =>
      have hBack := hKeeps.rolledBack hReply
      rw [hSession, Session.rollbackTo_last, Option.some_inj] at hBack
      rw [← hBack]
      exact ⟨rfl, by simp⟩

/-- A `RELEASE` that does not fail keeps the rows and closes the savepoint. -/
theorem release_within (hKeeps : db.Keeps tableName session)
    (hWithin : Within sp before (session w)) :
    ((db.exec (.release sp) w).1 = .ok () →
      session (db.exec (.release sp) w).2 = ⟨(session w).current, []⟩) ∧
    ((db.exec (.release sp) w).1 ≠ .ok () →
      (session (db.exec (.release sp) w).2).savepoints ≠ []) := by
  obtain ⟨rows, hSession⟩ : ∃ rows, session w = ⟨rows, [(sp, before)]⟩ := ⟨_, by rw [← hWithin]⟩
  rcases hReply : db.exec (.release sp) w with ⟨reply, w₁⟩
  cases reply with
  | error errmsg =>
      rw [hKeeps.refused hReply, hSession]
      exact ⟨by simp, by simp⟩
  | ok =>
      have hReleased := hKeeps.released hReply
      rw [hSession, Session.release_last, Option.some_inj] at hReleased
      rw [← hReleased, hSession]
      exact ⟨fun _ => rfl, fun hFailed => absurd rfl hFailed⟩

/-- Where SQLite has given up the transaction, the clean-up finds no savepoint. -/
theorem cleanUp_closed (hKeeps : db.Keeps tableName session) (hClosed : (session w).savepoints = []) :
    session (cleanUp db sp w) = session w := by
  have hRollback : session (db.exec (.rollbackTo sp) w).2 = session w := by
    rcases hReply : db.exec (.rollbackTo sp) w with ⟨reply, w₁⟩
    cases reply with
    | error errmsg => exact hKeeps.refused hReply
    | ok =>
        have hBack := hKeeps.rolledBack hReply
        rw [Session.rollbackTo_of_closed hClosed] at hBack
        cases hBack
  unfold cleanUp
  rcases hReply : db.exec (.release sp) (db.exec (.rollbackTo sp) w).2 with ⟨reply, w₂⟩
  cases reply with
  | error errmsg => exact (hKeeps.refused hReply).trans hRollback
  | ok =>
      have hReleased := hKeeps.released hReply
      rw [hRollback, Session.release_of_closed hClosed] at hReleased
      cases hReleased

/-- A clean-up after which nothing is left. -/
theorem cleanUp_eq_iff (hKeeps : db.Keeps tableName session)
    (hStopped : Stopped sp before (session w)) :
    session (cleanUp db sp w) = ⟨before, []⟩ ↔ ((session w).savepoints ≠ [] →
      ((db.exec (.rollbackTo sp) w).1 = .ok () ∨ (session w).current = before) ∧
        (db.exec (.release sp) (db.exec (.rollbackTo sp) w).2).1 = .ok ()) := by
  rcases hStopped with hWithin | hGivenUp
  · obtain ⟨hOpen, hRows⟩ := rollbackTo_within hKeeps hWithin
    obtain ⟨hReleased, hFailed⟩ := release_within hKeeps hOpen
    have hSavepoints : (session w).savepoints ≠ [] := by rw [hWithin]; simp
    rw [← hRows, forall_prop_of_true hSavepoints]
    constructor
    · intro hClean
      have hOk : (db.exec (.release sp) (db.exec (.rollbackTo sp) w).2).1 = .ok () := by
        by_contra hNot
        exact hFailed hNot (congrArg Session.savepoints hClean)
      exact ⟨congrArg Session.current ((hReleased hOk).symm.trans hClean), hOk⟩
    · rintro ⟨hCurrent, hOk⟩
      rw [cleanUp, hReleased hOk, hCurrent]
  · have hSavepoints : (session w).savepoints = [] := by rw [hGivenUp]
    rw [cleanUp_closed hKeeps hSavepoints, hGivenUp]
    simp

end Loop

section Outcome
variable {sp : String} {ops : List BatchOp} {w₁ w₂ : ω}

theorem releases_of_stop {stop : Stop} (hBegin : db.exec (.savepoint sp) w = (.ok (), w₁))
    (hOps : runOps db tableName ops w₁ = (some stop, w₂)) :
    Releases db tableName session sp ops w ↔ ((session w₂).savepoints ≠ [] →
      ((db.exec (.rollbackTo sp) w₂).1 = .ok () ∨ (session w₂).current = (session w).current) ∧
        (db.exec (.release sp) (db.exec (.rollbackTo sp) w₂).2).1 = .ok ()) := by
  constructor
  · intro hReleases
    exact hReleases.cleanUp w₁ stop w₂ hBegin hOps
  · intro hClean
    refine ⟨?_, ?_⟩
    · intro w₁' w₂' hBegin' hOps'
      obtain rfl := (Prod.mk.inj (hBegin.symm.trans hBegin')).2
      cases (Prod.mk.inj (hOps.symm.trans hOps')).1
    · intro w₁' stop' w₂' hBegin' hOps'
      obtain rfl := (Prod.mk.inj (hBegin.symm.trans hBegin')).2
      obtain rfl := (Prod.mk.inj (hOps.symm.trans hOps')).2
      exact hClean

theorem releases_of_done (hBegin : db.exec (.savepoint sp) w = (.ok (), w₁))
    (hOps : runOps db tableName ops w₁ = (none, w₂)) :
    Releases db tableName session sp ops w ↔ (db.exec (.release sp) w₂).1 = .ok () := by
  constructor
  · intro hReleases
    exact hReleases.last w₁ w₂ hBegin hOps
  · intro hOk
    refine ⟨?_, ?_⟩
    · intro w₁' w₂' hBegin' hOps'
      obtain rfl := (Prod.mk.inj (hBegin.symm.trans hBegin')).2
      obtain rfl := (Prod.mk.inj (hOps.symm.trans hOps')).2
      exact hOk
    · intro w₁' stop w₂' hBegin' hOps'
      obtain rfl := (Prod.mk.inj (hBegin.symm.trans hBegin')).2
      cases (Prod.mk.inj (hOps.symm.trans hOps')).1

end Outcome

/-- What a batch leaves is decided by the release of its savepoint. -/
theorem atomic_iff_releases (hKeeps : db.Keeps tableName session) (id : Nat) {ops : List BatchOp}
    (hClosed : (session w).savepoints = []) (hBinds : ∀ op ∈ ops, op.Binds db.maxLength) :
    Atomic session ops w (batch (some db) tableName id ops w) ↔
      Releases db tableName session (savepointName id) ops w := by
  have hBefore : session w = ⟨(session w).current, []⟩ := by rw [← hClosed]
  rcases hBegin : db.exec (.savepoint (savepointName id)) w with ⟨reply, w₁⟩
  cases reply with
  | error errmsg =>
      have hSame := hKeeps.refused hBegin
      refine iff_of_true ⟨?_, ?_⟩ ⟨?_, ?_⟩
      · simp [batch, hBegin]
      · simp [batch, hBegin, hSame]
      · simp [hBegin]
      · simp [hBegin]
  | ok =>
      have hWithin : Within (savepointName id) (session w).current (session w₁) := by
        rw [Within, hKeeps.saved hBegin, Session.savepoint, hClosed]
      rcases hOps : runOps db tableName ops w₁ with ⟨stop, w₂⟩
      cases stop with
      | some stop =>
          have hBatch : batch (some db) tableName id ops w =
              (.error (stop.error db (cleanUp db (savepointName id) w₂)),
                cleanUp db (savepointName id) w₂) := by
            simp [batch, hBegin, hOps]
          have hClean := cleanUp_eq_iff hKeeps (runOps_stop hKeeps hWithin hOps)
          rw [← hBefore] at hClean
          rw [hBatch, releases_of_stop hBegin hOps, ← hClean]
          constructor
          · intro hAtomic
            exact hAtomic.undone _ rfl
          · intro hSame
            exact ⟨by simp, fun _ _ => hSame⟩
      | none =>
          obtain ⟨hSavepoints, hRows⟩ := runOps_done hKeeps hOps
          obtain ⟨hApplied, hNull⟩ := hRows hBinds
          rw [hKeeps.saved hBegin] at hApplied hNull hSavepoints
          have hInside : Within (savepointName id) (session w).current (session w₂) := by
            rw [Within, hSavepoints, Session.savepoint, hClosed]
          obtain ⟨hReleased, hFailed⟩ := release_within hKeeps hInside
          rw [releases_of_done hBegin hOps]
          rcases hRelease : db.exec (.release (savepointName id)) w₂ with ⟨reply, w₃⟩
          rw [hRelease] at hReleased hFailed
          cases reply with
          | error errmsg =>
              have hBatch : batch (some db) tableName id ops w =
                  (.error ⟨"StoreBatch", errmsg.getD "unknown error"⟩, w₃) := by
                simp [batch, hBegin, hOps, hRelease]
              rw [hBatch]
              refine iff_of_false ?_ (by simp)
              intro hAtomic
              have hSame : session w₃ = session w := hAtomic.undone _ rfl
              exact hFailed (by simp) (by rw [hSame, hClosed])
          | ok =>
              have hBatch : batch (some db) tableName id ops w = (.ok (), w₃) := by
                simp [batch, hBegin, hOps, hRelease]
              have hEnd : session w₃ = ⟨(session w₂).current, []⟩ := hReleased rfl
              rw [hBatch]
              refine iff_of_true ⟨?_, by simp⟩ rfl
              intro _
              rw [hEnd]
              exact ⟨hApplied, hNull, rfl⟩

end SQLiteBackend
end CelerMem
