import CelerMem.Backend.SQLText
import CelerMem.Backend.SQLiteBatch
import CelerMem.Backend.S3Tables
import CelerMem.Library.Savepoints
import CelerMem.Library.Tables

/-! The tables of SQLite: one database and one connection for each scope, and in it one SQL
table for each name. SQLite and the file system are parameters, and they are given texts. -/
namespace CelerMem
open Savepoints

variable {ω γ σ : Type}

structure SQLiteConfig where
  path : Bytes
  createIfMissing : Bool
  enableWal : Bool
  busyTimeoutMs : Int

/-- The calls of SQLite, on connections `γ`. `openV2` gives what `raw_db` is after a failure;
`exec`, `prepare` and `step` are as in `SQLiteCalls`, and `query` gives the rows of a statement
that is only stepped through. -/
structure SQLiteEngine (ω γ : Type) where
  parentPath : Bytes → Bytes
  createDirectories : Bytes → ω → Except String Unit × ω
  openV2 : Bytes → Bool → ω → Except (Option γ) γ × ω
  busyTimeout : γ → Int → ω → ω
  close : γ → ω → ω
  exec : γ → Bytes → ω → Except (Option String) Unit × ω
  prepare : γ → Bytes → ω → Bool × ω
  step : γ → Bytes → List (Option Bytes) → ω → Bool × ω
  query : γ → Bytes → List (Option Bytes) → ω → Except String Cursor
  errmsg : γ → ω → String
  maxLength : Nat
  negativeBlob : Bytes → Option Bytes

/-! ## The texts of a table -/

def SavepointSql.sql : SavepointSql → Bytes
  | .savepoint name => SqlForm.savepoint.text (ascii name)
  | .release name => SqlForm.release.text (ascii name)
  | .rollbackTo name => SqlForm.rollbackTo.text (ascii name)

def BatchOp.Kind.form : BatchOp.Kind → SqlForm
  | .put => .insertOrReplace
  | .del => .deleteWhereKey

def TableSql.form : TableSql → SqlForm
  | .insertOrReplace _ _ => .insertOrReplace
  | .deleteWhereKey _ => .deleteWhereKey

def TableSql.bound : TableSql → List (Option Bytes)
  | .insertOrReplace key value => [key, value]
  | .deleteWhereKey key => [key]

def Query.form : Query → SqlForm
  | .all => .selectAll
  | .atLeast _ => .selectAtLeast
  | .between _ _ => .selectBetween
  | .equal _ => .selectValue
  | .oneOf keys => .selectIn keys.length

def Query.bound : Query → List (Option Bytes)
  | .all => []
  | .atLeast lower => [lower]
  | .between lower upper => [lower, upper]
  | .equal key => [key]
  | .oneOf keys => keys

namespace SQLiteEngine

/-- What a batch calls on a connection. -/
def calls (e : SQLiteEngine ω γ) (db : γ) : SQLiteCalls ω where
  exec sql := e.exec db sql.sql
  prepare tableName kind := e.prepare db (kind.form.text tableName)
  step tableName sql := e.step db (sql.form.text tableName) sql.bound
  errmsg := e.errmsg db
  maxLength := e.maxLength
  negativeBlob := e.negativeBlob

/-- What the reads of a table call. -/
def connection (e : SQLiteEngine ω γ) (db : γ) (tableName : Bytes) (w : ω) : Connection where
  select q := e.query db (q.form.text tableName) q.bound w
  maxLength := e.maxLength

end SQLiteEngine

/-! ## One table -/

/-- The fields of a backend. -/
structure SQLiteTable (γ : Type) where
  db : Option γ
  tableName : Bytes

namespace SQLiteTable

/-- `put` and `del` prepare one statement and step it. -/
def change (e : SQLiteEngine ω γ) (db : γ) (tableName : Bytes) (code : String) (kind : BatchOp.Kind)
    (sql : TableSql) (w : ω) : VoidResult × ω :=
  match SQLiteBackend.runStatement (e.calls db) tableName kind sql w with
  | (some _, w) => (.error ⟨code, e.errmsg db w⟩, w)
  | (none, w) => (.ok (), w)

def put (e : SQLiteEngine ω γ) (t : SQLiteTable γ) (key value : Bytes) (w : ω) : VoidResult × ω :=
  match t.db with
  | none => (.error ⟨"SQLitePut", "db is closed"⟩, w)
  | some db => change e db t.tableName "StorePut" .put
      (.insertOrReplace ((e.calls db).bindText key) ((e.calls db).bindBlob value)) w

def del (e : SQLiteEngine ω γ) (t : SQLiteTable γ) (key : Bytes) (w : ω) : VoidResult × ω :=
  match t.db with
  | none => (.error ⟨"SQLiteDel", "db is closed"⟩, w)
  | some db => change e db t.tableName "StoreDel" .del
      (.deleteWhereKey ((e.calls db).bindText key)) w

def get (e : SQLiteEngine ω γ) (t : SQLiteTable γ) (key : Bytes) (w : ω) : Result (Option Bytes) :=
  SQLiteBackend.get ⟨t.db.map fun db => e.connection db t.tableName w⟩ key

def batch (e : SQLiteEngine ω γ) (t : SQLiteTable γ) (id : Nat) (ops : List BatchOp) (w : ω) :
    VoidResult × ω :=
  SQLiteBackend.batch (t.db.map e.calls) t.tableName id ops w

def close (t : SQLiteTable γ) : SQLiteTable γ := { t with db := none }

end SQLiteTable

/-! ## The factory -/

namespace SQLiteEngine

def openFailure (message : String) : Error := ⟨"SQLiteOpen", message⟩

def openScopeDb (e : SQLiteEngine ω γ) (config : SQLiteConfig) (dbPath : Bytes) (w : ω) :
    Result γ × ω :=
  let parent := e.parentPath dbPath
  match if parent.isEmpty then (.ok (), w) else e.createDirectories parent w with
  | (.error message, w) => (.error (openFailure
      ("failed to create directory '" ++ text parent ++ "': " ++ message)), w)
  | (.ok (), w) =>
      match e.openV2 dbPath config.createIfMissing w with
      | (.error none, w) => (.error (openFailure
          ("failed to open SQLite at '" ++ text dbPath ++ "': unknown error")), w)
      | (.error (some raw), w) => (.error (openFailure
          ("failed to open SQLite at '" ++ text dbPath ++ "': " ++ e.errmsg raw w)), e.close raw w)
      | (.ok raw, w) =>
          let w := e.busyTimeout raw config.busyTimeoutMs w
          if config.enableWal then
            match e.exec raw (ascii "PRAGMA journal_mode=WAL") w with
            | (.error errmsg, w) => (.error (openFailure
                ("failed to set WAL mode: " ++ errmsg.getD "unknown error")), e.close raw w)
            | (.ok (), w) => (.ok raw, w)
          else (.ok raw, w)

def openTable (e : SQLiteEngine ω γ) (db : γ) (tableName : Bytes) (w : ω) :
    Result (SQLiteTable γ) × ω :=
  match validateIdent tableName with
  | .error err => (.error err, w)
  | .ok () =>
      match e.exec db (SqlForm.createTable.text tableName) w with
      | (.error errmsg, w) => (.error (openFailure ("failed to create table '" ++ text tableName ++
          "': " ++ errmsg.getD "unknown error")), w)
      | (.ok (), w) => (.ok ⟨some db, tableName⟩, w)

end SQLiteEngine

def SQLiteConfig.dbPath (c : SQLiteConfig) (scope : Bytes) : Bytes :=
  c.path ++ ascii "/" ++ scope ++ ascii ".db"

/-- The connections that the factory keeps, one for each scope. -/
abbrev ScopeDbs (γ : Type) := Bytes → Option γ

/-- A scope that cannot be opened is not kept. -/
def SQLiteEngine.factory (e : SQLiteEngine ω γ) (c : SQLiteConfig) (name : TableName)
    (scopeDbs : ScopeDbs γ) (w : ω) : Result (SQLiteTable γ) × ScopeDbs γ × ω :=
  match validateIdent name.1 with
  | .error err => (.error err, scopeDbs, w)
  | .ok () =>
      match scopeDbs name.1 with
      | some db =>
          let (r, w) := e.openTable db name.2 w
          (r, scopeDbs, w)
      | none =>
          match e.openScopeDb c (c.dbPath name.1) w with
          | (.error err, w) => (.error err, scopeDbs, w)
          | (.ok db, w) =>
              let (r, w) := e.openTable db name.2 w
              (r, Function.update scopeDbs name.1 (some db), w)

/-! ## Calls -/

/-- Tables are called by the number in which they have been opened. -/
inductive SQLiteCall where
  | openTable (name : TableName)
  | put (i : Nat) (key value : Bytes)
  | del (i : Nat) (key : Bytes)
  | batch (i : Nat) (ops : List BatchOp)
  | get (i : Nat) (key : Bytes)
  | close (i : Nat)

inductive SQLiteAnswer where
  | void (r : VoidResult)
  | value (r : Result (Option Bytes))
  | noTable

/-- The factory with its tables, the number of the next savepoint and the world. -/
structure SQLiteStore (ω γ : Type) where
  scopeDbs : ScopeDbs γ
  tables : List (SQLiteTable γ)
  nextSavepointId : UInt64
  world : ω

namespace SQLiteStore

/-- A call on one table. -/
def onTable (s : SQLiteStore ω γ) (i : Nat) (f : SQLiteTable γ → SQLiteAnswer × SQLiteStore ω γ) :
    SQLiteAnswer × SQLiteStore ω γ :=
  match s.tables[i]? with
  | none => (.noTable, s)
  | some t => f t

def call (e : SQLiteEngine ω γ) (c : SQLiteConfig) (call : SQLiteCall) (s : SQLiteStore ω γ) :
    SQLiteAnswer × SQLiteStore ω γ :=
  match call with
  | .openTable name =>
      match e.factory c name s.scopeDbs s.world with
      | (.error err, scopeDbs, w) =>
          (.void (.error err), { s with scopeDbs := scopeDbs, world := w })
      | (.ok t, scopeDbs, w) =>
          (.void (.ok ()), { s with scopeDbs := scopeDbs, tables := s.tables ++ [t], world := w })
  | .put i key value => s.onTable i fun t =>
      let (r, w) := t.put e key value s.world
      (.void r, { s with world := w })
  | .del i key => s.onTable i fun t =>
      let (r, w) := t.del e key s.world
      (.void r, { s with world := w })
  | .batch i ops => s.onTable i fun t =>
      let (r, w) := t.batch e s.nextSavepointId.toNat ops s.world
      (.void r, { s with
        world := w
        nextSavepointId := if t.db.isSome then s.nextSavepointId + 1 else s.nextSavepointId })
  | .get i key => s.onTable i fun t => (.value (t.get e key s.world), s)
  | .close i => s.onTable i fun t => (.void (.ok ()), { s with tables := s.tables.set i t.close })

def start (w : ω) : SQLiteStore ω γ := ⟨fun _ => none, [], 0, w⟩

end SQLiteStore

/-! ## Tables of their own -/

/-- What the calls are for: each name has a map, and a table that is open has a name. -/
structure NamedTables where
  tables : List (Option TableName)
  contents : TableName → Contents

namespace NamedTables

def onTable (s : NamedTables) (i : Nat) (closed : SQLiteAnswer)
    (f : TableName → SQLiteAnswer × NamedTables) : SQLiteAnswer × NamedTables :=
  match s.tables[i]? with
  | none => (.noTable, s)
  | some none => (closed, s)
  | some (some name) => f name

def write (s : NamedTables) (name : TableName) (contents : Contents) : NamedTables :=
  { s with contents := Function.update s.contents name contents }

def closed (code : String) : SQLiteAnswer := .void (.error ⟨code, "db is closed"⟩)

def call (call : SQLiteCall) (s : NamedTables) : SQLiteAnswer × NamedTables :=
  match call with
  | .openTable name =>
      match validateIdent name.1, validateIdent name.2 with
      | .error err, _ => (.void (.error err), s)
      | .ok (), .error err => (.void (.error err), s)
      | .ok (), .ok () => (.void (.ok ()), { s with tables := s.tables ++ [some name] })
  | .put i key value => s.onTable i (closed "SQLitePut") fun name =>
      (.void (.ok ()), s.write name (Function.update (s.contents name) key (some value)))
  | .del i key => s.onTable i (closed "SQLiteDel") fun name =>
      (.void (.ok ()), s.write name (Function.update (s.contents name) key none))
  | .batch i ops => s.onTable i (closed "SQLiteBatch") fun name =>
      match applyOps ops (s.contents name) with
      | .error err => (.void (.error err), s)
      | .ok contents => (.void (.ok ()), s.write name contents)
  | .get i key => s.onTable i (.value (.error ⟨"SQLiteGet", "db is closed"⟩)) fun name =>
      (.value (.ok (s.contents name key)), s)
  | .close i =>
      match s.tables[i]? with
      | none => (.noTable, s)
      | some _ => (.void (.ok ()), { s with tables := s.tables.set i none })

end NamedTables

/-! ## What SQLite does -/

/-- Names are the same to SQLite if they differ in the case of ASCII letters only. -/
def foldCase (name : Bytes) : Bytes := name.map lower

/-- A table of this name cannot be created. -/
def reserved (name : Bytes) : Bool := startsWith (foldCase name) (ascii "sqlite_")

/-- The tables of a database, by their names in lower case. -/
abbrev SQLiteDatabase := Bytes → Option Contents

abbrev DatabaseSession := Session Bytes SQLiteDatabase

/-- Some edits of a table. -/
def SQLiteDatabase.edit (db : SQLiteDatabase) (name : Bytes) (edits : List (Bytes × Option Bytes)) :
    SQLiteDatabase :=
  Function.update db name ((db name).map fun contents => Edits.apply contents edits)

namespace DatabaseSession

/-- What `sqlite3_exec` does. -/
def exec (s : DatabaseSession) : SqlForm → Bytes → Option DatabaseSession
  | .createTable, name =>
      if reserved name then none
      else some (s.put (Function.update s.current (foldCase name)
        (some ((s.current (foldCase name)).getD fun _ => none))))
  | .savepoint, name => some (s.savepoint (foldCase name))
  | .release, name => s.release (foldCase name)
  | .rollbackTo, name => s.rollbackTo (foldCase name)
  | _, _ => none

/-- The edit that a statement makes. -/
def edit : SqlForm → List (Option Bytes) → Option (Bytes × Option Bytes)
  | .insertOrReplace, [some key, some value] => some (key, some value)
  | .deleteWhereKey, [some key] => some (key, none)
  | _, _ => none

end DatabaseSession

/-- Calls that do not fail, and that do what is read in the text they are given. Each connection
is one to the database in a file, and other files are left alone. There is room for the texts
of savepoints. -/
structure SQLiteEngine.Serves (e : SQLiteEngine ω γ) (r : SqlReader σ) (file : γ → Bytes)
    (sessions : ω → Bytes → DatabaseSession) : Prop where
  lexical : r.Lexical
  grammar : r.Grammar
  room : 64 ≤ r.maxLength
  created : ∀ p w, ∃ w', e.createDirectories p w = (.ok (), w') ∧ sessions w' = sessions w
  opened : ∀ p w, ∃ db w', e.openV2 p true w = (.ok db, w') ∧ file db = p ∧ sessions w' = sessions w
  timeout : ∀ db ms w, sessions (e.busyTimeout db ms w) = sessions w
  wal : ∀ db w, ∃ w', e.exec db (ascii "PRAGMA journal_mode=WAL") w = (.ok (), w') ∧
    sessions w' = sessions w
  executes : ∀ {db sql form name w s}, r.read sql = some (form, name) →
    (sessions w (file db)).exec form name = some s →
    ∃ w', e.exec db sql w = (.ok (), w') ∧
      sessions w' = Function.update (sessions w) (file db) s
  prepares : ∀ {db sql form name w}, r.read sql = some (form, name) →
    form = .insertOrReplace ∨ form = .deleteWhereKey →
    ((sessions w (file db)).current (foldCase name)).isSome →
    ∃ w', e.prepare db sql w = (true, w') ∧ sessions w' = sessions w
  changes : ∀ {db sql form name bound w change}, r.read sql = some (form, name) →
    DatabaseSession.edit form bound = some change →
    ((sessions w (file db)).current (foldCase name)).isSome →
    ∃ w', e.step db sql bound w = (true, w') ∧
      sessions w' = Function.update (sessions w) (file db)
        ((sessions w (file db)).put
          (SQLiteDatabase.edit (sessions w (file db)).current (foldCase name) [change]))
  answers : ∀ {db sql name key w contents}, r.read sql = some (.selectValue, name) →
    (sessions w (file db)).current (foldCase name) = some contents →
    e.query db sql [some key] w = .ok ⟨((contents key).map fun value => ⟨key, value⟩).toList, none⟩

/-- Keys and values that are bound as they are. -/
def FitsSQLite (maxLength : Nat) (b : Bytes) : Prop := b.length < 2 ^ 31 ∧ b.length ≤ maxLength

/-- A call whose keys and values fit, and which opens no other tables than these. -/
def SQLiteCall.Fits (maxLength : Nat) (names : Set TableName) : SQLiteCall → Prop
  | .openTable name =>
      validateIdent name.1 = .ok () → validateIdent name.2 = .ok () → name ∈ names
  | .put _ key value => FitsSQLite maxLength key ∧ FitsSQLite maxLength value
  | .del _ key | .get _ key => FitsSQLite maxLength key
  | .batch _ ops => ∀ op ∈ ops, FitsSQLite maxLength op.key ∧
      ∀ value, op.value = some value → FitsSQLite maxLength value
  | .close _ => True

/-- The statements on a table. -/
def tableForms : List SqlForm := [.createTable, .selectValue, .insertOrReplace, .deleteWhereKey]

/-- A name that passes the check, and whose statements are not too long. -/
structure NamesTable (r : SqlReader σ) (tableName : Bytes) : Prop where
  valid : validateIdent tableName = .ok ()
  short : ∀ form ∈ tableForms, (form.text tableName).length ≤ r.maxLength

/-- Names of which a table can be opened. -/
structure Usable (r : SqlReader σ) (name : TableName) : Prop where
  scope : validateIdent name.1 = .ok ()
  table : NamesTable r name.2
  free : reserved name.2 = false

/-- Where SQLite keeps a key of a table: in which file, which table and which row. -/
def SQLiteConfig.place (c : SQLiteConfig) (name : TableName) (key : Bytes) :
    Bytes × Bytes × Bytes :=
  (c.dbPath name.1, foldCase name.2, key)

/-- What is stored where. -/
def storedRows (sessions : Bytes → DatabaseSession) : Bytes × Bytes × Bytes → Option Bytes :=
  fun p => ((sessions p.1).current p.2.1).bind fun contents => contents p.2.2

/-- What the file of a scope has for a table. -/
def SQLiteConfig.contentsOf (c : SQLiteConfig) (sessions : Bytes → DatabaseSession)
    (name : TableName) : Contents :=
  fun key => storedRows sessions (c.place name key)

/-! ### Edits of a database -/

namespace SQLiteDatabase
variable {db : SQLiteDatabase} {name : Bytes}

theorem edit_edit (db : SQLiteDatabase) (name : Bytes)
    (first second : List (Bytes × Option Bytes)) :
    (db.edit name first).edit name second = db.edit name (first ++ second) := by
  rw [edit, edit, edit, Function.update_self, Function.update_idem, Option.map_map]
  congr 2
  funext contents
  exact (Edits.apply_append contents first second).symm

theorem edit_nil (db : SQLiteDatabase) (name : Bytes) : db.edit name [] = db := by
  have hSame : (db name).map (fun contents => Edits.apply contents []) = db name := by
    cases db name with
    | none => rfl
    | some contents => rfl
  rw [edit, hSame, Function.update_eq_self]

@[simp] theorem edit_isSome (edits : List (Bytes × Option Bytes)) (other : Bytes) :
    (db.edit name edits other).isSome = (db other).isSome := by
  by_cases hName : other = name
  · subst hName
    rw [edit, Function.update_self, Option.isSome_map]
  · rw [edit, Function.update_of_ne hName]

end SQLiteDatabase

/-- Some edits of a table of a file. -/
def editTable (sessions : Bytes → DatabaseSession) (p name : Bytes)
    (edits : List (Bytes × Option Bytes)) : Bytes → DatabaseSession :=
  Function.update sessions p
    ((sessions p).put (SQLiteDatabase.edit (sessions p).current name edits))

section Edits
variable {sessions : Bytes → DatabaseSession} {p name : Bytes}

theorem editTable_editTable (first second : List (Bytes × Option Bytes)) :
    editTable (editTable sessions p name first) p name second =
      editTable sessions p name (first ++ second) := by
  rw [editTable, editTable, editTable, Function.update_self, Function.update_idem]
  exact congrArg (fun db => Function.update sessions p ((sessions p).put db))
    (SQLiteDatabase.edit_edit _ name first second)

theorem editTable_nil : editTable sessions p name [] = sessions := by
  rw [editTable, SQLiteDatabase.edit_nil]
  exact Function.update_eq_self p sessions

@[simp] theorem editTable_isSome (edits : List (Bytes × Option Bytes)) (q other : Bytes) :
    ((editTable sessions p name edits q).current other).isSome =
      ((sessions q).current other).isSome := by
  by_cases hFile : q = p
  · subst hFile
    rw [editTable, Function.update_self]
    exact SQLiteDatabase.edit_isSome edits other
  · rw [editTable, Function.update_of_ne hFile]

theorem storedRows_editTable_one (hExists : ((sessions p).current name).isSome) (key : Bytes)
    (value : Option Bytes) : storedRows (editTable sessions p name [(key, value)]) =
      Function.update (storedRows sessions) (p, name, key) value := by
  obtain ⟨contents, hContents⟩ := Option.isSome_iff_exists.mp hExists
  funext ⟨q, other, k⟩
  by_cases hFile : q = p
  · subst hFile
    by_cases hName : other = name
    · subst hName
      by_cases hKey : k = key
      · simp [storedRows, editTable, Session.put, SQLiteDatabase.edit, hContents, hKey]
      · simp [storedRows, editTable, Session.put, SQLiteDatabase.edit, hContents, hKey]
    · simp [storedRows, editTable, Session.put, SQLiteDatabase.edit, hName]
  · simp [storedRows, editTable, hFile]

/-- The edits of a table, at the places of their keys. -/
theorem storedRows_editTable (hExists : ((sessions p).current name).isSome)
    (edits : List (Bytes × Option Bytes)) : storedRows (editTable sessions p name edits) =
      Edits.apply (storedRows sessions) (edits.map fun x => ((p, name, x.1), x.2)) := by
  induction edits generalizing sessions with
  | nil => rw [editTable_nil]; rfl
  | cons x edits ih =>
      have hRest := @ih (editTable sessions p name [x]) (by rwa [editTable_isSome])
      rw [editTable_editTable, storedRows_editTable_one hExists] at hRest
      exact hRest

end Edits

/-! ## The calls of one table -/

theorem bindBlob_of_fits {db : SQLiteCalls ω} {blob : Bytes} (h : FitsSQLite db.maxLength blob) :
    db.bindBlob blob = some blob := by
  rw [SQLiteBackend.bindBlob_eq h.1, if_pos h.2]

section Statements
variable {e : SQLiteEngine ω γ} {r : SqlReader σ} {file : γ → Bytes}
  {sessions : ω → Bytes → DatabaseSession} {db : γ} {tableName : Bytes} {w : ω}

/-- The table is there. -/
def HasTable (file : γ → Bytes) (sessions : ω → Bytes → DatabaseSession) (db : γ)
    (tableName : Bytes) (w : ω) : Prop :=
  ((sessions w (file db)).current (foldCase tableName)).isSome

theorem NamesTable.read (hName : NamesTable r tableName) (hServes : e.Serves r file sessions)
    (form : SqlForm) (hMem : form ∈ tableForms) :
    r.read (form.text tableName) = some (form, tableName) :=
  SqlReader.read_text_of_valid hServes.lexical hServes.grammar (hName.short form hMem) hName.valid

theorem savepointName_length {id : Nat} (hId : id < 2 ^ 64) :
    (ascii (SQLiteBackend.savepointName id)).length ≤ 23 := by
  have hDigits : (Nat.toDigits 10 id).length ≤ 20 :=
    (Nat.length_toDigits_le_iff (by decide) (by decide)).mpr (hId.trans (by decide))
  have hName : (SQLiteBackend.savepointName id).toList =
      "sp_".toList ++ Nat.toDigits 10 id := by
    rw [SQLiteBackend.savepointName, String.toList_append, Nat.toString_eq_ofList_toDigits]
    simp
  rw [ascii, hName, List.length_map, List.length_append]
  exact Nat.add_le_add_left hDigits 3

theorem savepoint_read (hServes : e.Serves r file sessions) {id : Nat} (hId : id < 2 ^ 64)
    (form : SqlForm) (hMem : form ∈ [SqlForm.savepoint, .release, .rollbackTo]) :
    r.read (form.text (ascii (SQLiteBackend.savepointName id))) =
      some (form, withoutNul (ascii (SQLiteBackend.savepointName id))) := by
  have hLength : ∀ form ∈ [SqlForm.savepoint, .release, .rollbackTo],
      form.before.length + form.after.length ≤ 16 := by decide
  have hForm := hLength form hMem
  have hQuoted := quoteIdent_length_le (ascii (SQLiteBackend.savepointName id))
  have hName := savepointName_length hId
  have hRoom := hServes.room
  refine SqlReader.read_text hServes.lexical hServes.grammar ?_
  rw [SqlForm.text, List.length_append, List.length_append]
  omega

theorem runStatement_serves (hServes : e.Serves r file sessions)
    (hName : NamesTable r tableName)
    (hTable : HasTable file sessions db tableName w) (kind : BatchOp.Kind) (sql : TableSql)
    (hKind : kind.form = sql.form) {change : Bytes × Option Bytes}
    (hEdit : DatabaseSession.edit sql.form sql.bound = some change) :
    ∃ w', SQLiteBackend.runStatement (e.calls db) tableName kind sql w = (none, w') ∧
      sessions w' = editTable (sessions w) (file db) (foldCase tableName) [change] := by
  have hChange : sql.form = .insertOrReplace ∨ sql.form = .deleteWhereKey := by
    cases sql with
    | insertOrReplace key value => exact .inl rfl
    | deleteWhereKey key => exact .inr rfl
  have hParse : r.read (sql.form.text tableName) = some (sql.form, tableName) := by
    refine hName.read hServes sql.form ?_
    rcases hChange with hForm | hForm
    · rw [hForm]
      decide
    · rw [hForm]
      decide
  obtain ⟨w₁, hPrepare, hSame⟩ := hServes.prepares hParse hChange hTable
  have hThere : HasTable file sessions db tableName w₁ := by rwa [HasTable, hSame]
  obtain ⟨w₂, hStep, hAfter⟩ := hServes.changes hParse hEdit hThere
  refine ⟨w₂, ?_, by rw [hAfter, hSame]; rfl⟩
  have hPrepare' : (e.calls db).prepare tableName kind w = (true, w₁) := by
    rw [← hKind] at hPrepare
    exact hPrepare
  have hStep' : (e.calls db).step tableName sql w₁ = (true, w₂) := hStep
  rw [SQLiteBackend.runStatement, hPrepare']
  simp only [hStep']

theorem put_serves (hServes : e.Serves r file sessions) (hName : NamesTable r tableName)
    (hTable : HasTable file sessions db tableName w) {key value : Bytes}
    (hKey : FitsSQLite e.maxLength key) (hValue : FitsSQLite e.maxLength value) :
    ∃ w', SQLiteTable.put e ⟨some db, tableName⟩ key value w = (.ok (), w') ∧
      sessions w' = editTable (sessions w) (file db) (foldCase tableName) [(key, some value)] := by
  have hText : (e.calls db).bindText key = some key := bindText_eq hKey.1 hKey.2
  have hBlob : (e.calls db).bindBlob value = some value := bindBlob_of_fits hValue
  obtain ⟨w', hRun, hAfter⟩ := runStatement_serves hServes hName hTable .put
    (.insertOrReplace (some key) (some value)) rfl rfl
  refine ⟨w', ?_, hAfter⟩
  simp only [SQLiteTable.put, SQLiteTable.change, hText, hBlob, hRun]

theorem del_serves (hServes : e.Serves r file sessions) (hName : NamesTable r tableName)
    (hTable : HasTable file sessions db tableName w) {key : Bytes}
    (hKey : FitsSQLite e.maxLength key) :
    ∃ w', SQLiteTable.del e ⟨some db, tableName⟩ key w = (.ok (), w') ∧
      sessions w' = editTable (sessions w) (file db) (foldCase tableName) [(key, none)] := by
  have hText : (e.calls db).bindText key = some key := bindText_eq hKey.1 hKey.2
  obtain ⟨w', hRun, hAfter⟩ := runStatement_serves hServes hName hTable .del
    (.deleteWhereKey (some key)) rfl rfl
  refine ⟨w', ?_, hAfter⟩
  simp only [SQLiteTable.del, SQLiteTable.change, hText, hRun]

theorem get_serves (hServes : e.Serves r file sessions) (hName : NamesTable r tableName)
    {contents : Contents}
    (hContents : (sessions w (file db)).current (foldCase tableName) = some contents)
    {key : Bytes} (hKey : FitsSQLite e.maxLength key) :
    SQLiteTable.get e ⟨some db, tableName⟩ key w = .ok (contents key) := by
  have hParse := hName.read hServes .selectValue (by decide)
  have hText : bindText (e.connection db tableName w).maxLength key = some key :=
    bindText_eq hKey.1 hKey.2
  have hAnswer : (e.connection db tableName w).select (.equal (some key)) =
      .ok ⟨((contents key).map fun value => ⟨key, value⟩).toList, none⟩ :=
    hServes.answers hParse hContents
  rw [SQLiteTable.get, Option.map_some, SQLiteBackend.get]
  simp only [hText, hAnswer]
  cases contents key with
  | none => rfl
  | some value => rfl

/-- An operation with a value, and one without. -/
theorem runOp_serves (hServes : e.Serves r file sessions) (hName : NamesTable r tableName)
    (hTable : HasTable file sessions db tableName w) {op : BatchOp}
    (hKey : FitsSQLite e.maxLength op.key)
    (hValue : ∀ value, op.value = some value → FitsSQLite e.maxLength value) :
    (op.Complete ∧ ∃ w', SQLiteBackend.runOp (e.calls db) tableName op w = (none, w') ∧
      sessions w' = editTable (sessions w) (file db) (foldCase tableName) [op.edit]) ∨
    (¬ op.Complete ∧
      SQLiteBackend.runOp (e.calls db) tableName op w = (some .missingValue, w)) := by
  obtain ⟨kind, cfName, key, value⟩ := op
  have hText : (e.calls db).bindText key = some key := bindText_eq hKey.1 hKey.2
  cases kind with
  | del =>
      refine .inl ⟨by simp [BatchOp.Complete], ?_⟩
      have hRun := runStatement_serves hServes hName hTable .del
        (.deleteWhereKey (some key)) rfl rfl
      simp only [SQLiteBackend.runOp, hText]
      exact hRun
  | put =>
      cases value with
      | none => exact .inr ⟨fun hComplete => hComplete rfl rfl, rfl⟩
      | some value =>
          have hBlob : (e.calls db).bindBlob value = some value :=
            bindBlob_of_fits (hValue value rfl)
          refine .inl ⟨by simp [BatchOp.Complete], ?_⟩
          have hRun := runStatement_serves hServes hName hTable .put
            (.insertOrReplace (some key) (some value)) rfl rfl
          simp only [SQLiteBackend.runOp, hText, hBlob]
          exact hRun

/-- The loop runs to its end, or to the first put without a value. -/
theorem runOps_serves (hServes : e.Serves r file sessions) (hName : NamesTable r tableName)
    (hTable : HasTable file sessions db tableName w) {ops : List BatchOp}
    (hFits : ∀ op ∈ ops, FitsSQLite e.maxLength op.key ∧
      ∀ value, op.value = some value → FitsSQLite e.maxLength value) :
    ((∀ op ∈ ops, op.Complete) ∧
      ∃ w', SQLiteBackend.runOps (e.calls db) tableName ops w = (none, w') ∧
        sessions w' = editTable (sessions w) (file db) (foldCase tableName)
          (ops.map BatchOp.edit)) ∨
    ((∃ op ∈ ops, ¬ op.Complete) ∧
      ∃ w' edits, SQLiteBackend.runOps (e.calls db) tableName ops w = (some .missingValue, w') ∧
        sessions w' = editTable (sessions w) (file db) (foldCase tableName) edits) := by
  induction ops generalizing w with
  | nil => exact .inl ⟨by simp, w, rfl, editTable_nil.symm⟩
  | cons op ops ih =>
      obtain ⟨hKey, hValue⟩ := hFits op List.mem_cons_self
      rcases runOp_serves hServes hName hTable hKey hValue with
        ⟨hComplete, w₁, hRun, hAfter⟩ | ⟨hNot, hRun⟩
      · have hThere : HasTable file sessions db tableName w₁ := by
          rwa [HasTable, hAfter, editTable_isSome]
        have hRest := ih hThere fun other hMem => hFits other (List.mem_cons_of_mem op hMem)
        rcases hRest with ⟨hAll, w₂, hOps, hLast⟩ | ⟨hSome, w₂, edits, hOps, hLast⟩
        · refine .inl ⟨List.forall_mem_cons.mpr ⟨hComplete, hAll⟩, w₂, ?_, ?_⟩
          · simp only [SQLiteBackend.runOps, hRun, hOps]
          · rw [hLast, hAfter, editTable_editTable]
            rfl
        · refine .inr ⟨?_, w₂, op.edit :: edits, ?_, ?_⟩
          · obtain ⟨other, hMem, hOther⟩ := hSome
            exact ⟨other, List.mem_cons_of_mem op hMem, hOther⟩
          · simp only [SQLiteBackend.runOps, hRun, hOps]
          · rw [hLast, hAfter, editTable_editTable]
            rfl
      · refine .inr ⟨⟨op, List.mem_cons_self, hNot⟩, w, [], ?_, editTable_nil.symm⟩
        simp only [SQLiteBackend.runOps, hRun]

theorem applyOps_of_incomplete {ops : List BatchOp} (h : ∃ op ∈ ops, ¬ op.Complete) (s : Contents) :
    applyOps ops s = .error missingValue := by
  induction ops generalizing s with
  | nil => simp at h
  | cons op ops ih =>
      by_cases hComplete : op.Complete
      · rw [applyOps_cons ops hComplete]
        obtain ⟨other, hMem, hNot⟩ := h
        rcases List.mem_cons.mp hMem with rfl | hLater
        · exact absurd hComplete hNot
        · exact ih ⟨other, hLater, hNot⟩ _
      · obtain ⟨kind, cfName, key, value⟩ := op
        rw [BatchOp.Complete, Classical.not_imp, not_not] at hComplete
        obtain ⟨rfl, rfl⟩ := hComplete
        rfl

/-- A batch has the whole effect of its operations, or none. -/
theorem batch_serves (hServes : e.Serves r file sessions) (hName : NamesTable r tableName)
    (hTable : HasTable file sessions db tableName w) {id : Nat} (hId : id < 2 ^ 64)
    {ops : List BatchOp}
    (hFits : ∀ op ∈ ops, FitsSQLite e.maxLength op.key ∧
      ∀ value, op.value = some value → FitsSQLite e.maxLength value) :
    ((∀ op ∈ ops, op.Complete) ∧
      ∃ w', SQLiteTable.batch e ⟨some db, tableName⟩ id ops w = (.ok (), w') ∧
        sessions w' = editTable (sessions w) (file db) (foldCase tableName)
          (ops.map BatchOp.edit)) ∨
    ((∃ op ∈ ops, ¬ op.Complete) ∧
      ∃ w', SQLiteTable.batch e ⟨some db, tableName⟩ id ops w = (.error missingValue, w') ∧
        sessions w' = sessions w) := by
  let sp := SQLiteBackend.savepointName id
  let name := foldCase (withoutNul (ascii sp))
  have hOpen : (sessions w (file db)).exec .savepoint (withoutNul (ascii sp)) =
      some ((sessions w (file db)).savepoint name) := rfl
  obtain ⟨w₁, hBegin, hSaved⟩ :=
    hServes.executes (savepoint_read hServes hId .savepoint (by decide)) hOpen
  have hThere : HasTable file sessions db tableName w₁ := by
    rw [HasTable, hSaved, Function.update_self]
    exact hTable
  have hBegin' : (e.calls db).exec (.savepoint sp) w = (.ok (), w₁) := hBegin
  rcases runOps_serves hServes hName hThere hFits with
    ⟨hAll, w₂, hOps, hEdited⟩ | ⟨hSome, w₂, edits, hOps, hEdited⟩
  · have hLast : (sessions w₂ (file db)).release name =
        some ((sessions w (file db)).put (SQLiteDatabase.edit (sessions w (file db)).current
          (foldCase tableName) (ops.map BatchOp.edit))) := by
      rw [hEdited, editTable, Function.update_self, hSaved, Function.update_self]
      exact Session.release_last
    obtain ⟨w₃, hRelease, hDone⟩ :=
      hServes.executes (savepoint_read hServes hId .release (by decide)) hLast
    have hRelease' : (e.calls db).exec (.release sp) w₂ = (.ok (), w₃) := hRelease
    refine .inl ⟨hAll, w₃, ?_, ?_⟩
    · simp only [SQLiteTable.batch, Option.map_some, SQLiteBackend.batch, hBegin', hOps,
        hRelease', sp]
    · rw [hDone, hEdited, editTable, hSaved, Function.update_idem, Function.update_idem]
      rfl
  · have hBack : (sessions w₂ (file db)).rollbackTo name =
        some ((sessions w (file db)).savepoint name) := by
      rw [hEdited, editTable, Function.update_self, hSaved, Function.update_self]
      exact Session.rollbackTo_last
    obtain ⟨w₃, hRollback, hUndone⟩ :=
      hServes.executes (savepoint_read hServes hId .rollbackTo (by decide)) hBack
    have hLast : (sessions w₃ (file db)).release name = some (sessions w (file db)) := by
      rw [hUndone, Function.update_self]
      exact Session.release_last
    obtain ⟨w₄, hRelease, hDone⟩ :=
      hServes.executes (savepoint_read hServes hId .release (by decide)) hLast
    have hRollback' : (e.calls db).exec (.rollbackTo sp) w₂ = (.ok (), w₃) := hRollback
    have hRelease' : (e.calls db).exec (.release sp) w₃ = (.ok (), w₄) := hRelease
    refine .inr ⟨hSome, w₄, ?_, ?_⟩
    · simp only [SQLiteTable.batch, Option.map_some, SQLiteBackend.batch, hBegin', hOps,
        SQLiteBackend.cleanUp, hRollback', hRelease', SQLiteBackend.Stop.error, sp]
    · rw [hDone, hUndone, hEdited, editTable, hSaved, Function.update_idem, Function.update_idem,
        Function.update_idem, Function.update_eq_self]

end Statements

/-! ## The factory -/

section Factory
variable {e : SQLiteEngine ω γ} {r : SqlReader σ} {file : γ → Bytes}
  {sessions : ω → Bytes → DatabaseSession} {c : SQLiteConfig} {w : ω}

theorem openScopeDb_serves (hServes : e.Serves r file sessions) (hCreate : c.createIfMissing = true)
    (dbPath : Bytes) (w : ω) :
    ∃ db w', e.openScopeDb c dbPath w = (.ok db, w') ∧ file db = dbPath ∧
      sessions w' = sessions w := by
  have hDirectories : ∃ w₁, (if (e.parentPath dbPath).isEmpty then (.ok (), w)
      else e.createDirectories (e.parentPath dbPath) w) = (.ok (), w₁) ∧
        sessions w₁ = sessions w := by
    split
    · exact ⟨w, rfl, rfl⟩
    · exact hServes.created _ w
  obtain ⟨w₁, hFirst, hSame⟩ := hDirectories
  obtain ⟨db, w₂, hOpen, hFile, hOpened⟩ := hServes.opened dbPath w₁
  have hTimeout := hServes.timeout db c.busyTimeoutMs w₂
  obtain ⟨w₃, hWal, hMode⟩ := hServes.wal db (e.busyTimeout db c.busyTimeoutMs w₂)
  cases hEnabled : c.enableWal with
  | true =>
      refine ⟨db, w₃, ?_, hFile, by rw [hMode, hTimeout, hOpened, hSame]⟩
      simp only [SQLiteEngine.openScopeDb, hFirst, hCreate, hOpen, hEnabled, if_true, hWal]
  | false =>
      refine ⟨db, _, ?_, hFile, by rw [hTimeout, hOpened, hSame]⟩
      simp only [SQLiteEngine.openScopeDb, hFirst, hCreate, hOpen, hEnabled]
      rfl

/-- A database in which the table is there, as it was or empty. -/
def withTable (s : DatabaseSession) (name : Bytes) : DatabaseSession :=
  s.put (Function.update s.current name (some ((s.current name).getD fun _ => none)))

theorem withTable_isSome (s : DatabaseSession) (name other : Bytes) :
    ((withTable s name).current other).isSome = (other == name || (s.current other).isSome) := by
  by_cases hName : other = name
  · simp [withTable, Session.put, hName]
  · simp [withTable, Session.put, hName]

theorem storedRows_withTable (all : Bytes → DatabaseSession) (p name : Bytes) :
    storedRows (Function.update all p (withTable (all p) name)) = storedRows all := by
  funext ⟨q, other, key⟩
  by_cases hFile : q = p
  · subst hFile
    by_cases hName : other = name
    · subst hName
      cases hTable : (all q).current other with
      | none => simp [storedRows, withTable, Session.put, hTable]
      | some contents => simp [storedRows, withTable, Session.put, hTable]
    · simp [storedRows, withTable, Session.put, hName]
  · simp [storedRows, hFile]

theorem openTable_serves (hServes : e.Serves r file sessions) {tableName : Bytes}
    (hName : NamesTable r tableName) (hFree : reserved tableName = false) (db : γ)
    (w : ω) :
    ∃ w', e.openTable db tableName w = (.ok ⟨some db, tableName⟩, w') ∧
      sessions w' = Function.update (sessions w) (file db)
        (withTable (sessions w (file db)) (foldCase tableName)) := by
  have hParse := hName.read hServes .createTable (by decide)
  have hExec : (sessions w (file db)).exec .createTable tableName =
      some (withTable (sessions w (file db)) (foldCase tableName)) :=
    if_neg (by rw [hFree]; exact Bool.false_ne_true)
  obtain ⟨w', hCreate, hAfter⟩ := hServes.executes hParse hExec
  refine ⟨w', ?_, hAfter⟩
  simp only [SQLiteEngine.openTable, hName.valid, hCreate]

/-- The connections that the factory keeps are to the files of their scopes. -/
def Connected (file : γ → Bytes) (c : SQLiteConfig) (scopeDbs : ScopeDbs γ) : Prop :=
  ∀ scope db, scopeDbs scope = some db → file db = c.dbPath scope

theorem Connected.keep {scopeDbs : ScopeDbs γ} (hConnected : Connected file c scopeDbs) {db : γ}
    {scope : Bytes} (hFile : file db = c.dbPath scope) :
    Connected file c (Function.update scopeDbs scope (some db)) := by
  intro other kept hKept
  by_cases hScope : other = scope
  · subst hScope
    rw [Function.update_self] at hKept
    obtain rfl := Option.some.inj hKept
    exact hFile
  · rw [Function.update_of_ne hScope] at hKept
    exact hConnected other kept hKept

/-- The connection to a scope, kept or new. -/
theorem factory_connects (hServes : e.Serves r file sessions) (hCreate : c.createIfMissing = true)
    {name : TableName} (hScope : validateIdent name.1 = .ok ()) {scopeDbs : ScopeDbs γ}
    (hConnected : Connected file c scopeDbs) (w : ω) :
    ∃ db scopeDbs' w', file db = c.dbPath name.1 ∧ Connected file c scopeDbs' ∧
      sessions w' = sessions w ∧ ∀ r w'', e.openTable db name.2 w' = (r, w'') →
        e.factory c name scopeDbs w = (r, scopeDbs', w'') := by
  cases hKept : scopeDbs name.1 with
  | some db =>
      refine ⟨db, scopeDbs, w, hConnected name.1 db hKept, hConnected, rfl, ?_⟩
      intro r w'' hOpen
      simp only [SQLiteEngine.factory, hScope, hKept, hOpen]
  | none =>
      obtain ⟨db, w', hOpened, hFile, hSame⟩ :=
        openScopeDb_serves hServes hCreate (c.dbPath name.1) w
      refine ⟨db, Function.update scopeDbs name.1 (some db), w', hFile, hConnected.keep hFile,
        hSame, ?_⟩
      intro r w'' hOpen
      simp only [SQLiteEngine.factory, hScope, hKept, hOpened, hOpen]

end Factory

/-! ## All tables -/

section Runs
variable {e : SQLiteEngine ω γ} {r : SqlReader σ} {file : γ → Bytes}
  {sessions : ω → Bytes → DatabaseSession} {c : SQLiteConfig} {names : Set TableName} {s : SQLiteStore ω γ} {m : NamedTables}

theorem dbPath_injective (c : SQLiteConfig) : Function.Injective c.dbPath := by
  intro scope other hSame
  simpa [SQLiteConfig.dbPath] using hSame

/-- A table that is open under a name. -/
structure OpenedAs (file : γ → Bytes) (c : SQLiteConfig) (names : Set TableName)
    (all : Bytes → DatabaseSession) (t : SQLiteTable γ) (name : TableName) : Prop where
  member : name ∈ names
  tableName : t.tableName = name.2
  connected : ∃ db, t.db = some db ∧ file db = c.dbPath name.1
  present : ((all (c.dbPath name.1)).current (foldCase name.2)).isSome

/-- What an open or a closed table stands for. -/
def StandsFor (file : γ → Bytes) (c : SQLiteConfig) (names : Set TableName)
    (all : Bytes → DatabaseSession) (t : SQLiteTable γ) : Option TableName → Prop
  | none => t.db = none
  | some name => OpenedAs file c names all t name

/-- Tables do not go away. -/
theorem StandsFor.mono {all all' : Bytes → DatabaseSession} {t : SQLiteTable γ}
    {named : Option TableName} (h : StandsFor file c names all t named)
    (hExists : ∀ p name, ((all p).current name).isSome → ((all' p).current name).isSome) :
    StandsFor file c names all' t named := by
  cases named with
  | none => exact h
  | some name =>
      have hOpened : OpenedAs file c names all t name := h
      exact OpenedAs.mk hOpened.member hOpened.tableName hOpened.connected
        (hExists _ _ hOpened.present)

/-- The tables of the store and those that they stand for. -/
structure Related (file : γ → Bytes) (sessions : ω → Bytes → DatabaseSession) (c : SQLiteConfig)
    (names : Set TableName) (s : SQLiteStore ω γ) (m : NamedTables) : Prop where
  connected : Connected file c s.scopeDbs
  length : s.tables.length = m.tables.length
  named : ∀ (i : Nat) (t : SQLiteTable γ) (named : Option TableName), s.tables[i]? = some t →
    m.tables[i]? = some named → StandsFor file c names (sessions s.world) t named
  contents : ∀ name ∈ names, m.contents name = c.contentsOf (sessions s.world) name

/-- Both have a table of that number, or none. -/
theorem Related.cases (hRelated : Related file sessions c names s m) (i : Nat) :
    (s.tables[i]? = none ∧ m.tables[i]? = none) ∨
    (∃ t, s.tables[i]? = some t ∧ m.tables[i]? = some none ∧ t.db = none) ∨
    ∃ db name, s.tables[i]? = some ⟨some db, name.2⟩ ∧ m.tables[i]? = some (some name) ∧
      name ∈ names ∧ file db = c.dbPath name.1 ∧
      HasTable file sessions db name.2 s.world := by
  cases hLeft : s.tables[i]? with
  | none =>
      refine .inl ⟨rfl, ?_⟩
      rw [List.getElem?_eq_none_iff] at hLeft ⊢
      rwa [← hRelated.length]
  | some t =>
      have hBound : i < m.tables.length := by
        rw [← hRelated.length]
        exact (List.getElem?_eq_some_iff.mp hLeft).1
      obtain ⟨named, hRight⟩ : ∃ named, m.tables[i]? = some named :=
        ⟨_, List.getElem?_eq_getElem hBound⟩
      cases named with
      | none => exact .inr (.inl ⟨t, rfl, hRight, hRelated.named i t none hLeft hRight⟩)
      | some name =>
          obtain ⟨hMember, hTable, ⟨db, hDb, hFile⟩, hExists⟩ :=
            hRelated.named i t (some name) hLeft hRight
          obtain ⟨tdb, tname⟩ := t
          obtain rfl : tdb = some db := hDb
          obtain rfl : tname = name.2 := hTable
          exact .inr (.inr ⟨db, name, rfl, hRight, hMember, hFile, by rwa [HasTable, hFile]⟩)

/-- What the world does besides: tables that were there are there, and show the same. -/
theorem Related.unchanged (hRelated : Related file sessions c names s m) {w : ω}
    (hExists : ∀ p name, ((sessions s.world p).current name).isSome →
      ((sessions w p).current name).isSome)
    (hRows : storedRows (sessions w) = storedRows (sessions s.world)) :
    Related file sessions c names { s with world := w } m where
  connected := hRelated.connected
  length := hRelated.length
  named i t named hLeft hRight := (hRelated.named i t named hLeft hRight).mono hExists
  contents name hMember := by
    rw [hRelated.contents name hMember]
    funext key
    simp only [SQLiteConfig.contentsOf, hRows]

/-- No place belongs to two of the names. -/
def PlacesApart (c : SQLiteConfig) (names : Set TableName) : Prop :=
  Tables.Apart fun (t : names) key => c.place t key

theorem placesApart_iff : PlacesApart c names ↔
    ∀ t ∈ names, ∀ u ∈ names, t.1 = u.1 → foldCase t.2 = foldCase u.2 → t = u := by
  constructor
  · intro hApart t ht u hu hScope hTable
    have hPlace : c.place t [] = c.place u [] := by
      rw [SQLiteConfig.place, SQLiteConfig.place, hScope, hTable]
    exact congrArg Subtype.val (hApart ⟨t, ht⟩ [] ⟨u, hu⟩ [] hPlace).1
  · rintro hNames ⟨t, ht⟩ k ⟨u, hu⟩ l hSame
    obtain ⟨hFile, hRest⟩ := Prod.mk.inj hSame
    obtain ⟨hTable, hKey⟩ := Prod.mk.inj hRest
    exact ⟨Subtype.ext (hNames t ht u hu (dbPath_injective c hFile) hTable), hKey⟩

/-- An edit of one table is an edit of the map it stands for. -/
theorem Related.edited (hApart : PlacesApart c names) (hRelated : Related file sessions c names s m)
    {name : TableName} (hMember : name ∈ names) {w : ω} {edits : List (Bytes × Option Bytes)}
    (hExists : ((sessions s.world (c.dbPath name.1)).current (foldCase name.2)).isSome)
    (hWorld : sessions w = editTable (sessions s.world) (c.dbPath name.1) (foldCase name.2) edits) :
    Related file sessions c names { s with world := w }
      (m.write name (Edits.apply (m.contents name) edits)) where
  connected := hRelated.connected
  length := hRelated.length
  named i t named hLeft hRight := by
    refine (hRelated.named i t named hLeft hRight).mono fun p other hSome => ?_
    rwa [hWorld, editTable_isSome]
  contents other hOther := by
    have hRows := storedRows_editTable hExists edits
    have hView := Tables.view_write hApart (storedRows (sessions s.world)) ⟨name, hMember⟩ edits
    have hNow : c.contentsOf (sessions w) other = Tables.view (fun (t : names) key => c.place t key)
        (Edits.apply (storedRows (sessions s.world))
          (Tables.placed (fun (t : names) key => c.place t key) ⟨name, hMember⟩ edits))
        ⟨other, hOther⟩ := by
      rw [← hWorld] at hRows
      funext key
      exact congrFun hRows (c.place other key)
    rw [hNow, hView]
    dsimp only [NamedTables.write]
    by_cases hSame : other = name
    · subst hSame
      rw [Function.update_self, Function.update_self, hRelated.contents other hOther]
      rfl
    · have hNe : (⟨other, hOther⟩ : names) ≠ ⟨name, hMember⟩ :=
        fun h => hSame (congrArg Subtype.val h)
      rw [Function.update_of_ne hSame, Function.update_of_ne hNe]
      exact hRelated.contents other hOther

theorem Related.connect (hRelated : Related file sessions c names s m) {scopeDbs : ScopeDbs γ}
    (hConnected : Connected file c scopeDbs) :
    Related file sessions c names { s with scopeDbs := scopeDbs } m :=
  ⟨hConnected, hRelated.length, hRelated.named, hRelated.contents⟩

theorem Related.append (hRelated : Related file sessions c names s m) {t : SQLiteTable γ}
    {name : TableName} (hOpened : OpenedAs file c names (sessions s.world) t name) :
    Related file sessions c names { s with tables := s.tables ++ [t] }
      { m with tables := m.tables ++ [some name] } where
  connected := hRelated.connected
  length := by simp [hRelated.length]
  named i u named hLeft hRight := by
    have hLength := hRelated.length
    rw [List.getElem?_append] at hLeft hRight
    by_cases hi : i < s.tables.length
    · rw [if_pos hi] at hLeft
      rw [if_pos (hLength ▸ hi)] at hRight
      exact hRelated.named i u named hLeft hRight
    · rw [if_neg hi, List.getElem?_singleton] at hLeft
      rw [if_neg (hLength ▸ hi), List.getElem?_singleton, ← hLength] at hRight
      by_cases hLast : i - s.tables.length = 0
      · rw [if_pos hLast] at hLeft hRight
        obtain rfl := Option.some.inj hLeft
        obtain rfl := Option.some.inj hRight
        exact hOpened
      · rw [if_neg hLast] at hLeft
        cases hLeft
  contents := hRelated.contents

theorem Related.close (hRelated : Related file sessions c names s m) (i : Nat) {t : SQLiteTable γ}
    (hClosed : t.db = none) : Related file sessions c names { s with tables := s.tables.set i t }
      { m with tables := m.tables.set i none } where
  connected := hRelated.connected
  length := by simp [hRelated.length]
  named j u named hLeft hRight := by
    by_cases hj : i = j
    · subst hj
      rw [List.getElem?_set_self'] at hLeft hRight
      obtain ⟨-, -, rfl⟩ := Option.map_eq_some_iff.mp hLeft
      obtain ⟨-, -, rfl⟩ := Option.map_eq_some_iff.mp hRight
      exact hClosed
    · rw [List.getElem?_set_ne hj] at hLeft hRight
      exact hRelated.named j u named hLeft hRight
  contents := hRelated.contents

/-! ### Each call -/

/-- A usable table is opened, on a connection to the file of its scope. -/
theorem openTable_opens (hServes : e.Serves r file sessions) (hCreate : c.createIfMissing = true)
    {name : TableName} (hUsable : Usable r name) (s : SQLiteStore ω γ)
    (hConnected : Connected file c s.scopeDbs) :
    ∃ db scopeDbs w, s.call e c (.openTable name) = (.void (.ok ()),
        { s with scopeDbs := scopeDbs, tables := s.tables ++ [⟨some db, name.2⟩], world := w }) ∧
      file db = c.dbPath name.1 ∧ Connected file c scopeDbs ∧
      sessions w = Function.update (sessions s.world) (c.dbPath name.1)
        (withTable (sessions s.world (c.dbPath name.1)) (foldCase name.2)) := by
  obtain ⟨db, scopeDbs, w, hFile, hKept, hSame, hFactory⟩ :=
    factory_connects hServes hCreate hUsable.scope hConnected s.world
  obtain ⟨w', hOpen, hAfter⟩ := openTable_serves hServes hUsable.table hUsable.free db w
  rw [hSame, hFile] at hAfter
  refine ⟨db, scopeDbs, w', ?_, hFile, hKept, hAfter⟩
  simp only [SQLiteStore.call, hFactory _ _ hOpen]

theorem openTable_simulates (hServes : e.Serves r file sessions) (hCreate : c.createIfMissing = true)
    (hNames : ∀ name ∈ names, Usable r name) (hRelated : Related file sessions c names s m)
    {name : TableName}
    (hFits : validateIdent name.1 = .ok () → validateIdent name.2 = .ok () → name ∈ names) :
    (s.call e c (.openTable name)).1 = (m.call (.openTable name)).1 ∧
      Related file sessions c names (s.call e c (.openTable name)).2
        (m.call (.openTable name)).2 := by
  cases hScope : validateIdent name.1 with
  | error err =>
      have hFactory : e.factory c name s.scopeDbs s.world = (.error err, s.scopeDbs, s.world) := by
        simp only [SQLiteEngine.factory, hScope]
      simp only [SQLiteStore.call, hFactory, NamedTables.call, hScope]
      exact ⟨trivial, hRelated⟩
  | ok =>
      cases hTable : validateIdent name.2 with
      | error err =>
          obtain ⟨db, scopeDbs, w, hFile, hConnected, hSame, hFactory⟩ :=
            factory_connects hServes hCreate hScope hRelated.connected s.world
          have hOpen : e.openTable db name.2 w = (.error err, w) := by
            simp only [SQLiteEngine.openTable, hTable]
          have hKept : Related file sessions c names { s with world := w } m :=
            hRelated.unchanged (by simp [hSame]) (by rw [hSame])
          simp only [SQLiteStore.call, hFactory _ _ hOpen, NamedTables.call, hScope, hTable]
          exact ⟨trivial, hKept.connect hConnected⟩
      | ok =>
          have hMember := hFits hScope hTable
          obtain ⟨db, scopeDbs, w, hCall, hFile, hConnected, hAfter⟩ :=
            openTable_opens hServes hCreate (hNames name hMember) s hRelated.connected
          have hThere : ∀ p other, ((sessions s.world p).current other).isSome →
              ((sessions w p).current other).isSome := by
            intro p other hSome
            by_cases hp : p = c.dbPath name.1
            · subst hp
              rw [hAfter, Function.update_self, withTable_isSome, hSome, Bool.or_true]
            · rwa [hAfter, Function.update_of_ne hp]
          have hKept : Related file sessions c names { s with world := w } m :=
            hRelated.unchanged hThere (by rw [hAfter, storedRows_withTable])
          have hOpened : OpenedAs file c names (sessions w) ⟨some db, name.2⟩ name := by
            refine ⟨hMember, rfl, ⟨db, rfl, hFile⟩, ?_⟩
            rw [hAfter, Function.update_self, withTable_isSome, beq_self_eq_true, Bool.true_or]
          rw [hCall]
          simp only [NamedTables.call, hScope, hTable]
          exact ⟨trivial, (hKept.connect hConnected).append hOpened⟩

/-- An open table reads what the map has that it stands for. -/
theorem Related.stored (hRelated : Related file sessions c names s m) {db : γ} {name : TableName}
    (hMember : name ∈ names) (hFile : file db = c.dbPath name.1)
    (hTable : HasTable file sessions db name.2 s.world) :
    (sessions s.world (file db)).current (foldCase name.2) = some (m.contents name) := by
  obtain ⟨contents, hContents⟩ := Option.isSome_iff_exists.mp hTable
  rw [hContents, hRelated.contents name hMember]
  congr 1
  funext key
  rw [hFile] at hContents
  simp [SQLiteConfig.contentsOf, SQLiteConfig.place, storedRows, hContents]

/-- A call on a table is one on the map that the table stands for. -/
theorem Related.onTable (hRelated : Related file sessions c names s m) (i : Nat)
    {closed : SQLiteAnswer} {f : SQLiteTable γ → SQLiteAnswer × SQLiteStore ω γ}
    {g : TableName → SQLiteAnswer × NamedTables} (hClosed : ∀ t, t.db = none → f t = (closed, s))
    (hOpen : ∀ db name, name ∈ names → file db = c.dbPath name.1 →
      HasTable file sessions db name.2 s.world →
      (f ⟨some db, name.2⟩).1 = (g name).1 ∧
        Related file sessions c names (f ⟨some db, name.2⟩).2 (g name).2) :
    (s.onTable i f).1 = (m.onTable i closed g).1 ∧
      Related file sessions c names (s.onTable i f).2 (m.onTable i closed g).2 := by
  unfold SQLiteStore.onTable NamedTables.onTable
  rcases hRelated.cases i with ⟨hLeft, hRight⟩ | ⟨t, hLeft, hRight, hDb⟩ |
    ⟨db, name, hLeft, hRight, hMember, hFile, hTable⟩
  · rw [hLeft, hRight]
    exact ⟨rfl, hRelated⟩
  · rw [hLeft, hRight]
    dsimp only
    rw [hClosed t hDb]
    exact ⟨rfl, hRelated⟩
  · rw [hLeft, hRight]
    exact hOpen db name hMember hFile hTable

theorem Related.count (hRelated : Related file sessions c names s m) (id : UInt64) :
    Related file sessions c names { s with nextSavepointId := id } m :=
  ⟨hRelated.connected, hRelated.length, hRelated.named, hRelated.contents⟩

/-- Every call answers as it does where each name has a map of its own. -/
theorem call_simulates (hServes : e.Serves r file sessions) (hCreate : c.createIfMissing = true)
    (hNames : ∀ name ∈ names, Usable r name) (hApart : PlacesApart c names) {call : SQLiteCall}
    (hFits : call.Fits e.maxLength names) (hRelated : Related file sessions c names s m) :
    (s.call e c call).1 = (m.call call).1 ∧
      Related file sessions c names (s.call e c call).2 (m.call call).2 := by
  cases call with
  | openTable name => exact openTable_simulates hServes hCreate hNames hRelated hFits
  | put i key value =>
      refine hRelated.onTable i ?_ ?_
      · intro t hClosed
        simp only [SQLiteTable.put, hClosed]
        rfl
      · intro db name hMember hFile hTable
        obtain ⟨w, hPut, hAfter⟩ :=
          put_serves hServes (hNames name hMember).table hTable hFits.1 hFits.2
        rw [HasTable, hFile] at hTable
        rw [hFile] at hAfter
        simp only [hPut]
        exact ⟨trivial, hRelated.edited hApart hMember hTable hAfter⟩
  | del i key =>
      refine hRelated.onTable i ?_ ?_
      · intro t hClosed
        simp only [SQLiteTable.del, hClosed]
        rfl
      · intro db name hMember hFile hTable
        obtain ⟨w, hDel, hAfter⟩ := del_serves hServes (hNames name hMember).table hTable hFits
        rw [HasTable, hFile] at hTable
        rw [hFile] at hAfter
        simp only [hDel]
        exact ⟨trivial, hRelated.edited hApart hMember hTable hAfter⟩
  | batch i ops =>
      refine hRelated.onTable i ?_ ?_
      · intro t hClosed
        simp only [SQLiteTable.batch, hClosed, Option.map_none, SQLiteBackend.batch]
        rfl
      · intro db name hMember hFile hTable
        rcases batch_serves hServes (hNames name hMember).table hTable
            s.nextSavepointId.toNat_lt hFits with
          ⟨hAll, w, hBatch, hAfter⟩ | ⟨hSome, w, hBatch, hAfter⟩
        · rw [HasTable, hFile] at hTable
          rw [hFile] at hAfter
          simp only [hBatch, applyOps_eq hAll]
          exact ⟨trivial, (hRelated.edited hApart hMember hTable hAfter).count _⟩
        · have hKept : Related file sessions c names { s with world := w } m :=
            hRelated.unchanged (by simp [hAfter]) (by rw [hAfter])
          simp only [hBatch, applyOps_of_incomplete hSome]
          exact ⟨trivial, hKept.count _⟩
  | get i key =>
      refine hRelated.onTable i ?_ ?_
      · intro t hClosed
        simp only [SQLiteTable.get, hClosed]
        rfl
      · intro db name hMember hFile hTable
        have hGet := get_serves hServes (hNames name hMember).table
          (hRelated.stored hMember hFile hTable) hFits
        simp only [hGet]
        exact ⟨trivial, hRelated⟩
  | close i =>
      rcases hRelated.cases i with ⟨hLeft, hRight⟩ | ⟨t, hLeft, hRight, -⟩ |
        ⟨db, name, hLeft, hRight, -, -, -⟩
      · simp only [SQLiteStore.call, SQLiteStore.onTable, hLeft, NamedTables.call, hRight]
        exact ⟨trivial, hRelated⟩
      · simp only [SQLiteStore.call, SQLiteStore.onTable, hLeft, NamedTables.call, hRight]
        exact ⟨trivial, hRelated.close i rfl⟩
      · simp only [SQLiteStore.call, SQLiteStore.onTable, hLeft, NamedTables.call, hRight]
        exact ⟨trivial, hRelated.close i rfl⟩

theorem start_related (w : ω) : Related file sessions c names (SQLiteStore.start w)
    ⟨[], fun name => c.contentsOf (sessions w) name⟩ where
  connected _ _ h := by cases h
  length := rfl
  named _ _ _ h := by cases h
  contents _ _ := rfl

theorem fits_nil (maxLength : Nat) : FitsSQLite maxLength [] := ⟨by simp, Nat.zero_le _⟩

/-- Two names of one SQL table: what is written under the first is read under the second. -/
theorem write_crosses (hServes : e.Serves r file sessions) (hCreate : c.createIfMissing = true)
    {t u : TableName} (ht : Usable r t) (hu : Usable r u) (hScope : t.1 = u.1)
    (hTable : foldCase t.2 = foldCase u.2) (w : ω) {write : SQLiteCall} {value : Option Bytes}
    (hWrite : write = .del 0 [] ∧ value = none ∨ ∃ v, write = .put 0 [] v ∧ value = some v ∧
      FitsSQLite e.maxLength v) :
    (SequentialObject.run (SQLiteStore.call e c) [.openTable t, .openTable u, write, .get 1 []]
      (SQLiteStore.start w)).1 =
        [.void (.ok ()), .void (.ok ()), .void (.ok ()), .value (.ok value)] := by
  obtain ⟨db₁, dbs₁, w₁, hCall₁, hFile₁, hKept₁, hAfter₁⟩ :=
    openTable_opens hServes hCreate ht (SQLiteStore.start w) (by intro _ _ h; cases h)
  obtain ⟨db₂, dbs₂, w₂, hCall₂, hFile₂, -, hAfter₂⟩ :=
    openTable_opens hServes hCreate hu
      { SQLiteStore.start w with
        scopeDbs := dbs₁
        tables := (SQLiteStore.start w).tables ++ [⟨some db₁, t.2⟩]
        world := w₁ } hKept₁
  have hThere : HasTable file sessions db₁ t.2 w₂ := by
    rw [HasTable, hAfter₂, hFile₁, hScope, hTable, Function.update_self, withTable_isSome,
      beq_self_eq_true, Bool.true_or]
  obtain ⟨w₃, hCall₃, hAfter₃⟩ : ∃ w₃, (∀ s : SQLiteStore ω γ,
      s.tables[0]? = some ⟨some db₁, t.2⟩ → s.world = w₂ →
      s.call e c write = (.void (.ok ()), { s with world := w₃ })) ∧
      sessions w₃ = editTable (sessions w₂) (file db₁) (foldCase t.2) [([], value)] := by
    rcases hWrite with ⟨rfl, rfl⟩ | ⟨v, rfl, rfl, hFits⟩
    · obtain ⟨w₃, hDel, hAfter⟩ := del_serves hServes ht.table hThere (fits_nil _)
      refine ⟨w₃, ?_, hAfter⟩
      rintro s hFirst rfl
      simp only [SQLiteStore.call, SQLiteStore.onTable, hFirst, hDel]
    · obtain ⟨w₃, hPut, hAfter⟩ := put_serves hServes ht.table hThere (fits_nil _) hFits
      refine ⟨w₃, ?_, hAfter⟩
      rintro s hFirst rfl
      simp only [SQLiteStore.call, SQLiteStore.onTable, hFirst, hPut]
  obtain ⟨contents, hContents⟩ := Option.isSome_iff_exists.mp hThere
  have hNow : (sessions w₃ (file db₂)).current (foldCase u.2) =
      some (Function.update contents [] value) := by
    rw [hAfter₃, hFile₂, ← hScope, ← hFile₁, ← hTable, editTable, Function.update_self, Session.put,
      SQLiteDatabase.edit]
    dsimp only
    rw [Function.update_self, hContents]
    rfl
  have hGet := get_serves hServes hu.table hNow (fits_nil _)
  rw [Function.update_self] at hGet
  refine SequentialObject.run_cons hCall₁ (SequentialObject.run_cons hCall₂
    (SequentialObject.run_cons (hCall₃ _ rfl rfl) ?_))
  simp [SequentialObject.run, SQLiteStore.call, SQLiteStore.onTable, SQLiteStore.start, hGet]

theorem names_of_agree (hServes : e.Serves r file sessions) (hCreate : c.createIfMissing = true)
    (hNames : ∀ name ∈ names, Usable r name) (w : ω)
    (hAgree : ∀ calls : List SQLiteCall, (∀ call ∈ calls, call.Fits e.maxLength names) →
      (SequentialObject.run (SQLiteStore.call e c) calls (SQLiteStore.start w)).1 =
        (SequentialObject.run NamedTables.call calls ⟨[], c.contentsOf (sessions w)⟩).1) :
    ∀ t ∈ names, ∀ u ∈ names, t.1 = u.1 → foldCase t.2 = foldCase u.2 → t = u := by
  intro t ht u hu hScope hTable
  by_contra hNe
  -- The write that shows: a value where there is none, and none where there is one.
  cases hOld : c.contentsOf (sessions w) u [] with
  | none =>
      have hRun := hAgree [.openTable t, .openTable u, .put 0 [] [], .get 1 []] (by
        simp [SQLiteCall.Fits, fits_nil, ht, hu])
      rw [write_crosses hServes hCreate (hNames t ht) (hNames u hu) hScope hTable w
        (.inr ⟨[], rfl, rfl, fits_nil _⟩)] at hRun
      simp [SequentialObject.run, NamedTables.call, (hNames t ht).scope, (hNames t ht).table.valid,
        (hNames u hu).scope, (hNames u hu).table.valid, NamedTables.onTable, NamedTables.write,
        Function.update_of_ne (Ne.symm hNe), hOld] at hRun
  | some old =>
      have hRun := hAgree [.openTable t, .openTable u, .del 0 [], .get 1 []] (by
        simp [SQLiteCall.Fits, fits_nil, ht, hu])
      rw [write_crosses hServes hCreate (hNames t ht) (hNames u hu) hScope hTable w
        (.inl ⟨rfl, rfl⟩)] at hRun
      simp [SequentialObject.run, NamedTables.call, (hNames t ht).scope, (hNames t ht).table.valid,
        (hNames u hu).scope, (hNames u hu).table.valid, NamedTables.onTable, NamedTables.write,
        Function.update_of_ne (Ne.symm hNe), hOld] at hRun

end Runs

/-! ## SQLite in memory -/

/-- Databases in memory, with their paths for connections. Every file is there. -/
def memoryEngine : SQLiteEngine (Bytes → DatabaseSession) Bytes where
  parentPath p := ((p.reverse.dropWhile (· ≠ slash)).drop 1).reverse
  createDirectories _ w := (.ok (), w)
  openV2 p _ w := (.ok p, w)
  busyTimeout _ _ w := w
  close _ w := w
  exec db sql w :=
    if sql = ascii "PRAGMA journal_mode=WAL" then (.ok (), w)
    else
      match (plainReader.read sql).bind fun x => (w db).exec x.1 x.2 with
      | some s => (.ok (), Function.update w db s)
      | none => (.error (some "SQL logic error"), w)
  prepare db sql w :=
    (((plainReader.read sql).bind fun x => (w db).current (foldCase x.2)).isSome, w)
  step db sql bound w :=
    match (plainReader.read sql).bind fun x => (DatabaseSession.edit x.1 bound).map (foldCase x.2, ·) with
    | some (name, change) => (((w db).current name).isSome, editTable w db name [change])
    | none => (false, w)
  query db sql bound w :=
    match (plainReader.read sql).bind fun x => (w db).current (foldCase x.2), bound with
    | some contents, [some key] => .ok ⟨((contents key).map fun value => ⟨key, value⟩).toList, none⟩
    | _, _ => .error "SQL logic error"
  errmsg _ _ := "SQL logic error"
  maxLength := 1000000000
  negativeBlob _ := none

theorem memoryEngine_serves : memoryEngine.Serves plainReader id id where
  lexical := plainReader_lexical
  grammar := plainReader_grammar
  room := by decide
  created _ w := ⟨w, rfl, rfl⟩
  opened p w := ⟨p, w, rfl, rfl, rfl⟩
  timeout _ _ _ := rfl
  wal _ w := ⟨w, by simp only [memoryEngine, if_true], rfl⟩
  executes := by
    intro db sql form name w s hParse hExec
    have hOther : sql ≠ ascii "PRAGMA journal_mode=WAL" := by
      rintro rfl
      have hNone : plainReader.read (ascii "PRAGMA journal_mode=WAL") = none := by decide
      rw [hNone] at hParse
      cases hParse
    have hExec' : (w db).exec form name = some s := hExec
    refine ⟨Function.update w db s, ?_, rfl⟩
    simp only [memoryEngine, if_neg hOther, hParse, Option.bind_some, hExec']
  prepares := by
    intro db sql form name w hParse _ hTable
    refine ⟨w, ?_, rfl⟩
    have hTable' : ((w db).current (foldCase name)).isSome := hTable
    simp only [memoryEngine, hParse, Option.bind_some, hTable']
  changes := by
    intro db sql form name bound w change hParse hEdit hTable
    have hTable' : ((w db).current (foldCase name)).isSome := hTable
    refine ⟨editTable w db (foldCase name) [change], ?_, rfl⟩
    simp only [memoryEngine, hParse, Option.bind_some, hEdit, Option.map_some, hTable']
  answers := by
    intro db sql name key w contents hParse hContents
    have hContents' : (w db).current (foldCase name) = some contents := hContents
    simp only [memoryEngine, hParse, Option.bind_some, hContents']

def demoConfig : SQLiteConfig := ⟨ascii "data", true, true, 5000⟩

/-- Two names that SQLite does not tell apart. -/
def sameToSQLite : Set TableName := {(ascii "app", ascii "users"), (ascii "app", ascii "Users")}

theorem sameToSQLite_usable : ∀ name ∈ sameToSQLite, Usable plainReader name := by
  rintro name (rfl | rfl)
  · exact ⟨by decide, ⟨by decide, by decide⟩, by decide⟩
  · exact ⟨by decide, ⟨by decide, by decide⟩, by decide⟩

def noDatabases : Bytes → DatabaseSession := fun _ => ⟨fun _ => none, []⟩

end CelerMem
