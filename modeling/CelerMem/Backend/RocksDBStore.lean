import CelerMem.Backend.BatchAtomicity
import CelerMem.Core.StoreRuns

/-! A store over RocksDB: a database for each table, at the path of the table. RocksDB and the
file system are parameters. -/
namespace CelerMem

variable {ρ α τ : Type} {hashKey : Bytes → Nat}

/-- RocksDB, on databases `ρ` that are open. A call gives the message of a status that is not ok. -/
structure RocksEngine (ρ : Type) where
  answers : ρ → RocksDb
  put : Bytes → Bytes → ρ → Option String × ρ
  delete : Bytes → ρ → Option String × ρ
  writer : RocksWriter ρ

/-! ## The backend -/

namespace RocksDBBackend

/-- The backend on what its pointer leads to, which is null once it has been closed. -/
def reads (e : RocksEngine ρ) (db : Option ρ) : RocksDBBackend := ⟨db.map e.answers⟩

def put (e : RocksEngine ρ) (key value : Bytes) (db : Option ρ) : VoidResult × Option ρ :=
  match db with
  | none => (.error ⟨"RocksDBPut", "db is closed"⟩, none)
  | some db =>
      match e.put key value db with
      | (some msg, db) => (.error ⟨"StorePut", msg⟩, some db)
      | (none, db) => (.ok (), some db)

def del (e : RocksEngine ρ) (key : Bytes) (db : Option ρ) : VoidResult × Option ρ :=
  match db with
  | none => (.error ⟨"RocksDBDel", "db is closed"⟩, none)
  | some db =>
      match e.delete key db with
      | (some msg, db) => (.error ⟨"StoreDel", msg⟩, some db)
      | (none, db) => (.ok (), some db)

/-- `batch`, where the database is what changes. -/
def batchOn (e : RocksEngine ρ) (ops : List BatchOp) (db : Option ρ) : VoidResult × Option ρ :=
  match db with
  | none => (batch none ops none : VoidResult × Option ρ)
  | some db => (batch (some e.writer) ops db).map id some

def vtable (e : RocksEngine ρ) : BackendVTable (Option ρ) where
  get key db := (reads e db).get key
  put := put e
  del := del e
  batch := batchOn e

def scanVTable (e : RocksEngine ρ) : ScanVTable (Option ρ) τ where
  prefixScan start db := (reads e db).prefixScan start
  foreachScan start visitor ctx db := (reads e db).foreachScan start visitor ctx

end RocksDBBackend

/-- What RocksDB documents. An iterator goes through the entries from a key on in their order,
and may stop before the last one with a status that is not ok. -/
structure RocksEngine.Lawful (e : RocksEngine ρ) (contents : ρ → Contents) : Prop where
  get : ∀ {key db r}, (e.answers db).get key = .ok r → r = contents db key
  multiGet : ∀ keys db, List.Forall₂ (fun key status => ∀ r, status = .ok r → r = contents db key)
    keys ((e.answers db).multiGet keys)
  seek : ∀ start db, ∃ rest, (∀ kv, kv ∈ ((e.answers db).seek start).entries ++ rest ↔
      contents db kv.key = some kv.value ∧ start ≤ kv.key) ∧
    (((e.answers db).seek start).entries ++ rest).Pairwise (fun a b => a.key < b.key) ∧
    (((e.answers db).seek start).failure = none → rest = [])
  put : ∀ {key value db db'}, e.put key value db = (none, db') →
    contents db' = Function.update (contents db) key (some value)
  delete : ∀ {key db db'}, key.length < uint32Size → e.delete key db = (none, db') →
    contents db' = Function.update (contents db) key none
  writes : e.writer.Writes contents

/-- Keys and values below 4 GB. -/
def rocksLimits : Limits := fun key value =>
  key.length < uint32Size ∧ ∀ v, value = some v → v.length < uint32Size

/-- What is in a database; one that is closed holds nothing. -/
def rocksView (contents : ρ → Contents) : Option ρ → Contents
  | none => fun _ => none
  | some db => contents db

namespace RocksDBBackend
variable {e : RocksEngine ρ} {contents : ρ → Contents} {start : Bytes}

/-- A loop that ends with an ok status has come to another key, or to the end. -/
theorem scanLoop_ok {failure : Option String} {entries rows : List KVPair}
    (h : scanLoop start failure entries = (rows, none)) :
    rows = entries.takeWhile (fun kv => startsWith kv.key start) ∧
      ((∃ kv ∈ entries, startsWith kv.key start = false) ∨ failure = none) := by
  induction entries generalizing rows with
  | nil =>
      obtain ⟨rfl, hFailure⟩ := Prod.mk.inj h
      exact ⟨rfl, .inr hFailure⟩
  | cons kv entries ih =>
      rw [scanLoop] at h
      cases hStarts : startsWith kv.key start with
      | false =>
          rw [hStarts] at h
          obtain ⟨rfl, -⟩ := Prod.mk.inj h
          exact ⟨by simp [hStarts], .inl ⟨kv, List.mem_cons_self, hStarts⟩⟩
      | true =>
          rw [hStarts] at h
          obtain ⟨rfl, hStatus⟩ := Prod.mk.inj h
          obtain ⟨hRows, hEnd⟩ := ih (Prod.ext rfl hStatus)
          refine ⟨by rw [List.takeWhile_cons, hStarts, if_pos rfl, ← hRows], ?_⟩
          rcases hEnd with ⟨other, hMem, hNot⟩ | hFailure
          · exact .inl ⟨other, List.mem_cons_of_mem kv hMem, hNot⟩
          · exact .inr hFailure

theorem takeWhile_append_of_stop {β : Type} {p : β → Bool} {l : List β} (rest : List β)
    (h : ∃ b ∈ l, p b = false) : (l ++ rest).takeWhile p = l.takeWhile p := by
  induction l with
  | nil =>
      obtain ⟨b, hMem, -⟩ := h
      exact absurd hMem List.not_mem_nil
  | cons a l ih =>
      rw [List.cons_append, List.takeWhile_cons, List.takeWhile_cons]
      cases hHead : p a with
      | false => rfl
      | true =>
          have hLater : ∃ b ∈ l, p b = false := by
            obtain ⟨b, hMem, hNot⟩ := h
            rcases List.mem_cons.mp hMem with rfl | hMem
            · rw [hHead] at hNot
              cases hNot
            · exact ⟨b, hMem, hNot⟩
          rw [ih hLater]

/-- A scan that succeeds has seen all rows, even if its iterator could not go on after them. -/
theorem prefixScan_ok (hLawful : e.Lawful contents) {db : Option ρ} {rows : List KVPair}
    (h : (reads e db).prefixScan start = .ok rows) :
    (rocksView contents db).Scanned start rows := by
  cases db with
  | none => cases h
  | some db =>
      obtain ⟨rest, hMem, hSorted, hEnd⟩ := hLawful.seek start db
      simp only [prefixScan, reads, Option.map_some] at h
      split at h
      next => cases h
      next rows' hLoop =>
        obtain rfl := Except.ok.inj h
        obtain ⟨hRows, hStop⟩ := scanLoop_ok hLoop
        have hAll : rows' = (((e.answers db).seek start).entries ++ rest).takeWhile
            fun kv => startsWith kv.key start := by
          rcases hStop with hStop | hFailure
          · rw [hRows, takeWhile_append_of_stop rest hStop]
          · rw [hRows, hEnd hFailure, List.append_nil]
        rw [PrefixRange.takeWhile_eq_filter (fun kv => startsWith_iff) hSorted
          fun kv hEntry => ((hMem kv).mp hEntry).2] at hAll
        rw [hAll]
        change (contents db).Scanned start _
        refine ⟨fun kv => ?_, hSorted.sublist List.filter_sublist⟩
        rw [List.mem_filter, hMem, startsWith_iff, and_assoc, and_congr_right_iff]
        intro hStored
        exact and_iff_right_of_imp PrefixRange.le_of_prefix

theorem scanVTable_agrees (e : RocksEngine ρ) (visitor : ScanVisitor τ) :
    (scanVTable e).Agrees visitor := by
  intro start db
  cases db with
  | none => exact .of_error _ fun ctx => ⟨_, rfl⟩
  | some db =>
      rcases hLoop : scanLoop start ((e.answers db).seek start).failure
        ((e.answers db).seek start).entries with ⟨rows, _ | msg⟩
      · have hScan : (scanVTable e : ScanVTable (Option ρ) τ).prefixScan start (some db) =
            .ok rows := by
          simp only [scanVTable, prefixScan, reads, Option.map_some, hLoop]
        rw [hScan]
        apply Visits.of_ok
        intro ctx
        simp only [scanVTable, foreachScan, reads, Option.map_some, hLoop, visitRows]
      · have hScan : (scanVTable e : ScanVTable (Option ρ) τ).prefixScan start (some db) =
            .error ⟨"StorePrefixScan", msg⟩ := by
          simp only [scanVTable, prefixScan, reads, Option.map_some, hLoop]
        rw [hScan]
        apply Visits.of_error
        intro ctx
        exact ⟨_, by simp only [scanVTable, foreachScan, reads, Option.map_some, hLoop]; rfl⟩

theorem lawfulTable (hLawful : e.Lawful contents) :
    LawfulTable (vtable e) (scanVTable e : ScanVTable (Option ρ) τ) (rocksView contents)
      rocksLimits where
  get := by
    intro key r db h
    cases db with
    | none => cases h
    | some db =>
        simp only [vtable, get, reads, Option.map_some] at h
        split at h
        next => cases h
        next value hGet =>
          obtain rfl := Except.ok.inj h
          exact hLawful.get hGet
  put := by
    intro key value db db' _ h
    cases db with
    | none => cases (Prod.mk.inj h).1
    | some db =>
        simp only [vtable, put] at h
        split at h
        next => cases (Prod.mk.inj h).1
        next after hPut =>
          obtain rfl := (Prod.mk.inj h).2
          exact hLawful.put hPut
  del := by
    intro key db db' hFits h
    cases db with
    | none => cases (Prod.mk.inj h).1
    | some db =>
        simp only [vtable, del] at h
        split at h
        next => cases (Prod.mk.inj h).1
        next after hDelete =>
          obtain rfl := (Prod.mk.inj h).2
          exact hLawful.delete hFits.1 hDelete
  batch := by
    intro ops db db' hFits h
    cases db with
    | none => cases (Prod.mk.inj h).1
    | some db =>
        have hAtomic : Atomic contents ops db (batch (some e.writer) ops db) :=
          batch_atomic hLawful.writes hFits
        obtain ⟨hResult, rfl⟩ := Prod.mk.inj h
        exact hAtomic.applied hResult
  scan := prefixScan_ok hLawful
  visits := scanVTable_agrees e

end RocksDBBackend

/-! ## The factory -/

structure RocksConfig where
  path : Bytes
  createIfMissing : Bool
  enableCompression : Bool
  maxOpenFiles : Int
  writeBufferSizeBytes : Int

/-- What is set of the options; `lz4` is whether the compression is. -/
structure RocksOptions where
  createIfMissing : Bool
  lz4 : Bool
  maxOpenFiles : Int
  writeBufferSize : Nat

/-- The size is cast to 64 bits without a sign. -/
def RocksConfig.options (config : RocksConfig) : RocksOptions :=
  ⟨config.createIfMissing, config.enableCompression, config.maxOpenFiles,
    (config.writeBufferSizeBytes % 2 ^ 64).toNat⟩

def RocksConfig.resolved (config : RocksConfig) (td : TableDescriptor) : Bytes :=
  config.path ++ ascii "/" ++ td.scope ++ ascii "/" ++ td.table

/-- The file system, and `DB::Open`. They may answer otherwise after the calls that came before. -/
structure RocksFiles (ρ : Type) where
  directory : Bytes → ℕ
  createDirectories : List (FactoryCall (Option ρ)) → Bytes → Option String
  openDb : List (FactoryCall (Option ρ)) → RocksOptions → Bytes → Option String

/-- A path that a database has been opened at is locked, and is not opened once more. -/
def RocksFiles.Locks (files : RocksFiles ρ) (config : RocksConfig) : Prop :=
  ∀ calls options td, (∃ call ∈ calls, config.resolved call.table = config.resolved td ∧
    ∃ handle, call.answer = .ok handle) →
      ∃ msg, files.openDb calls options (config.resolved td) = some msg

/-- The paths of the tables lead to different directories, unless they are the same. -/
def RocksFiles.Apart (files : RocksFiles ρ) (config : RocksConfig)
    (tables : List TableDescriptor) : Prop :=
  ∀ td ∈ tables, ∀ td' ∈ tables, files.directory (config.resolved td) =
    files.directory (config.resolved td') → config.resolved td = config.resolved td'

namespace RocksConfig
variable {e : RocksEngine ρ} {files : RocksFiles ρ} {config : RocksConfig}

/-- The database that a backend owns stands in the world at its directory. -/
def factory (files : RocksFiles ρ) (e : RocksEngine ρ) (config : RocksConfig) :
    BackendFactory (Option ρ) := fun calls td =>
  let resolved := config.resolved td
  match files.createDirectories calls resolved with
  | some msg => .error ⟨"RocksDBOpen",
      "failed to create directory '" ++ text resolved ++ "': " ++ msg⟩
  | none =>
      match files.openDb calls config.options resolved with
      | some msg => .error ⟨"RocksDBOpen",
          "failed to open RocksDB at '" ++ text resolved ++ "': " ++ msg⟩
      | none => .ok ⟨some (files.directory resolved), some (RocksDBBackend.vtable e)⟩

theorem factory_ok {calls : List (FactoryCall (Option ρ))} {td : TableDescriptor}
    {handle : BackendHandle (Option ρ)} (h : config.factory files e calls td = .ok handle) :
    files.openDb calls config.options (config.resolved td) = none ∧
      handle = ⟨some (files.directory (config.resolved td)), some (RocksDBBackend.vtable e)⟩ := by
  simp only [factory] at h
  split at h
  next => cases h
  next =>
    split at h
    next => cases h
    next hOpen => exact ⟨hOpen, (Except.ok.inj h).symm⟩

theorem factory_fresh {tables : List TableDescriptor} (hLocks : files.Locks config)
    (hApart : files.Apart config tables) : ((config.factory files e).only tables).Fresh := by
  intro calls td handle hAnswered hAnswer ctx hMem hMade
  obtain ⟨hListed, hHere⟩ := BackendFactory.only_ok hAnswer
  obtain ⟨hOpen, rfl⟩ := factory_ok hHere
  obtain rfl : ctx = files.directory (config.resolved td) := List.mem_singleton.mp hMem
  obtain ⟨call, hCall, hIn⟩ := List.mem_flatMap.mp hMade
  obtain ⟨before, after, rfl⟩ := List.append_of_mem hCall
  have hCalled := hAnswered before call after rfl
  cases hEarlier : call.answer with
  | error err =>
      rw [hEarlier] at hIn
      cases hIn
  | ok other =>
      obtain ⟨hListed', hThere⟩ := BackendFactory.only_ok (hCalled.symm.trans hEarlier)
      obtain ⟨-, rfl⟩ := factory_ok hThere
      rw [hEarlier] at hIn
      have hPaths := hApart td hListed call.table hListed' (List.mem_singleton.mp hIn)
      obtain ⟨msg, hLocked⟩ :=
        hLocks _ config.options td ⟨call, hCall, hPaths.symm, _, hEarlier⟩
      rw [hLocked] at hOpen
      cases hOpen

/-- A store over RocksDB does not open when two of its tables have one path. Where different
paths lead to different directories, it is a map for each table, over any calls whose keys and
values are below 4 GB. -/
theorem store_is_maps {contents : ρ → Contents} (hLawful : e.Lawful contents)
    {scopeOrder : ScopeOrder} {tables : List TableDescriptor} (hLocks : files.Locks config)
    (hApart : files.Apart config tables) (hDistinct : tables.Nodup) {root : StoreNode (Option ρ)}
    {made : List (FactoryCall (Option ρ))}
    (hBuild : buildTree hashKey scopeOrder (config.factory files e) tables = (.ok root, made))
    (client : Client α τ) (hashOrder : HashOrder) {calls : List (StoreCall α)}
    (hWithin : ∀ call ∈ calls, call.Within client rocksLimits) (w : World (Option ρ)) :
    (tables.map config.resolved).Nodup ∧
    SequentialObject.Performs (StoreCall.Does client tables) calls
      (Store.contents hashKey ⟨root⟩ (rocksView contents) w)
      (SequentialObject.run (StoreCall.call hashKey hashOrder client
        (fun _ => RocksDBBackend.scanVTable e) ⟨root⟩) calls w).1
      (Store.contents hashKey ⟨root⟩ (rocksView contents)
        (SequentialObject.run (StoreCall.call hashKey hashOrder client
          (fun _ => RocksDBBackend.scanVTable e) ⟨root⟩) calls w).2) := by
  have hHandles : ∀ calls td handle, (config.factory files e).only tables calls td = .ok handle →
      ∃ cell, LawfulHandle (fun _ => (RocksDBBackend.scanVTable e : ScanVTable (Option ρ) τ))
        (rocksView contents) rocksLimits handle cell := by
    intro calls td handle hAnswer
    obtain ⟨-, rfl⟩ := factory_ok (BackendFactory.only_ok hAnswer).2
    exact ⟨_, rfl, _, rfl, RocksDBBackend.lawfulTable hLawful⟩
  rw [← buildTree_only] at hBuild
  obtain ⟨scopes, rfl, hOpened, hMade⟩ :=
    opened_of_build (factory_fresh hLocks hApart) hDistinct hHandles hBuild
  refine ⟨?_, hOpened.performs client hashOrder hWithin w⟩
  refine hDistinct.map_on fun td hMem td' hMem' hSame => ?_
  obtain ⟨handle, hHandle⟩ := hOpened.handle_some_iff.mpr hMem
  obtain ⟨handle', hHandle'⟩ := hOpened.handle_some_iff.mpr hMem'
  obtain ⟨calls, hAnswer⟩ := hMade td handle hHandle
  obtain ⟨calls', hAnswer'⟩ := hMade td' handle' hHandle'
  obtain ⟨-, rfl⟩ := factory_ok (BackendFactory.only_ok hAnswer).2
  obtain ⟨-, rfl⟩ := factory_ok (BackendFactory.only_ok hAnswer').2
  refine hOpened.apart hHandle hHandle' (List.mem_singleton_self _) ?_
  rw [hSame]
  exact List.mem_singleton_self _

end RocksConfig

/-! ## Databases in memory -/

theorem SortedTable.contents_foldl_set (edits : List (Bytes × Option Bytes))
    (table : SortedTable) :
    (edits.foldl (fun table edit => table.set edit.1 edit.2) table).contents =
      Edits.apply table.contents edits := by
  induction edits generalizing table with
  | nil => rfl
  | cons edit edits ih => rw [List.foldl_cons, ih, contents_set, Edits.apply_cons]

/-- A RocksDB that never fails. -/
def sortedRocks : RocksEngine SortedTable where
  answers := RocksDb.ofTable
  put key value table := (none, table.set key (some value))
  delete key table := (none, table.set key none)
  writer := ⟨fun wb table => (none, wb.foldl (fun table entry => table.set entry.1 entry.2) table)⟩

theorem sortedRocks_lawful : sortedRocks.Lawful SortedTable.contents where
  get := fun h => (Except.ok.inj h).symm
  multiGet := by
    intro keys table
    refine List.forall₂_map_right_iff.mpr (List.forall₂_same.mpr fun key _ r h => ?_)
    exact (Except.ok.inj h).symm
  seek := by
    intro start table
    refine ⟨[], fun kv => ?_, ?_, fun _ => rfl⟩
    · rw [List.append_nil]
      exact (table.mem_filter_iff (fun key => start ≤ key) kv).trans (by rw [decide_eq_true_iff])
    · rw [List.append_nil]
      exact table.filter_sorted _
  put := by
    intro key value table table' h
    obtain rfl := (Prod.mk.inj h).2
    exact table.contents_set key (some value)
  delete := by
    intro key table table' _ h
    obtain rfl := (Prod.mk.inj h).2
    exact table.contents_set key none
  writes := by
    refine ⟨?_, fun h => (by cases (Prod.mk.inj h).1)⟩
    intro wb table table' _ h
    obtain rfl := (Prod.mk.inj h).2
    exact SortedTable.contents_foldl_set wb table

/-- Every path is a directory of its own, and is opened once. -/
def plainFiles (config : RocksConfig) : RocksFiles SortedTable where
  directory := List.foldl (fun n b => n * 257 + b.val + 1) 0
  createDirectories _ _ := none
  openDb calls _ path :=
    if calls.any fun call => call.answer.isOk && config.resolved call.table == path then
      some "lock hold by current process"
    else none

theorem plainFiles_locks (config : RocksConfig) : (plainFiles config).Locks config := by
  rintro calls options td ⟨call, hMem, hSame, handle, hAnswer⟩
  refine ⟨_, if_pos (List.any_eq_true.mpr ⟨call, hMem, ?_⟩)⟩
  rw [hAnswer, hSame]
  exact beq_self_eq_true _

def dataConfig : RocksConfig := ⟨ascii "data", true, true, 256, 4194304⟩

theorem plainFiles_apart : (plainFiles dataConfig).Apart dataConfig demoTables := by
  rw [RocksFiles.Apart]
  decide

theorem RocksConfig.store_is_maps_demo : ∃ root made,
    buildTree List.length ⟨id, fun _ => .refl _⟩ (dataConfig.factory (plainFiles dataConfig) sortedRocks)
      demoTables = (.ok root, made) ∧
    ∀ w, (demoTables.map dataConfig.resolved).Nodup ∧
      SequentialObject.Performs
        (StoreCall.Does ⟨rawCodec, fun seen _ => seen + 1, 0⟩ demoTables) demoCalls
        (Store.contents List.length ⟨root⟩ (rocksView SortedTable.contents) w)
        (SequentialObject.run (StoreCall.call List.length insertionOrder
          ⟨rawCodec, fun seen _ => seen + 1, 0⟩ (fun _ => RocksDBBackend.scanVTable sortedRocks)
          ⟨root⟩) demoCalls w).1
        (Store.contents List.length ⟨root⟩ (rocksView SortedTable.contents)
          (SequentialObject.run (StoreCall.call List.length insertionOrder
            ⟨rawCodec, fun (seen : ℕ) _ => seen + 1, 0⟩
            (fun _ => RocksDBBackend.scanVTable sortedRocks) ⟨root⟩) demoCalls w).2) := by
  obtain ⟨root, made, hBuild⟩ : ∃ root made, buildTree List.length ⟨id, fun _ => .refl _⟩
      (dataConfig.factory (plainFiles dataConfig) sortedRocks) demoTables = (.ok root, made) := ⟨_, _, rfl⟩
  have hWithin : ∀ call ∈ demoCalls, call.Within
      (⟨rawCodec, fun seen _ => seen + 1, 0⟩ : Client Bytes ℕ) rocksLimits := by
    simp [demoCalls, StoreCall.Within, TableCall.Within, rocksLimits, rawCodec, uint32Size]
  exact ⟨root, made, hBuild, fun w => RocksConfig.store_is_maps sortedRocks_lawful
    (plainFiles_locks dataConfig) plainFiles_apart (by decide) hBuild _ _ hWithin w⟩

end CelerMem
