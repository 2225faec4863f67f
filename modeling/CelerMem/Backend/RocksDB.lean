import CelerMem.Core.Contents
import CelerMem.Library.PrefixRange
import CelerMem.Backend.SQLite
import Mathlib

/-! `RocksDBBackend`, the reads. RocksDB itself is a parameter: what it answers to `Get` and
`MultiGet`, and the entries that an iterator goes through after a `Seek`. -/
namespace CelerMem

/-- The entries that an iterator is valid at, one after the other, and the status it has
after the last one if it is not ok. -/
structure RocksIterator where
  entries : List KVPair
  failure : Option String

/-- RocksDB as it answers at some moment. A status is ok, not found or another error. -/
structure RocksDb where
  get : Bytes → Except String (Option Bytes)
  multiGet : List Bytes → List (Except String (Option Bytes))
  seek : Bytes → RocksIterator

/-- RocksDB without errors, on keys ordered bytewise. -/
structure RocksDb.Serves (db : RocksDb) (contents : Contents) : Prop where
  get : ∀ key, db.get key = .ok (contents key)
  multiGet : ∀ keys, db.multiGet keys = keys.map fun key => .ok (contents key)
  seek : ∀ start, ∃ entries, db.seek start = ⟨entries, none⟩ ∧
    (∀ kv, kv ∈ entries ↔ contents kv.key = some kv.value ∧ start ≤ kv.key) ∧
    entries.Pairwise fun a b => a.key < b.key

/-- A database that holds a table given by its rows. -/
def RocksDb.ofTable (table : SortedTable) : RocksDb where
  get := fun key => .ok (table.contents key)
  multiGet := fun keys => keys.map fun key => .ok (table.contents key)
  seek := fun start => ⟨table.rows.filter fun kv => start ≤ kv.key, none⟩

theorem RocksDb.ofTable_serves (table : SortedTable) :
    (RocksDb.ofTable table).Serves table.contents where
  get := fun key => rfl
  multiGet := fun keys => rfl
  seek := by
    intro start
    refine ⟨_, rfl, ?_, table.filter_sorted fun kv => start ≤ kv.key⟩
    intro kv
    rw [table.mem_filter_iff fun key => start ≤ key, decide_eq_true_iff]

/-- A table with the key `a` only. -/
def oneRow : SortedTable := ⟨[⟨[97], [7]⟩], List.pairwise_singleton _ _⟩

/-- The database is null once it has been closed. -/
structure RocksDBBackend where
  db : Option RocksDb

namespace RocksDBBackend

def get (backend : RocksDBBackend) (key : Bytes) : Result (Option Bytes) :=
  match backend.db with
  | none => .error ⟨"RocksDBGet", "db is closed"⟩
  | some db =>
      match db.get key with
      | .error msg => .error ⟨"StoreGet", msg⟩
      | .ok value => .ok value

/-- The loop over a valid iterator, with the status at its end. One that stops at another
key is still valid, so its status is ok. -/
def scanLoop (start : Bytes) (failure : Option String) : List KVPair → List KVPair × Option String
  | [] => ([], failure)
  | kv :: entries =>
      if !startsWith kv.key start then ([], none)
      else
        let (rows, status) := scanLoop start failure entries
        (kv :: rows, status)

def prefixScan (backend : RocksDBBackend) (start : Bytes) : Result (List KVPair) :=
  match backend.db with
  | none => .error ⟨"RocksDBScan", "db is closed"⟩
  | some db =>
      let it := db.seek start
      match scanLoop start it.failure it.entries with
      | (_, some msg) => .error ⟨"StorePrefixScan", msg⟩
      | (rows, none) => .ok rows

def foreachScan {τ : Type} (backend : RocksDBBackend) (start : Bytes)
    (visitor : τ → Bytes → Bytes → τ) (ctx : τ) : VoidResult × τ :=
  match backend.db with
  | none => (.error ⟨"RocksDBForeach", "db is closed"⟩, ctx)
  | some db =>
      let it := db.seek start
      match scanLoop start it.failure it.entries with
      | (rows, some msg) => (.error ⟨"StoreForeachScan", msg⟩, visitRows visitor ctx rows)
      | (rows, none) => (.ok (), visitRows visitor ctx rows)

/-! ## Scans -/

open PrefixRange

theorem scanLoop_eq (start : Bytes) (entries : List KVPair) :
    scanLoop start none entries =
      (entries.takeWhile fun kv => startsWith kv.key start, none) := by
  induction entries with
  | nil => rfl
  | cons kv entries ih =>
      rw [scanLoop, ih, List.takeWhile_cons]
      cases startsWith kv.key start with
      | true => rfl
      | false => rfl

/-- The entries from the prefix on begin with those that start with it. -/
theorem scan_eq {db : RocksDb} {contents : Contents} (hServes : db.Serves contents)
    (start : Bytes) :
    ∃ rows, contents.Scanned start rows ∧ prefixScan ⟨some db⟩ start = .ok rows ∧
      ∀ (τ : Type) (visitor : τ → Bytes → Bytes → τ) (ctx : τ),
        foreachScan ⟨some db⟩ start visitor ctx = (.ok (), visitRows visitor ctx rows) := by
  obtain ⟨entries, hSeek, hMem, hSorted⟩ := hServes.seek start
  have hFilter : entries.takeWhile (fun kv => startsWith kv.key start) =
      entries.filter fun kv => startsWith kv.key start :=
    takeWhile_eq_filter (fun kv => startsWith_iff) hSorted fun kv hEntry => ((hMem kv).mp hEntry).2
  have hLoop := scanLoop_eq start entries
  rw [hFilter] at hLoop
  refine ⟨entries.filter fun kv => startsWith kv.key start, ⟨?_, hSorted.sublist List.filter_sublist⟩,
    ?_, ?_⟩
  · intro kv
    rw [List.mem_filter, hMem, startsWith_iff, and_assoc, and_congr_right_iff]
    intro hStored
    exact and_iff_right_of_imp le_of_prefix
  · simp [prefixScan, hSeek, hLoop]
  · intro τ visitor ctx
    simp [foreachScan, hSeek, hLoop]

end RocksDBBackend
end CelerMem
