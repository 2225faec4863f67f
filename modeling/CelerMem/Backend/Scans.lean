import CelerMem.Backend.RocksDB
import Mathlib

/-! The scans of SQLite and RocksDB against the one they stand for. The length of what SQLite is
asked for is cast to `int` first. -/
namespace CelerMem

/-- Both backends return and visit the pairs whose keys start with the prefix, once each and
in the order of their keys. -/
def ScansAgree (sqlite : Connection) (rocks : RocksDb) (contents : Contents) (start : Bytes) :
    Prop :=
  ∃ rows, contents.Scanned start rows ∧
    SQLiteBackend.prefixScan ⟨some sqlite⟩ start = .ok rows ∧
    RocksDBBackend.prefixScan ⟨some rocks⟩ start = .ok rows ∧
    ∀ (τ : Type) (visitor : τ → Bytes → Bytes → τ) (ctx : τ),
      SQLiteBackend.foreachScan ⟨some sqlite⟩ start visitor ctx =
        (.ok (), visitRows visitor ctx rows) ∧
      RocksDBBackend.foreachScan ⟨some rocks⟩ start visitor ctx =
        (.ok (), visitRows visitor ctx rows)

theorem scansAgree_iff {contents : Contents} {sqlite : Connection} {rocks : RocksDb}
    (hRocks : rocks.Serves contents) (start : Bytes) :
    ScansAgree sqlite rocks contents start ↔ SQLiteBackend.Scans sqlite contents start := by
  constructor
  · rintro ⟨rows, hScanned, hScan, -, hVisits⟩
    exact ⟨rows, hScanned, hScan, fun τ visitor ctx => (hVisits τ visitor ctx).1⟩
  · rintro ⟨rows, hScanned, hScan, hVisits⟩
    obtain ⟨rows', hScanned', hScan', hVisits'⟩ := RocksDBBackend.scan_eq hRocks start
    obtain rfl := hScanned.unique hScanned'
    exact ⟨rows, hScanned, hScan, hScan',
      fun τ visitor ctx => ⟨hVisits τ visitor ctx, hVisits' τ visitor ctx⟩⟩

/-- They do if the prefix is shorter than 2^31 bytes, or has no upper bound; and otherwise if no
stored key is between what is bound of the prefix and of its upper bound, and only then. -/
theorem scans_sorted_filter_iff {contents : Contents} {sqlite : Connection} {rocks : RocksDb}
    (hSqlite : sqlite.Serves contents) (hRocks : rocks.Serves contents) (start : Bytes) :
    ScansAgree sqlite rocks contents start ↔
      start.length < 2 ^ 31 ∨ ¬ SQLiteBackend.Bounded start ∨
        SQLiteBackend.NothingBetween sqlite contents start :=
  (scansAgree_iff hRocks start).trans (SQLiteBackend.scans_iff hSqlite start)

/-- Two of the keys start with the greatest byte. -/
def greatBytes : SortedTable where
  rows := [⟨[97], [1]⟩, ⟨[255], [2]⟩, ⟨[255, 0], []⟩]
  sorted := by decide

theorem scans_sorted_filter_iff_greatBytes :
    ScansAgree (Connection.ofTable greatBytes) (RocksDb.ofTable greatBytes) greatBytes.contents
        [255] ↔
      ([255] : Bytes).length < 2 ^ 31 ∨ ¬ SQLiteBackend.Bounded [255] ∨
        SQLiteBackend.NothingBetween (Connection.ofTable greatBytes) greatBytes.contents [255] :=
  scans_sorted_filter_iff (Connection.ofTable_serves (by decide))
    (RocksDb.ofTable_serves greatBytes) [255]

/-! ## A prefix that is cut -/

/-- The letter `a`, and greatest bytes. -/
def longPrefix (n : ℕ) : Bytes := 97 :: List.replicate n 255

theorem longPrefix_length (n : ℕ) : (longPrefix n).length = n + 1 := by
  rw [longPrefix, List.length_cons, List.length_replicate]

theorem prefixUpperBound_longPrefix (n : ℕ) : prefixUpperBound (longPrefix n) = [98] := by
  rw [prefixUpperBound, longPrefix, List.reverse_cons, List.reverse_replicate]
  induction n with
  | zero => rfl
  | succ n ih => exact ih

/-- Of a length that the cast takes for one, the first letter is bound. -/
theorem bindText_longPrefix {n maxLength : ℕ} (hWraps : n % uint32Size = 0) (hFits : 1 ≤ maxLength) :
    bindText maxLength (longPrefix n) = some [97] := by
  have hOne : (longPrefix n).length % uint32Size = 1 := by
    rw [longPrefix_length, Nat.add_mod, hWraps]
    rfl
  have hTake : (longPrefix n).take 1 = [97] := rfl
  have hSmall : 1 < 2 ^ 31 := by decide
  have hLength : ([97] : Bytes).length ≤ maxLength := hFits
  simp only [bindText, hOne, if_pos hSmall, hTake, if_pos hLength]

/-- The row `a` does not start with `a` and 2^32 bytes more. -/
theorem scan_of_cut_prefix :
    ¬ ScansAgree (Connection.ofTable oneRow) (RocksDb.ofTable oneRow) oneRow.contents
      (longPrefix uint32Size) := by
  have hServes : (Connection.ofTable oneRow).Serves oneRow.contents :=
    Connection.ofTable_serves (by decide)
  rw [scansAgree_iff (RocksDb.ofTable_serves oneRow), SQLiteBackend.scans_iff hServes]
  rintro (hSmall | hGreatest | hNone)
  · rw [longPrefix_length] at hSmall
    exact absurd hSmall (by decide)
  · exact hGreatest (.inr ⟨97, List.mem_cons_self, by decide⟩)
  · have hLower : bindText (Connection.ofTable oneRow).maxLength (longPrefix uint32Size) =
        some [97] := bindText_longPrefix (Nat.mod_self _) (by decide)
    have hUpper : bindText (Connection.ofTable oneRow).maxLength
        (prefixUpperBound (longPrefix uint32Size)) = some [98] := by
      rw [prefixUpperBound_longPrefix]
      exact bindText_eq (by decide) (by decide)
    exact hNone [97] [98] hLower hUpper [97] [7] rfl (by decide)

end CelerMem
