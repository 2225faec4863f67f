import CelerMem.Backend.SQLite
import Mathlib

/-! A step of SQLite that fails in the middle of a scan. The branches with `ORDER BY key`
alone and with both bounds look at how their loop ended; the one for prefixes of greatest
bytes does not. -/
namespace CelerMem
namespace SQLiteBackend

variable {db : Connection} {table : SortedTable} {start : Bytes} {rows : List KVPair}
  {msg : String}

/-- With a bound, the error of a step is the error of the scan. -/
theorem failed_step_reported (hBounded : Bounded start)
    (hFailed : db.select (scanQuery db start) = .ok ⟨rows, some msg⟩) :
    (prefixScan ⟨some db⟩ start = .error ⟨"StorePrefixScan", msg⟩) ∧
      ∀ (τ : Type) (visitor : τ → Bytes → Bytes → τ) (ctx : τ),
        foreachScan ⟨some db⟩ start visitor ctx =
          (.error ⟨"StoreForeachScan", msg⟩, visitRows visitor ctx rows) := by
  rw [scanQuery] at hFailed
  by_cases hEmpty : start.isEmpty
  · rw [if_pos hEmpty] at hFailed
    refine ⟨?_, ?_⟩
    · simp only [prefixScan, hEmpty, if_true, collectRows, hFailed]
    · intro τ visitor ctx
      simp only [foreachScan, hEmpty, if_true, visitQuery, hFailed]
  · have hUpper : ¬ (prefixUpperBound start).isEmpty := by
      rw [prefixUpperBound_isEmpty_iff]
      intro hGreatest
      rcases hBounded with rfl | ⟨b, hMem, hOther⟩
      · exact hEmpty rfl
      · exact hOther (hGreatest b hMem)
    rw [if_neg hEmpty, if_neg hUpper] at hFailed
    refine ⟨?_, ?_⟩
    · simp only [prefixScan, if_neg hEmpty, if_neg hUpper, collectRows, hFailed]
    · intro τ visitor ctx
      simp only [foreachScan, if_neg hEmpty, if_neg hUpper, visitQuery, hFailed]

/-- What the query of a prefix selects starts with it, so that the loop does not stop early. -/
theorem takeWhile_selected (hSmall : start.length < 2 ^ 31) (hFits : start.length ≤ db.maxLength)
    (hRead : rows <+: table.rows.filter fun kv => (scanQuery db start).selects kv.key) :
    rows.takeWhile (fun kv => startsWith kv.key start) = rows := by
  apply List.takeWhile_eq_self_iff.mpr
  intro kv hMem
  have hSelected := (List.mem_filter.mp (hRead.subset hMem)).2
  exact startsWith_iff.mpr ((selects_iff hSmall hFits kv.key).mp hSelected)

/-- A step that fails after some of the rows of a table is reported by both scans exactly
for the prefixes with a bound; for the others both succeed with the rows up to the first one
that does not start with the prefix. These are all of them if the prefix is bound as it is. -/
theorem failed_step_reported_iff
    (hFailed : db.select (scanQuery db start) = .ok ⟨rows, some msg⟩)
    (hRead : rows <+: table.rows.filter fun kv => (scanQuery db start).selects kv.key) :
    (((∃ e, prefixScan ⟨some db⟩ start = .error e) ∧
        ∀ (τ : Type) (visitor : τ → Bytes → Bytes → τ) (ctx : τ),
          ∃ e, (foreachScan ⟨some db⟩ start visitor ctx).1 = .error e) ↔ Bounded start) ∧
      (¬ Bounded start → ∃ kept, prefixScan ⟨some db⟩ start = .ok kept ∧
        (∀ (τ : Type) (visitor : τ → Bytes → Bytes → τ) (ctx : τ),
          foreachScan ⟨some db⟩ start visitor ctx = (.ok (), visitRows visitor ctx kept)) ∧
        kept = rows.takeWhile (fun kv => startsWith kv.key start) ∧
        (start.length < 2 ^ 31 → start.length ≤ db.maxLength → kept = rows)) := by
  refine ⟨⟨?_, ?_⟩, ?_⟩
  · rintro ⟨⟨e, hError⟩, _⟩
    by_contra hGreatest
    cases hError.symm.trans (scan_unbounded (τ := Unit) hGreatest hFailed).1
  · intro hBounded
    obtain ⟨hScan, hVisit⟩ := failed_step_reported hBounded hFailed
    refine ⟨⟨_, hScan⟩, ?_⟩
    intro τ visitor ctx
    exact ⟨_, congrArg Prod.fst (hVisit τ visitor ctx)⟩
  · intro hGreatest
    refine ⟨_, (scan_unbounded (τ := Unit) hGreatest hFailed).1,
      fun τ => (scan_unbounded hGreatest hFailed).2, rfl, ?_⟩
    intro hSmall hFits
    exact takeWhile_selected hSmall hFits hRead

/-- A connection to a table whose cursors fail at some row, or at the end of the rows. -/
def failingAt (table : SortedTable) (position : ℕ) (msg : String) : Connection where
  select := fun query =>
    let rows := table.rows.filter fun kv => query.selects kv.key
    if position ≤ rows.length then .ok ⟨rows.take position, some msg⟩ else .ok ⟨rows, none⟩
  maxLength := 1000000000

/-- Two keys that start with the greatest byte. -/
def twoGreatKeys : SortedTable where
  rows := [⟨[255], [1]⟩, ⟨[255, 7], [2]⟩]
  sorted := by decide

theorem failed_step_reported_iff_greatKeys :
    let db := failingAt twoGreatKeys 1 "disk I/O error"
    (((∃ e, prefixScan ⟨some db⟩ [255] = .error e) ∧
        ∀ (τ : Type) (visitor : τ → Bytes → Bytes → τ) (ctx : τ),
          ∃ e, (foreachScan ⟨some db⟩ [255] visitor ctx).1 = .error e) ↔ Bounded [255]) ∧
      (¬ Bounded [255] → ∃ kept, prefixScan ⟨some db⟩ [255] = .ok kept ∧
        (∀ (τ : Type) (visitor : τ → Bytes → Bytes → τ) (ctx : τ),
          foreachScan ⟨some db⟩ [255] visitor ctx = (.ok (), visitRows visitor ctx kept)) ∧
        kept = ([⟨[255], [1]⟩] : List KVPair).takeWhile (fun kv => startsWith kv.key [255]) ∧
        (([255] : Bytes).length < 2 ^ 31 → ([255] : Bytes).length ≤ db.maxLength →
          kept = [⟨[255], [1]⟩])) :=
  @failed_step_reported_iff (failingAt twoGreatKeys 1 "disk I/O error") twoGreatKeys [255]
    [⟨[255], [1]⟩] "disk I/O error" (by rfl) (by decide)

/-- The second row of a scan for the greatest byte cannot be read. -/
theorem failed_step_lost :
    ¬ ∀ (table : SortedTable) (start : Bytes) (position : ℕ) (msg : String),
      position ≤ (table.rows.filter fun kv =>
        (scanQuery (failingAt table position msg) start).selects kv.key).length →
      ∃ e, prefixScan ⟨some (failingAt table position msg)⟩ start = .error e := by
  intro h
  obtain ⟨e, hError⟩ := h twoGreatKeys [255] 1 "disk I/O error" (by decide)
  have hOk : prefixScan ⟨some (failingAt twoGreatKeys 1 "disk I/O error")⟩ [255] =
      .ok [⟨[255], [1]⟩] := rfl
  cases hError.symm.trans hOk

end SQLiteBackend
end CelerMem
