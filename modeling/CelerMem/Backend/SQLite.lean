import CelerMem.Core.Chunk
import CelerMem.Core.Contents
import CelerMem.Library.PrefixRange
import Mathlib

/-! `SQLiteBackend`, the reads of one table. SQLite itself is a parameter: what it answers to
a query, as a cursor that is stepped through. -/
namespace CelerMem

/-- `sqlite3_bind_text` with a length that is cast to `int`; a negative one stands for a text
up to its first NUL. When the text is too long the call fails, which is not looked at, and the
parameter stays `NULL`. -/
def bindText (maxLength : Nat) (text : Bytes) : Option Bytes :=
  let n := text.length % uint32Size
  let bound := if n < 2 ^ 31 then text.take n else text.takeWhile (· ≠ 0)
  if bound.length ≤ maxLength then some bound else none

theorem bindText_eq {maxLength : Nat} {text : Bytes} (hSmall : text.length < 2 ^ 31)
    (hFits : text.length ≤ maxLength) : bindText maxLength text = some text := by
  have hLength : text.length % uint32Size = text.length :=
    Nat.mod_eq_of_lt (by simp only [uint32Size]; omega)
  simp only [bindText, hLength, if_pos hSmall, List.take_length, if_pos hFits]

theorem bindText_eq_none {maxLength : Nat} {text : Bytes} (hSmall : text.length < 2 ^ 31)
    (hLong : maxLength < text.length) : bindText maxLength text = none := by
  have hLength : text.length % uint32Size = text.length :=
    Nat.mod_eq_of_lt (by simp only [uint32Size]; omega)
  simp only [bindText, hLength, if_pos hSmall, List.take_length, if_neg (Nat.not_le.mpr hLong)]

/-- The queries that the backend prepares, with what is bound to them. -/
inductive Query where
  | all
  | atLeast (lower : Option Bytes)
  | between (lower upper : Option Bytes)
  | equal (key : Option Bytes)
  | oneOf (keys : List (Option Bytes))

/-- The `WHERE` of a query. No key compares with `NULL`. -/
def Query.selects : Query → Bytes → Bool
  | .all, _ => true
  | .atLeast lower, key => lower.any (· ≤ key)
  | .between lower upper, key => lower.any (· ≤ key) && upper.any (key < ·)
  | .equal sought, key => sought == some key
  | .oneOf keys, key => keys.contains (some key)

/-- Whether it has an `ORDER BY key`. -/
def Query.ordered : Query → Bool
  | .all | .atLeast _ | .between _ _ => true
  | .equal _ | .oneOf _ => false

/-- The rows that `sqlite3_step` leads to, and the message of the error that ends them. There
is none where they end with `SQLITE_DONE`. -/
structure Cursor where
  rows : List KVPair
  failure : Option String

/-- A connection as it answers at some moment, or the message of a failed preparation, and
how long a text may be. -/
structure Connection where
  select : Query → Except String Cursor
  maxLength : Nat

/-- SQLite without errors: the rows that a query selects, once each and sorted if it says so. No
limit is above 2^31 - 1 bytes, and no row has a longer key. -/
structure Connection.Serves (db : Connection) (contents : Contents) : Prop where
  answers : ∀ query, ∃ rows, db.select query = .ok ⟨rows, none⟩ ∧
    (∀ kv, kv ∈ rows ↔ contents kv.key = some kv.value ∧ query.selects kv.key = true) ∧
    rows.Nodup ∧ (query.ordered = true → rows.Pairwise fun a b => a.key < b.key)
  limit : db.maxLength < 2 ^ 31
  fits : ∀ key value, contents key = some value → key.length ≤ db.maxLength

/-- A connection to a table that is given by its rows. -/
def Connection.ofTable (table : SortedTable) : Connection where
  select := fun query => .ok ⟨table.rows.filter fun kv => query.selects kv.key, none⟩
  maxLength := 1000000000

theorem Connection.ofTable_serves {table : SortedTable}
    (hFits : ∀ kv ∈ table.rows, kv.key.length ≤ 1000000000) :
    (Connection.ofTable table).Serves table.contents where
  answers := by
    intro query
    have hSorted := table.filter_sorted fun kv => query.selects kv.key
    refine ⟨_, rfl, table.mem_filter_iff query.selects, ?_, fun _ => hSorted⟩
    exact hSorted.imp fun hLess hSame => (hSame ▸ hLess).ne rfl
  limit := (by decide : 1000000000 < 2 ^ 31)
  fits key value hStored := hFits _ ((table.contents_eq_some_iff key value).mp hStored)

/-- A stored key is bound as it is. -/
theorem Connection.Serves.bindText_stored {db : Connection} {contents : Contents}
    (h : db.Serves contents) {key value : Bytes} (hStored : contents key = some value) :
    bindText db.maxLength key = some key :=
  bindText_eq ((h.fits key value hStored).trans_lt h.limit) (h.fits key value hStored)

/-- `ScanVisitor`, called on row after row. -/
def visitRows {τ : Type} (visitor : τ → Bytes → Bytes → τ) (ctx : τ) (rows : List KVPair) : τ :=
  rows.foldl (fun ctx kv => visitor ctx kv.key kv.value) ctx

/-- The loop over the last byte, which comes first here. -/
def carry : Bytes → Bytes
  | [] => []
  | last :: bound => if last.val < 0xFF then ((last + 1) :: bound).reverse else carry bound

/-- Empty if there is no upper bound. -/
def prefixUpperBound (start : Bytes) : Bytes := carry start.reverse

/-- The database is null once it has been closed. -/
structure SQLiteBackend where
  db : Option Connection

namespace SQLiteBackend

def get (backend : SQLiteBackend) (key : Bytes) : Result (Option Bytes) :=
  match backend.db with
  | none => .error ⟨"SQLiteGet", "db is closed"⟩
  | some db =>
      match db.select (.equal (bindText db.maxLength key)) with
      | .error msg => .error ⟨"StoreGet", msg⟩
      | .ok ⟨kv :: _, _⟩ => .ok (some kv.value)
      | .ok ⟨[], none⟩ => .ok none
      | .ok ⟨[], some msg⟩ => .error ⟨"StoreGet", msg⟩

/-- All rows of a query, unless a step fails. -/
def collectRows (db : Connection) (query : Query) : Result (List KVPair) :=
  match db.select query with
  | .error msg => .error ⟨"StorePrefixScan", msg⟩
  | .ok ⟨rows, none⟩ => .ok rows
  | .ok ⟨_, some msg⟩ => .error ⟨"StorePrefixScan", msg⟩

def prefixScan (backend : SQLiteBackend) (start : Bytes) : Result (List KVPair) :=
  match backend.db with
  | none => .error ⟨"SQLiteScan", "db is closed"⟩
  | some db =>
      if start.isEmpty then collectRows db .all
      else
        let upper := prefixUpperBound start
        if upper.isEmpty then
          match db.select (.atLeast (bindText db.maxLength start)) with
          | .error msg => .error ⟨"StorePrefixScan", msg⟩
          -- Stops at the first other key; how the cursor ends is not looked at.
          | .ok cursor => .ok (cursor.rows.takeWhile fun kv => startsWith kv.key start)
        else collectRows db (.between (bindText db.maxLength start) (bindText db.maxLength upper))

/-- Each row of a query is visited, also before a step that fails. -/
def visitQuery {τ : Type} (db : Connection) (query : Query) (visitor : τ → Bytes → Bytes → τ)
    (ctx : τ) : VoidResult × τ :=
  match db.select query with
  | .error msg => (.error ⟨"StoreForeachScan", msg⟩, ctx)
  | .ok ⟨rows, none⟩ => (.ok (), visitRows visitor ctx rows)
  | .ok ⟨rows, some msg⟩ => (.error ⟨"StoreForeachScan", msg⟩, visitRows visitor ctx rows)

def foreachScan {τ : Type} (backend : SQLiteBackend) (start : Bytes)
    (visitor : τ → Bytes → Bytes → τ) (ctx : τ) : VoidResult × τ :=
  match backend.db with
  | none => (.error ⟨"SQLiteForeach", "db is closed"⟩, ctx)
  | some db =>
      if start.isEmpty then visitQuery db .all visitor ctx
      else
        let upper := prefixUpperBound start
        if upper.isEmpty then
          match db.select (.atLeast (bindText db.maxLength start)) with
          | .error msg => (.error ⟨"StoreForeachScan", msg⟩, ctx)
          | .ok cursor => (.ok (),
              visitRows visitor ctx (cursor.rows.takeWhile fun kv => startsWith kv.key start))
        else visitQuery db
          (.between (bindText db.maxLength start) (bindText db.maxLength upper)) visitor ctx

end SQLiteBackend

/-! ## The bound of a prefix -/

open PrefixRange

/-- The byte right above another one. -/
def nextByte (b : Byte) : Option Byte := if b.val < 0xFF then some (b + 1) else none

theorem nextByte_isNext : IsNext nextByte where
  lt_iff := by
    intro a b h c
    unfold nextByte at h
    split at h
    · rename_i hLess
      obtain rfl := Option.some.inj h
      have hVal : (a + 1).val = a.val + 1 := by
        rw [Fin.val_add]
        exact Nat.mod_eq_of_lt (by omega)
      rw [Fin.lt_def, Fin.le_def, hVal, Nat.lt_succ_iff]
    · cases h
  top := by
    intro a h c
    unfold nextByte at h
    split at h
    · cases h
    · rename_i hLess
      rw [Fin.le_def]
      omega

theorem upperBound_concat (start : Bytes) (last : Byte) :
    upperBound nextByte (start ++ [last]) =
      match nextByte last with
      | some next => some (start ++ [next])
      | none => upperBound nextByte start := by
  induction start with
  | nil =>
      rw [List.nil_append, upperBound, upperBound]
      cases nextByte last with
      | none => rfl
      | some next => rfl
  | cons b start ih =>
      rw [List.cons_append, upperBound, ih, upperBound]
      cases nextByte last with
      | none => rfl
      | some next => rfl

/-- The loop computes the least bound, and an empty one where there is none. -/
theorem prefixUpperBound_eq (start : Bytes) :
    prefixUpperBound start = (upperBound nextByte start).getD [] := by
  induction start using List.reverseRecOn with
  | nil => rfl
  | append_singleton start last ih =>
      rw [upperBound_concat, prefixUpperBound, List.reverse_concat, carry]
      unfold nextByte
      split
      · rw [List.reverse_cons, List.reverse_reverse]
        rfl
      · exact ih

theorem upperBound_ne_nil {start upper : Bytes} (h : upperBound nextByte start = some upper) :
    upper ≠ [] := by
  rintro rfl
  have hRange : start <+: start ↔ start ≤ start ∧ start < [] := prefix_iff_of_some nextByte_isNext h
  exact List.not_lt_nil start (hRange.mp List.prefix_rfl).2

theorem carry_eq_nil_iff {bound : Bytes} : carry bound = [] ↔ ∀ b ∈ bound, b = 255 := by
  induction bound with
  | nil => simp [carry]
  | cons last bound ih =>
      rw [carry, List.forall_mem_cons]
      split
      next hLess =>
        refine iff_of_false (by simp) ?_
        rintro ⟨rfl, _⟩
        exact absurd hLess (by decide)
      next hGreatest =>
        have hLast : last = 255 := by
          apply Fin.ext
          have hByte := last.isLt
          change last.val = 255
          omega
        rw [ih, and_iff_right hLast]

theorem prefixUpperBound_isEmpty_iff {start : Bytes} :
    (prefixUpperBound start).isEmpty = true ↔ ∀ b ∈ start, b = 255 := by
  rw [List.isEmpty_iff, prefixUpperBound, carry_eq_nil_iff]
  simp only [List.mem_reverse]

theorem carry_length_le (bound : Bytes) : (carry bound).length ≤ bound.length := by
  induction bound with
  | nil => exact Nat.le_refl _
  | cons last bound ih =>
      rw [carry]
      split
      · rw [List.length_reverse, List.length_cons, List.length_cons]
      · exact ih.trans (Nat.le_succ _)

theorem prefixUpperBound_length_le (start : Bytes) :
    (prefixUpperBound start).length ≤ start.length :=
  (carry_length_le start.reverse).trans_eq List.length_reverse

/-! ## Scans -/

namespace SQLiteBackend

/-- The query that the branch of a prefix prepares. -/
def scanQuery (db : Connection) (start : Bytes) : Query :=
  if start.isEmpty then .all
  else if (prefixUpperBound start).isEmpty then .atLeast (bindText db.maxLength start)
  else .between (bindText db.maxLength start) (bindText db.maxLength (prefixUpperBound start))

/-- A prefix that has an upper bound, or needs none. -/
def Bounded (start : Bytes) : Prop := start = [] ∨ ∃ b ∈ start, b ≠ 255

theorem not_bounded_iff {start : Bytes} :
    ¬ Bounded start ↔ start ≠ [] ∧ ∀ b ∈ start, b = 255 := by
  rw [Bounded, not_or, not_exists]
  simp only [not_and, not_not]

variable {db : Connection} {contents : Contents} {τ : Type} {start : Bytes} {rows : List KVPair}

theorem scanQuery_ordered : (scanQuery db start).ordered = true := by
  unfold scanQuery
  split
  · rfl
  · split
    · rfl
    · rfl

theorem prefixUpperBound_not_isEmpty (hBounded : Bounded start) (hNonempty : start ≠ []) :
    ¬ (prefixUpperBound start).isEmpty := by
  rw [prefixUpperBound_isEmpty_iff]
  intro hGreatest
  rcases hBounded with rfl | ⟨b, hMem, hOther⟩
  · exact hNonempty rfl
  · exact hOther (hGreatest b hMem)

/-- With a bound, all rows of the query are read, and visited if that is asked for. -/
theorem scan_bounded (hBounded : Bounded start)
    (hRows : db.select (scanQuery db start) = .ok ⟨rows, none⟩) :
    prefixScan ⟨some db⟩ start = .ok rows ∧
      ∀ (visitor : τ → Bytes → Bytes → τ) (ctx : τ),
        foreachScan ⟨some db⟩ start visitor ctx = (.ok (), visitRows visitor ctx rows) := by
  rw [scanQuery] at hRows
  by_cases hEmpty : start.isEmpty
  · rw [if_pos hEmpty] at hRows
    refine ⟨?_, fun visitor ctx => ?_⟩
    · simp only [prefixScan, hEmpty, if_true, collectRows, hRows]
    · simp only [foreachScan, hEmpty, if_true, visitQuery, hRows]
  · have hUpper : ¬ (prefixUpperBound start).isEmpty :=
      prefixUpperBound_not_isEmpty hBounded (mt List.isEmpty_iff.mpr hEmpty)
    rw [if_neg hEmpty, if_neg hUpper] at hRows
    refine ⟨?_, fun visitor ctx => ?_⟩
    · simp only [prefixScan, if_neg hEmpty, if_neg hUpper, collectRows, hRows]
    · simp only [foreachScan, if_neg hEmpty, if_neg hUpper, visitQuery, hRows]

/-- Without one, the rows up to the first one that does not start with the prefix. How the
cursor ends does not matter. -/
theorem scan_unbounded (hGreatest : ¬ Bounded start) {failure : Option String}
    (hRows : db.select (scanQuery db start) = .ok ⟨rows, failure⟩) :
    prefixScan ⟨some db⟩ start = .ok (rows.takeWhile fun kv => startsWith kv.key start) ∧
      ∀ (visitor : τ → Bytes → Bytes → τ) (ctx : τ),
        foreachScan ⟨some db⟩ start visitor ctx =
          (.ok (), visitRows visitor ctx (rows.takeWhile fun kv => startsWith kv.key start)) := by
  obtain ⟨hNonempty, hAll⟩ := not_bounded_iff.mp hGreatest
  have hEmpty : ¬ start.isEmpty := by rwa [List.isEmpty_iff]
  have hUpper : (prefixUpperBound start).isEmpty := prefixUpperBound_isEmpty_iff.mpr hAll
  rw [scanQuery, if_neg hEmpty, if_pos hUpper] at hRows
  refine ⟨?_, fun visitor ctx => ?_⟩
  · simp only [prefixScan, if_neg hEmpty, if_pos hUpper, hRows]
  · simp only [foreachScan, if_neg hEmpty, if_pos hUpper, hRows]

/-- Where the prefix is bound as it is, and with it its upper bound, the query selects what
starts with it. -/
theorem selects_iff (hSmall : start.length < 2 ^ 31) (hFits : start.length ≤ db.maxLength)
    (key : Bytes) : (scanQuery db start).selects key = true ↔ start <+: key := by
  have hLength := prefixUpperBound_length_le start
  have hUpper := prefixUpperBound_eq start
  unfold scanQuery
  rw [bindText_eq hSmall hFits,
    bindText_eq (hLength.trans_lt hSmall) (hLength.trans hFits)]
  split
  next hEmpty =>
    obtain rfl := List.isEmpty_iff.mp hEmpty
    exact iff_of_true rfl List.nil_prefix
  next hEmpty =>
    cases hBound : upperBound nextByte start with
    | none =>
        rw [hBound, Option.getD_none] at hUpper
        rw [hUpper, if_pos List.isEmpty_nil]
        exact decide_eq_true_iff.trans (prefix_iff_of_none nextByte_isNext hBound).symm
    | some upper =>
        rw [hBound, Option.getD_some] at hUpper
        rw [hUpper, if_neg (by rw [List.isEmpty_iff]; exact upperBound_ne_nil hBound)]
        rw [Query.selects, Option.any_some, Option.any_some, Bool.and_eq_true, decide_eq_true_iff,
          decide_eq_true_iff]
        exact (prefix_iff_of_some nextByte_isNext hBound).symm

/-- A prefix that is too long to be bound selects nothing. -/
theorem selects_long (hSmall : start.length < 2 ^ 31) (hLong : db.maxLength < start.length)
    (key : Bytes) : (scanQuery db start).selects key = false := by
  have hEmpty : ¬ start.isEmpty := by
    rintro hNil
    rw [List.isEmpty_iff.mp hNil] at hLong
    exact Nat.not_lt_zero _ hLong
  unfold scanQuery
  rw [if_neg hEmpty, bindText_eq_none hSmall hLong]
  split
  · rfl
  · rfl

/-- Both scans return, or visit, the pairs whose keys start with the prefix. -/
def Scans (db : Connection) (contents : Contents) (start : Bytes) : Prop :=
  ∃ rows, contents.Scanned start rows ∧ prefixScan ⟨some db⟩ start = .ok rows ∧
    ∀ (τ : Type) (visitor : τ → Bytes → Bytes → τ) (ctx : τ),
      foreachScan ⟨some db⟩ start visitor ctx = (.ok (), visitRows visitor ctx rows)

theorem scans_of_bounded (hBounded : Bounded start)
    (hRows : db.select (scanQuery db start) = .ok ⟨rows, none⟩)
    (hScanned : contents.Scanned start rows) : Scans db contents start :=
  ⟨rows, hScanned, (scan_bounded (τ := Unit) hBounded hRows).1,
    fun _ => (scan_bounded hBounded hRows).2⟩

theorem scans_of_unbounded (hGreatest : ¬ Bounded start) {failure : Option String}
    (hRows : db.select (scanQuery db start) = .ok ⟨rows, failure⟩)
    (hScanned : contents.Scanned start (rows.takeWhile fun kv => startsWith kv.key start)) :
    Scans db contents start :=
  ⟨_, hScanned, (scan_unbounded (τ := Unit) hGreatest hRows).1,
    fun _ => (scan_unbounded hGreatest hRows).2⟩

/-- No stored key is as long as a prefix that SQLite refuses. -/
theorem not_prefix_of_long (hServes : db.Serves contents) (hLong : db.maxLength < start.length)
    {key value : Bytes} (hStored : contents key = some value) : ¬ start <+: key := by
  intro hPrefix
  have hKey := hServes.fits key value hStored
  have hLength := hPrefix.length_le
  omega

/-- A prefix that SQLite takes is bound as it is. -/
theorem scans_of_fits (hServes : db.Serves contents) (hFits : start.length ≤ db.maxLength) :
    Scans db contents start := by
  obtain ⟨rows, hRows, hMem, -, hSorted⟩ := hServes.answers (scanQuery db start)
  have hLimit := hServes.limit
  have hScanned : contents.Scanned start rows :=
    ⟨fun kv => by rw [hMem, selects_iff (by omega) hFits], hSorted scanQuery_ordered⟩
  by_cases hBounded : Bounded start
  · exact scans_of_bounded hBounded hRows hScanned
  · -- No row makes the loop stop early.
    have hAll : rows.takeWhile (fun kv => startsWith kv.key start) = rows := by
      apply List.takeWhile_eq_self_iff.mpr
      intro kv hRow
      exact startsWith_iff.mpr ((hScanned.mem_iff kv).mp hRow).2
    exact scans_of_unbounded hBounded hRows (hAll.symm ▸ hScanned)

/-- Of a prefix that SQLite does not take, nothing is to be found, and nothing is. -/
theorem scans_of_long (hServes : db.Serves contents) (hLong : db.maxLength < start.length)
    (hNothing : Bounded start →
      ∀ key value, contents key = some value → (scanQuery db start).selects key = false) :
    Scans db contents start := by
  obtain ⟨rows, hRows, hMem, -, -⟩ := hServes.answers (scanQuery db start)
  have hScanned : contents.Scanned start [] := by
    refine ⟨fun kv => ?_, List.Pairwise.nil⟩
    refine iff_of_false List.not_mem_nil ?_
    rintro ⟨hStored, hPrefix⟩
    exact not_prefix_of_long hServes hLong hStored hPrefix
  by_cases hBounded : Bounded start
  · have hEmpty : rows = [] := by
      apply List.eq_nil_iff_forall_not_mem.mpr
      intro kv hRow
      obtain ⟨hStored, hSelected⟩ := (hMem kv).mp hRow
      rw [hNothing hBounded kv.key kv.value hStored] at hSelected
      cases hSelected
    rw [hEmpty] at hRows
    exact scans_of_bounded hBounded hRows hScanned
  · have hStops : rows.takeWhile (fun kv => startsWith kv.key start) = [] := by
      apply List.eq_nil_iff_forall_not_mem.mpr
      intro kv hRow
      have hStored := ((hMem kv).mp ((List.takeWhile_prefix _).subset hRow)).1
      have hStarts : startsWith kv.key start = true :=
        List.mem_takeWhile_imp (p := fun kv : KVPair => startsWith kv.key start) hRow
      exact not_prefix_of_long hServes hLong hStored (startsWith_iff.mp hStarts)
    exact scans_of_unbounded hBounded hRows (hStops.symm ▸ hScanned)

/-- The scans of a prefix bring what they should as long as the prefix is below 2^31 bytes.
What the query of a longer one selects has to be nothing, if the prefix has an upper bound. -/
theorem scans_iff_selects (hServes : db.Serves contents) (start : Bytes) :
    Scans db contents start ↔ start.length < 2 ^ 31 ∨ ¬ Bounded start ∨
      ∀ key value, contents key = some value → (scanQuery db start).selects key = false := by
  have hLimit := hServes.limit
  constructor
  · rintro ⟨rows, hScanned, hScan, -⟩
    by_cases hSmall : start.length < 2 ^ 31
    · exact .inl hSmall
    · by_cases hBounded : Bounded start
      · refine .inr (.inr fun key value hStored => ?_)
        obtain ⟨selected, hRows, hMem, -, -⟩ := hServes.answers (scanQuery db start)
        obtain rfl : rows = selected := Except.ok.inj
          (hScan.symm.trans (scan_bounded (τ := Unit) hBounded hRows).1)
        cases hSelects : (scanQuery db start).selects key with
        | false => rfl
        | true =>
            have hPrefix := ((hScanned.mem_iff ⟨key, value⟩).mp ((hMem _).mpr ⟨hStored, hSelects⟩)).2
            exact absurd hPrefix (not_prefix_of_long hServes (by omega) hStored)
      · exact .inr (.inl hBounded)
  · intro hCondition
    rcases Nat.lt_or_ge db.maxLength start.length with hLong | hFits
    · refine scans_of_long hServes hLong fun hBounded key value hStored => ?_
      rcases hCondition with hSmall | hGreatest | hAll
      · exact selects_long hSmall hLong key
      · exact absurd hBounded hGreatest
      · exact hAll key value hStored
    · exact scans_of_fits hServes hFits

/-- No stored key is between what is bound of the prefix and what is bound of its upper bound. -/
def NothingBetween (db : Connection) (contents : Contents) (start : Bytes) : Prop :=
  ∀ lower upper, bindText db.maxLength start = some lower →
    bindText db.maxLength (prefixUpperBound start) = some upper →
      ∀ key value, contents key = some value → ¬ (lower ≤ key ∧ key < upper)

theorem nothingBetween_iff (hBounded : Bounded start) (hNonempty : start ≠ []) :
    NothingBetween db contents start ↔
      ∀ key value, contents key = some value → (scanQuery db start).selects key = false := by
  have hUpper := prefixUpperBound_not_isEmpty hBounded hNonempty
  rw [scanQuery, if_neg (mt List.isEmpty_iff.mp hNonempty), if_neg hUpper, NothingBetween]
  cases bindText db.maxLength start with
  | none => simp [Query.selects]
  | some lower =>
      cases bindText db.maxLength (prefixUpperBound start) with
      | none => simp [Query.selects]
      | some upper => simp [Query.selects]

theorem scans_iff (hServes : db.Serves contents) (start : Bytes) :
    Scans db contents start ↔
      start.length < 2 ^ 31 ∨ ¬ Bounded start ∨ NothingBetween db contents start := by
  rw [scans_iff_selects hServes]
  by_cases hSmall : start.length < 2 ^ 31
  · exact iff_of_true (.inl hSmall) (.inl hSmall)
  · by_cases hBounded : Bounded start
    · have hNonempty : start ≠ [] := by
        rintro rfl
        exact hSmall (by decide)
      rw [nothingBetween_iff hBounded hNonempty]
    · exact iff_of_true (.inr (.inl hBounded)) (.inr (.inl hBounded))

end SQLiteBackend
end CelerMem
