import CelerMem.Materialization.Progress
import Mathlib

/-! Incremental materialization: Delta runs over growing snapshots, some of which
fail, end where writing the last snapshot at once would have. -/
namespace CelerMem.Materialization

open Overlay

variable {σ T : Type}

/-! ## Snapshots -/

section Snapshots
variable (key : Record T → Bytes)

/-- `snap'` has the rows of `snap`, and further ones only above all of its keys. -/
def Extends (snap snap' : List (Record T)) : Prop :=
  (snap'.filter fun rec => snap.any fun old => key rec ≤ key old) = snap

variable {key} {snap snap' : List (Record T)}

theorem Extends.subset (h : Extends key snap snap') : snap ⊆ snap' := by
  intro rec hMem
  rw [← h] at hMem
  exact (List.mem_filter.mp hMem).1

/-- Up to a key of the earlier snapshot, both have the same rows. -/
theorem Extends.filter_le (h : Extends key snap snap') {rec : Record T} (hMem : rec ∈ snap) :
    (snap'.filter fun r => key r ≤ key rec) = snap.filter fun r => key r ≤ key rec := by
  conv_rhs => rw [← h]
  rw [List.filter_filter]
  refine List.filter_congr ?_
  intro r _
  rw [Bool.eq_iff_iff, Bool.and_eq_true, List.any_eq_true]
  constructor
  · intro hLess
    exact ⟨hLess, rec, hMem, hLess⟩
  · exact And.left

variable [Codec T]

/-- A row as a write, when its value encodes. -/
def rowPair (key : Record T → Bytes) (rec : Record T) : Option (Bytes × Bytes) :=
  match Codec.encode rec.value with
  | .error _ => none
  | .ok value => some (key rec, value)

def rowPairs (key : Record T → Bytes) (rows : List (Record T)) : List (Bytes × Bytes) :=
  rows.filterMap (rowPair key)

theorem rowPair_fst {rec : Record T} {w : Bytes × Bytes} (h : rowPair key rec = some w) :
    w.1 = key rec := by
  unfold rowPair at h
  split at h
  · cases h
  · rw [← Option.some.inj h]

theorem mem_rowPairs {rows : List (Record T)} {w : Bytes × Bytes} (h : w ∈ rowPairs key rows) :
    ∃ rec ∈ rows, key rec = w.1 := by
  obtain ⟨rec, hMem, hPair⟩ := List.mem_filterMap.mp h
  exact ⟨rec, hMem, (rowPair_fst hPair).symm⟩

theorem rowPairs_subset {rows rows' : List (Record T)} (h : rows ⊆ rows') :
    rowPairs key rows ⊆ rowPairs key rows' := by
  intro w hw
  obtain ⟨rec, hMem, hPair⟩ := List.mem_filterMap.mp hw
  exact List.mem_filterMap.mpr ⟨rec, h hMem, hPair⟩

theorem filter_rowPairs (keep : Bytes → Bool) (rows : List (Record T)) :
    ((rowPairs key rows).filter fun w => keep w.1) =
      rowPairs key (rows.filter fun rec => keep (key rec)) := by
  unfold rowPairs
  rw [List.filter_filterMap, List.filterMap_filter]
  congr 1
  funext rec
  cases hPair : rowPair key rec with
  | none => cases keep (key rec) <;> rfl
  | some w =>
      rw [Option.filter_some, rowPair_fst hPair]

/-- With a total key function, a run takes the rows that Delta does not skip. -/
theorem admitted_rowPairs (key : Record T → Bytes) (mode : MaterializeMode) (deltaFloor : Bytes)
    (rows : List (Record T)) :
    (admitted (fun rec => .ok (key rec)) mode deltaFloor rows).1 <+:
        (rowPairs key rows).filter (fun w => !skips mode deltaFloor w.1) ∧
      ((admitted (fun rec => .ok (key rec)) mode deltaFloor rows).2 = none →
        (admitted (fun rec => .ok (key rec)) mode deltaFloor rows).1 =
          (rowPairs key rows).filter fun w => !skips mode deltaFloor w.1) := by
  rw [filter_rowPairs fun k => !skips mode deltaFloor k]
  unfold rowPairs
  induction rows with
  | nil => exact ⟨List.prefix_refl _, fun _ => rfl⟩
  | cons rec rows ih =>
      cases hSkip : skips mode deltaFloor (key rec) with
      | true =>
          have hRow : admitRow (fun rec => .ok (key rec)) mode deltaFloor rec = .ok none := by
            simp [admitRow, hSkip]
          rw [List.filter_cons, if_neg (by simp [hSkip]), admitted, hRow]
          exact ih
      | false =>
          rw [List.filter_cons, if_pos (by simp [hSkip]), admitted]
          cases hValue : Codec.encode rec.value with
          | error e =>
              have hRow : admitRow (fun rec => .ok (key rec)) mode deltaFloor rec = .error e := by
                simp [admitRow, hSkip, hValue]
              rw [hRow]
              exact ⟨List.nil_prefix, fun h => by cases h⟩
          | ok value =>
              have hRow : admitRow (fun rec => .ok (key rec)) mode deltaFloor rec =
                  .ok (some (key rec, value)) := by simp [admitRow, hSkip, hValue]
              have hPair : rowPair key rec = some (key rec, value) := by simp [rowPair, hValue]
              rw [hRow, List.filterMap_cons_some hPair]
              exact ⟨(List.prefix_cons_inj _).mpr ih.1, fun h => congrArg _ (ih.2 h)⟩

end Snapshots

/-! ## The greatest key -/

theorem le_greatestKey {writes : List (Bytes × Bytes)} {w : Bytes × Bytes} (h : w ∈ writes) :
    w.1 ≤ greatestKey writes := by
  induction writes using List.reverseRecOn with
  | nil => cases h
  | append_singleton writes last ih =>
      rw [greatestKey_concat]
      rcases List.mem_append.mp h with h | h
      · exact le_max_of_le_left (ih h)
      · rw [List.mem_singleton.mp h]
        exact le_max_right _ _

theorem greatestKey_mem {writes : List (Bytes × Bytes)} (h : greatestKey writes ≠ []) :
    ∃ w ∈ writes, w.1 = greatestKey writes := by
  induction writes using List.reverseRecOn with
  | nil => exact absurd rfl h
  | append_singleton writes last ih =>
      rw [greatestKey_concat] at h ⊢
      rcases max_choice (greatestKey writes) last.1 with hMax | hMax
      · rw [hMax] at h ⊢
        obtain ⟨w, hw, hSame⟩ := ih h
        exact ⟨w, List.mem_append_left _ hw, hSame⟩
      · exact ⟨last, by simp, hMax.symm⟩

theorem greatestKey_eq_nil {writes : List (Bytes × Bytes)} (hKeys : ∀ w ∈ writes, w.1 ≠ [])
    (h : greatestKey writes = []) : writes = [] := by
  cases writes with
  | nil => rfl
  | cons w writes =>
      have hLess := le_greatestKey (List.mem_cons_self (a := w) (l := writes))
      rw [h] at hLess
      have hNil : [] ≤ w.1 := not_lt.mp (List.not_lt_nil w.1)
      exact absurd (le_antisymm hLess hNil) (hKeys w List.mem_cons_self)

/-! ## What the runs keep true -/

section Invariant
variable [Codec T] {key : Record T → Bytes} {id : Bytes} {m₀ m m' : Bytes → Option Bytes}
  {snap snap' : List (Record T)}

/-- What Delta would skip under a floor. -/
def Below (deltaFloor k : Bytes) : Prop := deltaFloor ≠ [] ∧ k ≤ deltaFloor

theorem skips_delta (deltaFloor k : Bytes) : skips .delta deltaFloor k = true ↔ Below deltaFloor k := by
  simp [skips, Below]

/-- The contents `m` that runs of growing snapshots, up to `snap`, make of `m₀`. Up
to the watermark they are those of `snap`; above it, what differs from `m₀` is
under a key of `snap` and will be written again. -/
structure Synced (key : Record T → Bytes) (id : Bytes) (m₀ : Bytes → Option Bytes)
    (snap : List (Record T)) (m : Bytes → Option Bytes) : Prop where
  below : ∀ k, k ≠ watermarkKey id → Below (storedFloor .delta id m) k →
    m k = overlay m₀ (rowPairs key snap) k
  above : ∀ k, k ≠ watermarkKey id → ¬ Below (storedFloor .delta id m) k →
    k ∈ (rowPairs key snap).map Prod.fst ∨ m k = m₀ k
  mark : m (watermarkKey id) = none ∨ (storedFloor .delta id m ≠ [] ∧
    (∃ rec ∈ snap, key rec = storedFloor .delta id m) ∧
    ∃ raw w, m (watermarkKey id) = some raw ∧ decodeWatermark raw = .ok w ∧
      w.lastKey = storedFloor .delta id m)

theorem storedFloor_of_none (h : m (watermarkKey id) = none) : storedFloor .delta id m = [] := by
  simp [storedFloor, h]

theorem storedFloor_congr (h : m' (watermarkKey id) = m (watermarkKey id)) :
    storedFloor .delta id m' = storedFloor .delta id m := by
  unfold storedFloor
  rw [h]

theorem synced_start (h : m₀ (watermarkKey id) = none) : Synced key id m₀ [] m₀ where
  below _ _ hBelow := absurd (storedFloor_of_none h) hBelow.1
  above _ _ _ := Or.inr rfl
  mark := Or.inl h

theorem mem_keys_subset (h : snap ⊆ snap') {k : Bytes}
    (hk : k ∈ (rowPairs key snap).map Prod.fst) : k ∈ (rowPairs key snap').map Prod.fst := by
  obtain ⟨w, hw, rfl⟩ := List.mem_map.mp hk
  exact List.mem_map_of_mem (rowPairs_subset h hw)

/-- Below a key of the earlier snapshot, the later one writes the same. -/
theorem overlay_extends (h : Extends key snap snap') {rec : Record T} (hMem : rec ∈ snap)
    {k : Bytes} (hk : k ≤ key rec) :
    overlay m₀ (rowPairs key snap') k = overlay m₀ (rowPairs key snap) k := by
  have hKeep : decide (k ≤ key rec) = true := decide_eq_true hk
  rw [← overlay_filter (fun k => decide (k ≤ key rec)) (rowPairs key snap') hKeep,
    ← overlay_filter (fun k => decide (k ≤ key rec)) (rowPairs key snap) hKeep,
    filter_rowPairs (fun k => decide (k ≤ key rec)) snap',
    filter_rowPairs (fun k => decide (k ≤ key rec)) snap, h.filter_le hMem]

theorem Synced.extend (h : Synced key id m₀ snap m) (hExt : Extends key snap snap') :
    Synced key id m₀ snap' m where
  below := by
    intro k hk hBelow
    rcases h.mark with hNone | ⟨-, ⟨rec, hMem, hKey⟩, -⟩
    · exact absurd (storedFloor_of_none hNone) hBelow.1
    · rw [h.below k hk hBelow]
      exact (overlay_extends hExt hMem (by rw [hKey]; exact hBelow.2)).symm
  above := by
    intro k hk hAbove
    exact (h.above k hk hAbove).imp_left (mem_keys_subset hExt.subset)
  mark := by
    rcases h.mark with hNone | ⟨hSome, ⟨rec, hMem, hKey⟩, hRaw⟩
    · exact Or.inl hNone
    · exact Or.inr ⟨hSome, ⟨rec, hExt.subset hMem, hKey⟩, hRaw⟩

/-- A failed run writes only above the watermark. -/
theorem Synced.write (h : Synced key id m₀ snap m) (hKeys : ∀ rec ∈ snap, key rec ≠ watermarkKey id)
    {writes : List (Bytes × Bytes)}
    (hWrites : ∀ w ∈ writes, w ∈ rowPairs key snap ∧ ¬ Below (storedFloor .delta id m) w.1) :
    Synced key id m₀ snap (overlay m writes) := by
  have hMark : overlay m writes (watermarkKey id) = m (watermarkKey id) := by
    refine overlay_of_not_mem ?_
    intro hMem
    obtain ⟨w, hw, hSame⟩ := List.mem_map.mp hMem
    obtain ⟨rec, hRec, hKey⟩ := mem_rowPairs (hWrites w hw).1
    exact hKeys rec hRec (hKey.trans hSame)
  have hFloor := storedFloor_congr hMark
  constructor
  · intro k hk hBelow
    rw [hFloor] at hBelow
    rw [← h.below k hk hBelow]
    refine overlay_of_not_mem ?_
    intro hMem
    obtain ⟨w, hw, rfl⟩ := List.mem_map.mp hMem
    exact (hWrites w hw).2 hBelow
  · intro k hk hAbove
    rw [hFloor] at hAbove
    by_cases hMem : k ∈ writes.map Prod.fst
    · obtain ⟨w, hw, rfl⟩ := List.mem_map.mp hMem
      exact Or.inl (List.mem_map_of_mem (hWrites w hw).1)
    · rw [overlay_of_not_mem hMem]
      exact h.above k hk hAbove
  · rw [hFloor, hMark]
    exact h.mark

/-- The rows that Delta takes from a complete snapshot. -/
def freshPairs (key : Record T → Bytes) (deltaFloor : Bytes) (snap : List (Record T)) :
    List (Bytes × Bytes) :=
  (rowPairs key snap).filter fun w => !skips .delta deltaFloor w.1

/-- With all fresh rows written, the contents are those of the whole snapshot. -/
theorem Synced.overlay_fresh (h : Synced key id m₀ snap m) {k : Bytes} (hk : k ≠ watermarkKey id) :
    overlay m (freshPairs key (storedFloor .delta id m) snap) k =
      overlay m₀ (rowPairs key snap) k := by
  by_cases hBelow : Below (storedFloor .delta id m) k
  · rw [← h.below k hk hBelow]
    refine overlay_of_not_mem ?_
    intro hMem
    obtain ⟨w, hw, rfl⟩ := List.mem_map.mp hMem
    have hNot := (List.mem_filter.mp hw).2
    rw [(skips_delta _ _).mpr hBelow] at hNot
    cases hNot
  · have hKeep : (!skips .delta (storedFloor .delta id m) k) = true := by
      rw [Bool.not_eq_true', Bool.eq_false_iff]
      exact fun hSkip => hBelow ((skips_delta _ _).mp hSkip)
    rw [freshPairs, overlay_filter (fun k => !skips .delta (storedFloor .delta id m) k) _ hKeep]
    exact overlay_congr (h.above k hk hBelow)

/-- The keys of a snapshot suit the watermark: none is empty or too long to be read
back, and none is the key of the watermark itself. -/
def SuitedTo (key : Record T → Bytes) (id : Bytes) (snap : List (Record T)) : Prop :=
  ∀ rec ∈ snap, key rec ≠ [] ∧ key rec ≠ watermarkKey id ∧ (key rec).length < 256 ^ 4

/-- What a successful run over the whole snapshot establishes. -/
structure CaughtUp (key : Record T → Bytes) (id : Bytes) (m₀ : Bytes → Option Bytes)
    (snap : List (Record T)) (m : Bytes → Option Bytes) : Prop where
  synced : Synced key id m₀ snap m
  equal : ∀ k, k ≠ watermarkKey id → m k = overlay m₀ (rowPairs key snap) k
  covers : ∀ rec ∈ snap, Below (storedFloor .delta id m) (key rec)

theorem storedFloor_finished (clock : ClockReadings) {writes : List (Bytes × Bytes)}
    (hSome : greatestKey writes ≠ []) (hId : id.length < 256 ^ 4)
    (hLength : (greatestKey writes).length < 256 ^ 4) :
    finished .delta id clock writes m (watermarkKey id) =
        some (encodeWatermark ⟨id, greatestKey writes, clock.watermark⟩) ∧
      decodeWatermark (encodeWatermark ⟨id, greatestKey writes, clock.watermark⟩) =
        .ok ⟨id, greatestKey writes, clock.watermark⟩ ∧
      storedFloor .delta id (finished .delta id clock writes m) = greatestKey writes := by
  have hDecode : decodeWatermark (encodeWatermark ⟨id, greatestKey writes, clock.watermark⟩) =
      .ok ⟨id, greatestKey writes, clock.watermark⟩ := decodeWatermark_encode hId hLength
  have hMark : finished .delta id clock writes m (watermarkKey id) =
      some (encodeWatermark ⟨id, greatestKey writes, clock.watermark⟩) := by
    rw [finished, if_pos ⟨rfl, hSome⟩, Function.update_self]
  refine ⟨hMark, hDecode, ?_⟩
  unfold storedFloor
  rw [if_pos rfl, hMark]
  simp only [hDecode]

theorem Synced.finish (h : Synced key id m₀ snap m) (hSuited : SuitedTo key id snap)
    (hId : id.length < 256 ^ 4) (clock : ClockReadings)
    (hAll : ∀ rec ∈ snap, ¬ Below (storedFloor .delta id m) (key rec) →
      ∃ w ∈ freshPairs key (storedFloor .delta id m) snap, w.1 = key rec) :
    CaughtUp key id m₀ snap
      (finished .delta id clock (freshPairs key (storedFloor .delta id m) snap) m) := by
  generalize hFresh : freshPairs key (storedFloor .delta id m) snap = fresh at hAll ⊢
  have hEqual : ∀ k, k ≠ watermarkKey id → finished .delta id clock fresh m k =
      overlay m₀ (rowPairs key snap) k := by
    intro k hk
    rw [← h.overlay_fresh hk, hFresh, finished]
    split
    · exact Function.update_of_ne hk _ _
    · rfl
  have hKey : ∀ w ∈ fresh, ∃ rec ∈ snap, key rec = w.1 := by
    intro w hw
    rw [← hFresh] at hw
    exact mem_rowPairs (List.mem_filter.mp hw).1
  by_cases hSome : greatestKey fresh = []
  · have hNone : fresh = [] := by
      refine greatestKey_eq_nil ?_ hSome
      intro w hw
      obtain ⟨rec, hMem, hSame⟩ := hKey w hw
      exact hSame ▸ (hSuited rec hMem).1
    have hUnchanged : finished .delta id clock fresh m = m := by
      rw [finished, if_neg (by simp [hSome]), hNone, overlay_nil]
    rw [hUnchanged] at hEqual ⊢
    refine ⟨h, hEqual, ?_⟩
    intro rec hMem
    by_contra hAbove
    obtain ⟨w, hw, -⟩ := hAll rec hMem hAbove
    rw [hNone] at hw
    cases hw
  · obtain ⟨top, hTop, hGreatest⟩ := greatestKey_mem hSome
    obtain ⟨topRec, hTopRec, hTopKey⟩ := hKey top hTop
    have hLength : (greatestKey fresh).length < 256 ^ 4 := by
      rw [← hGreatest, ← hTopKey]
      exact (hSuited topRec hTopRec).2.2
    obtain ⟨hMark, hDecode, hFloor⟩ := storedFloor_finished (m := m) clock hSome hId hLength
    have hAbove : ¬ Below (storedFloor .delta id m) (greatestKey fresh) := by
      intro hBelow
      rw [← hFresh] at hTop
      have hNot := (List.mem_filter.mp hTop).2
      rw [hGreatest, (skips_delta _ _).mpr hBelow] at hNot
      cases hNot
    refine ⟨⟨fun k hk _ => hEqual k hk, ?_, Or.inr ⟨?_, ?_, ?_⟩⟩, hEqual, ?_⟩
    · intro k hk _
      by_cases hMem : k ∈ (rowPairs key snap).map Prod.fst
      · exact Or.inl hMem
      · exact Or.inr ((hEqual k hk).trans (overlay_of_not_mem hMem))
    · rw [hFloor]
      exact hSome
    · rw [hFloor]
      exact ⟨topRec, hTopRec, hTopKey.trans hGreatest⟩
    · rw [hFloor]
      exact ⟨_, _, hMark, hDecode, rfl⟩
    · intro rec hMem
      rw [hFloor]
      refine ⟨hSome, ?_⟩
      by_cases hBelow : Below (storedFloor .delta id m) (key rec)
      · have hLess : storedFloor .delta id m < greatestKey fresh :=
          not_le.mp fun hLe => hAbove ⟨hBelow.1, hLe⟩
        exact hBelow.2.trans hLess.le
      · obtain ⟨w, hw, hSame⟩ := hAll rec hMem hBelow
        rw [← hSame]
        exact le_greatestKey hw

end Invariant

/-! ## Runs -/

section Runs
variable [Allocation] [Codec T] (target : AtomicTarget σ) (tableName : Bytes) (key : Record T → Bytes)
  (id : Bytes)

def deltaOptions (id : Bytes) (size : ℕ) : MaterializeOptions where
  mode := .delta
  flushBatchSize := size
  watermarkId := id

/-- Delta runs from `s₀`, each on a snapshot that extends the one before. A run's
source brings the rows of its snapshot, or the first of them and then an error;
the run may also fail at any call to the target. -/
inductive DeltaRuns (s₀ : σ) : List (Record T) → σ → Prop where
  | start : DeltaRuns s₀ [] s₀
  | run {snap snap' rows : List (Record T)} {s s' : σ} {source : StreamHandle (Record T)}
      {e : Ending} {size : ℕ} {clock : ClockReadings} {r : Result MaterializeResult}
      (earlier : DeltaRuns s₀ snap s) (hExt : Extends key snap snap') (hRows : rows <+: snap')
      (hSource : Denotes source rows e) (hDone : e = .done → rows = snap')
      (hRun : materialize source (target.ref tableName) (fun rec => .ok (key rec))
        (deltaOptions id size) clock s = some (r, s')) :
      DeltaRuns s₀ snap' s'

omit [Allocation] in
theorem admitted_encodes {mode : MaterializeMode} {deltaFloor : Bytes} {rows : List (Record T)}
    (h : (admitted (fun rec => .ok (key rec)) mode deltaFloor rows).2 = none) {rec : Record T}
    (hMem : rec ∈ rows) (hSkip : skips mode deltaFloor (key rec) = false) :
    ∃ w ∈ (admitted (fun rec => .ok (key rec)) mode deltaFloor rows).1, w.1 = key rec := by
  induction rows with
  | nil => cases hMem
  | cons first rows ih =>
      rw [admitted] at h ⊢
      cases hRow : admitRow (fun rec => .ok (key rec)) mode deltaFloor first with
      | error e => simp [hRow] at h
      | ok row =>
          cases row with
          | none =>
              rw [hRow] at h
              rcases List.mem_cons.mp hMem with rfl | hMem
              · unfold admitRow at hRow
                simp only [hSkip, Bool.false_eq_true, if_false] at hRow
                split at hRow
                · cases hRow
                · cases hRow
              · exact ih h hMem
          | some w =>
              rw [hRow] at h
              rcases List.mem_cons.mp hMem with rfl | hMem
              · refine ⟨w, List.mem_cons_self, ?_⟩
                unfold admitRow at hRow
                simp only [hSkip, Bool.false_eq_true, if_false] at hRow
                split at hRow
                · cases hRow
                · rw [← Option.some.inj (Except.ok.inj hRow)]
              · obtain ⟨w', hw', hSame⟩ := ih h hMem
                exact ⟨w', List.mem_cons_of_mem w hw', hSame⟩

variable {target tableName key id}

/-- One run keeps the contents in step with its snapshot, and a successful one
brings them up to date. -/
theorem Synced.run {m₀ : Bytes → Option Bytes} {snap rows : List (Record T)} {s s' : σ}
    {source : StreamHandle (Record T)} {e : Ending} {size : ℕ} {clock : ClockReadings}
    {r : Result MaterializeResult} (h : Synced key id m₀ snap (target.contents s))
    (hSuited : SuitedTo key id snap) (hId : id.length < 256 ^ 4) (hRows : rows <+: snap)
    (hSource : Denotes source rows e) (hDone : e = .done → rows = snap)
    (hRun : materialize source (target.ref tableName) (fun rec => .ok (key rec))
      (deltaOptions id size) clock s = some (r, s')) :
    Synced key id m₀ snap (target.contents s') ∧
      ((∃ result, r = .ok result) → CaughtUp key id m₀ snap (target.contents s')) := by
  obtain ⟨r', s₁, hSome, hCase⟩ := materialize_cases target tableName (deltaOptions id size)
    (fun rec => .ok (key rec)) (Or.inr (Or.inr rfl)) hSource clock s
  obtain ⟨rfl, rfl⟩ : r' = r ∧ s₁ = s' := by
    rw [hRun, Option.some.injEq, Prod.mk.injEq] at hSome
    exact ⟨hSome.1.symm, hSome.2.symm⟩
  obtain ⟨hTaken, hTakenAll⟩ := admitted_rowPairs key .delta
    (storedFloor .delta id (target.contents s)) rows
  rcases hCase with ⟨-, hEnd, hNone, hContents⟩ | ⟨⟨err, rfl⟩, k, hContents⟩
  · obtain rfl := hDone hEnd
    have hUp := h.finish hSuited hId clock (by
      intro rec hMem hAbove
      have hSkip : skips .delta (storedFloor .delta id (target.contents s)) (key rec) = false := by
        rw [Bool.eq_false_iff]
        exact fun hSkip => hAbove ((skips_delta _ _).mp hSkip)
      obtain ⟨w, hw, hSame⟩ := admitted_encodes key hNone hMem hSkip
      exact ⟨w, hTaken.subset hw, hSame⟩)
    have hFinal : target.contents s₁ = finished .delta id clock
        (freshPairs key (storedFloor .delta id (target.contents s)) rows) (target.contents s) := by
      rw [freshPairs, ← hTakenAll hNone]
      exact hContents
    rw [hFinal]
    exact ⟨hUp.synced, fun _ => hUp⟩
  · refine ⟨?_, by rintro ⟨result, hOk⟩; cases hOk⟩
    rw [hContents]
    refine h.write (fun rec hMem => (hSuited rec hMem).2.1) ?_
    intro w hw
    have hFresh := hTaken.subset (List.mem_of_mem_take hw)
    obtain ⟨hMem, hNot⟩ := List.mem_filter.mp hFresh
    refine ⟨rowPairs_subset hRows.subset hMem, ?_⟩
    intro hBelow
    rw [(skips_delta _ _).mpr hBelow] at hNot
    cases hNot

/-- Every sequence of runs keeps the contents in step with the latest snapshot. -/
theorem DeltaRuns.synced {s₀ s : σ} {snap : List (Record T)}
    (h : DeltaRuns target tableName key id s₀ snap s) (hSuited : SuitedTo key id snap)
    (hId : id.length < 256 ^ 4) (hStart : target.contents s₀ (watermarkKey id) = none) :
    Synced key id (target.contents s₀) snap (target.contents s) := by
  induction h with
  | start => exact synced_start hStart
  | run earlier hExt hRows hSource hDone hRun ih =>
      have hBefore := ih fun rec hMem => hSuited rec (hExt.subset hMem)
      exact ((hBefore.extend hExt).run hSuited hId hRows hSource hDone hRun).1

/-- An Upsert run writes the whole snapshot. -/
theorem upsert_contents {source : StreamHandle (Record T)} {snap : List (Record T)} {size : ℕ}
    {clock : ClockReadings} {s s' : σ} {result : MaterializeResult}
    (hSource : Denotes source snap .done)
    (hRun : materialize source (target.ref tableName) (fun rec => .ok (key rec))
      { mode := .upsert, flushBatchSize := size } clock s = some (.ok result, s')) :
    target.contents s' = overlay (target.contents s) (rowPairs key snap) := by
  obtain ⟨r', s₁, hSome, hCase⟩ := materialize_cases target tableName
    { mode := .upsert, flushBatchSize := size } (fun rec => .ok (key rec)) (Or.inr (Or.inl rfl))
    hSource clock s
  obtain ⟨rfl, rfl⟩ : r' = .ok result ∧ s₁ = s' := by
    rw [hRun, Option.some.injEq, Prod.mk.injEq] at hSome
    exact ⟨hSome.1.symm, hSome.2.symm⟩
  rcases hCase with ⟨-, -, hNone, hContents⟩ | ⟨⟨err, hErr⟩, -⟩
  · have hAll := (admitted_rowPairs key .upsert [] snap).2 hNone
    have hKeep : (rowPairs key snap).filter (fun w => !skips .upsert [] w.1) = rowPairs key snap := by
      rw [List.filter_eq_self]
      intro w _
      rfl
    rw [hKeep] at hAll
    rw [hContents, ← hAll]
    rfl
  · cases hErr

end Runs

/-- After any runs over growing snapshots, some of which failed, a successful run
leaves what one Upsert of its snapshot into the initial target leaves, and a
watermark at the greatest key. -/
theorem delta_equals_rebuild [Allocation] [Codec T] {target : AtomicTarget σ} {tableName : Bytes}
    {key : Record T → Bytes} {id : Bytes} {s₀ s s' u : σ} {snap final : List (Record T)}
    {source source' : StreamHandle (Record T)} {size size' : ℕ} {clock clock' : ClockReadings}
    {result result' : MaterializeResult} (hId : id.length < 256 ^ 4)
    (hSuited : SuitedTo key id final) (hStart : target.contents s₀ (watermarkKey id) = none)
    (hRuns : DeltaRuns target tableName key id s₀ snap s) (hExt : Extends key snap final)
    (hSome : final ≠ []) (hSource : Denotes source final .done)
    (hRun : materialize source (target.ref tableName) (fun rec => .ok (key rec))
      (deltaOptions id size) clock s = some (.ok result, s'))
    (hSource' : Denotes source' final .done)
    (hUpsert : materialize source' (target.ref tableName) (fun rec => .ok (key rec))
      { mode := .upsert, flushBatchSize := size' } clock' s₀ = some (.ok result', u)) :
    (∀ k, k ≠ watermarkKey id → target.contents s' k = target.contents u k) ∧
      ∃ raw w, target.contents s' (watermarkKey id) = some raw ∧ decodeWatermark raw = .ok w ∧
        IsGreatest {k | ∃ rec ∈ final, key rec = k} w.lastKey := by
  have hBefore := hRuns.synced (fun rec hMem => hSuited rec (hExt.subset hMem)) hId hStart
  have hUp := ((hBefore.extend hExt).run hSuited hId (List.prefix_refl _) hSource
    (fun _ => rfl) hRun).2 ⟨result, rfl⟩
  constructor
  · intro k hk
    rw [hUp.equal k hk, upsert_contents hSource' hUpsert]
  · obtain ⟨first, hFirst⟩ := List.exists_mem_of_ne_nil final hSome
    have hFloor := (hUp.covers first hFirst).1
    rcases hUp.synced.mark with hNone | ⟨-, hTop, raw, w, hRaw, hDecode, hLast⟩
    · exact absurd (storedFloor_of_none hNone) hFloor
    · refine ⟨raw, w, hRaw, hDecode, ?_, ?_⟩
      · rw [hLast]
        exact hTop
      · rintro k ⟨rec, hMem, rfl⟩
        rw [hLast]
        exact (hUp.covers rec hMem).2

def emptyMemory : Memory := ⟨[], List.nodup_nil, []⟩

theorem firstRowOnly_unique : (([⟨[1], [7]⟩] : List KVPair).map KVPair.key).Nodup := by simp

/-- What the failed run below leaves: its first row, and no watermark. -/
def firstRowOnly : Memory := ⟨[⟨[1], [7]⟩], firstRowOnly_unique, []⟩

def firstRow : Record Bytes := ⟨[1], [7]⟩

def brokenSource : StreamHandle (Record Bytes) :=
  Stream.ofChunks [Chunk.singleton firstRow] (.error ⟨"Source", "broken"⟩)

theorem brokenRun : materialize brokenSource (Memory.target.ref []) (fun rec => .ok rec.key)
    (deltaOptions [9] 1) ⟨0, 0, 0⟩ emptyMemory =
      some (.error ⟨"Source", "broken"⟩, firstRowOnly) := by
  have hLoop : Loop.run (chunkTurn Memory.target.ops [] (fun rec => .ok rec.key)
      (deltaOptions [9] 1) []) (brokenSource, Job.start emptyMemory) =
        some (.error ⟨"Source", "broken"⟩, _) := (Loop.run_again rfl).trans (Loop.run_leave rfl)
  exact congrArg (Option.bind · _) hLoop

/-- A run that breaks after one row, and then a run over both rows. -/
theorem delta_equals_rebuild_after_failure :
    ∃ result s' result' u,
      materialize (Stream.fromVector twoRows) (Memory.target.ref []) (fun rec => .ok rec.key)
          (deltaOptions [9] 1) ⟨0, 5, 0⟩ firstRowOnly = some (.ok result, s') ∧
      materialize (Stream.fromVector twoRows) (Memory.target.ref []) (fun rec => .ok rec.key)
          { mode := .upsert, flushBatchSize := 2 } ⟨0, 0, 0⟩ emptyMemory = some (.ok result', u) ∧
      (∀ k, k ≠ watermarkKey [9] → Memory.target.contents s' k = Memory.target.contents u k) ∧
      ∃ raw w, Memory.target.contents s' (watermarkKey [9]) = some raw ∧
        decodeWatermark raw = .ok w ∧
          IsGreatest {k | ∃ rec ∈ twoRows, rec.key = k} w.lastKey := by
  have hLoop : Loop.run (chunkTurn Memory.target.ops [] (fun rec => .ok rec.key)
      (deltaOptions [9] 1) []) (Stream.fromVector twoRows, Job.start firstRowOnly) =
        some (.ok (), _) := (Loop.run_again rfl).trans (Loop.run_leave rfl)
  have hRun : materialize (Stream.fromVector twoRows) (Memory.target.ref [])
      (fun rec => .ok rec.key) (deltaOptions [9] 1) ⟨0, 5, 0⟩ firstRowOnly = some (.ok _, _) :=
    congrArg (Option.bind · _) hLoop
  have hLoop' : Loop.run (chunkTurn Memory.target.ops [] (fun rec => .ok rec.key)
      { mode := .upsert, flushBatchSize := 2 } []) (Stream.fromVector twoRows,
        Job.start emptyMemory) = some (.ok (), _) := (Loop.run_again rfl).trans (Loop.run_leave rfl)
  have hUpsert : materialize (Stream.fromVector twoRows) (Memory.target.ref [])
      (fun rec => .ok rec.key) { mode := .upsert, flushBatchSize := 2 } ⟨0, 0, 0⟩ emptyMemory =
        some (.ok _, _) := congrArg (Option.bind · _) hLoop'
  have hSource : Denotes (Stream.fromVector twoRows) twoRows .done :=
    Stream.fromVector_denotes (by simp [twoRows, uint32Size])
  have hBroken : Denotes brokenSource [firstRow] (.error ⟨"Source", "broken"⟩) :=
    (Stream.ofChunks_emits [Chunk.singleton firstRow] _).denotes
  have hRuns : DeltaRuns Memory.target [] Record.key [9] emptyMemory [firstRow] firstRowOnly :=
    .run .start rfl (List.prefix_refl _) hBroken (by rintro ⟨⟩) brokenRun
  have hSuited : SuitedTo Record.key [9] twoRows := by unfold SuitedTo; decide
  exact ⟨_, _, _, _, hRun, hUpsert, delta_equals_rebuild (by decide) hSuited rfl hRuns rfl
    (by decide) hSource hRun hSource hUpsert⟩

end CelerMem.Materialization
