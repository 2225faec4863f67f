import CelerMem.Library.Batches
import CelerMem.Library.Overlay
import CelerMem.Materialization.AtomicTarget

/-! What a materialization leaves behind in a target whose writes are atomic: the
rows that were taken, in whole flush batches, and the watermark last of all. -/
namespace CelerMem.Materialization

open Batches Overlay

variable {σ T : Type}

/-! ## Rows as writes -/

def putOp (tableName : Bytes) (w : Bytes × Bytes) : BatchOp := ⟨.put, tableName, w.1, some w.2⟩

theorem foldl_applyOp_puts (tableName : Bytes) (m : Bytes → Option Bytes)
    (writes : List (Bytes × Bytes)) :
    (writes.map (putOp tableName)).foldl applyOp m = overlay m writes := by
  rw [List.foldl_map]
  rfl

section Admitted
variable [Codec T] (keyfn : Record T → Result Bytes) (mode : MaterializeMode)
  (deltaFloor : Bytes)

/-- What becomes of a row: an error, nothing when Delta skips it, or a write. -/
def admitRow (rec : Record T) : Result (Option (Bytes × Bytes)) :=
  match keyfn rec with
  | .error e => .error e
  | .ok key =>
      if skips mode deltaFloor key then .ok none
      else
        match Codec.encode rec.value with
        | .error e => .error e
        | .ok value => .ok (some (key, value))

/-- The writes of the rows up to the first whose key or value fails, and that
failure. -/
def admitted : List (Record T) → List (Bytes × Bytes) × Option Error
  | [] => ([], none)
  | rec :: recs =>
      match admitRow keyfn mode deltaFloor rec with
      | .error e => ([], some e)
      | .ok none => admitted recs
      | .ok (some w) => (w :: (admitted recs).1, (admitted recs).2)

theorem admitted_append (first second : List (Record T)) :
    admitted keyfn mode deltaFloor (first ++ second) =
      match admitted keyfn mode deltaFloor first with
      | (writes, some e) => (writes, some e)
      | (writes, none) => (writes ++ (admitted keyfn mode deltaFloor second).1,
          (admitted keyfn mode deltaFloor second).2) := by
  induction first with
  | nil => rfl
  | cons rec recs ih =>
      rw [List.cons_append, admitted, admitted]
      cases hRow : admitRow keyfn mode deltaFloor rec with
      | error e => rfl
      | ok w =>
          cases w with
          | none => exact ih
          | some w =>
              rw [ih]
              cases hRest : admitted keyfn mode deltaFloor recs with
              | mk writes failure => cases failure <;> simp

/-- Rows that all get through are taken before those that follow. -/
theorem admitted_append_of_none {first : List (Record T)}
    (hNone : (admitted keyfn mode deltaFloor first).2 = none) (second : List (Record T)) :
    admitted keyfn mode deltaFloor (first ++ second) =
      ((admitted keyfn mode deltaFloor first).1 ++ (admitted keyfn mode deltaFloor second).1,
        (admitted keyfn mode deltaFloor second).2) := by
  rw [admitted_append]
  cases hFirst : admitted keyfn mode deltaFloor first with
  | mk writes failure =>
      rw [hFirst] at hNone
      obtain rfl : failure = none := hNone
      rfl

theorem writeRow_eq (ops : TargetOps σ) (tableName : Bytes) (opts : MaterializeOptions)
    (rec : Record T) (job : Job σ) :
    writeRow ops tableName keyfn opts deltaFloor rec job =
      match admitRow keyfn opts.mode deltaFloor rec with
      | .error e => (.error e, job.countIn)
      | .ok none => (.ok (), job.countIn)
      | .ok (some (key, value)) =>
          if opts.flushBatchSize ≤ (job.countIn.push tableName key value).pending.length then
            flush ops opts.mode (job.countIn.push tableName key value)
          else (.ok (), job.countIn.push tableName key value) := by
  unfold writeRow admitRow
  cases keyfn rec with
  | error e => rfl
  | ok key =>
      cases hSkip : skips opts.mode deltaFloor key with
      | true => simp [hSkip]
      | false => cases Codec.encode rec.value <;> simp [hSkip]

end Admitted

/-! ## The invariant of the write loop -/

/-- The greatest key written, and the empty one when there is none. -/
def greatestKey (writes : List (Bytes × Bytes)) : Bytes :=
  writes.foldl (fun last w => max last w.1) []

theorem greatestKey_concat (writes : List (Bytes × Bytes)) (w : Bytes × Bytes) :
    greatestKey (writes ++ [w]) = max (greatestKey writes) w.1 := by
  simp [greatestKey]

section Job
variable (target : AtomicTarget σ) (tableName : Bytes) (base : Bytes → Option Bytes) (n : ℕ)

/-- After taking `writes`: whole batches of `n` are in the target, the rest is
pending, and the running result counts all of them. -/
structure Taken (writes : List (Bytes × Bytes)) (job : Job σ) : Prop where
  whole : job.result.metrics.flushes * n ≤ writes.length
  short : writes.length < job.result.metrics.flushes * n + n
  pending : job.pending =
    (writes.drop (job.result.metrics.flushes * n)).map (putOp tableName)
  contents : target.contents job.target =
    overlay base (writes.take (job.result.metrics.flushes * n))
  lastKey : job.result.lastKey = greatestKey writes
  rowsOut : job.result.metrics.rowsOut = writes.length

/-- A run that broke off while taking `writes`. -/
def Stopped (writes : List (Bytes × Bytes)) (s : σ) : Prop :=
  ∃ k, k * n ≤ writes.length ∧ target.contents s = overlay base (writes.take (k * n))

variable {target tableName base n}

theorem Stopped.append {writes : List (Bytes × Bytes)} {s : σ}
    (h : Stopped target base n writes s) (more : List (Bytes × Bytes)) :
    Stopped target base n (writes ++ more) s := by
  obtain ⟨k, hLength, hContents⟩ := h
  refine ⟨k, ?_, ?_⟩
  · rw [List.length_append]
    omega
  · rw [List.take_append_of_le_length hLength, hContents]

theorem Taken.stopped {writes : List (Bytes × Bytes)} {job : Job σ}
    (h : Taken target tableName base n writes job) : Stopped target base n writes job.target :=
  ⟨_, h.whole, h.contents⟩

theorem Taken.countIn {writes : List (Bytes × Bytes)} {job : Job σ}
    (h : Taken target tableName base n writes job) :
    Taken target tableName base n writes job.countIn :=
  ⟨h.whole, h.short, h.pending, h.contents, h.lastKey, h.rowsOut⟩

theorem taken_start (target : AtomicTarget σ) (tableName : Bytes) {s : σ} (hn : 0 < n)
    (hBase : target.contents s = base) : Taken target tableName base n [] (Job.start s) :=
  ⟨by simp [Job.start], by simpa [Job.start] using hn, by simp [Job.start],
    by simpa [Job.start] using hBase, rfl, rfl⟩

/-- Taken, but for the batch that has just become full. -/
theorem Taken.push {writes : List (Bytes × Bytes)} {job : Job σ}
    (h : Taken target tableName base n writes job) (w : Bytes × Bytes) :
    (job.push tableName w.1 w.2).pending =
        ((writes ++ [w]).drop (job.result.metrics.flushes * n)).map (putOp tableName) ∧
      (job.push tableName w.1 w.2).result.lastKey = greatestKey (writes ++ [w]) ∧
      (job.push tableName w.1 w.2).result.metrics.rowsOut = (writes ++ [w]).length := by
  refine ⟨?_, ?_, ?_⟩
  · rw [List.drop_append_of_le_length h.whole, List.map_append, ← h.pending]
    rfl
  · rw [greatestKey_concat, ← h.lastKey]
    by_cases hLess : job.result.lastKey < w.1
    · rw [max_eq_right hLess.le]
      exact if_pos hLess
    · rw [max_eq_left (not_lt.mp hLess)]
      exact if_neg hLess
  · rw [List.length_append, ← h.rowsOut]
    rfl

/-- A flush writes what is pending or fails without effect. -/
theorem flush_cases (target : AtomicTarget σ) {mode : MaterializeMode} (hMode : mode ≠ .dryRun) {job : Job σ}
    {held : List (Bytes × Bytes)} (hPending : job.pending = held.map (putOp tableName))
    (hSome : held ≠ []) :
    (∃ s, flush target.ops mode job = (.ok (), job.flushed s) ∧
        target.contents s = overlay (target.contents job.target) held) ∨
      ∃ e s, flush target.ops mode job = (.error e, { job with target := s }) ∧
        target.contents s = target.contents job.target := by
  have hFull : job.pending.isEmpty = false := by
    rw [hPending]
    simpa using hSome
  rcases target.batch_law job.pending job.target with ⟨hOk, hContents⟩ | ⟨⟨e, hError⟩, hContents⟩
  · left
    have hBatch : target.ops.batch job.pending job.target =
        (.ok (), (target.ops.batch job.pending job.target).2) := Prod.ext hOk rfl
    refine ⟨(target.ops.batch job.pending job.target).2, ?_, ?_⟩
    · exact (if_neg (by simp [hFull])).trans ((if_neg hMode).trans (by rw [hBatch]))
    · rw [hContents, hPending, foldl_applyOp_puts]
  · right
    have hBatch : target.ops.batch job.pending job.target =
        (.error e, (target.ops.batch job.pending job.target).2) := Prod.ext hError rfl
    refine ⟨e, (target.ops.batch job.pending job.target).2, ?_, hContents⟩
    exact (if_neg (by simp [hFull])).trans ((if_neg hMode).trans (by rw [hBatch]))

end Job

section Run
variable {target : AtomicTarget σ} {tableName : Bytes} {base : Bytes → Option Bytes}
  {opts : MaterializeOptions}

/-- How many rows a flush writes; with a size of zero every row is flushed. -/
def MaterializeOptions.rowsPerFlush (opts : MaterializeOptions) : ℕ := max 1 opts.flushBatchSize

theorem taken_push (hMode : opts.mode ≠ .dryRun) {writes : List (Bytes × Bytes)} {job : Job σ}
    (h : Taken target tableName base opts.rowsPerFlush writes job) (w : Bytes × Bytes) :
    ∃ r job', (if opts.flushBatchSize ≤ (job.push tableName w.1 w.2).pending.length then
        flush target.ops opts.mode (job.push tableName w.1 w.2)
      else (.ok (), job.push tableName w.1 w.2)) = (r, job') ∧
      (r = .ok () ∧ Taken target tableName base opts.rowsPerFlush (writes ++ [w]) job' ∨
        (∃ e, r = .error e) ∧
          Stopped target base opts.rowsPerFlush (writes ++ [w]) job'.target) := by
  obtain ⟨hPending, hLast, hRows⟩ := h.push w
  have hWhole := h.whole
  have hShort := h.short
  have hLength : (job.push tableName w.1 w.2).pending.length =
      writes.length + 1 - job.result.metrics.flushes * opts.rowsPerFlush := by
    rw [hPending, List.length_map, List.length_drop, List.length_append]
    rfl
  have hTake : (writes ++ [w]).take (job.result.metrics.flushes * opts.rowsPerFlush) =
      writes.take (job.result.metrics.flushes * opts.rowsPerFlush) :=
    List.take_append_of_le_length hWhole
  by_cases hFull : opts.flushBatchSize ≤ (job.push tableName w.1 w.2).pending.length
  · rw [if_pos hFull]
    have hNext : writes.length + 1 =
        (job.result.metrics.flushes + 1) * opts.rowsPerFlush := by
      have hMax : opts.rowsPerFlush ≤ (job.push tableName w.1 w.2).pending.length := by
        refine Nat.max_le.mpr ⟨?_, hFull⟩
        rw [hLength]
        omega
      rw [Nat.succ_mul]
      omega
    have hSome : (writes ++ [w]).drop
        (job.result.metrics.flushes * opts.rowsPerFlush) ≠ [] := by
      rw [Ne, List.drop_eq_nil_iff, List.length_append, List.length_singleton]
      omega
    rcases flush_cases target hMode hPending hSome with
      ⟨s, hFlush, hContents⟩ | ⟨e, s, hFlush, hContents⟩
    · refine ⟨_, _, hFlush, Or.inl ⟨rfl, ?_⟩⟩
      have hAll : (writes ++ [w]).length = (job.result.metrics.flushes + 1) * opts.rowsPerFlush := by
        rw [← hNext, List.length_append, List.length_singleton]
      refine ⟨hAll.ge, ?_, ?_, ?_, hLast, hRows⟩
      · exact hAll.trans_lt (Nat.lt_add_of_pos_right (Nat.le_max_left 1 _))
      · exact (List.map_eq_nil_iff.mpr (List.drop_eq_nil_of_le hAll.le)).symm
      · change target.contents s = overlay base ((writes ++ [w]).take
          ((job.result.metrics.flushes + 1) * opts.rowsPerFlush))
        rw [List.take_of_length_le hAll.le, hContents]
        change overlay (target.contents job.target) _ = _
        rw [h.contents, ← hTake, ← overlay_append, List.take_append_drop]
    · refine ⟨_, _, hFlush, Or.inr ⟨⟨e, rfl⟩, ?_⟩⟩
      obtain ⟨k, hk, hStopped⟩ := h.stopped.append [w]
      exact ⟨k, hk, hContents.trans hStopped⟩
  · rw [if_neg hFull]
    refine ⟨_, _, rfl, Or.inl ⟨rfl, ?_, ?_, hPending, ?_, hLast, hRows⟩⟩
    · rw [List.length_append]
      exact Nat.le_add_right_of_le hWhole
    · rw [List.length_append, List.length_singleton]
      have hLess : opts.flushBatchSize ≤ opts.rowsPerFlush := Nat.le_max_right 1 _
      change writes.length + 1 < job.result.metrics.flushes * opts.rowsPerFlush + _
      omega
    · exact h.contents.trans (by rw [← hTake]; rfl)

variable [Codec T] (keyfn : Record T → Result Bytes) (deltaFloor : Bytes)

theorem writeRows_taken (hMode : opts.mode ≠ .dryRun) (recs : List (Record T))
    {writes : List (Bytes × Bytes)} {job : Job σ}
    (h : Taken target tableName base opts.rowsPerFlush writes job) :
    ∃ r job', writeRows target.ops tableName keyfn opts deltaFloor recs job = (r, job') ∧
      (r = .ok () ∧ (admitted keyfn opts.mode deltaFloor recs).2 = none ∧
          Taken target tableName base opts.rowsPerFlush
            (writes ++ (admitted keyfn opts.mode deltaFloor recs).1) job' ∨
        (∃ e, r = .error e) ∧ Stopped target base opts.rowsPerFlush
          (writes ++ (admitted keyfn opts.mode deltaFloor recs).1) job'.target) := by
  induction recs generalizing writes job with
  | nil => exact ⟨.ok (), job, rfl, Or.inl ⟨rfl, rfl, by simpa [admitted] using h⟩⟩
  | cons rec recs ih =>
      rw [writeRows, writeRow_eq, admitted]
      cases hRow : admitRow keyfn opts.mode deltaFloor rec with
      | error e =>
          refine ⟨.error e, job.countIn, rfl, Or.inr ⟨⟨e, rfl⟩, ?_⟩⟩
          exact h.stopped.append []
      | ok admittedRow =>
          cases admittedRow with
          | none => exact ih h.countIn
          | some w =>
              obtain ⟨r, job', hStep, hCase⟩ := taken_push hMode h.countIn w
              simp only
              rw [hStep]
              rcases hCase with ⟨rfl, hTaken⟩ | ⟨⟨e, rfl⟩, hStopped⟩
              · have hRest := ih hTaken
                rw [List.append_assoc] at hRest
                exact hRest
              · refine ⟨.error e, job', rfl, Or.inr ⟨⟨e, rfl⟩, ?_⟩⟩
                have hAll := hStopped.append (admitted keyfn opts.mode deltaFloor recs).1
                rwa [List.append_assoc] at hAll

/-- The loop returns, with every row of the source taken or broken off somewhere. -/
theorem chunkTurn_run (hMode : opts.mode ≠ .dryRun) {source : StreamHandle (Record T)}
    {rows : List (Record T)} {e : Ending} (hSource : Denotes source rows e)
    {writes : List (Bytes × Bytes)} {job : Job σ}
    (h : Taken target tableName base opts.rowsPerFlush writes job) :
    ∃ r job', Loop.run (chunkTurn target.ops tableName keyfn opts deltaFloor) (source, job) =
        some (r, job') ∧
      (r = .ok () ∧ e = .done ∧ (admitted keyfn opts.mode deltaFloor rows).2 = none ∧
          Taken target tableName base opts.rowsPerFlush
            (writes ++ (admitted keyfn opts.mode deltaFloor rows).1) job' ∨
        (∃ e, r = .error e) ∧ Stopped target base opts.rowsPerFlush
          (writes ++ (admitted keyfn opts.mode deltaFloor rows).1) job'.target) := by
  induction hSource generalizing writes job with
  | done hPull =>
      refine ⟨.ok (), job, Loop.run_leave (by simp [chunkTurn, hPull]), Or.inl ⟨rfl, rfl, rfl, ?_⟩⟩
      simpa [admitted] using h
  | @error _ _ e hPull =>
      refine ⟨.error e, job, Loop.run_leave (by simp [chunkTurn, hPull]), Or.inr ⟨⟨e, rfl⟩, ?_⟩⟩
      exact h.stopped.append []
  | @chunk src next c rows _ hPull hRest ih =>
      obtain ⟨r, job', hRows, hCase⟩ :=
        writeRows_taken keyfn deltaFloor hMode c.toList h
      rcases hCase with ⟨rfl, hNone, hTaken⟩ | ⟨⟨e, rfl⟩, hStopped⟩
      · have hTurn : chunkTurn target.ops tableName keyfn opts deltaFloor (src, job) =
            some (.again (next, job')) := by
          simp only [chunkTurn, hPull, Option.bind_eq_bind, Option.bind_some, hRows]
        obtain ⟨r, job'', hRun, hEnd⟩ := ih hTaken
        rw [Loop.run_again hTurn]
        refine ⟨r, job'', hRun, ?_⟩
        rw [List.append_assoc] at hEnd
        rw [admitted_append_of_none keyfn opts.mode deltaFloor hNone]
        exact hEnd
      · have hTurn : chunkTurn target.ops tableName keyfn opts deltaFloor (src, job) =
            some (.leave (.error e, job')) := by
          simp only [chunkTurn, hPull, Option.bind_eq_bind, Option.bind_some, hRows]
        refine ⟨.error e, job', Loop.run_leave hTurn, Or.inr ⟨⟨e, rfl⟩, ?_⟩⟩
        rw [admitted_append]
        cases hFirst : admitted keyfn opts.mode deltaFloor c.toList with
        | mk first failure =>
            rw [hFirst] at hStopped
            cases failure with
            | some e => exact hStopped
            | none =>
                have hAll := hStopped.append (admitted keyfn opts.mode deltaFloor rows).1
                rwa [List.append_assoc] at hAll

/-- The last flush writes what is still pending. -/
theorem flush_taken (hMode : opts.mode ≠ .dryRun) {writes : List (Bytes × Bytes)} {job : Job σ}
    (h : Taken target tableName base opts.rowsPerFlush writes job) :
    ∃ r job', flush target.ops opts.mode job = (r, job') ∧
      (r = .ok () ∧ target.contents job'.target = overlay base writes ∧
          job'.result.lastKey = greatestKey writes ∧
          job'.result.metrics.rowsOut = writes.length ∨
        (∃ e, r = .error e) ∧ Stopped target base opts.rowsPerFlush writes job'.target) := by
  by_cases hHeld : writes.drop (job.result.metrics.flushes * opts.rowsPerFlush) = []
  · have hEmpty : job.pending = [] := by rw [h.pending, hHeld, List.map_nil]
    have hAll := List.drop_eq_nil_iff.mp hHeld
    refine ⟨.ok (), job, by simp [flush, hEmpty], Or.inl ⟨rfl, ?_, h.lastKey, h.rowsOut⟩⟩
    rw [h.contents, List.take_of_length_le hAll]
  · rcases flush_cases target hMode h.pending hHeld with
      ⟨s, hFlush, hContents⟩ | ⟨e, s, hFlush, hContents⟩
    · refine ⟨_, _, hFlush, Or.inl ⟨rfl, ?_, h.lastKey, h.rowsOut⟩⟩
      change target.contents s = _
      rw [hContents, h.contents, ← overlay_append, List.take_append_drop]
    · refine ⟨_, _, hFlush, Or.inr ⟨⟨e, rfl⟩, ?_⟩⟩
      obtain ⟨k, hk, hStopped⟩ := h.stopped
      exact ⟨k, hk, hContents.trans hStopped⟩

end Run

/-! ## Whole runs -/

section Whole
variable (target : AtomicTarget σ) (tableName : Bytes) (opts : MaterializeOptions)

def AtomicTarget.ref (target : AtomicTarget σ) (tableName : Bytes) : TargetRef σ :=
  ⟨some target.ops, tableName⟩

/-- The watermark's last key as the contents have it. -/
def storedFloor (mode : MaterializeMode) (id : Bytes) (m : Bytes → Option Bytes) : Bytes :=
  if mode = .delta then
    match m (watermarkKey id) with
    | none => []
    | some raw =>
        match decodeWatermark raw with
        | .error _ => []
        | .ok rec => rec.lastKey
  else []

theorem readFloor_cases (s : σ) : target.contents (readFloor target.ops opts s).2 =
      target.contents s ∧
    ((readFloor target.ops opts s).1 = .ok (storedFloor opts.mode opts.watermarkId (target.contents s)) ∨
      ∃ e, (readFloor target.ops opts s).1 = .error e) := by
  unfold readFloor storedFloor
  by_cases hMode : opts.mode = .delta
  · rw [if_pos hMode, if_pos hMode]
    by_cases hId : opts.watermarkId.isEmpty = true
    · rw [if_pos hId]
      exact ⟨rfl, Or.inr ⟨_, rfl⟩⟩
    · rw [if_neg hId]
      obtain ⟨hSame, hGet⟩ := target.get_law (watermarkKey opts.watermarkId) s
      cases hCall : target.ops.get (watermarkKey opts.watermarkId) s with
      | mk r s' =>
          rw [hCall] at hSame hGet
          rcases hGet with hOk | ⟨e, hError⟩
          · obtain rfl : r = .ok (target.contents s (watermarkKey opts.watermarkId)) := hOk
            cases hRaw : target.contents s (watermarkKey opts.watermarkId) with
            | none => exact ⟨hSame, Or.inl rfl⟩
            | some raw =>
                cases hRec : decodeWatermark raw with
                | error e => simpa [hRec] using hSame
                | ok rec => simpa [hRec] using hSame
          · obtain rfl : r = .error e := hError
            exact ⟨hSame, Or.inr ⟨e, rfl⟩⟩
  · rw [if_neg hMode, if_neg hMode]
    exact ⟨rfl, Or.inl rfl⟩

/-- The contents after a run that took `writes` and succeeded. -/
def finished (mode : MaterializeMode) (id : Bytes) (clock : ClockReadings)
    (writes : List (Bytes × Bytes)) (m : Bytes → Option Bytes) : Bytes → Option Bytes :=
  if mode = .delta ∧ greatestKey writes ≠ [] then
    Function.update (overlay m writes) (watermarkKey id)
      (some (encodeWatermark ⟨id, greatestKey writes, clock.watermark⟩))
  else overlay m writes

theorem advanceWatermark_cases (clock : ClockReadings) {writes : List (Bytes × Bytes)}
    {m : Bytes → Option Bytes} {s : σ} (h : target.contents s = overlay m writes) :
    ∃ r s', advanceWatermark target.ops opts clock (greatestKey writes) s = (r, s') ∧
      (r = .ok () ∧ target.contents s' = finished opts.mode opts.watermarkId clock writes m ∨
        (∃ e, r = .error e) ∧ target.contents s' = overlay m writes) := by
  unfold advanceWatermark finished
  by_cases hAdvance : opts.mode = .delta ∧ greatestKey writes ≠ []
  · rw [if_pos hAdvance, if_pos hAdvance, ← h]
    exact ⟨_, _, rfl, target.put_law _ _ s⟩
  · rw [if_neg hAdvance, if_neg hAdvance]
    exact ⟨_, _, rfl, Or.inl ⟨rfl, h⟩⟩

variable [Allocation] [Codec T] (keyfn : Record T → Result Bytes)

omit [Allocation] in
/-- The rows that a run takes from what is in the target before it. -/
def takenRows (m : Bytes → Option Bytes) (rows : List (Record T)) : List (Bytes × Bytes) :=
  (admitted keyfn opts.mode (storedFloor opts.mode opts.watermarkId m) rows).1

/-- Every run returns. A successful one has taken all rows and then advanced the
watermark, a failed one has written whole batches of the rows at most. -/
theorem materialize_cases (hMode : opts.mode = .append ∨ opts.mode = .upsert ∨ opts.mode = .delta)
    {source : StreamHandle (Record T)} {rows : List (Record T)} {e : Ending}
    (hSource : Denotes source rows e) (clock : ClockReadings) (s : σ) :
    ∃ r s', materialize source (target.ref tableName) keyfn opts clock s = some (r, s') ∧
      ((∃ result, r = .ok result ∧ result.lastKey =
              greatestKey (takenRows opts keyfn (target.contents s) rows) ∧
            result.rowsWritten = (takenRows opts keyfn (target.contents s) rows).length) ∧
          e = .done ∧ (admitted keyfn opts.mode (storedFloor opts.mode opts.watermarkId (target.contents s)) rows).2 = none ∧
          target.contents s' = finished opts.mode opts.watermarkId clock
            (takenRows opts keyfn (target.contents s) rows) (target.contents s) ∨
        (∃ err, r = .error err) ∧ ∃ k, target.contents s' = overlay (target.contents s)
          ((takenRows opts keyfn (target.contents s) rows).take (k * opts.rowsPerFlush))) := by
  have hDry : opts.mode ≠ .dryRun := by
    rcases hMode with h | h | h <;> simp [h]
  have hClear : clearPrefix target.ops tableName opts s = (.ok (), s) := by
    rcases hMode with h | h | h <;> simp [clearPrefix, h]
  obtain ⟨hFloor, hRead⟩ := readFloor_cases target opts s
  cases hCall : readFloor target.ops opts s with
  | mk floor s₁ =>
      rw [hCall] at hFloor hRead
      rcases hRead with hOk | ⟨err, hError⟩
      · obtain rfl : floor = .ok (storedFloor opts.mode opts.watermarkId (target.contents s)) := hOk
        change target.contents s₁ = target.contents s at hFloor
        have hPos : 0 < opts.rowsPerFlush := Nat.le_max_left 1 _
        cases hRoom : reserveFlush opts.flushBatchSize with
        | error err =>
            refine ⟨.error err, s₁, ?_, Or.inr ⟨⟨err, rfl⟩, 0, ?_⟩⟩
            · simp only [materialize, AtomicTarget.ref, hClear, hCall, hRoom]
            · simpa using hFloor
        | ok =>
        obtain ⟨r₂, job₂, hRun, hTaken⟩ := chunkTurn_run keyfn
          (storedFloor opts.mode opts.watermarkId (target.contents s)) hDry hSource
          (taken_start target tableName hPos hFloor)
        rw [List.nil_append] at hTaken
        rcases hTaken with ⟨rfl, hEnd, hNone, hTaken⟩ | ⟨⟨err, rfl⟩, k, -, hStopped⟩
        · obtain ⟨r₃, job₃, hFlush, hFlushed⟩ := flush_taken hDry hTaken
          rcases hFlushed with ⟨rfl, hContents, hLast, hRows⟩ | ⟨⟨err, rfl⟩, k, -, hStopped⟩
          · obtain ⟨r₄, s₄, hAdvance, hFinal⟩ :=
              advanceWatermark_cases target opts clock hContents
            rw [← hLast] at hAdvance
            rcases hFinal with ⟨rfl, hFinal⟩ | ⟨⟨err, rfl⟩, hFinal⟩
            · refine ⟨.ok (job₃.report clock), s₄, ?_,
                Or.inl ⟨⟨_, rfl, hLast, hRows⟩, hEnd, hNone, hFinal⟩⟩
              simp only [materialize, AtomicTarget.ref, hClear, hCall, hRoom, hRun, hFlush, hAdvance,
                Option.bind_eq_bind, Option.bind_some]
            · refine ⟨.error err, s₄, ?_, Or.inr ⟨⟨err, rfl⟩,
                (takenRows opts keyfn (target.contents s) rows).length, ?_⟩⟩
              · simp only [materialize, AtomicTarget.ref, hClear, hCall, hRoom, hRun, hFlush, hAdvance,
                  Option.bind_eq_bind, Option.bind_some]
              · rw [List.take_of_length_le (Nat.le_mul_of_pos_right _ hPos)]
                exact hFinal
          · refine ⟨.error err, job₃.target, ?_, Or.inr ⟨⟨err, rfl⟩, k, hStopped⟩⟩
            simp only [materialize, AtomicTarget.ref, hClear, hCall, hRoom, hRun, hFlush,
              Option.bind_eq_bind, Option.bind_some]
        · refine ⟨.error err, job₂.target, ?_, Or.inr ⟨⟨err, rfl⟩, k, hStopped⟩⟩
          simp only [materialize, AtomicTarget.ref, hClear, hCall, hRoom, hRun, Option.bind_eq_bind,
            Option.bind_some]
      · obtain rfl : floor = .error err := hError
        refine ⟨.error err, s₁, ?_, Or.inr ⟨⟨err, rfl⟩, 0, ?_⟩⟩
        · simp only [materialize, AtomicTarget.ref, hClear, hCall]
        · simpa using hFloor

end Whole

/-! ## Failed and repeated runs -/

/-- Equal contents, up to the timestamp of one watermark. -/
def SameUpToTimestamp (id : Bytes) (m m' : Bytes → Option Bytes) : Prop :=
  (∀ k, k ≠ watermarkKey id → m k = m' k) ∧
    (m (watermarkKey id) = m' (watermarkKey id) ∨ ∃ lastKey time time',
      m (watermarkKey id) = some (encodeWatermark ⟨id, lastKey, time⟩) ∧
        m' (watermarkKey id) = some (encodeWatermark ⟨id, lastKey, time'⟩))

theorem finished_sameUpToTimestamp (mode : MaterializeMode) (id : Bytes)
    (clock clock' : ClockReadings)
    {writes : List (Bytes × Bytes)} {m m' : Bytes → Option Bytes}
    (h : overlay m writes = overlay m' writes) :
    SameUpToTimestamp id (finished mode id clock writes m) (finished mode id clock' writes m') := by
  unfold finished
  by_cases hAdvance : mode = .delta ∧ greatestKey writes ≠ []
  · rw [if_pos hAdvance, if_pos hAdvance, h]
    constructor
    · intro k hk
      rw [Function.update_of_ne hk, Function.update_of_ne hk]
    · right
      refine ⟨greatestKey writes, clock.watermark, clock'.watermark, ?_, ?_⟩
      · exact Function.update_self _ _ _
      · exact Function.update_self _ _ _
  · rw [if_neg hAdvance, if_neg hAdvance, h]
    exact ⟨fun _ _ => rfl, Or.inl rfl⟩

section Again
variable [Codec T] (keyfn : Record T → Result Bytes) (mode : MaterializeMode)
  (deltaFloor : Bytes)

/-- Every write is the row of some key. -/
theorem mem_admitted {rows : List (Record T)} {w : Bytes × Bytes}
    (h : w ∈ (admitted keyfn mode deltaFloor rows).1) : ∃ rec ∈ rows, keyfn rec = .ok w.1 ∧
      skips mode deltaFloor w.1 = false ∧ Codec.encode rec.value = .ok w.2 := by
  induction rows with
  | nil => cases h
  | cons rec recs ih =>
      rw [admitted] at h
      cases hRow : admitRow keyfn mode deltaFloor rec with
      | error e => simp [hRow] at h
      | ok admittedRow =>
          cases admittedRow with
          | none =>
              obtain ⟨rec', hMem, hRest⟩ := ih (by simpa [hRow] using h)
              exact ⟨rec', List.mem_cons_of_mem rec hMem, hRest⟩
          | some first =>
              rw [hRow] at h
              rcases List.mem_cons.mp h with rfl | h
              · refine ⟨rec, List.mem_cons_self, ?_⟩
                unfold admitRow at hRow
                cases hKey : keyfn rec with
                | error e => simp [hKey] at hRow
                | ok key =>
                    cases hSkip : skips mode deltaFloor key with
                    | true => simp [hKey, hSkip] at hRow
                    | false =>
                        cases hValue : Codec.encode rec.value with
                        | error e => simp [hKey, hSkip, hValue] at hRow
                        | ok value =>
                            have hw : (key, value) = w := by simpa [hKey, hSkip, hValue] using hRow
                            rw [← hw]
                            exact ⟨rfl, hSkip, rfl⟩
              · obtain ⟨rec', hMem, hRest⟩ := ih h
                exact ⟨rec', List.mem_cons_of_mem rec hMem, hRest⟩

/-- The rows taken from part of a source are the first ones taken from all of it. -/
theorem admitted_isPrefix {rows full : List (Record T)} (h : rows <+: full) :
    (admitted keyfn mode deltaFloor rows).1 <+: (admitted keyfn mode deltaFloor full).1 := by
  obtain ⟨more, rfl⟩ := h
  rw [admitted_append]
  cases admitted keyfn mode deltaFloor rows with
  | mk writes failure =>
      cases failure with
      | none => exact List.prefix_append _ _
      | some e => exact List.prefix_refl _

end Again

/-- A failed run leaves whole flush batches of its rows and the old watermark; a
later run that gets through the complete source ends where one run would have. -/
theorem materialize_progress [Allocation] [Codec T] (target : AtomicTarget σ) (tableName : Bytes)
    (keyfn : Record T → Result Bytes) (opts : MaterializeOptions)
    (hMode : opts.mode = .append ∨ opts.mode = .upsert ∨ opts.mode = .delta)
    {source : StreamHandle (Record T)} {rows full : List (Record T)} {e : Ending}
    (hSource : Denotes source rows e) (hFull : rows <+: full)
    (hKeys : ∀ rec ∈ full, keyfn rec ≠ .ok (watermarkKey opts.watermarkId))
    (clock : ClockReadings) (s : σ) :
    ∃ r s', materialize source (target.ref tableName) keyfn opts clock s = some (r, s') ∧
      ((∃ err, r = .error err) →
        (∃ k, target.contents s' = overlay (target.contents s)
          ((batches opts.rowsPerFlush
            (takenRows opts keyfn (target.contents s) rows)).take k).flatten) ∧
        target.contents s' (watermarkKey opts.watermarkId) =
          target.contents s (watermarkKey opts.watermarkId) ∧
        ∀ later once : StreamHandle (Record T), Denotes later full .done →
          Denotes once full .done → ∀ size size' clock₁ clock₂ result₁ result₂ s₁ s₂,
          materialize later (target.ref tableName) keyfn { opts with flushBatchSize := size }
              clock₁ s' = some (.ok result₁, s₁) →
          materialize once (target.ref tableName) keyfn { opts with flushBatchSize := size' }
              clock₂ s = some (.ok result₂, s₂) →
          SameUpToTimestamp opts.watermarkId (target.contents s₁) (target.contents s₂)) := by
  obtain ⟨r, s', hRun, hCase⟩ := materialize_cases target tableName opts keyfn hMode hSource clock s
  refine ⟨r, s', hRun, ?_⟩
  rintro ⟨err, rfl⟩
  rcases hCase with ⟨⟨result, hOk, -⟩, -⟩ | ⟨-, k, hContents⟩
  · cases hOk
  have hPos : 0 < opts.rowsPerFlush := Nat.le_max_left 1 _
  have hNotWritten : ∀ w ∈ takenRows opts keyfn (target.contents s) rows,
      w.1 ≠ watermarkKey opts.watermarkId := by
    intro w hw hSame
    obtain ⟨rec, hMem, hKey, -⟩ := mem_admitted keyfn opts.mode _ hw
    exact hKeys rec (hFull.subset hMem) (hSame ▸ hKey)
  have hMark : target.contents s' (watermarkKey opts.watermarkId) =
      target.contents s (watermarkKey opts.watermarkId) := by
    rw [hContents]
    refine overlay_of_not_mem ?_
    intro hMem
    obtain ⟨w, hw, hSame⟩ := List.mem_map.mp hMem
    exact hNotWritten w (List.mem_of_mem_take hw) hSame
  refine ⟨⟨k, by rw [flatten_take_batches hPos, hContents]⟩, hMark, ?_⟩
  intro later once hLater hOnce size size' clock₁ clock₂ result₁ result₂ s₁ s₂ hRun₁ hRun₂
  have hFloor : storedFloor opts.mode opts.watermarkId (target.contents s') = storedFloor opts.mode opts.watermarkId (target.contents s) := by
    unfold storedFloor
    rw [hMark]
  have hFinal : ∀ {source size clock result s s₁}, Denotes source full .done →
      materialize source (target.ref tableName) keyfn { opts with flushBatchSize := size } clock s =
        some (.ok result, s₁) →
      target.contents s₁ = finished opts.mode opts.watermarkId clock (takenRows opts keyfn (target.contents s) full)
        (target.contents s) := by
    intro source size clock result s s₁ hDenotes hSome
    obtain ⟨r, s₂, hRun', hCase⟩ := materialize_cases target tableName
      { opts with flushBatchSize := size } keyfn hMode hDenotes clock s
    obtain ⟨rfl, rfl⟩ : r = .ok result ∧ s₂ = s₁ := by
      rw [hRun', Option.some.injEq, Prod.mk.injEq] at hSome
      exact hSome
    rcases hCase with ⟨-, -, -, hEnd⟩ | ⟨⟨err, hErr⟩, -⟩
    · exact hEnd
    · cases hErr
  rw [hFinal hLater hRun₁, hFinal hOnce hRun₂]
  have hSameRows : takenRows opts keyfn (target.contents s') full =
      takenRows opts keyfn (target.contents s) full := by rw [takenRows, hFloor]; rfl
  rw [hSameRows]
  refine finished_sameUpToTimestamp opts.mode opts.watermarkId clock₁ clock₂ ?_
  rw [hContents]
  refine overlay_overlay ?_
  intro w hw
  exact List.mem_map_of_mem ((admitted_isPrefix keyfn opts.mode _ hFull).subset (List.mem_of_mem_take hw))

def twoRows : List (Record Bytes) := [⟨[1], [7]⟩, ⟨[2], [8]⟩]

def rowByRow : MaterializeOptions := { mode := .append, flushBatchSize := 1 }

/-- The second flush fails, after the first row has been written. -/
theorem materialize_progress_second_flush :
    materialize (Stream.fromVector twoRows) (Memory.target.ref []) (fun rec => .ok rec.key)
        rowByRow ⟨0, 0, 0⟩ ⟨[], List.nodup_nil, [false, true]⟩ =
      some (.error ⟨"Memory", "fault"⟩, ⟨[⟨[1], [7]⟩], by simp, []⟩) ∧
    ∃ k, Memory.contents ⟨[⟨[1], [7]⟩], by simp, []⟩ =
      overlay (Memory.contents ⟨[], List.nodup_nil, []⟩)
        ((batches 1 [([1], [7]), ([2], [8])]).take k).flatten := by
  have hLoop : Loop.run (chunkTurn Memory.target.ops [] (fun rec => .ok rec.key) rowByRow [])
      (Stream.fromVector twoRows, Job.start ⟨[], List.nodup_nil, [false, true]⟩) =
        some (.error ⟨"Memory", "fault"⟩, _) := Loop.run_leave rfl
  have hRun : materialize (Stream.fromVector twoRows) (Memory.target.ref [])
      (fun rec => .ok rec.key) rowByRow ⟨0, 0, 0⟩ ⟨[], List.nodup_nil, [false, true]⟩ =
        some (.error ⟨"Memory", "fault"⟩, _) := congrArg (Option.bind · _) hLoop
  have hSource : Denotes (Stream.fromVector twoRows) twoRows .done :=
    Stream.fromVector_denotes (by simp [twoRows, uint32Size])
  have hKeys : ∀ rec ∈ twoRows, (.ok rec.key : Result Bytes) ≠ .ok (watermarkKey []) := by decide
  obtain ⟨r, s', hSame, hFailed⟩ := materialize_progress Memory.target []
    (fun rec => .ok rec.key) rowByRow (Or.inl rfl) hSource (List.prefix_refl _) hKeys ⟨0, 0, 0⟩
    ⟨[], List.nodup_nil, [false, true]⟩
  obtain ⟨rfl, rfl⟩ := Prod.mk.inj (Option.some.inj (hRun.symm.trans hSame))
  exact ⟨hRun, (hFailed ⟨_, rfl⟩).1⟩

end CelerMem.Materialization
