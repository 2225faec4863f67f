import CelerMem.Library.Loop
import CelerMem.Materialization.MaterializeSteps
import CelerMem.Materialization.Progress

/-! DryRun next to Upsert: the two runs go through the same steps, the one without the
calls to the target. -/
namespace CelerMem.Materialization

variable {σ T : Type}

/-! ## Step by step -/

/-- The locals of a dry run against those of a run that writes; its target stays as it was. -/
structure Mirrors (s : σ) (dry job : Job σ) : Prop where
  target : dry.target = s
  result : dry.result = job.result
  pending : dry.pending = job.pending

/-- The same answer with such locals. -/
def Alike (s : σ) (dry real : VoidResult × Job σ) : Prop :=
  dry.1 = real.1 ∧ Mirrors s dry.2 real.2

section Steps
variable {ops : TargetOps σ} {s : σ} {dry job : Job σ}

/-- Both fail with one error, or both go on. -/
theorem Alike.cases {a b : VoidResult × Job σ} (h : Alike s a b) :
    (∃ e dry job, a = (.error e, dry) ∧ b = (.error e, job) ∧ Mirrors s dry job) ∨
      ∃ dry job, a = (.ok (), dry) ∧ b = (.ok (), job) ∧ Mirrors s dry job := by
  obtain ⟨answer, dry⟩ := a
  obtain ⟨answer', job⟩ := b
  obtain ⟨hAnswer, hLocals⟩ := h
  dsimp only at hAnswer hLocals
  subst hAnswer
  cases answer with
  | error e => exact Or.inl ⟨e, dry, job, rfl, rfl, hLocals⟩
  | ok => exact Or.inr ⟨dry, job, rfl, rfl, hLocals⟩

theorem Mirrors.countIn (h : Mirrors s dry job) : Mirrors s dry.countIn job.countIn where
  target := h.target
  result := by
    simp only [Job.countIn, h.result]
  pending := h.pending

theorem Mirrors.push (h : Mirrors s dry job) (tableName key value : Bytes) :
    Mirrors s (dry.push tableName key value) (job.push tableName key value) where
  target := h.target
  result := by
    simp only [Job.push, h.result]
  pending := by
    simp only [Job.push, h.pending]

variable (hBatch : ∀ batch s, (ops.batch batch s).1 = .ok ())
include hBatch

/-- A flush that succeeds is counted by both, and only done by the one that writes. -/
theorem flush_alike (h : Mirrors s dry job) :
    Alike s (flush ops .dryRun dry) (flush ops .upsert job) := by
  unfold flush
  rw [h.pending]
  by_cases hEmpty : job.pending.isEmpty = true
  · rw [if_pos hEmpty, if_pos hEmpty]
    exact ⟨rfl, h⟩
  · rw [if_neg hEmpty, if_neg hEmpty, if_pos rfl, if_neg (by simp)]
    rcases hCall : ops.batch job.pending job.target with ⟨answer, target⟩
    have hOk := hBatch job.pending job.target
    rw [hCall] at hOk
    obtain rfl : answer = .ok () := hOk
    refine ⟨rfl, h.target, ?_, rfl⟩
    simp only [Job.flushed, h.result]

variable [Codec T] (tableName : Bytes) (keyfn : Record T → Result Bytes)
  (opts : MaterializeOptions)

theorem writeRow_alike (rec : Record T) (h : Mirrors s dry job) :
    Alike s (writeRow ops tableName keyfn { opts with mode := .dryRun } [] rec dry)
      (writeRow ops tableName keyfn { opts with mode := .upsert } [] rec job) := by
  rw [writeRow_eq, writeRow_eq]
  have hSame : admitRow keyfn .dryRun [] rec = admitRow keyfn .upsert [] rec := rfl
  dsimp only
  rw [hSame]
  cases admitRow keyfn .upsert [] rec with
  | error e => exact ⟨rfl, h.countIn⟩
  | ok admitted =>
      cases admitted with
      | none => exact ⟨rfl, h.countIn⟩
      | some w =>
          have hPush := h.countIn.push tableName w.1 w.2
          dsimp only
          rw [hPush.pending]
          split
          next => exact flush_alike hBatch hPush
          next => exact ⟨rfl, hPush⟩

theorem writeRows_alike (recs : List (Record T)) (h : Mirrors s dry job) :
    Alike s (writeRows ops tableName keyfn { opts with mode := .dryRun } [] recs dry)
      (writeRows ops tableName keyfn { opts with mode := .upsert } [] recs job) := by
  induction recs generalizing dry job with
  | nil => exact ⟨rfl, h⟩
  | cons rec recs ih =>
      rw [writeRows, writeRows]
      rcases (writeRow_alike hBatch tableName keyfn opts rec h).cases with
        ⟨e, dry', job', hDry, hJob, hLocals⟩ | ⟨dry', job', hDry, hJob, hLocals⟩
      · rw [hDry, hJob]
        exact ⟨rfl, hLocals⟩
      · rw [hDry, hJob]
        exact ih hLocals

/-- Two passes over the same source. -/
theorem chunkTurn_alike (source : StreamHandle (Record T)) (h : Mirrors s dry job) :
    Option.Rel (Loop.Turn.Rel (fun a b => a.1 = b.1 ∧ Mirrors s a.2 b.2) (Alike s))
      (chunkTurn ops tableName keyfn { opts with mode := .dryRun } [] (source, dry))
      (chunkTurn ops tableName keyfn { opts with mode := .upsert } [] (source, job)) := by
  rw [chunkTurn, chunkTurn]
  cases hPull : source.pull with
  | none => exact .none
  | some pulled =>
      obtain ⟨r, next⟩ := pulled
      simp only [Option.bind_eq_bind, Option.bind_some]
      cases r with
      | error e => exact .some (.leave ⟨rfl, h⟩)
      | ok chunk =>
          cases chunk with
          | none => exact .some (.leave ⟨rfl, h⟩)
          | some c =>
              dsimp only
              rcases (writeRows_alike hBatch tableName keyfn opts c.toList h).cases with
                ⟨e, dry', job', hDry, hJob, hLocals⟩ | ⟨dry', job', hDry, hJob, hLocals⟩
              · rw [hDry, hJob]
                exact .some (.leave ⟨rfl, hLocals⟩)
              · rw [hDry, hJob]
                exact .some (.again ⟨rfl, hLocals⟩)

theorem loop_alike (source : StreamHandle (Record T)) (h : Mirrors s dry job) :
    Option.Rel (Alike s)
      (Loop.run (chunkTurn ops tableName keyfn { opts with mode := .dryRun } []) (source, dry))
      (Loop.run (chunkTurn ops tableName keyfn { opts with mode := .upsert } []) (source, job)) := by
  refine Loop.run_rel (R := fun a b : StreamHandle (Record T) × Job σ =>
    a.1 = b.1 ∧ Mirrors s a.2 b.2) ?_ ⟨rfl, h⟩
  rintro ⟨source, dry⟩ ⟨source', job⟩ ⟨hSource, hLocals⟩
  dsimp only at hSource hLocals
  subst hSource
  exact chunkTurn_alike hBatch tableName keyfn opts source hLocals

end Steps

/-! ## Whole runs -/

/-- Two results that differ in the time they took at most. -/
structure SameReport (dry real : MaterializeResult) : Prop where
  rowsIn : dry.metrics.rowsIn = real.metrics.rowsIn
  rowsOut : dry.metrics.rowsOut = real.metrics.rowsOut
  bytesWritten : dry.metrics.bytesWritten = real.metrics.bytesWritten
  flushes : dry.metrics.flushes = real.metrics.flushes
  lastKey : dry.lastKey = real.lastKey
  rowsWritten : dry.rowsWritten = real.rowsWritten

/-- A run that leaves the target as it was and answers what another one does: the same
error, or the same report. -/
def DryRunOf (s : σ) (dry real : Result MaterializeResult × σ) : Prop :=
  dry.2 = s ∧
    match dry.1, real.1 with
    | .error e, .error e' => e = e'
    | .ok report, .ok report' => SameReport report report'
    | _, _ => False

theorem Mirrors.report {s : σ} {dry job : Job σ} (h : Mirrors s dry job)
    (clock clock' : ClockReadings) : SameReport (dry.report clock) (job.report clock') := by
  constructor
  · simp only [Job.report, h.result]
  · simp only [Job.report, h.result]
  · simp only [Job.report, h.result]
  · simp only [Job.report, h.result]
  · simp only [Job.report, h.result]
  · simp only [Job.report, h.result]

section Runs
variable [Allocation] [Codec T] {source : StreamHandle (Record T)} {ops : TargetOps σ}
  {tableName : Bytes}
  {keyfn : Record T → Result Bytes} {opts : MaterializeOptions} {clock : ClockReadings}

/-- Outside of Replace and Delta only the loop and the last flush are left of a run that has
room for its rows. -/
theorem materialize_plain (hReplace : opts.mode ≠ .replace) (hDelta : opts.mode ≠ .delta)
    (hRoom : reserveFlush opts.flushBatchSize = .ok ()) (s : σ) :
    materialize source ⟨some ops, tableName⟩ keyfn opts clock s =
      (Loop.run (chunkTurn ops tableName keyfn opts []) (source, Job.start s)).map fun ended =>
        match ended with
        | (.error e, job) => (.error e, job.target)
        | (.ok (), job) =>
            match flush ops opts.mode job with
            | (.error e, job) => (.error e, job.target)
            | (.ok (), job) => (.ok (job.report clock), job.target) := by
  have hClear : clearPrefix ops tableName opts s = (.ok (), s) := if_neg hReplace
  simp only [materialize, hClear, readFloor_of_ne_delta ops hDelta, hRoom,
    advanceWatermark_of_ne_delta ops hDelta]
  cases Loop.run (chunkTurn ops tableName keyfn opts []) (source, Job.start s) with
  | none => rfl
  | some ended =>
      obtain ⟨answer, job⟩ := ended
      cases answer with
      | error e => rfl
      | ok =>
          simp only [Option.bind_eq_bind, Option.bind_some, Option.map_some]
          rcases flush ops opts.mode job with ⟨answer, job'⟩
          cases answer with
          | error e => rfl
          | ok => rfl

theorem materialize_crowded {e : Error} (hReplace : opts.mode ≠ .replace)
    (hDelta : opts.mode ≠ .delta) (hRoom : reserveFlush opts.flushBatchSize = .error e) (s : σ) :
    materialize source ⟨some ops, tableName⟩ keyfn opts clock s = some (.error e, s) := by
  have hClear : clearPrefix ops tableName opts s = (.ok (), s) := if_neg hReplace
  simp only [materialize, hClear, readFloor_of_ne_delta ops hDelta, hRoom]

/-- The two runs over the same source, also when it never ends. -/
theorem materialize_dryRun_rel (hBatch : ∀ batch s, (ops.batch batch s).1 = .ok ())
    (clock clock' : ClockReadings) (s : σ) :
    Option.Rel (DryRunOf s)
      (materialize source ⟨some ops, tableName⟩ keyfn { opts with mode := .dryRun } clock s)
      (materialize source ⟨some ops, tableName⟩ keyfn { opts with mode := .upsert } clock' s) := by
  cases hRoom : reserveFlush opts.flushBatchSize with
  | error e =>
      have hBoth : ∀ mode, reserveFlush { opts with mode }.flushBatchSize = .error e := fun _ => hRoom
      rw [materialize_crowded (by simp) (by simp) (hBoth .dryRun),
        materialize_crowded (by simp) (by simp) (hBoth .upsert)]
      exact .some ⟨rfl, rfl⟩
  | ok =>
  have hBoth : ∀ mode, reserveFlush { opts with mode }.flushBatchSize = .ok () := fun _ => hRoom
  rw [materialize_plain (by simp) (by simp) (hBoth .dryRun),
    materialize_plain (by simp) (by simp) (hBoth .upsert)]
  have hStart : Mirrors s (Job.start s) (Job.start s) := ⟨rfl, rfl, rfl⟩
  have hLoop := loop_alike hBatch tableName keyfn opts source hStart
  generalize Loop.run (chunkTurn ops tableName keyfn { opts with mode := .dryRun } [])
    (source, Job.start s) = a at hLoop ⊢
  generalize Loop.run (chunkTurn ops tableName keyfn { opts with mode := .upsert } [])
    (source, Job.start s) = b at hLoop ⊢
  cases hLoop with
  | none => exact .none
  | some hEnded =>
      refine .some ?_
      obtain ⟨e, dry, job, rfl, rfl, hLocals⟩ | ⟨dry, job, rfl, rfl, hLocals⟩ := hEnded.cases
      · exact ⟨hLocals.target, rfl⟩
      · rcases (flush_alike hBatch hLocals).cases with
          ⟨e, dry', job', hDry, hJob, hLast⟩ | ⟨dry', job', hDry, hJob, hLast⟩
        · simp only [hDry, hJob]
          exact ⟨hLast.target, rfl⟩
        · simp only [hDry, hJob]
          exact ⟨hLast.target, hLast.report clock clock'⟩

end Runs

/-- A dry run leaves the target as it was; it fails with the error of an Upsert run on the
same source when that one fails, and otherwise gives the same report. -/
theorem dryRun_mirrors_upsert [Allocation] [Codec T] {source : StreamHandle (Record T)} {rows : List (Record T)}
    {e : Ending} (hSource : Denotes source rows e) (target : TargetRef σ)
    (hBatch : ∀ ops, target.handle = some ops → ∀ batch s, (ops.batch batch s).1 = .ok ())
    (keyfn : Record T → Result Bytes) (opts : MaterializeOptions) (clock clock' : ClockReadings)
    (s : σ) :
    ∃ dry real, materialize source target keyfn { opts with mode := .dryRun } clock s = some dry ∧
      materialize source target keyfn { opts with mode := .upsert } clock' s = some real ∧
      DryRunOf s dry real := by
  obtain ⟨handle, tableName⟩ := target
  cases handle with
  | none => exact ⟨_, _, rfl, rfl, rfl, rfl⟩
  | some ops =>
      obtain ⟨r, s', hDry⟩ := materialize_returns hSource ⟨some ops, tableName⟩ keyfn
        { opts with mode := .dryRun } clock s
      have hRel := @materialize_dryRun_rel σ T _ _ source ops tableName keyfn opts (hBatch ops rfl)
        clock clock' s
      rw [hDry] at hRel ⊢
      cases hReal : materialize source ⟨some ops, tableName⟩ keyfn { opts with mode := .upsert }
          clock' s with
      | none =>
          rw [hReal] at hRel
          cases hRel
      | some real =>
          rw [hReal] at hRel
          cases hRel with
          | some hMirror => exact ⟨_, _, rfl, rfl, hMirror⟩

/-- A target held in memory none of whose calls fails. -/
def Memory.reliable : TargetOps Memory where
  get k m := (.ok (m.contents k), m)
  put k v m := (.ok (), m.insert k v)
  prefixScan pfx m := (.ok (m.entries.filter fun kv => pfx.isPrefixOf kv.key), m)
  batch batch m := (.ok (), batch.foldl apply m)

/-- Two rows, flushed one by one, in a dry run and in an Upsert one. -/
theorem dryRun_mirrors_upsert_twoRows :
    materialize (Stream.fromVector twoRows) ⟨some Memory.reliable, []⟩ (fun rec => .ok rec.key)
        { rowByRow with mode := .dryRun } ⟨0, 0, 5⟩ ⟨[], List.nodup_nil, []⟩ =
      some (.ok ⟨2, [2], 2, 2, 2, 2, 5⟩, ⟨[], List.nodup_nil, []⟩) ∧
    materialize (Stream.fromVector twoRows) ⟨some Memory.reliable, []⟩ (fun rec => .ok rec.key)
        { rowByRow with mode := .upsert } ⟨1, 0, 9⟩ ⟨[], List.nodup_nil, []⟩ =
      some (.ok ⟨2, [2], 2, 2, 2, 2, 8⟩, ⟨[⟨[2], [8]⟩, ⟨[1], [7]⟩], by simp, []⟩) ∧
    DryRunOf (⟨[], List.nodup_nil, []⟩ : Memory)
      (.ok ⟨2, [2], 2, 2, 2, 2, 5⟩, ⟨[], List.nodup_nil, []⟩)
      (.ok ⟨2, [2], 2, 2, 2, 2, 8⟩, ⟨[⟨[2], [8]⟩, ⟨[1], [7]⟩], by simp, []⟩) := by
  have hDryLoop : Loop.run (chunkTurn Memory.reliable [] (fun rec => .ok rec.key)
      { rowByRow with mode := .dryRun } [])
      (Stream.fromVector twoRows, Job.start ⟨[], List.nodup_nil, []⟩) = some (.ok (), _) :=
    (Loop.run_again rfl).trans (Loop.run_leave rfl)
  have hDry : materialize (Stream.fromVector twoRows) ⟨some Memory.reliable, []⟩
      (fun rec => .ok rec.key) { rowByRow with mode := .dryRun } ⟨0, 0, 5⟩
      ⟨[], List.nodup_nil, []⟩ = some (.ok ⟨2, [2], 2, 2, 2, 2, 5⟩, ⟨[], List.nodup_nil, []⟩) :=
    congrArg (Option.bind · _) hDryLoop
  have hRealLoop : Loop.run (chunkTurn Memory.reliable [] (fun rec => .ok rec.key)
      { rowByRow with mode := .upsert } [])
      (Stream.fromVector twoRows, Job.start ⟨[], List.nodup_nil, []⟩) = some (.ok (), _) :=
    (Loop.run_again rfl).trans (Loop.run_leave rfl)
  have hReal : materialize (Stream.fromVector twoRows) ⟨some Memory.reliable, []⟩
      (fun rec => .ok rec.key) { rowByRow with mode := .upsert } ⟨1, 0, 9⟩
      ⟨[], List.nodup_nil, []⟩ =
        some (.ok ⟨2, [2], 2, 2, 2, 2, 8⟩, ⟨[⟨[2], [8]⟩, ⟨[1], [7]⟩], by simp, []⟩) :=
    congrArg (Option.bind · _) hRealLoop
  have hSource : Denotes (Stream.fromVector twoRows) twoRows .done :=
    Stream.fromVector_denotes (by simp [twoRows, uint32Size])
  have hBatch : ∀ ops, (⟨some Memory.reliable, []⟩ : TargetRef Memory).handle = some ops →
      ∀ batch s, (ops.batch batch s).1 = .ok () := by
    rintro ops hOps batch s
    obtain rfl := Option.some.inj hOps
    rfl
  obtain ⟨dry, real, hDry', hReal', hMirror⟩ := dryRun_mirrors_upsert hSource
    ⟨some Memory.reliable, []⟩ hBatch (fun rec => .ok rec.key) rowByRow ⟨0, 0, 5⟩ ⟨1, 0, 9⟩
    ⟨[], List.nodup_nil, []⟩
  obtain rfl := Option.some.inj (hDry.symm.trans hDry')
  obtain rfl := Option.some.inj (hReal.symm.trans hReal')
  exact ⟨hDry, hReal, hMirror⟩

end CelerMem.Materialization
