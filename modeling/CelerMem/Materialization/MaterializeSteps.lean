import CelerMem.Core.Meaning
import CelerMem.Materialization.Materialize

/-! What a pass over the source, and a whole run, can do: each as one relation, so that
what runs keep true is proved by cases on it. -/
namespace CelerMem.Materialization

variable {σ T : Type} [Codec T] {ops : TargetOps σ} {tableName deltaFloor : Bytes}
  {keyfn : Record T → Result Bytes} {opts : MaterializeOptions} {clock : ClockReadings}
  {source : StreamHandle (Record T)}

/-! ## The write loop -/

/-- One pass over the source: a pull, and the rows of the chunk it brought. -/
inductive ChunkPass (ops : TargetOps σ) (tableName : Bytes) (keyfn : Record T → Result Bytes)
    (opts : MaterializeOptions) (deltaFloor : Bytes) (source : StreamHandle (Record T))
    (job : Job σ) : Loop.Turn (StreamHandle (Record T) × Job σ) (VoidResult × Job σ) → Prop where
  | failed {e : Error} {next : StreamHandle (Record T)} (hPull : source.pull = some (.error e, next)) :
      ChunkPass ops tableName keyfn opts deltaFloor source job (.leave (.error e, job))
  | ended {next : StreamHandle (Record T)} (hPull : source.pull = some (.ok none, next)) :
      ChunkPass ops tableName keyfn opts deltaFloor source job (.leave (.ok (), job))
  | stopped {c : Chunk (Record T)} {next : StreamHandle (Record T)} {e : Error} {job' : Job σ}
      (hPull : source.pull = some (.ok (some c), next))
      (hRows : writeRows ops tableName keyfn opts deltaFloor c.toList job = (.error e, job')) :
      ChunkPass ops tableName keyfn opts deltaFloor source job (.leave (.error e, job'))
  | passed {c : Chunk (Record T)} {next : StreamHandle (Record T)} {job' : Job σ}
      (hPull : source.pull = some (.ok (some c), next))
      (hRows : writeRows ops tableName keyfn opts deltaFloor c.toList job = (.ok (), job')) :
      ChunkPass ops tableName keyfn opts deltaFloor source job (.again (next, job'))

theorem chunkTurn_pass {job : Job σ}
    {turn : Loop.Turn (StreamHandle (Record T) × Job σ) (VoidResult × Job σ)}
    (h : chunkTurn ops tableName keyfn opts deltaFloor (source, job) = some turn) :
    ChunkPass ops tableName keyfn opts deltaFloor source job turn := by
  cases hPull : source.pull with
  | none => simp [chunkTurn, hPull] at h
  | some answer =>
      obtain ⟨r, next⟩ := answer
      simp only [chunkTurn, hPull, Option.bind_eq_bind, Option.bind_some] at h
      cases r with
      | error e =>
          obtain rfl := Option.some.inj h
          exact .failed hPull
      | ok chunk =>
          cases chunk with
          | none =>
              obtain rfl := Option.some.inj h
              exact .ended hPull
          | some c =>
              cases hRows : writeRows ops tableName keyfn opts deltaFloor c.toList job with
              | mk answer job' =>
                  cases answer with
                  | error e =>
                      simp only [hRows] at h
                      obtain rfl := Option.some.inj h
                      exact .stopped hPull hRows
                  | ok =>
                      simp only [hRows] at h
                      obtain rfl := Option.some.inj h
                      exact .passed hPull hRows

theorem ChunkPass.eq {job : Job σ}
    {turn : Loop.Turn (StreamHandle (Record T) × Job σ) (VoidResult × Job σ)}
    (h : ChunkPass ops tableName keyfn opts deltaFloor source job turn) :
    chunkTurn ops tableName keyfn opts deltaFloor (source, job) = some turn := by
  cases h with
  | failed hPull => simp only [chunkTurn, hPull, Option.bind_eq_bind, Option.bind_some]
  | ended hPull => simp only [chunkTurn, hPull, Option.bind_eq_bind, Option.bind_some]
  | stopped hPull hRows =>
      simp only [chunkTurn, hPull, Option.bind_eq_bind, Option.bind_some, hRows]
  | passed hPull hRows =>
      simp only [chunkTurn, hPull, Option.bind_eq_bind, Option.bind_some, hRows]

variable (ops tableName deltaFloor keyfn opts) in
/-- The loop over a source that ends returns. -/
theorem chunkTurn_returns {rows : List (Record T)} {e : Ending} (hSource : Denotes source rows e)
    (job : Job σ) :
    ∃ ended, Loop.run (chunkTurn ops tableName keyfn opts deltaFloor) (source, job) = some ended := by
  induction hSource generalizing job with
  | done hPull => exact ⟨_, Loop.run_leave (ChunkPass.ended hPull).eq⟩
  | error hPull => exact ⟨_, Loop.run_leave (ChunkPass.failed hPull).eq⟩
  | @chunk _ _ c _ _ hPull _ ih =>
      cases hRows : writeRows ops tableName keyfn opts deltaFloor c.toList job with
      | mk answer job' =>
          cases answer with
          | error e => exact ⟨_, Loop.run_leave (ChunkPass.stopped hPull hRows).eq⟩
          | ok =>
              rw [Loop.run_again (ChunkPass.passed hPull hRows).eq]
              exact ih job'

/-! ## Whole runs -/

/-- Only Delta has a floor. -/
theorem readFloor_of_ne_delta (ops : TargetOps σ) (hDelta : opts.mode ≠ .delta) (s : σ) :
    readFloor ops opts s = (.ok [], s) :=
  if_neg hDelta

/-- Only Delta has a watermark. -/
theorem advanceWatermark_of_ne_delta (ops : TargetOps σ) (hDelta : opts.mode ≠ .delta)
    (clock : ClockReadings) (lastKey : Bytes) (s : σ) :
    advanceWatermark ops opts clock lastKey s = (.ok (), s) :=
  if_neg fun h => hDelta h.1

section Runs
variable [Allocation]

/-- How far a run comes, what it answers and how it leaves the target. -/
inductive Outcome (ops : TargetOps σ) (tableName : Bytes) (keyfn : Record T → Result Bytes)
    (opts : MaterializeOptions) (source : StreamHandle (Record T)) (clock : ClockReadings) (s : σ) :
    Result MaterializeResult → σ → Prop where
  | uncleared {e : Error} {s' : σ} (hClear : clearPrefix ops tableName opts s = (.error e, s')) :
      Outcome ops tableName keyfn opts source clock s (.error e) s'
  | unread {e : Error} {s₀ s' : σ} (hClear : clearPrefix ops tableName opts s = (.ok (), s₀))
      (hRead : readFloor ops opts s₀ = (.error e, s')) :
      Outcome ops tableName keyfn opts source clock s (.error e) s'
  | crowded {e : Error} {deltaFloor : Bytes} {s₀ s' : σ}
      (hClear : clearPrefix ops tableName opts s = (.ok (), s₀))
      (hRead : readFloor ops opts s₀ = (.ok deltaFloor, s'))
      (hRoom : reserveFlush opts.flushBatchSize = .error e) :
      Outcome ops tableName keyfn opts source clock s (.error e) s'
  | stopped {e : Error} {deltaFloor : Bytes} {s₀ s₁ : σ} {job : Job σ}
      (hClear : clearPrefix ops tableName opts s = (.ok (), s₀))
      (hRead : readFloor ops opts s₀ = (.ok deltaFloor, s₁))
      (hRoom : reserveFlush opts.flushBatchSize = .ok ())
      (hLoop : Loop.run (chunkTurn ops tableName keyfn opts deltaFloor) (source, Job.start s₁) =
        some (.error e, job)) :
      Outcome ops tableName keyfn opts source clock s (.error e) job.target
  | unflushed {e : Error} {deltaFloor : Bytes} {s₀ s₁ : σ} {job job' : Job σ}
      (hClear : clearPrefix ops tableName opts s = (.ok (), s₀))
      (hRead : readFloor ops opts s₀ = (.ok deltaFloor, s₁))
      (hRoom : reserveFlush opts.flushBatchSize = .ok ())
      (hLoop : Loop.run (chunkTurn ops tableName keyfn opts deltaFloor) (source, Job.start s₁) =
        some (.ok (), job))
      (hFlush : flush ops opts.mode job = (.error e, job')) :
      Outcome ops tableName keyfn opts source clock s (.error e) job'.target
  | unmarked {e : Error} {deltaFloor : Bytes} {s₀ s₁ s' : σ} {job job' : Job σ}
      (hClear : clearPrefix ops tableName opts s = (.ok (), s₀))
      (hRead : readFloor ops opts s₀ = (.ok deltaFloor, s₁))
      (hRoom : reserveFlush opts.flushBatchSize = .ok ())
      (hLoop : Loop.run (chunkTurn ops tableName keyfn opts deltaFloor) (source, Job.start s₁) =
        some (.ok (), job))
      (hFlush : flush ops opts.mode job = (.ok (), job'))
      (hAdvance : advanceWatermark ops opts clock job'.result.lastKey job'.target = (.error e, s')) :
      Outcome ops tableName keyfn opts source clock s (.error e) s'
  | finished {deltaFloor : Bytes} {s₀ s₁ s' : σ} {job job' : Job σ}
      (hClear : clearPrefix ops tableName opts s = (.ok (), s₀))
      (hRead : readFloor ops opts s₀ = (.ok deltaFloor, s₁))
      (hRoom : reserveFlush opts.flushBatchSize = .ok ())
      (hLoop : Loop.run (chunkTurn ops tableName keyfn opts deltaFloor) (source, Job.start s₁) =
        some (.ok (), job))
      (hFlush : flush ops opts.mode job = (.ok (), job'))
      (hAdvance : advanceWatermark ops opts clock job'.result.lastKey job'.target = (.ok (), s')) :
      Outcome ops tableName keyfn opts source clock s (.ok (job'.report clock)) s'

theorem materialize_outcome {s s' : σ} {r : Result MaterializeResult}
    (hRun : materialize source ⟨some ops, tableName⟩ keyfn opts clock s = some (r, s')) :
    Outcome ops tableName keyfn opts source clock s r s' := by
  unfold materialize at hRun
  cases hClear : clearPrefix ops tableName opts s with
  | mk cleared s₀ =>
  cases cleared with
  | error e =>
      simp only [hClear] at hRun
      obtain ⟨rfl, rfl⟩ := Prod.mk.inj (Option.some.inj hRun)
      exact .uncleared hClear
  | ok =>
  cases hRead : readFloor ops opts s₀ with
  | mk answer s₁ =>
  cases answer with
  | error e =>
      simp only [hClear, hRead] at hRun
      obtain ⟨rfl, rfl⟩ := Prod.mk.inj (Option.some.inj hRun)
      exact .unread hClear hRead
  | ok deltaFloor =>
  cases hRoom : reserveFlush opts.flushBatchSize with
  | error e =>
      simp only [hClear, hRead, hRoom] at hRun
      obtain ⟨rfl, rfl⟩ := Prod.mk.inj (Option.some.inj hRun)
      exact .crowded hClear hRead hRoom
  | ok =>
  cases hLoop : Loop.run (chunkTurn ops tableName keyfn opts deltaFloor) (source, Job.start s₁) with
  | none => simp [hClear, hRead, hRoom, hLoop] at hRun
  | some ended =>
  obtain ⟨answer, job⟩ := ended
  cases answer with
  | error e =>
      simp only [hClear, hRead, hRoom, hLoop, Option.bind_eq_bind, Option.bind_some] at hRun
      obtain ⟨rfl, rfl⟩ := Prod.mk.inj (Option.some.inj hRun)
      exact .stopped hClear hRead hRoom hLoop
  | ok =>
  cases hFlush : flush ops opts.mode job with
  | mk answer job' =>
  cases answer with
  | error e =>
      simp only [hClear, hRead, hRoom, hLoop, hFlush, Option.bind_eq_bind, Option.bind_some] at hRun
      obtain ⟨rfl, rfl⟩ := Prod.mk.inj (Option.some.inj hRun)
      exact .unflushed hClear hRead hRoom hLoop hFlush
  | ok =>
  cases hAdvance : advanceWatermark ops opts clock job'.result.lastKey job'.target with
  | mk answer s₂ =>
  simp only [hClear, hRead, hRoom, hLoop, hFlush, hAdvance, Option.bind_eq_bind, Option.bind_some] at hRun
  cases answer with
  | error e =>
      obtain ⟨rfl, rfl⟩ := Prod.mk.inj (Option.some.inj hRun)
      exact .unmarked hClear hRead hRoom hLoop hFlush hAdvance
  | ok =>
      obtain ⟨rfl, rfl⟩ := Prod.mk.inj (Option.some.inj hRun)
      exact .finished hClear hRead hRoom hLoop hFlush hAdvance

theorem Outcome.eq {s s' : σ} {r : Result MaterializeResult}
    (h : Outcome ops tableName keyfn opts source clock s r s') :
    materialize source ⟨some ops, tableName⟩ keyfn opts clock s = some (r, s') := by
  cases h with
  | uncleared hClear => simp only [materialize, hClear]
  | unread hClear hRead => simp only [materialize, hClear, hRead]
  | crowded hClear hRead hRoom => simp only [materialize, hClear, hRead, hRoom]
  | stopped hClear hRead hRoom hLoop =>
      simp only [materialize, hClear, hRead, hRoom, hLoop, Option.bind_eq_bind, Option.bind_some]
  | unflushed hClear hRead hRoom hLoop hFlush =>
      simp only [materialize, hClear, hRead, hRoom, hLoop, hFlush, Option.bind_eq_bind, Option.bind_some]
  | unmarked hClear hRead hRoom hLoop hFlush hAdvance =>
      simp only [materialize, hClear, hRead, hRoom, hLoop, hFlush, hAdvance, Option.bind_eq_bind,
        Option.bind_some]
  | finished hClear hRead hRoom hLoop hFlush hAdvance =>
      simp only [materialize, hClear, hRead, hRoom, hLoop, hFlush, hAdvance, Option.bind_eq_bind,
        Option.bind_some]

/-- A run over a source that ends returns. -/
theorem materialize_returns {rows : List (Record T)} {e : Ending} (hSource : Denotes source rows e)
    (target : TargetRef σ) (keyfn : Record T → Result Bytes) (opts : MaterializeOptions)
    (clock : ClockReadings) (s : σ) :
    ∃ r s', materialize source target keyfn opts clock s = some (r, s') := by
  unfold materialize
  split
  · exact ⟨_, _, rfl⟩
  · rename_i ops _
    split
    · exact ⟨_, _, rfl⟩
    · split
      · exact ⟨_, _, rfl⟩
      · rename_i deltaFloor s₁ _
        split
        · exact ⟨_, _, rfl⟩
        · obtain ⟨⟨answer, job⟩, hLoop⟩ := chunkTurn_returns ops target.tableName
            deltaFloor keyfn opts hSource (Job.start s₁)
          rw [hLoop, Option.bind_eq_bind, Option.bind_some]
          cases answer with
          | error e => exact ⟨_, _, rfl⟩
          | ok =>
              dsimp only
              split
              · exact ⟨_, _, rfl⟩
              · split
                · exact ⟨_, _, rfl⟩
                · exact ⟨_, _, rfl⟩

end Runs

end CelerMem.Materialization
