import CelerMem.Materialization.StoreRef
import CelerMem.Materialization.Watermark

/-! `materialize.hpp`: writing a record stream into a target store. Every call to
the target takes the state of its backend to a new one, whatever it answers. -/
namespace CelerMem.Materialization

inductive MaterializeMode where
  | append
  | upsert
  | replace
  | delta
  | dryRun
  deriving DecidableEq, Repr

structure MaterializeOptions where
  mode : MaterializeMode := .upsert
  flushBatchSize : Nat := 1024
  replacePrefix : Bytes := []
  watermarkId : Bytes := []
  deriving DecidableEq, Repr

structure ExecutionMetrics where
  rowsIn : Nat := 0
  rowsOut : Nat := 0
  flushes : Nat := 0
  bytesWritten : Nat := 0
  elapsed : Int64 := 0
  deriving DecidableEq

structure MaterializeResult where
  rowsWritten : Nat := 0
  lastKey : Bytes := []
  metrics : ExecutionMetrics := {}
  deriving DecidableEq

/-- The entries of `BackendVTable` that a materialization calls. -/
structure TargetOps (σ : Type) where
  get : Bytes → σ → Result (Option Bytes) × σ
  put : Bytes → Bytes → σ → VoidResult × σ
  prefixScan : Bytes → σ → Result (List KVPair) × σ
  batch : List BatchOp → σ → VoidResult × σ

/-- The `StoreRef` written to. -/
structure TargetRef (σ : Type) where
  handle : Option (TargetOps σ)
  tableName : Bytes

/-- What `clock::now()` answers, in microseconds, where it is called. -/
structure ClockReadings where
  start : Int64
  watermark : Int64
  finish : Int64

/-- The locals of the streaming write loop, next to the state of the target.
`key_storage` and `value_storage` hold the bytes of `pending` once more. -/
structure Job (σ : Type) where
  target : σ
  result : MaterializeResult
  pending : List BatchOp

variable {σ T : Type}

def Job.start (target : σ) : Job σ := ⟨target, {}, []⟩

/-- A row is put into `pending` and into the running result. -/
def Job.push (job : Job σ) (tableName key value : Bytes) : Job σ :=
  { job with
    pending := job.pending ++ [⟨.put, tableName, key, some value⟩]
    result :=
      { job.result with
        lastKey := if job.result.lastKey < key then key else job.result.lastKey
        metrics :=
          { job.result.metrics with
            rowsOut := job.result.metrics.rowsOut + 1
            bytesWritten := job.result.metrics.bytesWritten + value.length } } }

def Job.countIn (job : Job σ) : Job σ :=
  { job with
    result :=
      { job.result with
        metrics := { job.result.metrics with rowsIn := job.result.metrics.rowsIn + 1 } } }

/-- What a successful flush does to the locals. -/
def Job.flushed (job : Job σ) (target : σ) : Job σ :=
  { job with
    target
    pending := []
    result :=
      { job.result with
        metrics := { job.result.metrics with flushes := job.result.metrics.flushes + 1 } } }

/-- The result of a run that got through. -/
def Job.report (job : Job σ) (clock : ClockReadings) : MaterializeResult :=
  { job.result with
    rowsWritten := job.result.metrics.rowsOut
    metrics := { job.result.metrics with elapsed := clock.finish - clock.start } }

def flush (ops : TargetOps σ) (mode : MaterializeMode) (job : Job σ) : VoidResult × Job σ :=
  if job.pending.isEmpty then (.ok (), job)
  else if mode = .dryRun then (.ok (), job.flushed job.target)
  else
    match ops.batch job.pending job.target with
    | (.error e, target) => (.error e, { job with target })
    | (.ok (), target) => (.ok (), job.flushed target)

/-- A row that Delta mode skips as already emitted. -/
def skips (mode : MaterializeMode) (deltaFloor key : Bytes) : Bool :=
  mode = .delta && !deltaFloor.isEmpty && key ≤ deltaFloor

section Loop
variable [Codec T] (ops : TargetOps σ) (tableName : Bytes) (keyfn : Record T → Result Bytes)
  (opts : MaterializeOptions) (deltaFloor : Bytes)

def writeRow (rec : Record T) (job : Job σ) : VoidResult × Job σ :=
  let job := job.countIn
  match keyfn rec with
  | .error e => (.error e, job)
  | .ok key =>
      if skips opts.mode deltaFloor key then (.ok (), job)
      else
        match Codec.encode rec.value with
        | .error e => (.error e, job)
        | .ok value =>
            let job := job.push tableName key value
            if opts.flushBatchSize ≤ job.pending.length then flush ops opts.mode job
            else (.ok (), job)

def writeRows : List (Record T) → Job σ → VoidResult × Job σ
  | [], job => (.ok (), job)
  | rec :: recs, job =>
      match writeRow ops tableName keyfn opts deltaFloor rec job with
      | (.error e, job) => (.error e, job)
      | (.ok (), job) => writeRows recs job

/-- One pull of the source and the rows of its chunk. -/
def chunkTurn : StreamHandle (Record T) × Job σ →
    Option (Loop.Turn (StreamHandle (Record T) × Job σ) (VoidResult × Job σ))
  | (source, job) => do
      let (r, source) ← source.pull
      match r with
      | .error e => some (.leave (.error e, job))
      | .ok none => some (.leave (.ok (), job))
      | .ok (some chunk) =>
          match writeRows ops tableName keyfn opts deltaFloor chunk.toList job with
          | (.error e, job) => some (.leave (.error e, job))
          | (.ok (), job) => some (.again (source, job))

end Loop

/-- Replace mode: what is under the prefix is deleted first. -/
def clearPrefix (ops : TargetOps σ) (tableName : Bytes) (opts : MaterializeOptions) (s : σ) :
    VoidResult × σ :=
  if opts.mode = .replace then
    match ops.prefixScan opts.replacePrefix s with
    | (.error e, s) => (.error e, s)
    | (.ok existing, s) =>
        if existing.isEmpty then (.ok (), s)
        else ops.batch (existing.map fun kv => ⟨.del, tableName, kv.key, none⟩) s
  else (.ok (), s)

/-- Delta mode: the last key of the watermark. A watermark that does not decode
counts as none. -/
def readFloor (ops : TargetOps σ) (opts : MaterializeOptions) (s : σ) : Result Bytes × σ :=
  if opts.mode = .delta then
    if opts.watermarkId.isEmpty then
      (.error ⟨"MaterializeDelta", "watermark_id required for Delta mode"⟩, s)
    else
      match ops.get (watermarkKey opts.watermarkId) s with
      | (.error e, s) => (.error e, s)
      | (.ok none, s) => (.ok [], s)
      | (.ok (some raw), s) =>
          match decodeWatermark raw with
          | .error _ => (.ok [], s)
          | .ok rec => (.ok rec.lastKey, s)
  else (.ok [], s)

def advanceWatermark (ops : TargetOps σ) (opts : MaterializeOptions) (clock : ClockReadings)
    (lastKey : Bytes) (s : σ) : VoidResult × σ :=
  if opts.mode = .delta ∧ lastKey ≠ [] then
    ops.put (watermarkKey opts.watermarkId)
      (encodeWatermark ⟨opts.watermarkId, lastKey, clock.watermark⟩) s
  else (.ok (), s)

/-- The room that `pending`, `value_storage` and `key_storage` get before the first row. -/
def reserveFlush [Allocation] (flushBatchSize : Nat) : VoidResult := do
  reserve BatchOp flushBatchSize
  reserve Bytes flushBatchSize
  reserve Bytes flushBatchSize

/-- `materialize`. The result is `none` when the source never ends. -/
def materialize [Allocation] [Codec T] (source : StreamHandle (Record T)) (target : TargetRef σ)
    (keyfn : Record T → Result Bytes) (opts : MaterializeOptions) (clock : ClockReadings) (s : σ) :
    Option (Result MaterializeResult × σ) :=
  match target.handle with
  | none => some (.error ⟨"Materialize", "target StoreRef is null"⟩, s)
  | some ops =>
      match clearPrefix ops target.tableName opts s with
      | (.error e, s) => some (.error e, s)
      | (.ok (), s) =>
          match readFloor ops opts s with
          | (.error e, s) => some (.error e, s)
          | (.ok deltaFloor, s) =>
              match reserveFlush opts.flushBatchSize with
              | .error e => some (.error e, s)
              | .ok () => do
                  match ← Loop.run (chunkTurn ops target.tableName keyfn opts deltaFloor)
                      (source, Job.start s) with
                  | (.error e, job) => some (.error e, job.target)
                  | (.ok (), job) =>
                      match flush ops opts.mode job with
                      | (.error e, job) => some (.error e, job.target)
                      | (.ok (), job) =>
                          match advanceWatermark ops opts clock job.result.lastKey job.target with
                          | (.error e, s) => some (.error e, s)
                          | (.ok (), s) =>
                              some (.ok (job.report clock), s)

end CelerMem.Materialization
