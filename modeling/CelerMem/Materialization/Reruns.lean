import CelerMem.Materialization.Delta
import CelerMem.Materialization.Overwrite
import Mathlib

/-! Sequences of Delta runs on a table whose calls may fail half done: the watermark
only moves up, and what a successful run has passed is not written again. -/
namespace CelerMem.Materialization

variable {σ T : Type}

theorem foldl_applyOp_of_not_mem {m : Bytes → Option Bytes} {batch : List BatchOp} {k : Bytes}
    (h : k ∉ batch.map BatchOp.key) : batch.foldl applyOp m k = m k := by
  induction batch generalizing m with
  | nil => rfl
  | cons op batch ih =>
      rw [List.map_cons, List.mem_cons, not_or] at h
      rw [List.foldl_cons, ih h.2]
      unfold applyOp
      cases op.kind with
      | put => exact Function.update_of_ne h.1 _ _
      | del => exact Function.update_of_ne h.1 _ _

/-- A table on which a batch that fails may have done part of its work, under its own
keys, and a put that fails may have taken effect. -/
structure KeyedTable (σ : Type) extends OrderedTable σ where
  get_law : ∀ k s r s', ops.get k s = (r, s') →
    contents s' = contents s ∧ ∀ v, r = .ok v → v = contents s k
  put_law : ∀ k v s r s', ops.put k v s = (r, s') →
    contents s' = Function.update (contents s) k (some v) ∨ r ≠ .ok () ∧ contents s' = contents s
  batch_frame : ∀ batch s r s', (∀ op ∈ batch, op.cfName = tableName) →
    ops.batch batch s = (r, s') → ∀ k, k ∉ batch.map BatchOp.key → contents s' k = contents s k

def AtomicTarget.keyed (target : AtomicTarget σ) (tableName : Bytes) : KeyedTable σ where
  toOrderedTable := (target.table tableName).toOrderedTable
  get_law k s r s' hGet := by
    obtain ⟨hSame, hGot⟩ := target.get_law k s
    change target.ops.get k s = (r, s') at hGet
    rw [hGet] at hSame hGot
    refine ⟨hSame, ?_⟩
    rintro v rfl
    rcases hGot with hOk | ⟨e, hError⟩
    · exact Except.ok.inj hOk
    · cases hError
  put_law k v s r s' hPut := by
    have hLaw := target.put_law k v s
    change target.ops.put k v s = (r, s') at hPut
    rw [hPut] at hLaw
    rcases hLaw with ⟨-, hContents⟩ | ⟨⟨e, hError⟩, hContents⟩
    · exact Or.inl hContents
    · refine Or.inr ⟨?_, hContents⟩
      rintro rfl
      cases hError
  batch_frame batch s r s' _ hBatch k hKey := by
    have hLaw := target.batch_law batch s
    change target.ops.batch batch s = (r, s') at hBatch
    rw [hBatch] at hLaw
    rcases hLaw with ⟨-, hContents⟩ | ⟨-, hContents⟩
    · rw [show (target.table tableName).contents s' = _ from hContents]
      exact foldl_applyOp_of_not_mem hKey
    · exact congrFun hContents k

/-- The keys of the rows that a source brings suit the watermark: none is empty or too
long for the length field, and none is the key of the watermark itself. -/
def SuitsMark (keyfn : Record T → Result Bytes) (id : Bytes) (source : StreamHandle (Record T)) :
    Prop :=
  ∀ rec, Brings source rec → ∀ key, keyfn rec = .ok key →
    key ≠ [] ∧ key ≠ watermarkKey id ∧ key.length < 256 ^ 4

/-! ## One run -/

section Marked
variable (table : KeyedTable σ) (id deltaFloor : Bytes) (raw : Option Bytes)

/-- The watermark entry stays `raw` all through the write loop, and the last key, once
there is one, is above the floor. -/
structure Marked (job : Job σ) : Prop where
  mark : table.contents job.target (watermarkKey id) = raw
  pending : ∀ op ∈ job.pending, op.cfName = table.tableName ∧ op.key ≠ watermarkKey id
  lastKey : job.result.lastKey = [] ∨
    deltaFloor < job.result.lastKey ∧ job.result.lastKey.length < 256 ^ 4

variable {table id deltaFloor raw} {job job' : Job σ} {r : VoidResult}

theorem Job.push_lastKey (job : Job σ) (tableName key value : Bytes) :
    (job.push tableName key value).result.lastKey = max job.result.lastKey key := by
  by_cases hLess : job.result.lastKey < key
  · rw [max_eq_right hLess.le]
    exact if_pos hLess
  · rw [max_eq_left (not_lt.mp hLess)]
    exact if_neg hLess

theorem lt_of_not_below {key : Bytes} (hNil : key ≠ []) (h : ¬ Below deltaFloor key) :
    deltaFloor < key := by
  by_cases hFloor : deltaFloor = []
  · rw [hFloor]
    exact lt_of_le_of_ne (not_lt.mp (List.not_lt_nil key)) hNil.symm
  · exact not_le.mp fun hLe => h ⟨hFloor, hLe⟩

theorem Marked.push (h : Marked table id deltaFloor raw job) {key : Bytes} (value : Bytes)
    (hAbove : deltaFloor < key) (hMark : key ≠ watermarkKey id) (hLength : key.length < 256 ^ 4) :
    Marked table id deltaFloor raw (job.push table.tableName key value) := by
  constructor
  · exact h.mark
  · intro op hMem
    rcases List.mem_append.mp hMem with hMem | hMem
    · exact h.pending op hMem
    · rw [List.mem_singleton.mp hMem]
      exact ⟨rfl, hMark⟩
  · rw [Job.push_lastKey]
    right
    rcases max_choice job.result.lastKey key with hMax | hMax
    · rw [hMax]
      rcases h.lastKey with hNil | hLast
      · have hKey : key ≤ job.result.lastKey := max_eq_left_iff.mp hMax
        rw [hNil] at hKey
        exact absurd (hAbove.trans_le hKey) (List.not_lt_nil deltaFloor)
      · exact hLast
    · rw [hMax]
      exact ⟨hAbove, hLength⟩

theorem Marked.flush (h : Marked table id deltaFloor raw job) {mode : MaterializeMode}
    (hRun : Materialization.flush table.ops mode job = (r, job')) :
    Marked table id deltaFloor raw job' ∧ job'.result.lastKey = job.result.lastKey := by
  unfold Materialization.flush at hRun
  by_cases hEmpty : job.pending.isEmpty = true
  · rw [if_pos hEmpty] at hRun
    obtain rfl : job = job' := congrArg Prod.snd hRun
    exact ⟨h, rfl⟩
  · rw [if_neg hEmpty] at hRun
    by_cases hDry : mode = .dryRun
    · rw [if_pos hDry] at hRun
      obtain rfl : job.flushed job.target = job' := congrArg Prod.snd hRun
      exact ⟨⟨h.mark, fun op hMem => absurd hMem List.not_mem_nil, h.lastKey⟩, rfl⟩
    · rw [if_neg hDry] at hRun
      cases hBatch : table.ops.batch job.pending job.target with
      | mk answer s =>
          have hFrame : table.contents s (watermarkKey id) = raw := by
            rw [← h.mark]
            apply table.batch_frame _ _ _ _ (fun op hMem => (h.pending op hMem).1) hBatch
            intro hMem
            obtain ⟨op, hOp, hKey⟩ := List.mem_map.mp hMem
            exact (h.pending op hOp).2 hKey
          rw [hBatch] at hRun
          cases answer with
          | error e =>
              obtain rfl : { job with target := s } = job' := congrArg Prod.snd hRun
              exact ⟨⟨hFrame, h.pending, h.lastKey⟩, rfl⟩
          | ok =>
              obtain rfl : job.flushed s = job' := congrArg Prod.snd hRun
              exact ⟨⟨hFrame, fun op hMem => absurd hMem List.not_mem_nil, h.lastKey⟩, rfl⟩

/-- A row that Delta skips under the floor. -/
def Skipped (keyfn : Record T → Result Bytes) (deltaFloor : Bytes) (rec : Record T) : Prop :=
  ∃ key, keyfn rec = .ok key ∧ Below deltaFloor key

/-- A row that was skipped, or written under a key up to `last`. -/
def Passed (keyfn : Record T → Result Bytes) (deltaFloor last : Bytes) (rec : Record T) : Prop :=
  ∃ key, keyfn rec = .ok key ∧ (Below deltaFloor key ∨ key ≤ last)

theorem Passed.mono {keyfn : Record T → Result Bytes} {last last' : Bytes} {rec : Record T}
    (h : Passed keyfn deltaFloor last rec) (hLe : last ≤ last') :
    Passed keyfn deltaFloor last' rec := by
  obtain ⟨key, hKey, hPassed⟩ := h
  exact ⟨key, hKey, hPassed.imp_right fun hLast => hLast.trans hLe⟩

section Rows
variable [Codec T] {keyfn : Record T → Result Bytes} {opts : MaterializeOptions}

theorem Marked.writeRow (hMode : opts.mode = .delta) (h : Marked table id deltaFloor raw job)
    {rec : Record T} (hSuits : ∀ key, keyfn rec = .ok key →
      key ≠ [] ∧ key ≠ watermarkKey id ∧ key.length < 256 ^ 4)
    (hRun : Materialization.writeRow table.ops table.tableName keyfn opts deltaFloor rec job =
      (r, job')) :
    Marked table id deltaFloor raw job' ∧ job.result.lastKey ≤ job'.result.lastKey ∧
      (r = .ok () → Passed keyfn deltaFloor job'.result.lastKey rec) := by
  have hIn : Marked table id deltaFloor raw job.countIn := ⟨h.mark, h.pending, h.lastKey⟩
  unfold Materialization.writeRow at hRun
  cases hKey : keyfn rec with
  | error e =>
      simp only [hKey] at hRun
      obtain ⟨rfl, rfl⟩ := Prod.mk.inj hRun
      exact ⟨hIn, le_rfl, fun hOk => by cases hOk⟩
  | ok key =>
      simp only [hKey, hMode] at hRun
      by_cases hBelow : Below deltaFloor key
      · rw [if_pos ((skips_delta deltaFloor key).mpr hBelow)] at hRun
        obtain ⟨rfl, rfl⟩ := Prod.mk.inj hRun
        exact ⟨hIn, le_rfl, fun _ => ⟨key, hKey, Or.inl hBelow⟩⟩
      · rw [if_neg fun hSkip => hBelow ((skips_delta deltaFloor key).mp hSkip)] at hRun
        cases hValue : Codec.encode rec.value with
        | error e =>
            simp only [hValue] at hRun
            obtain ⟨rfl, rfl⟩ := Prod.mk.inj hRun
            exact ⟨hIn, le_rfl, fun hOk => by cases hOk⟩
        | ok value =>
            obtain ⟨hNil, hMark, hLength⟩ := hSuits key hKey
            have hPush := hIn.push value (lt_of_not_below hNil hBelow) hMark hLength
            have hLast : (job.countIn.push table.tableName key value).result.lastKey =
                max job.result.lastKey key := Job.push_lastKey _ _ _ _
            simp only [hValue] at hRun
            by_cases hFull :
                opts.flushBatchSize ≤ (job.countIn.push table.tableName key value).pending.length
            · rw [if_pos hFull] at hRun
              obtain ⟨hFlushed, hSame⟩ := hPush.flush hRun
              rw [hSame, hLast]
              exact ⟨hFlushed, le_max_left _ _, fun _ => ⟨key, hKey, Or.inr (le_max_right _ _)⟩⟩
            · rw [if_neg hFull] at hRun
              obtain ⟨rfl, rfl⟩ := Prod.mk.inj hRun
              rw [hLast]
              exact ⟨hPush, le_max_left _ _, fun _ => ⟨key, hKey, Or.inr (le_max_right _ _)⟩⟩

theorem Marked.writeRows (hMode : opts.mode = .delta) {recs : List (Record T)}
    (h : Marked table id deltaFloor raw job) (hSuits : ∀ rec ∈ recs, ∀ key, keyfn rec = .ok key →
      key ≠ [] ∧ key ≠ watermarkKey id ∧ key.length < 256 ^ 4)
    (hRun : Materialization.writeRows table.ops table.tableName keyfn opts deltaFloor recs job =
      (r, job')) :
    Marked table id deltaFloor raw job' ∧ job.result.lastKey ≤ job'.result.lastKey ∧
      (r = .ok () → ∀ rec ∈ recs, Passed keyfn deltaFloor job'.result.lastKey rec) := by
  induction recs generalizing job with
  | nil =>
      obtain ⟨rfl, rfl⟩ := Prod.mk.inj hRun
      exact ⟨h, le_rfl, fun _ rec hMem => absurd hMem List.not_mem_nil⟩
  | cons rec recs ih =>
      rw [Materialization.writeRows] at hRun
      cases hRow : Materialization.writeRow table.ops table.tableName keyfn opts deltaFloor rec job with
      | mk answer job₁ =>
          rw [hRow] at hRun
          obtain ⟨hMarked, hUp, hPassed⟩ :=
            h.writeRow hMode (hSuits rec List.mem_cons_self) hRow
          cases answer with
          | error e =>
              obtain ⟨rfl, rfl⟩ := Prod.mk.inj hRun
              exact ⟨hMarked, hUp, fun hOk => by cases hOk⟩
          | ok =>
              obtain ⟨hAll, hUp', hPassed'⟩ :=
                ih hMarked (fun rec hMem => hSuits rec (List.mem_cons_of_mem _ hMem)) hRun
              refine ⟨hAll, hUp.trans hUp', ?_⟩
              intro hOk rec' hMem
              rcases List.mem_cons.mp hMem with rfl | hMem
              · exact (hPassed rfl).mono hUp'
              · exact hPassed' hOk rec' hMem

/-- The loop over any source, also one that never ends but fails somewhere. -/
theorem Marked.chunks (hMode : opts.mode = .delta) {source : StreamHandle (Record T)}
    (hRun : Loop.run (chunkTurn table.ops table.tableName keyfn opts deltaFloor) (source, job) =
      some (r, job'))
    (h : Marked table id deltaFloor raw job) (hSuits : SuitsMark keyfn id source) :
    Marked table id deltaFloor raw job' ∧ job.result.lastKey ≤ job'.result.lastKey ∧
      (r = .ok () → ∀ rec, Brings source rec → Passed keyfn deltaFloor job'.result.lastKey rec) := by
  let Motive : StreamHandle (Record T) × Job σ → VoidResult × Job σ → Prop := fun s t =>
    Marked table id deltaFloor raw s.2 → SuitsMark keyfn id s.1 →
      Marked table id deltaFloor raw t.2 ∧ s.2.result.lastKey ≤ t.2.result.lastKey ∧
        (t.1 = .ok () → ∀ rec, Brings s.1 rec → Passed keyfn deltaFloor t.2.result.lastKey rec)
  have hMotive : Motive (source, job) (r, job') := by
    apply Loop.run_induction (motive := Motive) _ _ hRun
    · rintro ⟨source, job⟩ turn result hTurn ih h hSuits
      cases chunkTurn_pass hTurn with
      | passed hPull hRows =>
          obtain ⟨hMarked, hUp, hPassed⟩ :=
            h.writeRows hMode (fun rec hMem => hSuits rec (.here hPull hMem)) hRows
          obtain ⟨hAll, hUp', hPassed'⟩ :=
            ih hMarked fun rec hRest => hSuits rec (.later hPull hRest)
          refine ⟨hAll, hUp.trans hUp', ?_⟩
          intro hOk rec hBrings
          rcases (brings_iff_of_chunk hPull rec).mp hBrings with hMem | hRest
          · exact (hPassed rfl rec hMem).mono hUp'
          · exact hPassed' hOk rec hRest
    · rintro ⟨source, job⟩ result hTurn h hSuits
      cases chunkTurn_pass hTurn with
      | failed hPull => exact ⟨h, le_rfl, fun hOk => by cases hOk⟩
      | ended hPull =>
          refine ⟨h, le_rfl, ?_⟩
          intro _ rec hBrings
          exact absurd hBrings (not_brings_of_end hPull (fun c hc => by cases hc) rec)
      | stopped hPull hRows =>
          obtain ⟨hMarked, hUp, -⟩ :=
            h.writeRows hMode (fun rec hMem => hSuits rec (.here hPull hMem)) hRows
          exact ⟨hMarked, hUp, fun hOk => by cases hOk⟩
  exact hMotive h hSuits

end Rows
end Marked

/-! ## The watermark after a run -/

section Whole
variable [Codec T] {table : KeyedTable σ} {keyfn : Record T → Result Bytes} {id : Bytes}
  {opts : MaterializeOptions} {source : StreamHandle (Record T)} {clock : ClockReadings}
  {s s' : σ} {r : Result MaterializeResult}

theorem readFloor_keyed (hMode : opts.mode = .delta) {answer : Result Bytes}
    (hRead : readFloor table.ops opts s = (answer, s')) :
    table.contents s' = table.contents s ∧ ∀ deltaFloor, answer = .ok deltaFloor →
      deltaFloor = storedFloor .delta opts.watermarkId (table.contents s) := by
  unfold readFloor at hRead
  rw [if_pos hMode] at hRead
  by_cases hId : opts.watermarkId.isEmpty = true
  · rw [if_pos hId] at hRead
    obtain ⟨rfl, rfl⟩ := Prod.mk.inj hRead
    exact ⟨rfl, fun _ hOk => by cases hOk⟩
  · rw [if_neg hId] at hRead
    cases hGet : table.ops.get (watermarkKey opts.watermarkId) s with
    | mk got s₁ =>
        obtain ⟨hSame, hGot⟩ := table.get_law _ _ _ _ hGet
        rw [hGet] at hRead
        cases got with
        | error e =>
            obtain ⟨rfl, rfl⟩ := Prod.mk.inj hRead
            exact ⟨hSame, fun _ hOk => by cases hOk⟩
        | ok stored =>
            have hStored := hGot stored rfl
            unfold storedFloor
            rw [if_pos rfl, ← hStored]
            cases stored with
            | none =>
                obtain ⟨rfl, rfl⟩ := Prod.mk.inj hRead
                exact ⟨hSame, fun _ hOk => (Except.ok.inj hOk).symm⟩
            | some raw =>
                cases hRec : decodeWatermark raw with
                | error e =>
                    simp only [hRec] at hRead ⊢
                    obtain ⟨rfl, rfl⟩ := Prod.mk.inj hRead
                    exact ⟨hSame, fun _ hOk => (Except.ok.inj hOk).symm⟩
                | ok rec =>
                    simp only [hRec] at hRead ⊢
                    obtain ⟨rfl, rfl⟩ := Prod.mk.inj hRead
                    exact ⟨hSame, fun _ hOk => (Except.ok.inj hOk).symm⟩

/-- The watermark is as before, or has been written with a greater last key. -/
def Advanced (id : Bytes) (m m' : Bytes → Option Bytes) : Prop :=
  m' (watermarkKey id) = m (watermarkKey id) ∨ ∃ last time,
    storedFloor .delta id m < last ∧ last.length < 256 ^ 4 ∧
      m' (watermarkKey id) = some (encodeWatermark ⟨id, last, time⟩)

theorem storedFloor_encode {m : Bytes → Option Bytes} {last : Bytes} {time : Int64}
    (hId : id.length < 256 ^ 4) (hLast : last.length < 256 ^ 4)
    (h : m (watermarkKey id) = some (encodeWatermark ⟨id, last, time⟩)) :
    storedFloor .delta id m = last := by
  have hDecode : decodeWatermark (encodeWatermark ⟨id, last, time⟩) = .ok ⟨id, last, time⟩ :=
    decodeWatermark_encode hId hLast
  unfold storedFloor
  rw [if_pos rfl, h]
  simp only [hDecode]

theorem Advanced.floor_le {m m' : Bytes → Option Bytes} (hId : id.length < 256 ^ 4)
    (h : Advanced id m m') : storedFloor .delta id m ≤ storedFloor .delta id m' := by
  rcases h with hSame | ⟨last, time, hLess, hLast, hMark⟩
  · rw [storedFloor_congr hSame]
  · rw [storedFloor_encode hId hLast hMark]
    exact hLess.le

/-- Once the loop is through, the watermark is put above the floor, unless there was no
row to take. -/
theorem Marked.advance {deltaFloor : Bytes} {raw : Option Bytes} {job : Job σ} {answer : VoidResult}
    (h : Marked table opts.watermarkId deltaFloor raw job) (hMode : opts.mode = .delta)
    (hRun : advanceWatermark table.ops opts clock job.result.lastKey job.target = (answer, s')) :
    (table.contents s' (watermarkKey opts.watermarkId) = raw ∧
        (answer = .ok () → job.result.lastKey = [])) ∨
      (job.result.lastKey ≠ [] ∧ deltaFloor < job.result.lastKey ∧
        job.result.lastKey.length < 256 ^ 4 ∧
        table.contents s' (watermarkKey opts.watermarkId) =
          some (encodeWatermark ⟨opts.watermarkId, job.result.lastKey, clock.watermark⟩)) := by
  unfold advanceWatermark at hRun
  by_cases hNil : job.result.lastKey = []
  · rw [if_neg fun h => h.2 hNil] at hRun
    obtain ⟨-, rfl⟩ := Prod.mk.inj hRun
    exact Or.inl ⟨h.mark, fun _ => hNil⟩
  · rw [if_pos ⟨hMode, hNil⟩] at hRun
    rcases table.put_law _ _ _ _ _ hRun with hPut | ⟨hFailed, hSame⟩
    · right
      obtain ⟨hAbove, hLength⟩ := h.lastKey.resolve_left hNil
      refine ⟨hNil, hAbove, hLength, ?_⟩
      rw [hPut, Function.update_self]
    · left
      refine ⟨?_, fun hOk => absurd hOk hFailed⟩
      rw [hSame]
      exact h.mark

/-- Whatever a run answers, the watermark has not gone down; when it succeeds, each
row of the source is below the watermark that it leaves. -/
theorem delta_run [Allocation] (hMode : opts.mode = .delta) (hSuits : SuitsMark keyfn opts.watermarkId source)
    (hRun : materialize source table.ref keyfn opts clock s = some (r, s')) :
    Advanced opts.watermarkId (table.contents s) (table.contents s') ∧
      (opts.watermarkId.length < 256 ^ 4 → (∃ result, r = .ok result) → ∀ rec, Brings source rec →
        Skipped keyfn (storedFloor .delta opts.watermarkId (table.contents s')) rec) := by
  have hReplace : opts.mode ≠ .replace := by simp [hMode]
  -- Up to the loop nothing is written, and the floor is the stored one.
  have hBefore : ∀ {s₀ s₁ answer}, clearPrefix table.ops table.tableName opts s = (.ok (), s₀) →
      readFloor table.ops opts s₀ = (answer, s₁) → table.contents s₁ = table.contents s ∧
        ∀ deltaFloor, answer = .ok deltaFloor →
          deltaFloor = storedFloor .delta opts.watermarkId (table.contents s) := by
    intro s₀ s₁ answer hClear hRead
    rw [clearPrefix, if_neg hReplace] at hClear
    obtain ⟨-, rfl⟩ := Prod.mk.inj hClear
    exact readFloor_keyed hMode hRead
  have hPassed : ∀ {s₀ s₁ deltaFloor answer job},
      clearPrefix table.ops table.tableName opts s = (.ok (), s₀) →
      readFloor table.ops opts s₀ = (.ok deltaFloor, s₁) →
      Loop.run (chunkTurn table.ops table.tableName keyfn opts deltaFloor) (source, Job.start s₁) =
        some (answer, job) →
      Marked table opts.watermarkId (storedFloor .delta opts.watermarkId (table.contents s))
          (table.contents s (watermarkKey opts.watermarkId)) job ∧
        (answer = .ok () → ∀ rec, Brings source rec → Passed keyfn
          (storedFloor .delta opts.watermarkId (table.contents s)) job.result.lastKey rec) := by
    intro s₀ s₁ deltaFloor answer job hClear hRead hLoop
    obtain ⟨hSame, hFloor⟩ := hBefore hClear hRead
    rw [hFloor deltaFloor rfl] at hLoop
    have hStart : Marked table opts.watermarkId
        (storedFloor .delta opts.watermarkId (table.contents s))
        (table.contents s (watermarkKey opts.watermarkId)) (Job.start s₁) :=
      ⟨congrFun hSame _, fun op hMem => absurd hMem List.not_mem_nil, Or.inl rfl⟩
    obtain ⟨hMarked, -, hAll⟩ := hStart.chunks hMode hLoop hSuits
    exact ⟨hMarked, hAll⟩
  cases materialize_outcome hRun with
  | uncleared hClear =>
      rw [clearPrefix, if_neg hReplace] at hClear
      cases (Prod.mk.inj hClear).1
  | unread hClear hRead =>
      exact ⟨Or.inl (congrFun (hBefore hClear hRead).1 _), by rintro _ ⟨_, ⟨⟩⟩⟩
  | crowded hClear hRead =>
      exact ⟨Or.inl (congrFun (hBefore hClear hRead).1 _), by rintro _ ⟨_, ⟨⟩⟩⟩
  | stopped hClear hRead hRoom hLoop =>
      exact ⟨Or.inl (hPassed hClear hRead hLoop).1.mark, by rintro _ ⟨_, ⟨⟩⟩⟩
  | unflushed hClear hRead hRoom hLoop hFlush =>
      have hFlushed := ((hPassed hClear hRead hLoop).1.flush hFlush).1
      exact ⟨Or.inl hFlushed.mark, by rintro _ ⟨_, ⟨⟩⟩⟩
  | unmarked hClear hRead hRoom hLoop hFlush hAdvance =>
      have hFlushed := ((hPassed hClear hRead hLoop).1.flush hFlush).1
      refine ⟨?_, by rintro _ ⟨_, ⟨⟩⟩⟩
      rcases hFlushed.advance hMode hAdvance with ⟨hSame, -⟩ | ⟨-, hAbove, hLength, hPut⟩
      · exact Or.inl hSame
      · exact Or.inr ⟨_, _, hAbove, hLength, hPut⟩
  | finished hClear hRead hRoom hLoop hFlush hAdvance =>
      obtain ⟨hMarked, hAll⟩ := hPassed hClear hRead hLoop
      obtain ⟨hFlushed, hLast⟩ := hMarked.flush hFlush
      rcases hFlushed.advance hMode hAdvance with ⟨hSame, hNil⟩ | ⟨hSome, hAbove, hLength, hPut⟩
      · refine ⟨Or.inl hSame, ?_⟩
        intro _ _ rec hBrings
        obtain ⟨key, hKey, hBelow⟩ := hAll rfl rec hBrings
        rw [storedFloor_congr hSame]
        refine ⟨key, hKey, hBelow.resolve_right ?_⟩
        rw [← hLast, hNil rfl]
        intro hLe
        exact (hSuits rec hBrings key hKey).1 (le_antisymm hLe (not_lt.mp (List.not_lt_nil key)))
      · refine ⟨Or.inr ⟨_, _, hAbove, hLength, hPut⟩, ?_⟩
        intro hId _ rec hBrings
        obtain ⟨key, hKey, hBelow⟩ := hAll rfl rec hBrings
        rw [storedFloor_encode hId hLength hPut]
        refine ⟨key, hKey, hSome, ?_⟩
        rcases hBelow with hBelow | hLe
        · exact hBelow.2.trans hAbove.le
        · rw [hLast]
          exact hLe

end Whole

/-! ## A run with nothing to take -/

section Untouched
variable {s : σ} {job job' : Job σ} {r : VoidResult}

/-- No row has been taken, and the target has not been called. -/
structure Untouched (s : σ) (job : Job σ) : Prop where
  target : job.target = s
  pending : job.pending = []
  lastKey : job.result.lastKey = []
  rowsOut : job.result.metrics.rowsOut = 0

variable [Codec T] {ops : TargetOps σ} {tableName deltaFloor : Bytes}
  {keyfn : Record T → Result Bytes} {opts : MaterializeOptions} {source : StreamHandle (Record T)}

theorem Untouched.writeRows (hMode : opts.mode = .delta) {recs : List (Record T)}
    (hSkipped : ∀ rec ∈ recs, Skipped keyfn deltaFloor rec) (h : Untouched s job)
    (hRun : Materialization.writeRows ops tableName keyfn opts deltaFloor recs job = (r, job')) :
    Untouched s job' := by
  induction recs generalizing job with
  | nil =>
      obtain ⟨-, rfl⟩ := Prod.mk.inj hRun
      exact h
  | cons rec recs ih =>
      obtain ⟨key, hKey, hBelow⟩ := hSkipped rec List.mem_cons_self
      have hRow : writeRow ops tableName keyfn opts deltaFloor rec job = (.ok (), job.countIn) := by
        simp only [writeRow, hKey, hMode, (skips_delta deltaFloor key).mpr hBelow, if_true]
      rw [Materialization.writeRows, hRow] at hRun
      have hCounted : Untouched s job.countIn := ⟨h.target, h.pending, h.lastKey, h.rowsOut⟩
      exact ih (fun rec hMem => hSkipped rec (List.mem_cons_of_mem _ hMem)) hCounted hRun

theorem Untouched.chunks (hMode : opts.mode = .delta)
    (hSkipped : ∀ rec, Brings source rec → Skipped keyfn deltaFloor rec) (h : Untouched s job)
    (hRun : Loop.run (chunkTurn ops tableName keyfn opts deltaFloor) (source, job) =
      some (r, job')) :
    Untouched s job' := by
  let Inv : StreamHandle (Record T) × Job σ → Prop := fun state =>
    (∀ rec, Brings state.1 rec → Skipped keyfn deltaFloor rec) ∧ Untouched s state.2
  have hEnd : Untouched s (r, job').2 := by
    apply Loop.run_holds Inv (fun result => Untouched s result.2) _ ⟨hSkipped, h⟩ hRun
    rintro ⟨source, job⟩ turn ⟨hSkipped, h⟩ hTurn
    cases chunkTurn_pass hTurn with
    | failed hPull => exact h
    | ended hPull => exact h
    | stopped hPull hRows =>
        exact h.writeRows hMode (fun rec hMem => hSkipped rec (.here hPull hMem)) hRows
    | passed hPull hRows =>
        constructor
        · intro rec hRest
          exact hSkipped rec (.later hPull hRest)
        · exact h.writeRows hMode (fun rec hMem => hSkipped rec (.here hPull hMem)) hRows
  exact hEnd

theorem Untouched.flush {mode : MaterializeMode} (h : Untouched s job) :
    Materialization.flush ops mode job = (.ok (), job) := by
  rw [Materialization.flush, h.pending]
  rfl

end Untouched

/-- A run all of whose rows are under the stored watermark writes nothing. -/
theorem rerun_untouched [Allocation] [Codec T] {table : KeyedTable σ} {keyfn : Record T → Result Bytes}
    {opts : MaterializeOptions} {source : StreamHandle (Record T)} {clock : ClockReadings} {s s' : σ}
    {r : Result MaterializeResult} (hMode : opts.mode = .delta)
    (hSkipped : ∀ rec, Brings source rec →
      Skipped keyfn (storedFloor .delta opts.watermarkId (table.contents s)) rec)
    (hRun : materialize source table.ref keyfn opts clock s = some (r, s')) :
    table.contents s' = table.contents s ∧ ∀ result, r = .ok result → result.rowsWritten = 0 := by
  have hReplace : opts.mode ≠ .replace := by simp [hMode]
  have hPassed : ∀ {s₀ s₁ deltaFloor answer job},
      clearPrefix table.ops table.tableName opts s = (.ok (), s₀) →
      readFloor table.ops opts s₀ = (.ok deltaFloor, s₁) →
      Loop.run (chunkTurn table.ops table.tableName keyfn opts deltaFloor) (source, Job.start s₁) =
        some (answer, job) →
      table.contents s₁ = table.contents s ∧ Untouched s₁ job := by
    intro s₀ s₁ deltaFloor answer job hClear hRead hLoop
    rw [clearPrefix, if_neg hReplace] at hClear
    obtain ⟨-, rfl⟩ := Prod.mk.inj hClear
    obtain ⟨hSame, hFloor⟩ := readFloor_keyed hMode hRead
    rw [hFloor deltaFloor rfl] at hLoop
    have hStart : Untouched s₁ (Job.start s₁) := ⟨rfl, rfl, rfl, rfl⟩
    exact ⟨hSame, hStart.chunks hMode hSkipped hLoop⟩
  cases materialize_outcome hRun with
  | uncleared hClear =>
      rw [clearPrefix, if_neg hReplace] at hClear
      cases (Prod.mk.inj hClear).1
  | unread hClear hRead =>
      rw [clearPrefix, if_neg hReplace] at hClear
      obtain ⟨-, rfl⟩ := Prod.mk.inj hClear
      exact ⟨(readFloor_keyed hMode hRead).1, by rintro _ ⟨⟩⟩
  | crowded hClear hRead =>
      rw [clearPrefix, if_neg hReplace] at hClear
      obtain ⟨-, rfl⟩ := Prod.mk.inj hClear
      exact ⟨(readFloor_keyed hMode hRead).1, by rintro _ ⟨⟩⟩
  | stopped hClear hRead hRoom hLoop =>
      obtain ⟨hSame, hJob⟩ := hPassed hClear hRead hLoop
      rw [hJob.target]
      exact ⟨hSame, by rintro _ ⟨⟩⟩
  | unflushed hClear hRead hRoom hLoop hFlush =>
      cases (Prod.mk.inj ((hPassed hClear hRead hLoop).2.flush.symm.trans hFlush)).1
  | unmarked hClear hRead hRoom hLoop hFlush hAdvance =>
      obtain ⟨-, hJob⟩ := hPassed hClear hRead hLoop
      obtain ⟨-, rfl⟩ := Prod.mk.inj (hJob.flush.symm.trans hFlush)
      rw [advanceWatermark, if_neg fun h => h.2 hJob.lastKey] at hAdvance
      cases (Prod.mk.inj hAdvance).1
  | finished hClear hRead hRoom hLoop hFlush hAdvance =>
      obtain ⟨hSame, hJob⟩ := hPassed hClear hRead hLoop
      obtain ⟨-, rfl⟩ := Prod.mk.inj (hJob.flush.symm.trans hFlush)
      rw [advanceWatermark, if_neg fun h => h.2 hJob.lastKey] at hAdvance
      obtain ⟨-, rfl⟩ := Prod.mk.inj hAdvance
      rw [hJob.target]
      refine ⟨hSame, ?_⟩
      intro result hOk
      obtain rfl := Except.ok.inj hOk
      exact hJob.rowsOut

/-! ## Sequences of runs -/

/-- Delta runs of one watermark, one after the other, each over any source with any
codec, key function, flush size and clock, and each successful or not. -/
inductive DeltaHistory [Allocation] (table : KeyedTable σ) (id : Bytes) (s : σ) : σ → Prop where
  | start : DeltaHistory table id s s
  | run {s₁ s₂ : σ} {T : Type} [codec : Codec T] {source : StreamHandle (Record T)}
      {keyfn : Record T → Result Bytes} {opts : MaterializeOptions} {clock : ClockReadings}
      {r : Result MaterializeResult} (earlier : DeltaHistory table id s s₁)
      (hMode : opts.mode = .delta) (hId : opts.watermarkId = id)
      (hSuits : SuitsMark keyfn id source)
      (hRun : materialize source table.ref keyfn opts clock s₁ = some (r, s₂)) :
      DeltaHistory table id s s₂

theorem DeltaHistory.floor_le [Allocation] {table : KeyedTable σ} {id : Bytes} {s s' : σ}
    (hId : id.length < 256 ^ 4) (h : DeltaHistory table id s s') :
    storedFloor .delta id (table.contents s) ≤ storedFloor .delta id (table.contents s') := by
  induction h with
  | start => exact le_rfl
  | run _ hMode hWatermark hSuits hRun ih =>
      subst hWatermark
      exact ih.trans ((delta_run hMode hSuits hRun).1.floor_le hId)

/-- With an id whose length fits its field: over any Delta runs the stored last key
never decreases, and after a successful run a run over any of its rows, in any order
and number, returns without writing a row and leaves the contents as they are. -/
theorem watermark_rises [Allocation] (table : KeyedTable σ) {id : Bytes} (hId : id.length < 256 ^ 4) :
    (∀ s s', DeltaHistory table id s s' →
      storedFloor .delta id (table.contents s) ≤ storedFloor .delta id (table.contents s')) ∧
    ∀ (T : Type) [Codec T] (source : StreamHandle (Record T)) (rows : List (Record T))
      (keyfn : Record T → Result Bytes) (opts : MaterializeOptions) (clock : ClockReadings)
      (s s' : σ) (result : MaterializeResult), opts.mode = .delta → opts.watermarkId = id →
      SuitsMark keyfn id source → Denotes source rows .done →
      materialize source table.ref keyfn opts clock s = some (.ok result, s') →
      ∀ (source' : StreamHandle (Record T)) (rows' : List (Record T)) (e : Ending) (size : ℕ)
        (clock' : ClockReadings), Denotes source' rows' e → rows' ⊆ rows →
        ∃ r s'', materialize source' table.ref keyfn { opts with flushBatchSize := size } clock' s' =
            some (r, s'') ∧
          table.contents s'' = table.contents s' ∧
          ∀ result', r = .ok result' → result'.rowsWritten = 0 := by
  constructor
  · intro s s' h
    exact h.floor_le hId
  · intro T _ source rows keyfn opts clock s s' result hMode hWatermark hSuits hSource hRun
      source' rows' e size clock' hSource' hRows
    subst hWatermark
    obtain ⟨-, hBelow⟩ := delta_run hMode hSuits hRun
    obtain ⟨r, s'', hRerun⟩ := materialize_returns hSource' table.ref keyfn
      { opts with flushBatchSize := size } clock' s'
    refine ⟨r, s'', hRerun, ?_⟩
    refine rerun_untouched ?_ ?_ hRerun
    · exact hMode
    · intro rec hBrings
      have hMem := hRows ((hSource'.brings_iff rec).mp hBrings)
      exact hBelow hId ⟨result, rfl⟩ rec ((hSource.brings_iff rec).mpr hMem)

/-- Both rows are written once, and then neither of them, in the other order. -/
theorem watermark_rises_twoRows :
    ∃ result s', materialize (Stream.fromVector twoRows) (Memory.target.keyed []).ref
        (fun rec => .ok rec.key) (deltaOptions [9] 1) ⟨0, 5, 0⟩ emptyMemory = some (.ok result, s') ∧
      result.rowsWritten = 2 ∧
      storedFloor .delta [9] (Memory.contents emptyMemory) ≤
        storedFloor .delta [9] (Memory.contents s') ∧
      ∃ r s'', materialize (Stream.fromVector twoRows.reverse) (Memory.target.keyed []).ref
          (fun rec => .ok rec.key) (deltaOptions [9] 1) ⟨0, 6, 0⟩ s' = some (r, s'') ∧
        Memory.contents s'' = Memory.contents s' ∧
        ∀ result', r = .ok result' → result'.rowsWritten = 0 := by
  have hLoop : Loop.run (chunkTurn Memory.target.ops [] (fun rec => .ok rec.key)
      (deltaOptions [9] 1) []) (Stream.fromVector twoRows, Job.start emptyMemory) =
        some (.ok (), _) := (Loop.run_again rfl).trans (Loop.run_leave rfl)
  have hRun : materialize (Stream.fromVector twoRows) (Memory.target.keyed []).ref
      (fun rec => .ok rec.key) (deltaOptions [9] 1) ⟨0, 5, 0⟩ emptyMemory = some (.ok _, _) :=
    congrArg (Option.bind · _) hLoop
  have hSource : Denotes (Stream.fromVector twoRows) twoRows .done :=
    Stream.fromVector_denotes (by simp [twoRows, uint32Size])
  have hAgain : Denotes (Stream.fromVector twoRows.reverse) twoRows.reverse .done :=
    Stream.fromVector_denotes (by simp [twoRows, uint32Size])
  have hKeys : ∀ rec ∈ twoRows, rec.key ≠ [] ∧ rec.key ≠ watermarkKey [9] ∧
      rec.key.length < 256 ^ 4 := by decide
  have hSuits : SuitsMark (fun rec => .ok rec.key) [9] (Stream.fromVector twoRows) := by
    intro rec hBrings key hKey
    obtain rfl := Except.ok.inj hKey
    exact hKeys rec ((hSource.brings_iff rec).mp hBrings)
  have hId : ([9] : Bytes).length < 256 ^ 4 := by decide
  obtain ⟨hRises, hRerun⟩ := watermark_rises (Memory.target.keyed []) hId
  refine ⟨_, _, hRun, rfl, ?_, ?_⟩
  · exact hRises _ _ (.run .start rfl rfl hSuits hRun)
  · exact hRerun Bytes _ twoRows _ _ _ _ _ _ rfl rfl hSuits hSource hRun _ _ .done 1 ⟨0, 6, 0⟩ hAgain
      (List.reverse_subset.mpr (List.Subset.refl _))

/-! ## An id that does not fit -/

/-- The length of an id of `2 ^ 32` bytes is stored as zero, and its first bytes are
read as the length of the last key. -/
theorem decodeWatermark_long {n : ℕ} (hn : n % 256 ^ 4 = 0) (hSome : 4 ≤ n) (last : Bytes)
    (time : Int64) :
    ∃ w, decodeWatermark (encodeWatermark ⟨List.replicate n 0, last, time⟩) = .ok w ∧
      w.lastKey = [] := by
  let len₁ := LittleEndian.toBytes 4 n
  let rest := List.replicate n (0 : Byte) ++ (LittleEndian.toBytes 4 last.length ++ last)
  let stamp := LittleEndian.toBytes 8 time.toBitVec.toNat
  have hBytes : encodeWatermark ⟨List.replicate n 0, last, time⟩ = stamp ++ (len₁ ++ rest) := by
    simp [encodeWatermark, stamp, len₁, rest]
  have hSize : stamp.length = 8 := by simp [stamp]
  have hSize₁ : len₁.length = 4 := by simp [len₁]
  have h₁ : LittleEndian.ofBytes len₁ = 0 := by rw [LittleEndian.ofBytes_toBytes, hn]
  have h₂ : rest.take 4 = List.replicate 4 0 := by
    rw [List.take_append_of_le_length (by simpa using hSome), List.take_replicate,
      Nat.min_eq_left hSome]
  have hRest : 4 ≤ rest.length := by
    simp only [rest, List.length_append, List.length_replicate]
    omega
  have hAt₁ : (stamp ++ (len₁ ++ rest)).drop 8 = len₁ ++ rest := List.drop_left' hSize
  have hAt₂ : (stamp ++ (len₁ ++ rest)).drop (8 + 4) = rest := by
    rw [← List.drop_drop, hAt₁, List.drop_left' hSize₁]
  have hLength : (stamp ++ (len₁ ++ rest)).length = 12 + rest.length := by
    simp only [List.length_append, hSize, hSize₁]
    omega
  have hZero : LittleEndian.ofBytes (List.replicate 4 (0 : Byte)) = 0 := by decide
  rw [hBytes, decodeWatermark]
  simp only [hAt₁, hAt₂, List.take_left' hSize₁, h₁, Nat.add_zero, h₂, hZero, hLength, List.take_zero]
  rw [if_neg (by omega), if_neg (by omega), if_neg (by omega), if_neg (by omega)]
  exact ⟨_, rfl, rfl⟩

theorem readFloor_of_stored {ops : TargetOps σ} {opts : MaterializeOptions} {s s' : σ} {raw : Bytes}
    {w : WatermarkRecord} (hMode : opts.mode = .delta) (hId : opts.watermarkId ≠ [])
    (hGet : ops.get (watermarkKey opts.watermarkId) s = (.ok (some raw), s'))
    (hDecode : decodeWatermark raw = .ok w) : readFloor ops opts s = (.ok w.lastKey, s') := by
  rw [readFloor, if_pos hMode, if_neg (by simpa using hId), hGet]
  simp only [hDecode]

/-- What a first run with the watermark `id` leaves. -/
def markedOnce (id : Bytes) : Memory :=
  firstRowOnly.insert (watermarkKey id) (encodeWatermark ⟨id, [1], 5⟩)

theorem markedOnce_get (id : Bytes) : Memory.target.ops.get (watermarkKey id) (markedOnce id) =
    (.ok (some (encodeWatermark ⟨id, [1], 5⟩)), markedOnce id) := by
  have hStored := congrFun (firstRowOnly.contents_insert (watermarkKey id)
    (encodeWatermark ⟨id, [1], 5⟩)) (watermarkKey id)
  rw [Function.update_self] at hStored
  rw [← hStored]
  rfl

/-- When the last key of the watermark is lost, the row is written again. -/
theorem rerun_of_lost {id : Bytes} (hId : id ≠ []) (hLost : ∃ w,
      decodeWatermark (encodeWatermark ⟨id, [1], 5⟩) = .ok w ∧ w.lastKey = []) :
    ∃ result result' s'', materialize (Stream.fromVector [firstRow]) (Memory.target.keyed []).ref
        (fun rec => .ok rec.key) (deltaOptions id 1) ⟨0, 5, 0⟩ emptyMemory =
          some (.ok result, markedOnce id) ∧
      materialize (Stream.fromVector [firstRow]) (Memory.target.keyed []).ref
        (fun rec => .ok rec.key) (deltaOptions id 1) ⟨0, 6, 0⟩ (markedOnce id) =
          some (.ok result', s'') ∧ result'.rowsWritten = 1 := by
  have hMode : (deltaOptions id 1).mode = .delta := rfl
  have hRead : readFloor Memory.target.ops (deltaOptions id 1) emptyMemory =
      (.ok [], emptyMemory) := by
    rw [readFloor, if_pos hMode, if_neg (by simpa [deltaOptions] using hId)]
    rfl
  have hLoop : Loop.run (chunkTurn Memory.target.ops [] (fun rec => .ok rec.key)
      (deltaOptions id 1) []) (Stream.fromVector [firstRow], Job.start emptyMemory) =
        some (.ok (), _) := (Loop.run_again rfl).trans (Loop.run_leave rfl)
  have hFirst : Outcome Memory.target.ops [] (fun rec => .ok rec.key) (deltaOptions id 1)
      (Stream.fromVector [firstRow]) ⟨0, 5, 0⟩ emptyMemory (.ok _) (markedOnce id) :=
    .finished rfl hRead rfl hLoop rfl rfl
  obtain ⟨w, hDecode, hNil⟩ := hLost
  have hReadAgain : readFloor Memory.target.ops (deltaOptions id 1) (markedOnce id) =
      (.ok [], markedOnce id) := by
    rw [readFloor_of_stored hMode hId (markedOnce_get id) hDecode, hNil]
  have hLoopAgain : Loop.run (chunkTurn Memory.target.ops [] (fun rec => .ok rec.key)
      (deltaOptions id 1) []) (Stream.fromVector [firstRow], Job.start (markedOnce id)) =
        some (.ok (), _) := (Loop.run_again rfl).trans (Loop.run_leave rfl)
  have hSecond : Outcome Memory.target.ops [] (fun rec => .ok rec.key) (deltaOptions id 1)
      (Stream.fromVector [firstRow]) ⟨0, 6, 0⟩ (markedOnce id) (.ok _) _ :=
    .finished rfl hReadAgain rfl hLoopAgain rfl rfl
  exact ⟨_, _, _, hFirst.eq, hSecond.eq, rfl⟩

/-- With an id of `2 ^ 32` bytes, the rerun of a successful run writes its row again. -/
theorem rerun_writes_again : ∃ id : Bytes, id.length = 256 ^ 4 ∧
    Memory.contents emptyMemory (watermarkKey id) = none ∧
    SuitsMark (fun rec => .ok rec.key) id (Stream.fromVector [firstRow]) ∧
    Denotes (Stream.fromVector [firstRow]) [firstRow] .done ∧
    ∃ result s' result' s'',
      materialize (Stream.fromVector [firstRow]) (Memory.target.keyed []).ref
          (fun rec => .ok rec.key) (deltaOptions id 1) ⟨0, 5, 0⟩ emptyMemory =
            some (.ok result, s') ∧
      materialize (Stream.fromVector [firstRow]) (Memory.target.keyed []).ref
          (fun rec => .ok rec.key) (deltaOptions id 1) ⟨0, 6, 0⟩ s' = some (.ok result', s'') ∧
      result'.rowsWritten = 1 := by
  have hSome : 4 ≤ 256 ^ 4 := by norm_num
  obtain ⟨id, hLength, hLost⟩ : ∃ id : Bytes, id.length = 256 ^ 4 ∧ ∃ w,
      decodeWatermark (encodeWatermark ⟨id, [1], 5⟩) = .ok w ∧ w.lastKey = [] :=
    ⟨List.replicate (256 ^ 4) 0, List.length_replicate,
      decodeWatermark_long (Nat.mod_self _) hSome [1] 5⟩
  have hId : id ≠ [] := by
    rintro rfl
    norm_num at hLength
  have hSource : Denotes (Stream.fromVector [firstRow]) [firstRow] .done :=
    Stream.fromVector_denotes (by simp [uint32Size])
  obtain ⟨result, result', s'', hRun, hRerun, hRows⟩ := rerun_of_lost hId hLost
  refine ⟨id, hLength, rfl, ?_, hSource, result, _, result', s'', hRun, hRerun, hRows⟩
  intro rec hBrings key hKey
  obtain rfl := Except.ok.inj hKey
  obtain rfl := List.mem_singleton.mp ((hSource.brings_iff rec).mp hBrings)
  refine ⟨by decide, ?_, by decide⟩
  intro hSame
  have hKeyLength := congrArg List.length hSame
  rw [watermarkKey, List.length_append, hLength] at hKeyLength
  simp [firstRow] at hKeyLength

end CelerMem.Materialization
