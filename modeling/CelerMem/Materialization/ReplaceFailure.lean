import CelerMem.Materialization.Overwrite

/-! Replace mode when the run fails: what was under the prefix is gone from the wipe on,
but for the rows that have been flushed. -/
namespace CelerMem.Materialization

open Batches Overlay

variable {σ T α : Type}

/-- Pulls of a stream bring these elements, and `next` is what is left of it. -/
inductive Pulls : StreamHandle α → List α → StreamHandle α → Prop where
  | nothing (h : StreamHandle α) : Pulls h [] h
  | chunk {h h' next : StreamHandle α} {l : List α} {c : Chunk α} (prior : Pulls h l h')
      (hPull : h'.pull = some (.ok (some c), next)) : Pulls h (l ++ c.toList) next

/-- The scan or the deletions of the wipe fail. -/
def WipeFails (target : AtomicTarget σ) (tableName : Bytes) (opts : MaterializeOptions) (s : σ) :
    Prop :=
  ∃ e, (clearPrefix target.ops tableName opts s).1 = .error e

/-- What a wipe leaves. -/
def wiped (replacePrefix : Bytes) (m : Bytes → Option Bytes) : Bytes → Option Bytes :=
  fun k => if replacePrefix.isPrefixOf k then none else m k

/-- The key has a value, its old one or one that was written for it. -/
def Survives (before after : Bytes → Option Bytes) (writes : List (Bytes × Bytes)) (k : Bytes) :
    Prop :=
  ∃ v, after k = some v ∧ (before k = some v ∨ (k, v) ∈ writes)

/-! ## The wipe -/

section Wipe
variable {target : AtomicTarget σ} {tableName : Bytes} {opts : MaterializeOptions} {s s₀ : σ}

theorem contents_of_wipeFails {e : Error}
    (hFails : clearPrefix target.ops tableName opts s = (.error e, s₀)) :
    target.contents s₀ = target.contents s := by
  unfold clearPrefix at hFails
  split at hFails
  next =>
    have hScan := (target.scan_law opts.replacePrefix s).1
    cases hCall : target.ops.prefixScan opts.replacePrefix s with
    | mk r s₁ =>
        rw [hCall] at hFails hScan
        cases r with
        | error e' =>
            obtain ⟨-, rfl⟩ := Prod.mk.inj hFails
            exact hScan
        | ok existing =>
            dsimp only at hFails
            split at hFails
            next => cases (Prod.mk.inj hFails).1
            next =>
              have hLaw := target.batch_law
                (existing.map fun kv => ⟨.del, tableName, kv.key, none⟩) s₁
              rcases hLaw with ⟨hOk, -⟩ | ⟨-, hSame⟩
              · rw [hFails] at hOk
                cases hOk
              · rw [hFails] at hSame
                exact hSame.trans hScan
  next => cases (Prod.mk.inj hFails).1

theorem contents_of_wiped (hMode : opts.mode = .replace)
    (hOk : clearPrefix target.ops tableName opts s = (.ok (), s₀)) :
    target.contents s₀ = wiped opts.replacePrefix (target.contents s) := by
  funext k
  obtain ⟨hUnder, hOutside⟩ := clearPrefix_wipes (target.table tableName) hMode hOk k
  unfold wiped
  split
  next hPrefix => exact hUnder (List.isPrefixOf_iff_prefix.mp hPrefix)
  next hOther => exact hOutside fun hPrefix => hOther (List.isPrefixOf_iff_prefix.mpr hPrefix)

end Wipe

/-! ## The write loop over any source -/

section Loop
variable [Codec T] {target : AtomicTarget σ} {tableName deltaFloor : Bytes}
  {base : Bytes → Option Bytes} {keyfn : Record T → Result Bytes} {opts : MaterializeOptions}
  {source : StreamHandle (Record T)}

/-- Between two pulls every row that has come was taken. -/
def BetweenPulls (target : AtomicTarget σ) (tableName deltaFloor : Bytes) (base : Bytes → Option Bytes)
    (keyfn : Record T → Result Bytes) (opts : MaterializeOptions) (source : StreamHandle (Record T))
    (state : StreamHandle (Record T) × Job σ) : Prop :=
  ∃ rows, Pulls source rows state.1 ∧ (admitted keyfn opts.mode deltaFloor rows).2 = none ∧
    Taken target tableName base opts.rowsPerFlush (admitted keyfn opts.mode deltaFloor rows).1
      state.2

/-- The loop leaves with every row taken, or broken off at one of them. -/
def AfterLoop (target : AtomicTarget σ) (tableName deltaFloor : Bytes) (base : Bytes → Option Bytes)
    (keyfn : Record T → Result Bytes) (opts : MaterializeOptions) (source : StreamHandle (Record T))
    (ended : VoidResult × Job σ) : Prop :=
  ∃ rows next, Pulls source rows next ∧
    (ended.1 = .ok () ∧ Taken target tableName base opts.rowsPerFlush
        (admitted keyfn opts.mode deltaFloor rows).1 ended.2 ∨
      (∃ e, ended.1 = .error e) ∧ Stopped target base opts.rowsPerFlush
        (admitted keyfn opts.mode deltaFloor rows).1 ended.2.target)

theorem BetweenPulls.turn (hMode : opts.mode ≠ .dryRun) {state : StreamHandle (Record T) × Job σ}
    (h : BetweenPulls target tableName deltaFloor base keyfn opts source state)
    {turn : Loop.Turn (StreamHandle (Record T) × Job σ) (VoidResult × Job σ)}
    (hTurn : chunkTurn target.ops tableName keyfn opts deltaFloor state = some turn) :
    turn.Holds (BetweenPulls target tableName deltaFloor base keyfn opts source)
      (AfterLoop target tableName deltaFloor base keyfn opts source) := by
  obtain ⟨rest, job⟩ := state
  obtain ⟨rows, hRows, hNone, hTaken⟩ := h
  cases chunkTurn_pass hTurn with
  | failed hPull => exact ⟨rows, rest, hRows, Or.inr ⟨⟨_, rfl⟩, hTaken.stopped⟩⟩
  | ended hPull => exact ⟨rows, rest, hRows, Or.inl ⟨rfl, hTaken⟩⟩
  | @stopped c next e job' hPull hWrite =>
      obtain ⟨r, job'', hSame, hCase⟩ := writeRows_taken keyfn deltaFloor hMode c.toList hTaken
      obtain ⟨rfl, rfl⟩ := Prod.mk.inj (hWrite.symm.trans hSame)
      rcases hCase with ⟨hOk, -⟩ | ⟨-, hStopped⟩
      · cases hOk
      refine ⟨rows ++ c.toList, next, .chunk hRows hPull, Or.inr ⟨⟨e, rfl⟩, ?_⟩⟩
      rw [admitted_append_of_none keyfn opts.mode deltaFloor hNone]
      exact hStopped
  | @passed c next job' hPull hWrite =>
      obtain ⟨r, job'', hSame, hCase⟩ := writeRows_taken keyfn deltaFloor hMode c.toList hTaken
      obtain ⟨rfl, rfl⟩ := Prod.mk.inj (hWrite.symm.trans hSame)
      rcases hCase with ⟨-, hMore, hTaken⟩ | ⟨⟨e, hError⟩, -⟩
      · refine ⟨rows ++ c.toList, .chunk hRows hPull, ?_⟩
        rw [admitted_append_of_none keyfn opts.mode deltaFloor hNone]
        exact ⟨hMore, hTaken⟩
      · cases hError

theorem chunkTurn_afterLoop (hMode : opts.mode ≠ .dryRun) {s : σ} (hBase : target.contents s = base)
    {ended : VoidResult × Job σ}
    (hRun : Loop.run (chunkTurn target.ops tableName keyfn opts deltaFloor) (source, Job.start s) =
      some ended) :
    AfterLoop target tableName deltaFloor base keyfn opts source ended := by
  have hPos : 0 < opts.rowsPerFlush := Nat.le_max_left 1 _
  have hStart : BetweenPulls target tableName deltaFloor base keyfn opts source (source, Job.start s) :=
    ⟨[], .nothing source, rfl, taken_start target tableName hPos hBase⟩
  exact Loop.run_holds _ _ (fun state turn h => h.turn hMode) hStart hRun

/-- A failed flush at the end leaves what the batches before it wrote. -/
theorem AfterLoop.unflushed (hMode : opts.mode ≠ .dryRun) {job job' : Job σ} {e : Error}
    (h : AfterLoop target tableName deltaFloor base keyfn opts source (.ok (), job))
    (hFlush : flush target.ops opts.mode job = (.error e, job')) :
    AfterLoop target tableName deltaFloor base keyfn opts source (.error e, job') := by
  obtain ⟨rows, next, hRows, ⟨-, hTaken⟩ | ⟨⟨e, hError⟩, -⟩⟩ := h
  · obtain ⟨r, job'', hSame, hCase⟩ := flush_taken hMode hTaken
    obtain ⟨rfl, rfl⟩ := Prod.mk.inj (hFlush.symm.trans hSame)
    rcases hCase with ⟨hOk, -⟩ | ⟨-, hStopped⟩
    · cases hOk
    · exact ⟨rows, next, hRows, Or.inr ⟨⟨e, rfl⟩, hStopped⟩⟩
  · cases hError

end Loop

/-! ## Whole runs -/

/-- The writes of the flushes that succeeded: whole batches of the first rows. -/
def flushedWrites [Codec T] (keyfn : Record T → Result Bytes) (opts : MaterializeOptions)
    (rows : List (Record T)) (flushes : Nat) : List (Bytes × Bytes) :=
  ((batches opts.rowsPerFlush (admitted keyfn opts.mode [] rows).1).take flushes).flatten

section Whole
variable [Codec T] {target : AtomicTarget σ} {tableName : Bytes} {keyfn : Record T → Result Bytes}
  {opts : MaterializeOptions} {source : StreamHandle (Record T)} {clock : ClockReadings} {s s' : σ}

theorem AfterLoop.flushedWrites {base : Bytes → Option Bytes} {e : Error} {job : Job σ}
    (h : AfterLoop target tableName [] base keyfn opts source (.error e, job)) :
    ∃ rows next flushes, Pulls source rows next ∧
      target.contents job.target = overlay base (flushedWrites keyfn opts rows flushes) := by
  obtain ⟨rows, next, hRows, ⟨hOk, -⟩ | ⟨-, k, -, hContents⟩⟩ := h
  · cases hOk
  · refine ⟨rows, next, k, hRows, ?_⟩
    have hPos : 0 < opts.rowsPerFlush := Nat.le_max_left 1 _
    rw [Materialization.flushedWrites, flatten_take_batches hPos]
    exact hContents

/-- After a wipe that went through, the rows are written over what it left. -/
theorem afterLoop_wiped (hMode : opts.mode = .replace) {deltaFloor : Bytes} {s₀ s₁ : σ}
    {ended : VoidResult × Job σ} (hClear : clearPrefix target.ops tableName opts s = (.ok (), s₀))
    (hRead : readFloor target.ops opts s₀ = (.ok deltaFloor, s₁))
    (hLoop : Loop.run (chunkTurn target.ops tableName keyfn opts deltaFloor)
      (source, Job.start s₁) = some ended) :
    AfterLoop target tableName [] (wiped opts.replacePrefix (target.contents s)) keyfn opts source
      ended := by
  rw [readFloor_of_ne_delta _ (by simp [hMode])] at hRead
  obtain ⟨hFloor, rfl⟩ := Prod.mk.inj hRead
  obtain rfl := Except.ok.inj hFloor
  exact chunkTurn_afterLoop (by simp [hMode]) (contents_of_wiped hMode hClear) hLoop

/-- A failed run leaves the target as it was when the wipe failed; otherwise it leaves the
rows of the flushes that succeeded, over what the wipe has left. -/
theorem failed_replace_contents [Allocation] (hMode : opts.mode = .replace) {err : Error}
    (hRun : materialize source (target.ref tableName) keyfn opts clock s = some (.error err, s')) :
    WipeFails target tableName opts s ∧ target.contents s' = target.contents s ∨
      ¬ WipeFails target tableName opts s ∧ ∃ rows next flushes, Pulls source rows next ∧
        target.contents s' = overlay (wiped opts.replacePrefix (target.contents s))
          (flushedWrites keyfn opts rows flushes) := by
  have hDry : opts.mode ≠ .dryRun := by simp [hMode]
  have hDelta : opts.mode ≠ .delta := by simp [hMode]
  have hNotFailed {s₀} (hClear : clearPrefix target.ops tableName opts s = (.ok (), s₀)) :
      ¬ WipeFails target tableName opts s := by
    rintro ⟨e, hError⟩
    rw [hClear] at hError
    cases hError
  cases materialize_outcome hRun with
  | uncleared hClear => exact Or.inl ⟨⟨err, by rw [hClear]⟩, contents_of_wipeFails hClear⟩
  | unread hClear hRead =>
      rw [readFloor_of_ne_delta _ hDelta] at hRead
      cases hRead
  | crowded hClear hRead hRoom =>
      rw [readFloor_of_ne_delta _ hDelta] at hRead
      obtain ⟨-, rfl⟩ := Prod.mk.inj hRead
      refine Or.inr ⟨hNotFailed hClear, [], source, 0, .nothing source, ?_⟩
      exact contents_of_wiped hMode hClear
  | stopped hClear hRead hRoom hLoop =>
      exact Or.inr ⟨hNotFailed hClear, (afterLoop_wiped hMode hClear hRead hLoop).flushedWrites⟩
  | unflushed hClear hRead hRoom hLoop hFlush =>
      have hAfter := (afterLoop_wiped hMode hClear hRead hLoop).unflushed hDry hFlush
      exact Or.inr ⟨hNotFailed hClear, hAfter.flushedWrites⟩
  | unmarked hClear hRead hRoom hLoop hFlush hAdvance =>
      rw [advanceWatermark_of_ne_delta _ hDelta] at hAdvance
      cases (Prod.mk.inj hAdvance).1

end Whole

/-- Over a wiped table the keys outside of the prefix survive, and those under it that
are written again. -/
theorem survives_wiped_iff {replacePrefix k : Bytes} {before after : Bytes → Option Bytes}
    {writes : List (Bytes × Bytes)} (hAfter : after = overlay (wiped replacePrefix before) writes)
    (hHeld : before k ≠ none) :
    Survives before after writes k ↔ ¬ replacePrefix <+: k ∨ k ∈ writes.map Prod.fst := by
  have hKept : wiped replacePrefix before k ≠ none ↔ ¬ replacePrefix <+: k := by
    rw [wiped, ← List.isPrefixOf_iff_prefix]
    cases replacePrefix.isPrefixOf k with
    | true => simp
    | false => simpa using hHeld
  have hSome : after k ≠ none ↔ ¬ replacePrefix <+: k ∨ k ∈ writes.map Prod.fst := by
    rw [hAfter, overlay_ne_none_iff, hKept, or_comm]
  rw [← hSome]
  constructor
  · rintro ⟨v, hValue, -⟩
    simp [hValue]
  · intro hNotNone
    obtain ⟨v, hValue⟩ := Option.ne_none_iff_exists'.mp hNotNone
    refine ⟨v, hValue, ?_⟩
    rw [hAfter] at hValue
    rcases mem_of_overlay_eq_some hValue with hWritten | hOld
    · exact Or.inr hWritten
    · unfold wiped at hOld
      split at hOld
      next => cases hOld
      next => exact Or.inl hOld

/-- When Replace fails, every key outside of the prefix still has a value. Under the prefix
a key has one if the wipe itself has failed, and otherwise exactly if a flush before the
error wrote it. -/
theorem failed_replace_keeps [Allocation] [Codec T] (target : AtomicTarget σ) (tableName : Bytes)
    (keyfn : Record T → Result Bytes) (opts : MaterializeOptions) (hMode : opts.mode = .replace)
    (source : StreamHandle (Record T)) (clock : ClockReadings) {s s' : σ} {err : Error}
    (hRun : materialize source (target.ref tableName) keyfn opts clock s = some (.error err, s')) :
    ∃ rows next flushes, Pulls source rows next ∧
      (WipeFails target tableName opts s → target.contents s' = target.contents s) ∧
      (¬ WipeFails target tableName opts s →
        target.contents s' = overlay (wiped opts.replacePrefix (target.contents s))
          (flushedWrites keyfn opts rows flushes)) ∧
      ∀ k, target.contents s k ≠ none →
        (Survives (target.contents s) (target.contents s')
            (flushedWrites keyfn opts rows flushes) k ↔
          WipeFails target tableName opts s ∨ ¬ opts.replacePrefix <+: k ∨
            k ∈ (flushedWrites keyfn opts rows flushes).map Prod.fst) := by
  rcases failed_replace_contents hMode hRun with
    ⟨hFails, hSame⟩ | ⟨hWiped, rows, next, flushes, hRows, hContents⟩
  · refine ⟨[], source, 0, .nothing source, fun _ => hSame, fun h => absurd hFails h, ?_⟩
    intro k hHeld
    obtain ⟨v, hValue⟩ := Option.ne_none_iff_exists'.mp hHeld
    have hKept : Survives (target.contents s) (target.contents s')
        (flushedWrites keyfn opts [] 0) k := ⟨v, by rw [hSame, hValue], Or.inl hValue⟩
    exact iff_of_true hKept (Or.inl hFails)
  · refine ⟨rows, next, flushes, hRows, fun h => absurd h hWiped, fun _ => hContents, ?_⟩
    intro k hHeld
    rw [or_iff_right hWiped]
    exact survives_wiped_iff hContents hHeld

/-- Two entries under the prefix and one outside of it. -/
def heldBefore : Memory := ⟨[⟨[1, 4], [5]⟩, ⟨[1, 5], [6]⟩, ⟨[2], [0]⟩], by simp, []⟩

/-- One of them is written again before the source fails. -/
def heldAfter : Memory := ⟨[⟨[1, 4], [9]⟩, ⟨[2], [0]⟩], by simp, []⟩

def oneRowThenError : StreamHandle (Record Bytes) :=
  Stream.ofChunks [Chunk.singleton ⟨[1, 4], [9]⟩] (.error ⟨"Source", "broken"⟩)

theorem oneRowThenError_run :
    materialize oneRowThenError (Memory.target.ref []) (fun rec => .ok rec.key) underOne ⟨0, 0, 0⟩
      heldBefore = some (.error ⟨"Source", "broken"⟩, heldAfter) := by
  have hLoop : Loop.run (chunkTurn Memory.target.ops [] (fun rec => .ok rec.key) underOne [])
      (oneRowThenError, Job.start ⟨[⟨[2], [0]⟩], by simp, []⟩) =
        some (.error ⟨"Source", "broken"⟩, _) := (Loop.run_again rfl).trans (Loop.run_leave rfl)
  exact congrArg (Option.bind · _) hLoop

theorem failed_replace_keeps_oneRow :
    ∃ rows next flushes, Pulls oneRowThenError rows next ∧
      (WipeFails Memory.target [] underOne heldBefore → heldAfter.contents = heldBefore.contents) ∧
      (¬ WipeFails Memory.target [] underOne heldBefore →
        heldAfter.contents = overlay (wiped [1] heldBefore.contents)
          (flushedWrites (fun rec => .ok rec.key) underOne rows flushes)) ∧
      ∀ k, heldBefore.contents k ≠ none →
        (Survives heldBefore.contents heldAfter.contents
            (flushedWrites (fun rec => .ok rec.key) underOne rows flushes) k ↔
          WipeFails Memory.target [] underOne heldBefore ∨ ¬ [1] <+: k ∨
            k ∈ (flushedWrites (fun rec => .ok rec.key) underOne rows flushes).map Prod.fst) :=
  failed_replace_keeps Memory.target [] (fun rec => .ok rec.key) underOne rfl oneRowThenError
    ⟨0, 0, 0⟩ oneRowThenError_run

/-- The source fails after the wipe, and the entry that was not written again is lost. -/
theorem failed_replace_loses :
    materialize oneRowThenError (Memory.target.ref []) (fun rec => .ok rec.key) underOne ⟨0, 0, 0⟩
        heldBefore = some (.error ⟨"Source", "broken"⟩, heldAfter) ∧
      heldBefore.contents [1, 5] = some [6] ∧ heldAfter.contents [1, 5] = none :=
  ⟨oneRowThenError_run, by decide, by decide⟩

end CelerMem.Materialization
