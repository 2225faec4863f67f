import CelerMem.Materialization.MaterializeSteps
import CelerMem.Materialization.Progress
import Mathlib

/-! What a run that got through leaves behind: the rows of its source, over what was
in the table before it or, in Replace mode, over what the wipe has left. -/
namespace CelerMem.Materialization

open Overlay

variable {σ T : Type}

/-- A table of a backend whose batches apply their operations in order when they
succeed. Nothing is said about a batch that fails. -/
structure OrderedTable (σ : Type) where
  ops : TargetOps σ
  tableName : Bytes
  contents : σ → Bytes → Option Bytes
  batch_law : ∀ batch s s', (∀ op ∈ batch, op.cfName = tableName) →
    ops.batch batch s = (.ok (), s') → contents s' = batch.foldl applyOp (contents s)

/-- One whose scans, when they succeed, list what is under the prefix. -/
structure ScannedTable (σ : Type) extends OrderedTable σ where
  scan_law : ∀ pfx s kvs s', ops.prefixScan pfx s = (.ok kvs, s') →
    contents s' = contents s ∧
      ∀ kv, kv ∈ kvs ↔ pfx <+: kv.key ∧ contents s kv.key = some kv.value

def OrderedTable.ref (table : OrderedTable σ) : TargetRef σ := ⟨some table.ops, table.tableName⟩

/-- Atomic targets are such tables. -/
def AtomicTarget.table (target : AtomicTarget σ) (tableName : Bytes) : ScannedTable σ where
  ops := target.ops
  tableName := tableName
  contents := target.contents
  batch_law batch s s' _ hOk := by
    have hLaw := target.batch_law batch s
    rw [hOk] at hLaw
    rcases hLaw with ⟨-, hContents⟩ | ⟨⟨e, hError⟩, -⟩
    · exact hContents
    · cases hError
  scan_law pfx s kvs s' hOk := by
    have hLaw := target.scan_law pfx s
    rw [hOk] at hLaw
    exact ⟨hLaw.1, hLaw.2 kvs rfl⟩

/-! ## The write loop -/

/-- What a row is written as. -/
def Writes [Codec T] (keyfn : Record T → Result Bytes) (rec : Record T) (w : Bytes × Bytes) : Prop :=
  keyfn rec = .ok w.1 ∧ Codec.encode rec.value = .ok w.2

section Held
variable (table : OrderedTable σ) (base : Bytes → Option Bytes)

/-- After taking `writes`: the table with what is pending over it. -/
def Held (writes : List (Bytes × Bytes)) (job : Job σ) : Prop :=
  ∃ held, job.pending = held.map (putOp table.tableName) ∧
    overlay (table.contents job.target) held = overlay base writes ∧
    job.result.metrics.rowsOut = writes.length

variable {table base} {writes : List (Bytes × Bytes)} {job job' : Job σ}

theorem Held.push (h : Held table base writes job) (w : Bytes × Bytes) :
    Held table base (writes ++ [w]) (job.push table.tableName w.1 w.2) := by
  obtain ⟨held, hPending, hContents, hRows⟩ := h
  refine ⟨held ++ [w], ?_, ?_, ?_⟩
  · show job.pending ++ _ = _
    rw [hPending, List.map_append]
    rfl
  · rw [overlay_append, overlay_append, ← hContents]
    rfl
  · rw [List.length_append, ← hRows]
    rfl

/-- A flush that succeeds leaves nothing pending, however much there was. -/
theorem Held.flush {mode : MaterializeMode} (hMode : mode ≠ .dryRun)
    (h : Held table base writes job)
    (hOk : Materialization.flush table.ops mode job = (.ok (), job')) :
    Held table base writes job' ∧ job'.pending = [] := by
  unfold Materialization.flush at hOk
  by_cases hEmpty : job.pending.isEmpty = true
  · rw [if_pos hEmpty] at hOk
    obtain rfl : job = job' := congrArg Prod.snd hOk
    exact ⟨h, List.isEmpty_iff.mp hEmpty⟩
  · rw [if_neg hEmpty, if_neg hMode] at hOk
    obtain ⟨held, hPending, hContents, hRows⟩ := h
    cases hBatch : table.ops.batch job.pending job.target with
    | mk r s =>
        rw [hBatch] at hOk
        cases r with
        | error e => cases congrArg Prod.fst hOk
        | ok =>
            obtain rfl : job.flushed s = job' := congrArg Prod.snd hOk
            refine ⟨⟨[], rfl, ?_, hRows⟩, rfl⟩
            have hTable : ∀ op ∈ job.pending, op.cfName = table.tableName := by
              intro op hMem
              rw [hPending] at hMem
              obtain ⟨w, -, rfl⟩ := List.mem_map.mp hMem
              rfl
            rw [overlay_nil, ← hContents]
            show table.contents s = _
            rw [table.batch_law job.pending job.target s hTable hBatch, hPending]
            exact foldl_applyOp_puts _ _ held

section Rows
variable [Codec T] {keyfn : Record T → Result Bytes} {opts : MaterializeOptions}
  {deltaFloor : Bytes}

theorem Held.writeRow (hDry : opts.mode ≠ .dryRun) (hDelta : opts.mode ≠ .delta) {rec : Record T}
    (h : Held table base writes job)
    (hOk : Materialization.writeRow table.ops table.tableName keyfn opts deltaFloor rec job =
      (.ok (), job')) :
    ∃ w, Writes keyfn rec w ∧ Held table base (writes ++ [w]) job' := by
  unfold Materialization.writeRow at hOk
  have hSkip : ∀ key, skips opts.mode deltaFloor key = false := by
    intro key
    simp [skips, hDelta]
  cases hKey : keyfn rec with
  | error e => simp [hKey] at hOk
  | ok key =>
      cases hValue : Codec.encode rec.value with
      | error e => simp [hKey, hSkip, hValue] at hOk
      | ok value =>
          have hHeld : Held table base writes job.countIn := h
          have hPush := hHeld.push (key, value)
          simp only [hKey, hSkip, hValue, Bool.false_eq_true, if_false] at hOk
          refine ⟨(key, value), ⟨hKey, hValue⟩, ?_⟩
          by_cases hFull :
              opts.flushBatchSize ≤ (job.countIn.push table.tableName key value).pending.length
          · rw [if_pos hFull] at hOk
            exact (hPush.flush hDry hOk).1
          · rw [if_neg hFull] at hOk
            obtain rfl : _ = job' := congrArg Prod.snd hOk
            exact hPush

theorem Held.writeRows (hDry : opts.mode ≠ .dryRun) (hDelta : opts.mode ≠ .delta)
    {recs : List (Record T)} (h : Held table base writes job)
    (hOk : Materialization.writeRows table.ops table.tableName keyfn opts deltaFloor recs job =
      (.ok (), job')) :
    ∃ more, List.Forall₂ (Writes keyfn) recs more ∧ Held table base (writes ++ more) job' := by
  induction recs generalizing writes job with
  | nil =>
      obtain rfl : job = job' := congrArg Prod.snd hOk
      exact ⟨[], .nil, by rwa [List.append_nil]⟩
  | cons rec recs ih =>
      rw [Materialization.writeRows] at hOk
      cases hRow : Materialization.writeRow table.ops table.tableName keyfn opts deltaFloor rec job with
      | mk r job₁ =>
          rw [hRow] at hOk
          cases r with
          | error e => cases congrArg Prod.fst hOk
          | ok =>
              obtain ⟨w, hWrite, hHeld⟩ := h.writeRow hDry hDelta hRow
              obtain ⟨more, hMore, hAll⟩ := ih hHeld hOk
              rw [List.append_assoc] at hAll
              exact ⟨w :: more, .cons hWrite hMore, hAll⟩

/-- When the loop gets through, each row has been taken once, whatever chunks the rows
came in. -/
theorem Held.chunks (hDry : opts.mode ≠ .dryRun) (hDelta : opts.mode ≠ .delta)
    {source : StreamHandle (Record T)} {rows : List (Record T)} {e : Ending}
    (hSource : Denotes source rows e) (h : Held table base writes job)
    (hOk : Loop.run (chunkTurn table.ops table.tableName keyfn opts deltaFloor) (source, job) =
      some (.ok (), job')) :
    ∃ more, List.Forall₂ (Writes keyfn) rows more ∧ Held table base (writes ++ more) job' := by
  induction hSource generalizing writes job with
  | done hPull =>
      rw [Loop.run_leave (ChunkPass.ended hPull).eq] at hOk
      obtain ⟨-, rfl⟩ := Prod.mk.inj (Option.some.inj hOk)
      exact ⟨[], .nil, by rwa [List.append_nil]⟩
  | error hPull =>
      rw [Loop.run_leave (ChunkPass.failed hPull).eq] at hOk
      cases (Prod.mk.inj (Option.some.inj hOk)).1
  | @chunk _ _ c _ _ hPull _ ih =>
      cases hRows : Materialization.writeRows table.ops table.tableName keyfn opts deltaFloor
          c.toList job with
      | mk answer job₁ =>
          cases answer with
          | error e =>
              rw [Loop.run_leave (ChunkPass.stopped hPull hRows).eq] at hOk
              cases (Prod.mk.inj (Option.some.inj hOk)).1
          | ok =>
              obtain ⟨first, hFirst, hHeld⟩ := h.writeRows hDry hDelta hRows
              rw [Loop.run_again (ChunkPass.passed hPull hRows).eq] at hOk
              obtain ⟨more, hMore, hAll⟩ := ih hHeld hOk
              rw [List.append_assoc] at hAll
              exact ⟨first ++ more, List.rel_append hFirst hMore, hAll⟩

end Rows
end Held

/-! ## Whole runs -/

section Whole
variable [Codec T] {keyfn : Record T → Result Bytes} {opts : MaterializeOptions}

/-- When a run that is neither Delta nor DryRun succeeds, the wipe has succeeded, and
the rows are over what it left. -/
theorem materialize_after_clear [Allocation] (table : OrderedTable σ) (hDry : opts.mode ≠ .dryRun)
    (hDelta : opts.mode ≠ .delta) {source : StreamHandle (Record T)} {rows : List (Record T)}
    {e : Ending} (hSource : Denotes source rows e) {clock : ClockReadings} {s s' : σ}
    {result : MaterializeResult}
    (hRun : materialize source table.ref keyfn opts clock s = some (.ok result, s')) :
    ∃ s₀ writes, clearPrefix table.ops table.tableName opts s = (.ok (), s₀) ∧
      List.Forall₂ (Writes keyfn) rows writes ∧
      table.contents s' = overlay (table.contents s₀) writes ∧
      result.rowsWritten = rows.length := by
  cases materialize_outcome hRun with
  | @finished _ s₀ _ _ _ job' hClear hRead hRoom hLoop hFlush hAdvance =>
      rw [readFloor_of_ne_delta _ hDelta] at hRead
      obtain ⟨-, rfl⟩ := Prod.mk.inj hRead
      rw [advanceWatermark_of_ne_delta _ hDelta] at hAdvance
      obtain ⟨-, rfl⟩ := Prod.mk.inj hAdvance
      have hStart : Held table (table.contents s₀) [] (Job.start s₀) := ⟨[], rfl, rfl, rfl⟩
      obtain ⟨writes, hWrites, hHeld⟩ := hStart.chunks hDry hDelta hSource hLoop
      obtain ⟨⟨held, hPending, hContents, hRows⟩, hNone⟩ := hHeld.flush hDry hFlush
      obtain rfl : held = [] := by
        rw [hNone] at hPending
        exact List.map_eq_nil_iff.mp hPending.symm
      exact ⟨s₀, writes, hClear, hWrites, hContents, hRows.trans hWrites.length_eq.symm⟩

theorem writes_rightUnique : Relator.RightUnique (Writes keyfn) := by
  intro rec w w' h h'
  apply Prod.ext
  · exact Except.ok.inj (h.1.symm.trans h'.1)
  · exact Except.ok.inj (h.2.symm.trans h'.2)

theorem mem_keys_iff {rows : List (Record T)} {writes : List (Bytes × Bytes)}
    (h : List.Forall₂ (Writes keyfn) rows writes) (k : Bytes) :
    k ∈ writes.map Prod.fst ↔ ∃ rec ∈ rows, keyfn rec = .ok k := by
  induction h with
  | nil => simp
  | cons hHead _ ih =>
      rw [List.map_cons, List.mem_cons, ih, List.exists_mem_cons_iff, hHead.1, Except.ok.injEq,
        eq_comm]

/-! ## Append and Upsert -/

variable (opts) in
theorem upsert_overlays [Allocation] (table : OrderedTable σ) (hMode : opts.mode = .append ∨ opts.mode = .upsert)
    {source : StreamHandle (Record T)} {rows : List (Record T)} {e : Ending}
    (hSource : Denotes source rows e) {clock : ClockReadings} {s s' : σ} {result : MaterializeResult}
    (hRun : materialize source table.ref keyfn opts clock s = some (.ok result, s')) :
    ∃ writes, List.Forall₂ (Writes keyfn) rows writes ∧
      table.contents s' = overlay (table.contents s) writes ∧ result.rowsWritten = rows.length := by
  have hDry : opts.mode ≠ .dryRun := by
    rcases hMode with h | h <;> simp [h]
  have hDelta : opts.mode ≠ .delta := by
    rcases hMode with h | h <;> simp [h]
  have hReplace : opts.mode ≠ .replace := by
    rcases hMode with h | h <;> simp [h]
  obtain ⟨s₀, writes, hClear, hRest⟩ := materialize_after_clear table hDry hDelta hSource hRun
  rw [clearPrefix, if_neg hReplace] at hClear
  obtain ⟨-, rfl⟩ := Prod.mk.inj hClear
  exact ⟨writes, hRest⟩

end Whole

/-- Append and Upsert: a run over a source that ends in Done returns, and when it
succeeds the rows are over the initial contents, in stream order. A run over the same
rows in other chunks and with another flush size leaves the same. -/
theorem materialize_overlays [Allocation] [Codec T] (table : OrderedTable σ) (keyfn : Record T → Result Bytes)
    (opts : MaterializeOptions) (hMode : opts.mode = .append ∨ opts.mode = .upsert)
    {source : StreamHandle (Record T)} {rows : List (Record T)} (hSource : Denotes source rows .done)
    (clock : ClockReadings) (s : σ) :
    ∃ r s', materialize source table.ref keyfn opts clock s = some (r, s') ∧
      ∀ result, r = .ok result →
        (∃ writes, List.Forall₂ (Writes keyfn) rows writes ∧
          table.contents s' = overlay (table.contents s) writes) ∧
        result.rowsWritten = rows.length ∧
        ∀ (other : StreamHandle (Record T)) size clock₁ s₁ result₁ s₁', Denotes other rows .done →
          table.contents s₁ = table.contents s →
          materialize other table.ref keyfn { opts with flushBatchSize := size } clock₁ s₁ =
            some (.ok result₁, s₁') →
          table.contents s₁' = table.contents s' ∧ result₁.rowsWritten = result.rowsWritten := by
  obtain ⟨r, s', hRun⟩ := materialize_returns hSource table.ref keyfn opts clock s
  refine ⟨r, s', hRun, ?_⟩
  rintro result rfl
  obtain ⟨writes, hWrites, hContents, hRows⟩ := upsert_overlays opts table hMode hSource hRun
  refine ⟨⟨writes, hWrites, hContents⟩, hRows, ?_⟩
  intro other size clock₁ s₁ result₁ s₁' hOther hSame hRun₁
  obtain ⟨writes₁, hWrites₁, hContents₁, hRows₁⟩ :=
    upsert_overlays { opts with flushBatchSize := size } table hMode hOther hRun₁
  obtain rfl : writes₁ = writes := Relator.RightUnique.forall₂ writes_rightUnique hWrites₁ hWrites
  constructor
  · rw [hContents₁, hSame, hContents]
  · rw [hRows₁, hRows]

def repeatedKey : List (Record Bytes) := [⟨[1], [7]⟩, ⟨[2], [8]⟩, ⟨[1], [9]⟩]

def byPairs : MaterializeOptions := { mode := .upsert, flushBatchSize := 2 }

/-- The two rows of one key fall into different batches, and the later one stays. -/
theorem materialize_overlays_repeatedKey :
    materialize (Stream.fromVector repeatedKey) (Memory.target.table []).ref
        (fun rec => .ok rec.key) byPairs ⟨0, 0, 0⟩ ⟨[⟨[2], [0]⟩], by simp, []⟩ =
      some (.ok ⟨3, [2], 3, 3, 2, 3, 0⟩, ⟨[⟨[1], [9]⟩, ⟨[2], [8]⟩], by simp, []⟩) ∧
    ∃ writes, List.Forall₂ (Writes fun rec => .ok rec.key) repeatedKey writes ∧
      Memory.contents ⟨[⟨[1], [9]⟩, ⟨[2], [8]⟩], by simp, []⟩ =
        overlay (Memory.contents ⟨[⟨[2], [0]⟩], by simp, []⟩) writes := by
  have hLoop : Loop.run (chunkTurn Memory.target.ops [] (fun rec => .ok rec.key) byPairs [])
      (Stream.fromVector repeatedKey, Job.start ⟨[⟨[2], [0]⟩], by simp, []⟩) = some (.ok (), _) :=
    (Loop.run_again rfl).trans (Loop.run_leave rfl)
  have hRun : materialize (Stream.fromVector repeatedKey) (Memory.target.table []).ref
      (fun rec => .ok rec.key) byPairs ⟨0, 0, 0⟩ ⟨[⟨[2], [0]⟩], by simp, []⟩ =
        some (.ok ⟨3, [2], 3, 3, 2, 3, 0⟩, _) := congrArg (Option.bind · _) hLoop
  have hSource : Denotes (Stream.fromVector repeatedKey) repeatedKey .done :=
    Stream.fromVector_denotes (by simp [repeatedKey, uint32Size])
  obtain ⟨r, s', hSame, hSuccess⟩ := materialize_overlays (Memory.target.table []).toOrderedTable
    (fun rec => .ok rec.key) byPairs (Or.inr rfl) hSource ⟨0, 0, 0⟩ ⟨[⟨[2], [0]⟩], by simp, []⟩
  obtain ⟨rfl, rfl⟩ := Prod.mk.inj (Option.some.inj (hRun.symm.trans hSame))
  exact ⟨hRun, (hSuccess _ rfl).1⟩

/-! ## Replace -/

theorem foldl_applyOp_dels (tableName : Bytes) (m : Bytes → Option Bytes) (kvs : List KVPair)
    (k : Bytes) :
    (kvs.map fun kv => (⟨.del, tableName, kv.key, none⟩ : BatchOp)).foldl applyOp m k =
      if k ∈ kvs.map KVPair.key then none else m k := by
  induction kvs generalizing m with
  | nil => rfl
  | cons kv kvs ih =>
      rw [List.map_cons, List.foldl_cons, ih, List.map_cons]
      by_cases hHead : k = kv.key
      · simp [hHead, applyOp]
      · simp [hHead, applyOp, Function.update_of_ne]

/-- The wipe, when it succeeds, takes what is under the prefix and nothing else. -/
theorem clearPrefix_wipes (table : ScannedTable σ) {opts : MaterializeOptions}
    (hMode : opts.mode = .replace) {s s₀ : σ}
    (hOk : clearPrefix table.ops table.tableName opts s = (.ok (), s₀)) (k : Bytes) :
    (opts.replacePrefix <+: k → table.contents s₀ k = none) ∧
      (¬ opts.replacePrefix <+: k → table.contents s₀ k = table.contents s k) := by
  unfold clearPrefix at hOk
  rw [if_pos hMode] at hOk
  cases hScan : table.ops.prefixScan opts.replacePrefix s with
  | mk r s₁ =>
      rw [hScan] at hOk
      cases r with
      | error e => cases congrArg Prod.fst hOk
      | ok kvs =>
          obtain ⟨hKept, hListed⟩ := table.scan_law _ _ _ _ hScan
          have hMem : k ∈ kvs.map KVPair.key ↔
              opts.replacePrefix <+: k ∧ table.contents s k ≠ none := by
            rw [List.mem_map, Option.ne_none_iff_exists']
            constructor
            · rintro ⟨kv, hkv, rfl⟩
              exact ⟨((hListed kv).mp hkv).1, kv.value, ((hListed kv).mp hkv).2⟩
            · rintro ⟨hPrefix, v, hValue⟩
              exact ⟨⟨k, v⟩, (hListed ⟨k, v⟩).mpr ⟨hPrefix, hValue⟩, rfl⟩
          have hWiped : table.contents s₀ k =
              if k ∈ kvs.map KVPair.key then none else table.contents s k := by
            cases kvs with
            | nil =>
                obtain rfl : s₁ = s₀ := congrArg Prod.snd hOk
                exact congrFun hKept k
            | cons kv kvs =>
                have hTable : ∀ op ∈ (kv :: kvs).map fun kv =>
                    (⟨.del, table.tableName, kv.key, none⟩ : BatchOp),
                    op.cfName = table.tableName := by
                  intro op hOp
                  obtain ⟨kv', -, rfl⟩ := List.mem_map.mp hOp
                  rfl
                rw [table.batch_law _ _ _ hTable hOk, foldl_applyOp_dels, hKept]
          rw [hWiped]
          constructor
          · intro hPrefix
            by_cases hNone : table.contents s k = none
            · rw [hNone, ite_self]
            · exact if_pos (hMem.mpr ⟨hPrefix, hNone⟩)
          · intro hOutside
            exact if_neg fun h => hOutside (hMem.mp h).1

/-- Replace: a run over a source that ends in Done returns, and when it succeeds there
are under the prefix exactly the keys of the rows, each with its last value; outside of
it the rows are over what was there. -/
theorem materialize_replaces [Allocation] [Codec T] (table : ScannedTable σ) (keyfn : Record T → Result Bytes)
    (opts : MaterializeOptions) (hMode : opts.mode = .replace)
    {source : StreamHandle (Record T)} {rows : List (Record T)} (hSource : Denotes source rows .done)
    (clock : ClockReadings) (s : σ) :
    ∃ r s', materialize source table.ref keyfn opts clock s = some (r, s') ∧
      ∀ result, r = .ok result → ∃ writes, List.Forall₂ (Writes keyfn) rows writes ∧
        (∀ k, opts.replacePrefix <+: k →
          table.contents s' k = overlay (fun _ => none) writes k ∧
          (table.contents s' k ≠ none ↔ ∃ rec ∈ rows, keyfn rec = .ok k)) ∧
        (∀ k, ¬ opts.replacePrefix <+: k →
          table.contents s' k = overlay (table.contents s) writes k ∧
          ((∀ rec ∈ rows, keyfn rec ≠ .ok k) → table.contents s' k = table.contents s k)) := by
  have hDry : opts.mode ≠ .dryRun := by simp [hMode]
  have hDelta : opts.mode ≠ .delta := by simp [hMode]
  obtain ⟨r, s', hRun⟩ := materialize_returns hSource table.ref keyfn opts clock s
  refine ⟨r, s', hRun, ?_⟩
  rintro result rfl
  obtain ⟨s₀, writes, hClear, hWrites, hContents, -⟩ :=
    materialize_after_clear table.toOrderedTable hDry hDelta hSource hRun
  refine ⟨writes, hWrites, ?_, ?_⟩
  · intro k hPrefix
    have hWiped := (clearPrefix_wipes table hMode hClear k).1 hPrefix
    have hRows : table.contents s' k = overlay (fun _ => none) writes k := by
      rw [hContents]
      exact overlay_congr (Or.inr hWiped)
    refine ⟨hRows, ?_⟩
    rw [hRows, overlay_ne_none_iff, mem_keys_iff hWrites]
    exact or_iff_left (not_not.mpr rfl)
  · intro k hOutside
    have hKept := (clearPrefix_wipes table hMode hClear k).2 hOutside
    have hRows : table.contents s' k = overlay (table.contents s) writes k := by
      rw [hContents]
      exact overlay_congr (Or.inr hKept)
    refine ⟨hRows, ?_⟩
    intro hOther
    rw [hRows]
    apply overlay_of_not_mem
    rw [mem_keys_iff hWrites]
    rintro ⟨rec, hMem, hKey⟩
    exact hOther rec hMem hKey

def underOne : MaterializeOptions :=
  { mode := .replace, flushBatchSize := 0, replacePrefix := [1] }

/-- What is under the prefix goes, what is outside stays unless a row overwrites it. -/
theorem materialize_replaces_underOne :
    materialize (Stream.fromVector repeatedKey) (Memory.target.table []).ref
        (fun rec => .ok rec.key) underOne ⟨0, 0, 0⟩
        ⟨[⟨[1, 4], [5]⟩, ⟨[2], [0]⟩, ⟨[3], [6]⟩], by simp, []⟩ =
      some (.ok ⟨3, [2], 3, 3, 3, 3, 0⟩,
        ⟨[⟨[1], [9]⟩, ⟨[2], [8]⟩, ⟨[3], [6]⟩], by simp, []⟩) ∧
    ∃ writes, List.Forall₂ (Writes fun rec => .ok rec.key) repeatedKey writes ∧
      ∀ k, [1] <+: k → Memory.contents ⟨[⟨[1], [9]⟩, ⟨[2], [8]⟩, ⟨[3], [6]⟩], by simp, []⟩ k =
        overlay (fun _ => none) writes k := by
  have hLoop : Loop.run (chunkTurn Memory.target.ops [] (fun rec => .ok rec.key) underOne [])
      (Stream.fromVector repeatedKey, Job.start ⟨[⟨[2], [0]⟩, ⟨[3], [6]⟩], by simp, []⟩) =
        some (.ok (), _) := (Loop.run_again rfl).trans (Loop.run_leave rfl)
  have hRun : materialize (Stream.fromVector repeatedKey) (Memory.target.table []).ref
      (fun rec => .ok rec.key) underOne ⟨0, 0, 0⟩
      ⟨[⟨[1, 4], [5]⟩, ⟨[2], [0]⟩, ⟨[3], [6]⟩], by simp, []⟩ =
        some (.ok ⟨3, [2], 3, 3, 3, 3, 0⟩, _) := congrArg (Option.bind · _) hLoop
  have hSource : Denotes (Stream.fromVector repeatedKey) repeatedKey .done :=
    Stream.fromVector_denotes (by simp [repeatedKey, uint32Size])
  obtain ⟨r, s', hSame, hSuccess⟩ := materialize_replaces (Memory.target.table [])
    (fun rec => .ok rec.key) underOne rfl hSource ⟨0, 0, 0⟩
    ⟨[⟨[1, 4], [5]⟩, ⟨[2], [0]⟩, ⟨[3], [6]⟩], by simp, []⟩
  obtain ⟨rfl, rfl⟩ := Prod.mk.inj (Option.some.inj (hRun.symm.trans hSame))
  obtain ⟨writes, hWrites, hUnder, -⟩ := hSuccess _ rfl
  exact ⟨hRun, writes, hWrites, fun k hPrefix => (hUnder k hPrefix).1⟩

end CelerMem.Materialization
