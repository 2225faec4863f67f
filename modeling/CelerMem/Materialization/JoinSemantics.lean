import CelerMem.Materialization.JoinFeeds
import CelerMem.Materialization.MapStore

/-! The relational meaning of a join over a right store that is a finite map, and
when the five executors that can be pinned compute it. -/
namespace CelerMem.Materialization

open Batches

variable {L R : Type}

/-! ## The index of HashJoin -/

theorem DenseMap.lookup_tryEmplace {V : Type} (m : DenseMap V) (key sought : Bytes) (value : V) :
    (m.tryEmplace key value).lookup sought =
      (m.lookup sought).or (if sought == key then some value else none) := by
  unfold DenseMap.tryEmplace
  split
  · rename_i hKnown
    by_cases hKey : sought = key
    · obtain ⟨old, hOld⟩ := Option.isSome_iff_exists.mp (hKey ▸ hKnown)
      rw [hOld, Option.some_or]
    · simp [hKey]
  · rw [List.lookup_append]
    congr 1
    rw [List.lookup_cons]
    cases sought == key <;> rfl

theorem buildRows_uncapped (records : List (Record R)) (idx : DenseMap R) :
    ∃ idx', buildRows 0 records idx = .ok idx' ∧ ∀ key, idx'.lookup key =
      (idx.lookup key).or (NestedLoopImpl.findFirst records key) := by
  induction records generalizing idx with
  | nil => exact ⟨idx, rfl, fun key => by simp [NestedLoopImpl.findFirst]⟩
  | cons rec recs ih =>
      obtain ⟨idx', hBuild, hLookup⟩ := ih (idx.tryEmplace rec.key rec.value)
      refine ⟨idx', by simpa [buildRows] using hBuild, ?_⟩
      intro key
      rw [hLookup, DenseMap.lookup_tryEmplace, Option.or_assoc]
      congr 1
      unfold NestedLoopImpl.findFirst
      rw [List.find?_cons, BEq.comm]
      cases rec.key == key <;> simp

/-- Without a cap, the first value of each key ends up in the index. -/
theorem buildIndex_uncapped {rs : StreamHandle (Record R)} {records : List (Record R)}
    (h : Denotes rs records .done) : ∃ idx, buildIndex 0 rs = some (.ok idx) ∧
      ∀ key, idx.lookup key = NestedLoopImpl.findFirst records key := by
  suffices hRun : ∀ {rs : StreamHandle (Record R)} {records e}, Denotes rs records e → e = .done →
      ∀ idx, ∃ idx', Loop.run (buildTurn 0) (rs, idx) = some (.ok idx') ∧ ∀ key,
        idx'.lookup key = (idx.lookup key).or (NestedLoopImpl.findFirst records key) by
    obtain ⟨idx, hBuild, hLookup⟩ := hRun h rfl []
    exact ⟨idx, hBuild, fun key => by simpa using hLookup key⟩
  intro rs records e hd hEnd
  induction hd with
  | done hPull =>
      intro idx
      exact ⟨idx, Loop.run_leave (by simp [buildTurn, hPull]), by simp [NestedLoopImpl.findFirst]⟩
  | error hPull => cases hEnd
  | @chunk h h' c l e hPull hRest ih =>
      intro idx
      obtain ⟨idx₁, hRows, hFirst⟩ := buildRows_uncapped c.toList idx
      obtain ⟨idx₂, hRun, hSecond⟩ := ih hEnd idx₁
      refine ⟨idx₂, ?_, ?_⟩
      · rw [Loop.run_again (by simp [buildTurn, hPull, hRows]; rfl), hRun]
      · intro key
        rw [hSecond, hFirst, Option.or_assoc]
        unfold NestedLoopImpl.findFirst
        rw [List.find?_append, Option.map_or]

/-! ## Records of joined rows -/

def Joined.asRecord (j : Joined L R) : Record (Joined L R) := ⟨j.key, j⟩

theorem wrapAsRecord_denotes {src : StreamHandle (Joined L R)} {rows : List (Joined L R)}
    {e : Ending} (h : Denotes src rows e) :
    Denotes (wrapAsRecord src) (rows.map Joined.asRecord) e := by
  induction h with
  | @done h next hPull =>
      have hNil : StreamImpl.pull (⟨h⟩ : WrapAsRecordImpl L R) = some (.ok none, ⟨next⟩) := by
        simp [StreamImpl.pull, WrapAsRecordImpl.pull, hPull]
      exact Denotes.make_done hNil
  | @error h next err hPull =>
      have hError : StreamImpl.pull (⟨h⟩ : WrapAsRecordImpl L R) =
          some (.error err, ⟨next⟩) := by
        simp [StreamImpl.pull, WrapAsRecordImpl.pull, hPull]
      exact Denotes.make_error hError
  | @chunk h next c l e hPull _ ih =>
      have hChunk : StreamImpl.pull (⟨h⟩ : WrapAsRecordImpl L R) =
          some (.ok (some (Chunk.from (c.toList.map Joined.asRecord))), ⟨next⟩) := by
        simp [StreamImpl.pull, WrapAsRecordImpl.pull, hPull]
        rfl
      have hFits : (c.toList.map Joined.asRecord).length < uint32Size := by
        rw [List.length_map, Chunk.length_toList]
        exact c.size_lt
      rw [List.map_append, ← Chunk.toList_from_of_lt hFits]
      exact Denotes.make_chunk hChunk ih

/-! ## Chunks cut by the cast -/

theorem throughChunk_length_le {α : Type} (data : List α) :
    (throughChunk data).length ≤ data.length := List.length_take_le' _ _

theorem throughChunk_eq_iff {α : Type} (data : List α) :
    throughChunk data = data ↔ data.length < uint32Size := by
  constructor
  · intro h
    have hLength : min (data.length % uint32Size) data.length = data.length := by
      simpa [throughChunk] using congrArg List.length h
    calc data.length = min (data.length % uint32Size) data.length := hLength.symm
      _ ≤ data.length % uint32Size := Nat.min_le_left _ _
      _ < uint32Size := Nat.mod_lt data.length (Nat.two_pow_pos 32)
  · intro h
    rw [throughChunk, Nat.mod_eq_of_lt h, List.take_length]

/-- Nothing is lost between the groups exactly when no group is cut. -/
theorem flatten_throughChunk_iff {α : Type} (outs : List (List α)) :
    (outs.map throughChunk).flatten = outs.flatten ↔ ∀ out ∈ outs, out.length < uint32Size := by
  induction outs with
  | nil => simp
  | cons out outs ih =>
      have hLess : ∀ outs : List (List α), (outs.map throughChunk).flatten.length ≤
          outs.flatten.length := by
        intro outs
        induction outs with
        | nil => exact Nat.le_refl _
        | cons out outs ih =>
            have hOut := throughChunk_length_le out
            simp only [List.map_cons, List.flatten_cons, List.length_append]
            omega
      rw [List.map_cons, List.flatten_cons, List.flatten_cons, List.forall_mem_cons, ← ih,
        ← throughChunk_eq_iff]
      constructor
      · intro h
        have hSum := congrArg List.length h
        rw [List.length_append, List.length_append] at hSum
        have hFirst := throughChunk_length_le out
        have hRest := hLess outs
        exact List.append_inj h (by omega)
      · rintro ⟨hFirst, hRest⟩
        rw [hFirst, hRest]

/-! ## The meaning of a join -/

/-- The left rows in left order, each with the value under its key, filtered by
`should_emit` and cut at the limit. -/
def joinRows (kind : JoinKind) (find : Bytes → Option R) (key : Record L → Bytes) (limit : ℕ)
    (rows : List (Record L)) : List (Joined L R) :=
  let joined := rows.filterMap (joinRow kind find key)
  if limit = 0 then joined else joined.take limit

theorem joinRows_eq (kind : JoinKind) (find : Bytes → Option R) (key : Record L → Bytes)
    (limit : ℕ) (rows : List (Record L)) :
    joinRows kind find key limit rows =
      JoinOutput.allowed (0 < limit) limit (rows.filterMap (joinRow kind find key)) := by
  unfold joinRows JoinOutput.allowed
  by_cases hLimit : limit = 0
  · simp [hLimit]
  · simp [hLimit, Nat.pos_of_ne_zero hLimit]

theorem allowed_append (hasLimit : Bool) (limit : ℕ) (first second : List (Joined L R)) :
    JoinOutput.allowed hasLimit limit (first ++ second) =
      JoinOutput.allowed hasLimit limit first ++ JoinOutput.allowed hasLimit
        (limit - (JoinOutput.allowed hasLimit limit first).length) second := by
  cases hasLimit with
  | false => rfl
  | true =>
      have hLeft : limit - min limit first.length = limit - first.length := by omega
      simp only [allowed_true, List.take_append, List.length_take, hLeft]

theorem allowed_cons {hasLimit : Bool} {limit : ℕ} (hOpen : hasLimit = true → 0 < limit)
    (row : Joined L R) (rows : List (Joined L R)) :
    JoinOutput.allowed hasLimit limit (row :: rows) =
      row :: JoinOutput.allowed hasLimit (limit - 1) rows := by
  cases hasLimit with
  | false => rfl
  | true =>
      obtain ⟨limit, rfl⟩ := Nat.exists_eq_succ_of_ne_zero (hOpen rfl).ne'
      rfl

theorem mem_of_mem_allowed {hasLimit : Bool} {limit : ℕ} {row : Joined L R}
    {rows : List (Joined L R)} (h : row ∈ JoinOutput.allowed hasLimit limit rows) : row ∈ rows := by
  cases hasLimit with
  | false => exact h
  | true => exact List.mem_of_mem_take h

/-- What a row becomes names its key and what was found there. -/
theorem joinRow_transfer {kind : JoinKind} {find find' : Bytes → Option R} {key : Record L → Bytes}
    {rec rec' : Record L} {row : Joined L R} (h : joinRow kind find key rec = some row)
    (h' : joinRow kind find' key rec' = some row) : joinRow kind find' key rec = some row := by
  unfold joinRow at h h' ⊢
  split at h
  · split at h'
    · rename_i hEmit hEmit'
      obtain rfl := Option.some.inj h
      obtain ⟨hKey, -, hFound⟩ := Joined.mk.inj (Option.some.inj h')
      rw [hKey] at hFound
      rw [hFound, if_pos hEmit]
    · cases h'
  · cases h

/-- The rows in front of the limit are the first one and those in front of what is left of it. -/
theorem forall_reached_cons {P : Record L → Prop} {f : Record L → Option (Joined L R)}
    {hasLimit : Bool} {limit : ℕ} {rec : Record L} {rows : List (Record L)}
    (hOpen : hasLimit = true → 0 < limit) :
    (∀ k rec', (rec :: rows)[k]? = some rec' →
      (hasLimit = true → (((rec :: rows).take k).filterMap f).length < limit) → P rec') ↔
    P rec ∧ ∀ k rec', rows[k]? = some rec' →
      (hasLimit = true → ((rec :: rows.take k).filterMap f).length < limit) → P rec' := by
  constructor
  · intro h
    exact ⟨h 0 rec rfl (by simpa using hOpen), fun k rec' hRec => h (k + 1) rec' hRec⟩
  · rintro ⟨hFirst, hRest⟩ k rec' hRec
    cases k with
    | zero =>
        obtain rfl := Option.some.inj hRec
        exact fun _ => hFirst
    | succ k => exact hRest k rec' hRec

/-- No other row stands in for one that the lookups of the first side do not give. -/
theorem not_mem_allowed_of_none {kind : JoinKind} {find find' : Bytes → Option R}
    {key : Record L → Bytes} {rec : Record L} {row : Joined L R}
    (hFind : joinRow kind find key rec = none) (hFind' : joinRow kind find' key rec = some row)
    (hasLimit : Bool) (limit : ℕ) (rows : List (Record L)) :
    row ∉ JoinOutput.allowed hasLimit limit (rows.filterMap (joinRow kind find key)) := by
  intro hMem
  obtain ⟨rec', -, hRow⟩ := List.mem_filterMap.mp (mem_of_mem_allowed hMem)
  cases hFind.symm.trans (joinRow_transfer hFind' hRow)

/-- Two ways to look keys up give the same rows under the limit exactly if they do for each
left row that is reached. -/
theorem allowed_joinRow_eq_iff (kind : JoinKind) (find find' : Bytes → Option R)
    (key : Record L → Bytes) (hasLimit : Bool) (limit : ℕ) (rows : List (Record L)) :
    JoinOutput.allowed hasLimit limit (rows.filterMap (joinRow kind find' key)) =
        JoinOutput.allowed hasLimit limit (rows.filterMap (joinRow kind find key)) ↔
      ∀ k rec, rows[k]? = some rec →
        (hasLimit = true → ((rows.take k).filterMap (joinRow kind find key)).length < limit) →
        joinRow kind find' key rec = joinRow kind find key rec := by
  induction rows generalizing limit with
  | nil => simp
  | cons rec rows ih =>
      by_cases hOpen : hasLimit = true → 0 < limit
      · rw [forall_reached_cons hOpen]
        cases hFind : joinRow kind find key rec with
        | none =>
            cases hFind' : joinRow kind find' key rec with
            | none =>
                simp only [List.filterMap_cons_none hFind, List.filterMap_cons_none hFind',
                  true_and]
                exact ih limit
            | some row =>
                rw [List.filterMap_cons_some hFind', List.filterMap_cons_none hFind,
                  allowed_cons hOpen]
                refine iff_of_false ?_ (by simp)
                intro hSame
                exact not_mem_allowed_of_none hFind hFind' hasLimit limit rows
                  (hSame ▸ List.mem_cons_self)
        | some row =>
            rw [List.filterMap_cons_some hFind, allowed_cons hOpen]
            cases hFind' : joinRow kind find' key rec with
            | none =>
                rw [List.filterMap_cons_none hFind']
                refine iff_of_false ?_ (by simp)
                intro hSame
                exact not_mem_allowed_of_none hFind' hFind hasLimit limit rows
                  (hSame.symm ▸ List.mem_cons_self)
            | some row' =>
                have hCount : ∀ k, ((rec :: rows.take k).filterMap (joinRow kind find key)).length =
                    ((rows.take k).filterMap (joinRow kind find key)).length + 1 := by
                  intro k
                  rw [List.filterMap_cons_some hFind, List.length_cons]
                rw [List.filterMap_cons_some hFind', allowed_cons hOpen, List.cons.injEq,
                  Option.some.injEq, ih (limit - 1)]
                simp only [hCount, Nat.lt_sub_iff_add_lt]
      · obtain ⟨hLimit, hZero⟩ : hasLimit = true ∧ limit = 0 := by
          rw [Classical.not_imp] at hOpen
          exact ⟨hOpen.1, Nat.eq_zero_of_not_pos hOpen.2⟩
        rw [hLimit, hZero]
        simp

theorem joinRows_eq_iff (kind : JoinKind) (find find' : Bytes → Option R)
    (key : Record L → Bytes) (limit : ℕ) (rows : List (Record L)) :
    joinRows kind find' key limit rows = joinRows kind find key limit rows ↔
      ∀ k rec, rows[k]? = some rec →
        (limit = 0 ∨ (joinRows kind find key 0 (rows.take k)).length < limit) →
        joinRow kind find' key rec = joinRow kind find key rec := by
  rw [joinRows_eq, joinRows_eq, allowed_joinRow_eq_iff]
  have hReached : ∀ n, ((decide (0 < limit) = true → n < limit) ↔ (limit = 0 ∨ n < limit)) := by
    intro n
    rw [decide_eq_true_eq]
    omega
  simp only [hReached]
  rfl

theorem flatten_groupOutputs (hasLimit : Bool) (limit : ℕ) (groups : List (List (Joined L R))) :
    (groupOutputs hasLimit limit groups).flatten =
      JoinOutput.allowed hasLimit limit groups.flatten := by
  induction groups generalizing limit with
  | nil => cases hasLimit <;> simp [groupOutputs]
  | cons rows groups ih =>
      rw [groupOutputs, List.flatten_cons, ih, List.flatten_cons, allowed_append]

/-- The `k`-th batch of `n` rows adds fewer than `2 ^ 32` rows to the output. -/
def BatchesFit (kind : JoinKind) (find : Bytes → Option R) (key : Record L → Bytes) (limit n : ℕ)
    (rows : List (Record L)) : Prop :=
  ∀ k, (joinRows kind find key limit (rows.take ((k + 1) * n))).length <
    (joinRows kind find key limit (rows.take (k * n))).length + uint32Size

theorem groupOutputs_fit {n : ℕ} (hn : 0 < n) (f : Record L → Option (Joined L R))
    (hasLimit : Bool) (limit : ℕ) (rows : List (Record L)) :
    (∀ k, (JoinOutput.allowed hasLimit limit ((rows.take ((k + 1) * n)).filterMap f)).length <
      (JoinOutput.allowed hasLimit limit ((rows.take (k * n)).filterMap f)).length + uint32Size) ↔
    ∀ out ∈ groupOutputs hasLimit limit ((batches n rows).map (List.filterMap f)),
      out.length < uint32Size := by
  induction rows using batches_induction hn generalizing limit with
  | nil => simp [groupOutputs]
  | cons rows hRows ih =>
      have hStep : ∀ k, rows.take ((k + 1) * n) = rows.take n ++ (rows.drop n).take (k * n) := by
        intro k
        rw [Nat.succ_mul, Nat.add_comm, List.take_add]
      rw [batches_of_ne_nil hn hRows, List.map_cons, groupOutputs, List.forall_mem_cons, ← ih]
      constructor
      · intro h
        refine ⟨by simpa [JoinOutput.allowed] using h 0, ?_⟩
        intro k
        have hk := h (k + 1)
        rw [hStep, hStep, List.filterMap_append, List.filterMap_append, allowed_append,
          allowed_append _ _ _ (List.filterMap f ((rows.drop n).take (k * n))), List.length_append,
          List.length_append, Nat.add_assoc] at hk
        exact Nat.lt_of_add_lt_add_left hk
      · rintro ⟨hFirst, hRest⟩ k
        cases k with
        | zero => simpa [JoinOutput.allowed] using hFirst
        | succ k =>
            rw [hStep, hStep, List.filterMap_append, List.filterMap_append, allowed_append,
              allowed_append _ _ _ (List.filterMap f ((rows.drop n).take (k * n))),
              List.length_append, List.length_append, Nat.add_assoc]
            exact Nat.add_lt_add_left (hRest k) _

/-- A group puts out no more rows than it has. -/
theorem groupOutputs_lt {f : Record L → Option (Joined L R)} {hasLimit : Bool} {limit : ℕ}
    {groups : List (List (Record L))} (h : ∀ rows ∈ groups, rows.length < uint32Size) :
    ∀ out ∈ groupOutputs hasLimit limit (groups.map (List.filterMap f)),
      out.length < uint32Size := by
  induction groups generalizing limit with
  | nil =>
      intro out hOut
      cases hOut
  | cons rows groups ih =>
      intro out hOut
      rw [List.map_cons, groupOutputs, List.mem_cons] at hOut
      rcases hOut with rfl | hOut
      · refine Nat.lt_of_le_of_lt ?_ (h rows List.mem_cons_self)
        refine Nat.le_trans ?_ (List.length_filterMap_le f rows)
        cases hasLimit with
        | false => exact Nat.le_refl _
        | true => exact List.length_take_le' _ _
      · exact ih (fun rows hRows => h rows (List.mem_cons_of_mem _ hRows)) out hOut

theorem flatten_map_batches {n : ℕ} (hn : 0 < n) (f : Record L → Option (Joined L R))
    (rows : List (Record L)) :
    ((batches n rows).map (List.filterMap f)).flatten = rows.filterMap f := by
  rw [← List.filterMap_flatten, flatten_batches hn]

/-! ## The executors -/

section Queue
variable {Side : Type} [StreamImpl (JoinImpl Side L R) (Joined L R)] {find : Bytes → Option R}
  {key : Record L → Bytes} {kind : JoinKind}
  {refill : JoinImpl Side L R → Option (VoidResult × JoinImpl Side L R)}
  {Supply : Side → Bool → List (List (Record L)) → Prop}

/-- What an executor yields: each group's rows, cut at the limit and by the cast. -/
theorem collect_queue (hPull : ∀ s : JoinImpl Side L R,
      StreamImpl.pull s = JoinImpl.pullWith refill s)
    (hFeeds : Feeds kind find key refill Supply) (limit : ℕ) {side : Side}
    {groups : List (List (Record L))} (hSupply : Supply side false groups) :
    Stream.collect (wrapAsRecord (makeStreamHandle
        (⟨side, JoinOutput.initial kind limit⟩ : JoinImpl Side L R))) =
      some (.ok (((groupOutputs (0 < limit) limit
        (groups.map (List.filterMap (joinRow kind find key)))).map throughChunk).flatten.map
          Joined.asRecord)) := by
  have hOpen := JoinImpl.open_denotes hPull hFeeds groups side (JoinOutput.initial kind limit) rfl
    rfl (by simp [JoinOutput.initial]) (Nat.le_refl _) hSupply
  exact (wrapAsRecord_denotes hOpen).collect

/-- Groups as small as a chunk yield what the join means. -/
theorem collect_queue_of_fits (hPull : ∀ s : JoinImpl Side L R,
      StreamImpl.pull s = JoinImpl.pullWith refill s)
    (hFeeds : Feeds kind find key refill Supply) (limit : ℕ) {side : Side}
    {groups : List (List (Record L))} (hSupply : Supply side false groups)
    (hFits : ∀ rows ∈ groups, rows.length < uint32Size) :
    Stream.collect (wrapAsRecord (makeStreamHandle
        (⟨side, JoinOutput.initial kind limit⟩ : JoinImpl Side L R))) =
      some (.ok ((joinRows kind find key limit groups.flatten).map Joined.asRecord)) := by
  rw [collect_queue hPull hFeeds limit hSupply,
    (flatten_throughChunk_iff _).mpr (groupOutputs_lt hFits), flatten_groupOutputs,
    ← List.filterMap_flatten, joinRows_eq]

end Queue

theorem HashJoinImpl.refill_feeds (kind : JoinKind) {find : Bytes → Option R}
    {key : Record L → Bytes} : Feeds kind find key HashJoinImpl.refill (ChunkSupply find key
      HashJoinSide.leftSrc HashJoinSide.extract fun side k => side.rightIndex.lookup k) := by
  have hRefill : (HashJoinImpl.refill : HashJoinImpl L R → _) = refillFromChunk
      HashJoinSide.leftSrc (fun side leftSrc => { side with leftSrc }) HashJoinSide.extract
      (fun side k => side.rightIndex.lookup k) := rfl
  rw [hRefill]
  exact refillFromChunk_feeds (fun _ _ => rfl) (fun _ _ => rfl) (fun _ _ => rfl)

theorem NestedLoopImpl.refill_feeds (kind : JoinKind) {find : Bytes → Option R}
    {key : Record L → Bytes} : Feeds kind find key NestedLoopImpl.refill (ChunkSupply find key
      NestedLoopSide.leftSrc NestedLoopSide.extract fun side k => findFirst side.rightAll k) := by
  have hRefill : (NestedLoopImpl.refill : NestedLoopImpl L R → _) = refillFromChunk
      NestedLoopSide.leftSrc (fun side leftSrc => { side with leftSrc }) NestedLoopSide.extract
      (fun side k => findFirst side.rightAll k) := rfl
  rw [hRefill]
  exact refillFromChunk_feeds (fun _ _ => rfl) (fun _ _ => rfl) (fun _ _ => rfl)

/-- `join`, and then `collect` on the stream of records. -/
def joinCollected [Allocation] [Codec R] (left : StreamHandle (Record L)) (right : StoreRef R)
    (extractor : Record L → Result Bytes) (opts : JoinOptions) :
    Option (Result (List (Record (Joined L R)))) := do
  match ← join left right extractor opts with
  | .error e => some (.error e)
  | .ok joined => Stream.collect joined

theorem asRecord_injective : Function.Injective (Joined.asRecord : Joined L R → _) := by
  intro j j' h
  exact congrArg Record.value h

section Strategies
variable [Allocation] [Codec R] {left : StreamHandle (Record L)} {rows : List (Record L)}
  (right : MapStore R) (key : Record L → Bytes) {opts : JoinOptions}

/-- The executor of both strategies that probe in batches. -/
def batchIndexNL (left : StreamHandle (Record L)) (opts : JoinOptions) (n : ℕ) :
    BatchIndexNLImpl L R :=
  ⟨⟨left, right.reads, fun rec => .ok (key rec), n, Chunk.none, 0⟩,
    JoinOutput.initial opts.kind opts.limit⟩

section Batches
variable {n : ℕ} (hn : 0 < n)
include hn

theorem collect_batchIndexNL (hRoom : n ≤ Allocation.room (Record L))
    (hLeft : Denotes left rows .done) :
    Stream.collect (wrapAsRecord (makeStreamHandle (batchIndexNL right key left opts n))) =
      some (.ok (((groupOutputs (0 < opts.limit) opts.limit ((batches n rows).map
        (List.filterMap (joinRow opts.kind right.find key)))).map throughChunk).flatten.map
          Joined.asRecord)) := by
  refine collect_queue (fun _ => rfl) (BatchIndexNLImpl.refill_feeds hn hRoom) opts.limit ?_
  exact ⟨rfl, rfl, right.getMany_find, rows, rfl, rows, by simp [BatchIndexNLImpl.held], hLeft⟩

omit hn in
/-- The first pull already asks for the room of a batch. -/
theorem collect_batchIndexNL_refused (hRoom : Allocation.room (Record L) < n) :
    Stream.collect (wrapAsRecord (makeStreamHandle (batchIndexNL right key left opts n))) =
      some (.error lengthError) := by
  have hRefill := BatchIndexNLImpl.refill_refused (s := (batchIndexNL right key left opts n).emptied)
    hRoom
  have hTurn : JoinImpl.turn BatchIndexNLImpl.refill (batchIndexNL right key left opts n) =
      some (.leave (.error lengthError, (batchIndexNL right key left opts n).emptied)) :=
    congrArg (Option.bind · _) hRefill
  exact (wrapAsRecord_denotes (Denotes.make_error (Loop.run_leave hTurn))).collect

/-- Batches yield what the join means exactly when there is room for them and none is cut. -/
theorem collect_batchIndexNL_iff (hLeft : Denotes left rows .done) :
    Stream.collect (wrapAsRecord (makeStreamHandle (batchIndexNL right key left opts n))) =
        some (.ok ((joinRows opts.kind right.find key opts.limit rows).map Joined.asRecord)) ↔
      n ≤ Allocation.room (Record L) ∧ BatchesFit opts.kind right.find key opts.limit n rows := by
  by_cases hRoom : n ≤ Allocation.room (Record L)
  · rw [collect_batchIndexNL right key hn hRoom hLeft, Option.some.injEq, Except.ok.injEq,
      (List.map_injective_iff.mpr asRecord_injective).eq_iff, joinRows_eq, ← flatten_map_batches hn,
      ← flatten_groupOutputs, flatten_throughChunk_iff, ← groupOutputs_fit hn]
    simp only [BatchesFit, joinRows_eq, hRoom, true_and]
  · rw [collect_batchIndexNL_refused right key (Nat.lt_of_not_le hRoom)]
    simp [hRoom]

end Batches

omit [Allocation] [Codec R] in
/-- Only batches of `2 ^ 32` rows and more can be cut. -/
theorem batchesFit_of_lt (find : Bytes → Option R) (kind : JoinKind) (limit : ℕ) {n : ℕ}
    (hn : 0 < n) (hSize : n < uint32Size) : BatchesFit kind find key limit n rows := by
  simp only [BatchesFit, joinRows_eq]
  refine (groupOutputs_fit hn (joinRow kind find key) (0 < limit) limit rows).mpr ?_
  refine groupOutputs_lt ?_
  intro batch hBatch
  exact (length_le_of_mem_batches hn hBatch).trans_lt hSize

theorem joinCollected_batchIndexNL (hForced : opts.forceStrategy = .batchIndexNestedLoop) :
    joinCollected left right.store (fun rec => .ok (key rec)) opts =
      Stream.collect (wrapAsRecord (makeStreamHandle
        (batchIndexNL right key left opts (JoinPlanner.batchSizeOr opts 1024)))) := by
  simp [joinCollected, join, right.handle_eq, JoinPlanner.plan, hForced, batchIndexNL]

theorem joinCollected_indexNL (hForced : opts.forceStrategy = .indexNestedLoop) :
    joinCollected left right.store (fun rec => .ok (key rec)) opts =
      Stream.collect (wrapAsRecord (makeStreamHandle (batchIndexNL right key left opts 1))) := by
  simp [joinCollected, join, right.handle_eq, JoinPlanner.plan, hForced, batchIndexNL]

omit [Allocation] in
/-- The chunks of a left stream make up its rows, and none of them is cut. -/
theorem chunkGroups (hLeft : Denotes left rows .done) : ∃ cs, Emits left cs .done ∧
    (cs.map Chunk.toList).flatten = rows ∧
      ∀ group ∈ cs.map Chunk.toList, group.length < uint32Size := by
  obtain ⟨cs, hEmits, hRows⟩ := hLeft.emits
  refine ⟨cs, hEmits, hRows, ?_⟩
  intro group hGroup
  obtain ⟨c, -, rfl⟩ := List.mem_map.mp hGroup
  rw [Chunk.length_toList]
  exact c.size_lt

/-- The executors that scan the right side look keys up in what the scan sees. -/
theorem joinCollected_hashJoin (hLeft : Denotes left rows .done)
    (hForced : opts.forceStrategy = .hashJoin) (hCap : opts.hashBuildCap = 0) :
    joinCollected left right.store (fun rec => .ok (key rec)) opts =
      some (.ok ((joinRows opts.kind right.findSeen key opts.limit rows).map Joined.asRecord)) := by
  obtain ⟨rs, records, hScan, hRecords, hFind⟩ := right.scan_denotes
  obtain ⟨idx, hIndex, hLookup⟩ := buildIndex_uncapped hRecords
  obtain ⟨cs, hEmits, rfl, hFits⟩ := chunkGroups hLeft
  have hSupply : ChunkSupply right.findSeen key HashJoinSide.leftSrc HashJoinSide.extract
      (fun side k => side.rightIndex.lookup k) (⟨left, idx, fun rec => .ok (key rec)⟩) false
      (cs.map Chunk.toList) := by
    exact ⟨rfl, funext fun k => (hLookup k).trans (hFind k), cs, hEmits, rfl⟩
  have hCollect := collect_queue_of_fits (fun _ => rfl)
    (HashJoinImpl.refill_feeds opts.kind) opts.limit hSupply hFits
  simpa [joinCollected, join, right.handle_eq, JoinPlanner.plan, hForced, hScan, hCap, hIndex]
    using hCollect

theorem joinCollected_nestedLoop (hLeft : Denotes left rows .done)
    (hForced : opts.forceStrategy = .nestedLoop ∨ opts.forceStrategy = .mergeJoin) :
    joinCollected left right.store (fun rec => .ok (key rec)) opts =
      some (.ok ((joinRows opts.kind right.findSeen key opts.limit rows).map Joined.asRecord)) := by
  obtain ⟨rs, records, hScan, hRecords, hFind⟩ := right.scan_denotes
  obtain ⟨cs, hEmits, rfl, hFits⟩ := chunkGroups hLeft
  have hSupply : ChunkSupply right.findSeen key NestedLoopSide.leftSrc NestedLoopSide.extract
      (fun side k => NestedLoopImpl.findFirst side.rightAll k)
      (⟨left, records, fun rec => .ok (key rec)⟩) false (cs.map Chunk.toList) := by
    exact ⟨rfl, funext hFind, cs, hEmits, rfl⟩
  have hCollect := collect_queue_of_fits (fun _ => rfl)
    (NestedLoopImpl.refill_feeds opts.kind) opts.limit hSupply hFits
  have hRight : Stream.collect rs = some (.ok records) := hRecords.collect
  rcases hForced with hForced | hForced
  · simpa [joinCollected, join, right.handle_eq, JoinPlanner.plan, hForced, hScan, hRight]
      using hCollect
  · simpa [joinCollected, join, right.handle_eq, JoinPlanner.plan, hForced, hScan, hRight]
      using hCollect

/-- Every left row that comes before the limit and has an entry in the right store has it
among the entries that a full scan sees. -/
def ScanReaches (opts : JoinOptions) (rows : List (Record L)) : Prop :=
  ∀ k rec, rows[k]? = some rec →
    (opts.limit = 0 ∨ (joinRows opts.kind right.find key 0 (rows.take k)).length < opts.limit) →
    (∃ kv ∈ right.rows, kv.key = key rec) → ∃ kv ∈ right.seen, kv.key = key rec

omit [Allocation] in
theorem joinRow_findSeen_iff (kind : JoinKind) (rec : Record L) :
    joinRow kind right.findSeen key rec = joinRow kind right.find key rec ↔
      right.findSeen (key rec) = right.find (key rec) := by
  constructor
  · intro hSame
    by_contra hOther
    have hUnseen : right.findSeen (key rec) = none := by
      by_contra hSeen
      exact hOther (right.find_of_findSeen hSeen).symm
    obtain ⟨value, hValue⟩ := Option.ne_none_iff_exists'.mp (hUnseen ▸ Ne.symm hOther)
    rw [joinRow, joinRow, hUnseen, hValue] at hSame
    cases kind <;> simp [shouldEmit] at hSame
  · intro hSame
    rw [joinRow, joinRow, hSame]

omit [Allocation] in
/-- What the scan sees is enough for the join exactly if it reaches the entries that the
join needs. -/
theorem joinRows_findSeen_iff :
    joinRows opts.kind right.findSeen key opts.limit rows =
        joinRows opts.kind right.find key opts.limit rows ↔
      ScanReaches right key opts rows := by
  rw [joinRows_eq_iff]
  simp only [joinRow_findSeen_iff, right.findSeen_eq_find_iff]
  rfl

end Strategies

/-- Three left rows and a right store of one pair. -/
def threeRows : List (Record Bytes) := [⟨[10], [1]⟩, ⟨[11], [2]⟩, ⟨[12], [1]⟩]

/-- A full scan does not get to the second pair, which no left row asks for. -/
def pairBehindEmpty : MapStore Bytes :=
  MapStore.ofChunks [Chunk.singleton ⟨[1], [7]⟩, Chunk.none, Chunk.singleton ⟨[3], [9]⟩]
    (by decide) fun kv _ => ⟨kv.value, rfl⟩

theorem pairBehindEmpty_scanReaches :
    ScanReaches pairBehindEmpty Record.value { kind := .inner, batchSize := 2 } threeRows := by
  rintro k rec hRec - ⟨kv, hStored, hKey⟩
  have hRows : pairBehindEmpty.rows = [⟨[1], [7]⟩, ⟨[3], [9]⟩] := by decide
  have hSeen : pairBehindEmpty.seen = [⟨[1], [7]⟩] := by decide
  rw [hRows] at hStored
  rw [hSeen]
  have hMem : rec ∈ threeRows := List.mem_of_getElem? hRec
  have hOther : ∀ rec ∈ threeRows, rec.value ≠ [3] := by decide
  rcases List.mem_pair.mp hStored with rfl | rfl
  · exact ⟨_, List.mem_singleton_self _, hKey⟩
  · exact absurd hKey.symm (hOther rec hMem)

section FullBatch

def sameRow : Record Bytes := ⟨[], []⟩

def emptyRight : MapStore Bytes := MapStore.ofChunks [] List.nodup_nil (by simp [chunkElems])

theorem replicate_not_batchesFit {n : ℕ} (hn : uint32Size ≤ n) :
    ¬ BatchesFit .leftOuter emptyRight.find (fun _ => []) 0 n (List.replicate n sameRow) := by
  intro h
  have hRow : joinRow .leftOuter emptyRight.find (fun _ => []) sameRow = some ⟨[], [], none⟩ := rfl
  have hFirst := h 0
  rw [Nat.zero_mul, Nat.zero_add, Nat.one_mul, List.take_of_length_le
    (List.length_replicate.le), List.take_zero] at hFirst
  simp only [joinRows, if_true, List.filterMap_replicate_of_some hRow, List.length_replicate,
    List.filterMap_nil, List.length_nil, Nat.zero_add] at hFirst
  exact absurd hFirst (Nat.not_lt.mpr hn)

/-- One batch of `2 ^ 32` rows. -/
def fullBatch : JoinOptions where
  kind := .leftOuter
  forceStrategy := .batchIndexNestedLoop
  batchSize := 2 ^ 31 + 2 ^ 31

end FullBatch

end CelerMem.Materialization
