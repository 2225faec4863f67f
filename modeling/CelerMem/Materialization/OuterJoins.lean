import CelerMem.Materialization.JoinSemantics

/-! Right and full outer joins. The executors are driven by the left rows alone: no pass
over the right side follows, so that a right entry without a left row is never emitted. -/
namespace CelerMem.Materialization

open Batches

variable {L R : Type}

/-! ## What the executors yield, whatever is planned -/

/-- The plan of a join. -/
def plannedJoin (right : StoreRef R) (opts : JoinOptions) : JoinPlan :=
  JoinPlanner.plan ⟨{ costTier := .computed }, { right.capabilities with costTier := .local }, opts⟩

/-- The left side is a stream and never local, so a hash join is only planned when pinned. -/
theorem plannedJoin_auto {right : StoreRef R} {opts : JoinOptions}
    (hAuto : opts.forceStrategy = .auto) :
    (plannedJoin right opts).strategy = .batchIndexNestedLoop ∨
      (plannedJoin right opts).strategy = .indexNestedLoop := by
  unfold plannedJoin JoinPlanner.plan
  cases right.capabilities.nativeBatchGet with
  | true => simp [hAuto]
  | false => simp [hAuto]

theorem plannedJoin_pinned {right : StoreRef R} {opts : JoinOptions}
    (hPinned : opts.forceStrategy ≠ .auto) :
    (plannedJoin right opts).strategy = opts.forceStrategy :=
  (JoinPlanner.plan_pinned _ hPinned).1

section Executors
variable [Allocation] [Codec R] {left : StreamHandle (Record L)} {rows : List (Record L)}
  (right : MapStore R) (key : Record L → Bytes) {opts : JoinOptions}

/-- The batched strategy has room for its batches, and none of them is cut by the cast of its
length. -/
def WholeBatches (opts : JoinOptions) (rows : List (Record L)) : Prop :=
  (plannedJoin right.store opts).strategy = .batchIndexNestedLoop →
    (plannedJoin right.store opts).batchSize ≤ Allocation.room (Record L) ∧
      BatchesFit opts.kind right.find key opts.limit (plannedJoin right.store opts).batchSize rows

/-- Both strategies that probe in batches read points, the others scan. -/
def ReadsPoints (right : StoreRef R) (opts : JoinOptions) : Prop :=
  (plannedJoin right opts).strategy = .batchIndexNestedLoop ∨
    (plannedJoin right opts).strategy = .indexNestedLoop

instance (right : StoreRef R) (opts : JoinOptions) : Decidable (ReadsPoints right opts) :=
  inferInstanceAs (Decidable (_ ∨ _))

/-- A strategy that scans the right store gets to see all of it. -/
def WholeScan (right : MapStore R) (opts : JoinOptions) : Prop :=
  ReadsPoints right.store opts ∨ ∀ kv ∈ right.rows, kv ∈ right.seen

/-- A hash join whose build side reaches the cap. -/
def BuildRefused (right : MapStore R) (opts : JoinOptions) : Prop :=
  opts.forceStrategy = .hashJoin ∧ ¬ BelowCap opts.hashBuildCap right.seen.length

/-- What the planned executor finds under a key. -/
def looksUp (right : MapStore R) (opts : JoinOptions) : Bytes → Option R :=
  if ReadsPoints right.store opts then right.find else right.findSeen

omit [Allocation] [Codec R] in
theorem throughChunk_sublist {α : Type} (outs : List (List α)) :
    (outs.map throughChunk).flatten.Sublist outs.flatten := by
  induction outs with
  | nil => exact .slnil
  | cons out outs ih => exact (List.take_sublist _ out).append ih

theorem joinCollected_hashJoin_capped (hLeft : Denotes left rows .done)
    (hForced : opts.forceStrategy = .hashJoin) :
    joinCollected left right.store (fun rec => .ok (key rec)) opts =
      some (if BelowCap opts.hashBuildCap right.seen.length then
        .ok ((joinRows opts.kind right.findSeen key opts.limit rows).map Joined.asRecord)
      else .error capExceeded) := by
  obtain ⟨idx, hJoin⟩ := right.join_hashJoin (L := L)
  have hUncapped := hJoin left (fun rec => .ok (key rec)) { opts with hashBuildCap := 0 } hForced
  have hCollected : joinCollected left right.store (fun rec => .ok (key rec))
      { opts with hashBuildCap := 0 } =
      Stream.collect (ChunkedStore.hashJoined left idx (fun rec => .ok (key rec)) opts) := by
    have hNoCap : BelowCap 0 right.seen.length := Or.inl rfl
    rw [joinCollected, hUncapped, if_pos hNoCap]
    rfl
  rw [@joinCollected_hashJoin L R _ _ left rows right key { opts with hashBuildCap := 0 } hLeft
    hForced rfl] at hCollected
  rw [joinCollected, hJoin left _ opts hForced]
  by_cases hBelow : BelowCap opts.hashBuildCap right.seen.length
  · rw [if_pos hBelow, if_pos hBelow]
    exact hCollected.symm
  · rw [if_neg hBelow, if_neg hBelow]
    rfl

/-- Batches yield some of the rows that the join means, and all of them exactly if they fit. -/
theorem collect_batchIndexNL_sublist (hLeft : Denotes left rows .done) {n : ℕ} (hn : 0 < n)
    (hRoom : n ≤ Allocation.room (Record L)) :
    ∃ out : List (Joined L R),
      Stream.collect (wrapAsRecord (makeStreamHandle (batchIndexNL right key left opts n))) =
        some (.ok (out.map Joined.asRecord)) ∧
      out.Sublist (joinRows opts.kind right.find key opts.limit rows) ∧
      (out = joinRows opts.kind right.find key opts.limit rows ↔
        BatchesFit opts.kind right.find key opts.limit n rows) := by
  have hCollect := @collect_batchIndexNL L R _ _ left rows right key opts n hn hRoom hLeft
  refine ⟨_, hCollect, ?_, ?_⟩
  · have hGroups := throughChunk_sublist (groupOutputs (0 < opts.limit) opts.limit
      ((batches n rows).map (List.filterMap (joinRow opts.kind right.find key))))
    rwa [flatten_groupOutputs, flatten_map_batches hn, ← joinRows_eq] at hGroups
  · have hWhole := @collect_batchIndexNL_iff L R _ _ left rows right key opts n hn hLeft
    rw [hCollect, Option.some.injEq, Except.ok.injEq,
      (List.map_injective_iff.mpr asRecord_injective).eq_iff] at hWhole
    rw [hWhole]
    exact and_iff_right hRoom

theorem joinCollected_batches (hPlan : (plannedJoin right.store opts).strategy = .batchIndexNestedLoop) :
    joinCollected left right.store (fun rec => .ok (key rec)) opts =
      Stream.collect (wrapAsRecord (makeStreamHandle
        (batchIndexNL right key left opts (plannedJoin right.store opts).batchSize))) := by
  rw [plannedJoin] at hPlan ⊢
  simp [joinCollected, join, right.handle_eq, hPlan, batchIndexNL]

theorem joinCollected_single (hPlan : (plannedJoin right.store opts).strategy = .indexNestedLoop) :
    joinCollected left right.store (fun rec => .ok (key rec)) opts =
      Stream.collect (wrapAsRecord (makeStreamHandle (batchIndexNL right key left opts 1))) := by
  rw [plannedJoin] at hPlan
  simp [joinCollected, join, right.handle_eq, hPlan, batchIndexNL]

/-- Without room for a batch the join throws. Otherwise some of the rows that the executor
means come out, and all of them exactly if no batch is cut. -/
def YieldsRows (opts : JoinOptions) (rows : List (Record L))
    (result : Option (Result (List (Record (Joined L R))))) : Prop :=
  (result = some (.error lengthError) ∧ ¬ WholeBatches right key opts rows) ∨
  ∃ out : List (Joined L R), result = some (.ok (out.map Joined.asRecord)) ∧
    out.Sublist (joinRows opts.kind (looksUp right opts) key opts.limit rows) ∧
    (out = joinRows opts.kind (looksUp right opts) key opts.limit rows ↔
      WholeBatches right key opts rows)

theorem yieldsRows_batched (hLeft : Denotes left rows .done)
    (hPlan : ReadsPoints right.store opts) :
    YieldsRows right key opts rows
      (joinCollected left right.store (fun rec => .ok (key rec)) opts) := by
  have hFind : looksUp right opts = right.find := if_pos hPlan
  rcases hPlan with hPlan | hPlan
  · rw [joinCollected_batches right key hPlan]
    by_cases hRoom : (plannedJoin right.store opts).batchSize ≤ Allocation.room (Record L)
    · obtain ⟨out, hCollect, hSome, hAll⟩ := @collect_batchIndexNL_sublist L R _ _ left rows right
        key opts hLeft _ (JoinPlanner.plan_batchSize_pos _) hRoom
      refine Or.inr ⟨out, hCollect, by rwa [hFind], ?_⟩
      rw [hFind]
      exact hAll.trans ⟨fun hFits _ => ⟨hRoom, hFits⟩, fun hWhole => (hWhole hPlan).2⟩
    · refine Or.inl ⟨collect_batchIndexNL_refused right key (Nat.lt_of_not_le hRoom), ?_⟩
      intro hWhole
      exact hRoom (hWhole hPlan).1
  · obtain ⟨out, hCollect, hSome, hAll⟩ := @collect_batchIndexNL_sublist L R _ _ left rows right
      key opts hLeft 1 Nat.one_pos (Allocation.room_pos _)
    refine Or.inr ⟨out, (joinCollected_single right key hPlan).trans hCollect, by rwa [hFind], ?_⟩
    rw [hFind]
    refine iff_of_true (hAll.mpr ?_) ?_
    · exact batchesFit_of_lt key right.find opts.kind opts.limit Nat.one_pos (by simp)
    · intro hOther
      cases hPlan.symm.trans hOther

/-- A join that is pinned to a strategy that scans, and yields what it found. -/
theorem yieldsRows_scanned {result : Option (Result (List (Record (Joined L R))))}
    (hPinned : opts.forceStrategy ≠ .auto) (hBatch : opts.forceStrategy ≠ .batchIndexNestedLoop)
    (hIndex : opts.forceStrategy ≠ .indexNestedLoop)
    (hResult : result =
      some (.ok ((joinRows opts.kind right.findSeen key opts.limit rows).map Joined.asRecord))) :
    YieldsRows right key opts rows result := by
  have hPlan := @plannedJoin_pinned R right.store opts hPinned
  have hScans : ¬ ReadsPoints right.store opts := by
    rw [ReadsPoints, hPlan]
    simp [hBatch, hIndex]
  have hFind : looksUp right opts = right.findSeen := if_neg hScans
  refine Or.inr ⟨_, by rw [hFind]; exact hResult, .refl _, iff_of_true rfl ?_⟩
  intro hOther
  exact absurd (hPlan.symm.trans hOther) hBatch

theorem joinCollected_yields (hLeft : Denotes left rows .done) (hBuilt : ¬ BuildRefused right opts) :
    YieldsRows right key opts rows
      (joinCollected left right.store (fun rec => .ok (key rec)) opts) := by
  cases hForced : opts.forceStrategy with
  | auto => exact yieldsRows_batched right key hLeft (plannedJoin_auto hForced)
  | batchIndexNestedLoop =>
      have hPlan := (@plannedJoin_pinned R right.store opts (by simp [hForced])).trans hForced
      exact yieldsRows_batched right key hLeft (Or.inl hPlan)
  | indexNestedLoop =>
      have hPlan := (@plannedJoin_pinned R right.store opts (by simp [hForced])).trans hForced
      exact yieldsRows_batched right key hLeft (Or.inr hPlan)
  | hashJoin =>
      have hBelow : BelowCap opts.hashBuildCap right.seen.length := by
        by_contra hReached
        exact hBuilt ⟨hForced, hReached⟩
      have hCollected := joinCollected_hashJoin_capped right key hLeft hForced
      rw [if_pos hBelow] at hCollected
      exact yieldsRows_scanned right key (by simp [hForced]) (by simp [hForced]) (by simp [hForced])
        hCollected
  | mergeJoin =>
      exact yieldsRows_scanned right key (by simp [hForced]) (by simp [hForced]) (by simp [hForced])
        (joinCollected_nestedLoop right key hLeft (Or.inr hForced))
  | nestedLoop =>
      exact yieldsRows_scanned right key (by simp [hForced]) (by simp [hForced]) (by simp [hForced])
        (joinCollected_nestedLoop right key hLeft (Or.inl hForced))

omit [Allocation] in
/-- A whole scan finds what is stored. -/
theorem looksUp_eq_find (hScan : WholeScan right opts) : looksUp right opts = right.find := by
  rcases hScan with hPoints | hAll
  · exact if_pos hPoints
  · by_cases hPoints : ReadsPoints right.store opts
    · exact if_pos hPoints
    · rw [looksUp, if_neg hPoints]
      funext k
      refine right.findSeen_eq_find_iff.mpr ?_
      rintro ⟨kv, hStored, hKey⟩
      exact ⟨kv, hAll kv hStored, hKey⟩

omit [Allocation] in
theorem find_of_looksUp {k : Bytes} (h : looksUp right opts k ≠ none) :
    right.find k = looksUp right opts k := by
  rw [looksUp] at h ⊢
  split
  · rfl
  · rename_i hScans
    rw [if_neg hScans] at h
    exact right.find_of_findSeen h

end Executors

/-! ## Outer joins -/

section Driven
variable (find : Bytes → Option R) (key : Record L → Bytes) {kind : JoinKind}

/-- The rows that an outer join owes to the left side: the matched ones, and for a full join
the left rows without a match as well. -/
def leftDriven (kind : JoinKind) (rows : List (Record L)) : List (Joined L R) :=
  joinRows (if kind = .fullOuter then .leftOuter else .inner) find key 0 rows

/-- For the executors the two kinds are an inner and a left outer join. -/
theorem joinRows_outer (hKind : kind = .rightOuter ∨ kind = .fullOuter) (limit : ℕ)
    (rows : List (Record L)) :
    joinRows kind find key limit rows =
      if limit = 0 then leftDriven find key kind rows
      else (leftDriven find key kind rows).take limit := by
  rcases hKind with rfl | rfl
  · rfl
  · rfl

theorem joinRows_sublist (hKind : kind = .rightOuter ∨ kind = .fullOuter) (limit : ℕ)
    (rows : List (Record L)) :
    (joinRows kind find key limit rows).Sublist (leftDriven find key kind rows) := by
  rw [joinRows_outer find key hKind]
  split
  next => exact .refl _
  next => exact List.take_sublist _ _

/-- The limit cuts nothing off. -/
theorem joinRows_eq_leftDriven_iff (hKind : kind = .rightOuter ∨ kind = .fullOuter) (limit : ℕ)
    (rows : List (Record L)) :
    joinRows kind find key limit rows = leftDriven find key kind rows ↔
      limit = 0 ∨ (leftDriven find key kind rows).length ≤ limit := by
  rw [joinRows_outer find key hKind]
  by_cases hNone : limit = 0
  · simp [hNone]
  · simp [hNone, List.take_eq_self_iff]

variable {find key}

theorem right_of_mem_leftDriven {rows : List (Record L)} {row : Joined L R}
    (h : row ∈ leftDriven find key kind rows) : row.right = find row.key := by
  obtain ⟨rec, -, hRow⟩ := List.mem_filterMap.mp h
  rw [joinRow, Option.ite_none_right_eq_some] at hRow
  rw [← Option.some.inj hRow.2]

theorem mem_leftDriven {rows : List (Record L)} {rec : Record L} (hMem : rec ∈ rows)
    (hFound : (find (key rec)).isSome) :
    ⟨key rec, rec.value, find (key rec)⟩ ∈ leftDriven find key kind rows := by
  refine List.mem_filterMap.mpr ⟨rec, hMem, ?_⟩
  unfold joinRow
  split
  next => simp [shouldEmit]
  next => simp [shouldEmit, hFound]

/-- A row comes out of a full outer join in any case, of a right one if it is matched. -/
theorem isSome_joinRow (rec : Record L) :
    (joinRow (if kind = .fullOuter then .leftOuter else .inner) find key rec).isSome ↔
      kind = .fullOuter ∨ (find (key rec)).isSome := by
  rw [joinRow, Option.isSome_ite]
  by_cases hFull : kind = .fullOuter
  · simp [hFull, shouldEmit]
  · simp [hFull, shouldEmit]

/-- Who finds less is owed no more rows. -/
theorem leftDriven_length_le {find' : Bytes → Option R}
    (hLess : ∀ k, find' k ≠ none → find k = find' k) (rows : List (Record L)) :
    (leftDriven find' key kind rows).length ≤ (leftDriven find key kind rows).length := by
  show (rows.filterMap _).length ≤ (rows.filterMap _).length
  rw [List.length_filterMap_eq_countP, List.length_filterMap_eq_countP]
  refine List.countP_mono_left ?_
  intro rec _ hSome
  rw [isSome_joinRow] at hSome ⊢
  refine hSome.imp_right ?_
  intro hFound
  rwa [hLess (key rec) (Option.isSome_iff_ne_none.mp hFound)]

end Driven

section Outer
variable [Allocation] [Codec R] {left : StreamHandle (Record L)} {rows : List (Record L)}
  (right : MapStore R) (key : Record L → Bytes) (opts : JoinOptions)

/-- The right entries that no left row matches. -/
def unmatchedRight (rows : List (Record L)) : List KVPair :=
  right.rows.filter fun kv => !(rows.map key).contains kv.key

/-- An error that is returned, not thrown, or besides the rows of the left side one row for
each right entry that none of them matches, with its key and its value. -/
def ReturnsRightSide (kind : JoinKind) (rows : List (Record L))
    (result : Option (Result (List (Record (Joined L R))))) : Prop :=
  (∃ e, e ≠ lengthError ∧ result = some (.error e)) ∨ ∃ out extra, result = some (.ok out) ∧
    out.Perm ((leftDriven right.find key kind rows).map Joined.asRecord ++ extra) ∧
    (extra.map fun row => (row.value.key, row.value.right)).Perm
      ((unmatchedRight right key rows).map fun kv => (kv.key, right.find kv.key))

omit [Allocation] in
theorem unmatchedRight_eq_nil_iff :
    unmatchedRight right key rows = [] ↔ ∀ kv ∈ right.rows, ∃ rec ∈ rows, key rec = kv.key := by
  rw [unmatchedRight, List.filter_eq_nil_iff]
  simp only [Bool.not_eq_true', Bool.not_eq_false, List.contains_iff_mem, List.mem_map]

omit [Allocation] in
/-- A scan through which every entry found its left row has seen every entry. -/
theorem wholeScan_of_driven (kind : JoinKind)
    (hMatched : ∀ kv ∈ right.rows, ∃ rec ∈ rows, key rec = kv.key)
    (hSame : ∀ row ∈ leftDriven right.find key kind rows,
      row ∈ leftDriven (looksUp right opts) key kind rows) : WholeScan right opts := by
  by_cases hPoints : ReadsPoints right.store opts
  · exact Or.inl hPoints
  · refine Or.inr ?_
    intro kv hStored
    obtain ⟨rec, hRec, hKey⟩ := hMatched kv hStored
    have hThere : ∃ kv ∈ right.rows, kv.key = key rec := ⟨kv, hStored, hKey.symm⟩
    have hRow := right_of_mem_leftDriven (hSame _ (mem_leftDriven hRec
      (right.isSome_find.mpr hThere)))
    rw [looksUp, if_neg hPoints] at hRow
    obtain ⟨kv', hSeen, hKey'⟩ := right.findSeen_eq_find_iff.mp hRow.symm hThere
    have hUnique := List.inj_on_of_nodup_map right.unique (right.seen_sublist.subset hSeen) hStored
      (hKey'.trans hKey)
    exact hUnique ▸ hSeen

omit [Allocation] in
/-- Once the right side is there, nothing was left for it: the left rows are as many as can
come out. -/
theorem whole_of_returned (hKind : opts.kind = .rightOuter ∨ opts.kind = .fullOuter)
    {out : List (Joined L R)} {extra : List (Record (Joined L R))}
    (hSome : out.Sublist (joinRows opts.kind (looksUp right opts) key opts.limit rows))
    (hRows : (out.map Joined.asRecord).Perm
      ((leftDriven right.find key opts.kind rows).map Joined.asRecord ++ extra))
    (hExtra : (extra.map fun row => (row.value.key, row.value.right)).Perm
      ((unmatchedRight right key rows).map fun kv => (kv.key, right.find kv.key))) :
    unmatchedRight right key rows = [] ∧
      joinRows opts.kind (looksUp right opts) key opts.limit rows =
        leftDriven (looksUp right opts) key opts.kind rows ∧
      out = joinRows opts.kind (looksUp right opts) key opts.limit rows ∧
      WholeScan right opts := by
  have hCount := hRows.length_eq
  rw [List.length_append, List.length_map, List.length_map] at hCount
  have hCut := joinRows_sublist (looksUp right opts) key hKind opts.limit rows
  have hMost := hCut.length_le
  have hLeftRows := hSome.length_le
  have hFindsLess : ∀ k, looksUp right opts k ≠ none → right.find k = looksUp right opts k :=
    fun k => find_of_looksUp right
  have hLess : (leftDriven (looksUp right opts) key opts.kind rows).length ≤
      (leftDriven right.find key opts.kind rows).length := leftDriven_length_le hFindsLess rows
  have hNoExtra : extra = [] := List.length_eq_zero_iff.mp (by omega)
  have hWhole := hSome.eq_of_length_le (by omega)
  have hDriven := hCut.eq_of_length_le (by omega)
  rw [hNoExtra, List.map_nil] at hExtra
  rw [hNoExtra, List.append_nil] at hRows
  have hNone : unmatchedRight right key rows = [] := List.map_eq_nil_iff.mp hExtra.symm.eq_nil
  have hSame : out.Perm (leftDriven right.find key opts.kind rows) := by
    have hValues := hRows.map Record.value
    rwa [List.map_map, List.map_map, show (Record.value ∘ Joined.asRecord : Joined L R → _) = id
      from rfl, List.map_id, List.map_id] at hValues
  refine ⟨hNone, hDriven, hWhole, ?_⟩
  refine wholeScan_of_driven right key opts opts.kind
    ((unmatchedRight_eq_nil_iff right key).mp hNone) ?_
  intro row hRow
  rw [← hDriven, ← hWhole]
  exact hSame.symm.subset hRow

end Outer

def onePair : MapStore Bytes :=
  MapStore.ofChunks [Chunk.singleton ⟨[1], [7]⟩] (by decide) fun kv _ => ⟨kv.value, rfl⟩

def fullOuterJoin : JoinOptions where
  kind := .fullOuter

end CelerMem.Materialization
