import CelerMem.Materialization.Join
import CelerMem.Materialization.ScanCompleteness

/-! The cap on the build side of a hash join. It is compared with the index after a row
went in, so that the row that reaches the cap is already one too many. -/
namespace CelerMem.Materialization

variable {L R : Type}

def capExceeded : Error := ⟨"HashJoinBuild", "hash_build_cap exceeded"⟩

/-! ## The loop over rows and chunks -/

/-- Under a cap that `n` rows stay below. -/
def BelowCap (cap n : ℕ) : Prop := cap = 0 ∨ n < cap

instance (cap n : ℕ) : Decidable (BelowCap cap n) := inferInstanceAs (Decidable (cap = 0 ∨ n < cap))

theorem BelowCap.mono {cap m n : ℕ} (h : BelowCap cap n) (hLe : m ≤ n) : BelowCap cap m :=
  h.imp_right hLe.trans_lt

def Record.entry (rec : Record R) : Bytes × R := (rec.key, rec.value)

theorem DenseMap.tryEmplace_new {V : Type} {m : DenseMap V} {key : Bytes} (value : V)
    (hNew : key ∉ m.map Prod.fst) : m.tryEmplace key value = m ++ [(key, value)] := by
  rw [tryEmplace, if_neg]
  rw [List.lookup_isSome_iff]
  rintro ⟨entry, hMem, hKey⟩
  exact hNew (List.mem_map.mpr ⟨entry, hMem, (eq_of_beq hKey).symm⟩)

/-- Rows with new keys all go in, as long as the index stays below the cap. -/
theorem buildRows_eq {cap : ℕ} {records : List (Record R)} {idx : DenseMap R}
    (hKeys : (idx.map Prod.fst ++ records.map Record.key).Nodup) (hBelow : BelowCap cap idx.length) :
    buildRows cap records idx =
      if BelowCap cap (idx.length + records.length) then .ok (idx ++ records.map Record.entry)
      else .error capExceeded := by
  induction records generalizing idx with
  | nil =>
      rw [List.length_nil, Nat.add_zero, if_pos hBelow, List.map_nil, List.append_nil]
      rfl
  | cons rec recs ih =>
      have hNew : rec.key ∉ idx.map Prod.fst := by
        intro hMem
        exact (List.nodup_append.mp hKeys).2.2 _ hMem _ List.mem_cons_self rfl
      have hNext : idx.tryEmplace rec.key rec.value = idx ++ [rec.entry] :=
        DenseMap.tryEmplace_new rec.value hNew
      have hCount : (idx ++ [rec.entry]).length = idx.length + 1 := by simp
      rw [buildRows, hNext]
      by_cases hFull : 0 < cap ∧ cap ≤ (idx ++ [rec.entry]).length
      · have hOver : ¬ BelowCap cap (idx.length + (rec :: recs).length) := by
          rw [hCount] at hFull
          rw [BelowCap, List.length_cons]
          omega
        rw [if_pos hFull, if_neg hOver]
        rfl
      · have hRoom : BelowCap cap (idx ++ [rec.entry]).length := by
          rw [BelowCap]
          omega
        rw [if_neg hFull, ih (by simpa [Record.entry] using hKeys) hRoom, hCount]
        simp only [List.map_cons, List.append_assoc, List.singleton_append, List.length_cons,
          Nat.add_assoc, Nat.add_comm 1]

theorem buildTurn_run {cap : ℕ} {rs : StreamHandle (Record R)} {records : List (Record R)}
    {e : Ending} (hDenotes : Denotes rs records e) (hEnd : e = .done) {idx : DenseMap R}
    (hKeys : (idx.map Prod.fst ++ records.map Record.key).Nodup) (hBelow : BelowCap cap idx.length) :
    Loop.run (buildTurn cap) (rs, idx) = some
      (if BelowCap cap (idx.length + records.length) then .ok (idx ++ records.map Record.entry)
      else .error capExceeded) := by
  induction hDenotes generalizing idx with
  | done hPull =>
      rw [List.length_nil, Nat.add_zero, if_pos hBelow, List.map_nil, List.append_nil]
      exact Loop.run_leave (by simp [buildTurn, hPull])
  | error hPull => cases hEnd
  | @chunk h h' c l e hPull hRest ih =>
      rw [List.map_append, ← List.append_assoc] at hKeys
      have hRows := buildRows_eq (List.nodup_append.mp hKeys).1 hBelow
      by_cases hRoom : BelowCap cap (idx.length + c.toList.length)
      · rw [if_pos hRoom] at hRows
        have hCount : (idx ++ c.toList.map Record.entry).length = idx.length + c.toList.length := by
          simp
        have hTurn : buildTurn cap (h, idx) =
            some (.again (h', idx ++ c.toList.map Record.entry)) := by
          simp [buildTurn, hPull, hRows]
        have hNext : ((idx ++ c.toList.map Record.entry).map Prod.fst ++
            l.map Record.key).Nodup := by
          simpa [Record.entry, Function.comp_def] using hKeys
        rw [Loop.run_again hTurn, ih hEnd hNext (by rwa [hCount]), hCount, List.length_append,
          List.map_append, List.append_assoc, Nat.add_assoc]
      · rw [if_neg hRoom] at hRows
        have hTurn : buildTurn cap (h, idx) = some (.leave (.error capExceeded)) := by
          simp [buildTurn, hPull, hRows]
        rw [Loop.run_leave hTurn, if_neg]
        intro hAll
        rw [List.length_append] at hAll
        exact hRoom (hAll.mono (by omega))

/-! ## Joins -/

/-- A right store with the chunks that its full scan brings, in any chunking: every key
once, and values that the codec decodes. -/
structure ChunkedStore (R : Type) [Codec R] where
  store : StoreRef R
  reads : BackendReads
  handle_eq : store.handle = some reads
  chunks : List (Chunk KVPair)
  unique : ((chunkElems chunks).map KVPair.key).Nodup
  decodes : ∀ kv ∈ chunkElems chunks, ∃ value, Codec.decode (T := R) kv.value = .ok value
  scan_eq : ∃ src, reads.streamScan [] = .ok src ∧ Emits src chunks .done

namespace ChunkedStore
variable [Codec R] (right : ChunkedStore R)

/-- The rows of the store. -/
def rows : List KVPair := chunkElems right.chunks

/-- The rows that a typed scan gets to see. -/
def seen : List KVPair := chunkElems (beforeEmpty right.chunks)

theorem seen_sublist : right.seen.Sublist right.rows := by
  rw [seen, rows, chunkElems_split right.chunks]
  exact List.sublist_append_left _ _

theorem seen_eq_rows (h : ∀ c ∈ right.chunks, c.empty = false) : right.seen = right.rows := by
  rw [seen, rows, beforeEmpty_eq_self h]

theorem keys_decodeKVs {kvs : List KVPair} {records : List (Record R)}
    (h : decodeKVs kvs = .ok records) : records.map Record.key = kvs.map KVPair.key := by
  induction kvs generalizing records with
  | nil =>
      obtain rfl := Except.ok.inj h
      rfl
  | cons kv kvs ih =>
      obtain ⟨value, rest, -, hRest, rfl⟩ := decodeKVs_cons_ok h
      rw [List.map_cons, List.map_cons, ih hRest]

/-- A full scan denotes the decoded form of what it gets to see. -/
theorem streamAll_denotes : ∃ rs records, StoreRef.streamAll (T := R) right.reads = .ok rs ∧
    Denotes rs records .done ∧ decodeKVs right.seen = .ok records := by
  obtain ⟨src, hScan, hEmits⟩ := right.scan_eq
  obtain ⟨records, hDecoded⟩ := decodeKVs_total (T := R) fun kv hMem =>
    right.decodes kv (right.seen_sublist.subset hMem)
  refine ⟨_, records, ?_, scan_decodes hEmits hDecoded, hDecoded⟩
  rw [StoreRef.streamAll, StoreRef.streamScan, hScan]
  rfl

/-- The stream of a hash join over a built index. -/
def hashJoined (left : StreamHandle (Record L)) (idx : DenseMap R)
    (extractor : Record L → Result Bytes) (opts : JoinOptions) :
    StreamHandle (Record (Joined L R)) :=
  wrapAsRecord (makeStreamHandle (⟨⟨left, idx, extractor⟩, JoinOutput.initial opts.kind opts.limit⟩ :
    HashJoinImpl L R))

/-- Below the cap the index does not depend on it. -/
theorem join_hashJoin [Allocation] : ∃ idx : DenseMap R, ∀ (left : StreamHandle (Record L))
    (extractor : Record L → Result Bytes) (opts : JoinOptions), opts.forceStrategy = .hashJoin →
    join left right.store extractor opts = some
      (if BelowCap opts.hashBuildCap right.seen.length then .ok (hashJoined left idx extractor opts)
      else .error capExceeded) := by
  obtain ⟨rs, records, hScan, hDenotes, hDecoded⟩ := right.streamAll_denotes
  refine ⟨records.map Record.entry, ?_⟩
  intro left extractor opts hForced
  have hKeys : (([] : DenseMap R).map Prod.fst ++ records.map Record.key).Nodup := by
    rw [List.map_nil, List.nil_append, keys_decodeKVs hDecoded]
    exact right.unique.sublist (right.seen_sublist.map KVPair.key)
  have hEmpty : BelowCap opts.hashBuildCap ([] : DenseMap R).length := by
    rw [BelowCap, List.length_nil]
    omega
  have hBuild := buildTurn_run hDenotes rfl hKeys hEmpty
  rw [List.length_nil, Nat.zero_add, List.nil_append, length_decodeKVs hDecoded] at hBuild
  have hPlan : (JoinPlanner.plan ⟨{ costTier := .computed },
      { right.store.capabilities with costTier := .local }, opts⟩).strategy = .hashJoin := by
    simp [JoinPlanner.plan, hForced]
  rw [join]
  simp only [right.handle_eq, hPlan, hScan, buildIndex, hBuild]
  by_cases hBelow : BelowCap opts.hashBuildCap right.seen.length
  · simp [hBelow, hashJoined]
  · simp [hBelow]

end ChunkedStore

section Cap
variable [Allocation] [Codec R] (left : StreamHandle (Record L)) (right : ChunkedStore R)
  (extractor : Record L → Result Bytes) (opts : JoinOptions)

/-- The index is built exactly for stores of at most `hash_build_cap` rows, and then the
join is the one without a cap. -/
structure CapExact : Prop where
  builds_iff : (∃ joined, join left right.store extractor opts = some (.ok joined)) ↔
    right.rows.length ≤ opts.hashBuildCap
  uncapped : ∀ joined, join left right.store extractor opts = some (.ok joined) →
    join left right.store extractor { opts with hashBuildCap := 0 } = some (.ok joined)

/-- The cap is exact only for other numbers of rows: the scan has to see fewer rows than
the cap when the store has as many at most, and no fewer when it has more. -/
theorem hash_cap_exact_iff (hForced : opts.forceStrategy = .hashJoin)
    (hCap : 1 ≤ opts.hashBuildCap) :
    CapExact left right extractor opts ↔
      (right.seen.length < opts.hashBuildCap ↔ right.rows.length ≤ opts.hashBuildCap) := by
  obtain ⟨idx, hJoin⟩ := right.join_hashJoin (L := L)
  have hBelow : BelowCap opts.hashBuildCap right.seen.length ↔
      right.seen.length < opts.hashBuildCap := by
    rw [BelowCap]
    omega
  have hCapped := hJoin left extractor opts hForced
  have hBuilds : (∃ joined, join left right.store extractor opts = some (.ok joined)) ↔
      right.seen.length < opts.hashBuildCap := by
    rw [hCapped, ← hBelow]
    by_cases h : BelowCap opts.hashBuildCap right.seen.length
    · simp [h]
    · simp [h]
  constructor
  · intro hExact
    exact hBuilds.symm.trans hExact.builds_iff
  · intro hSame
    refine ⟨hBuilds.trans hSame, ?_⟩
    intro joined hJoined
    have hRoom := hBelow.mpr (hBuilds.mp ⟨joined, hJoined⟩)
    have hUncapped := hJoin left extractor { opts with hashBuildCap := 0 } hForced
    rw [hCapped, if_pos hRoom] at hJoined
    have hNoCap : BelowCap { opts with hashBuildCap := 0 }.hashBuildCap right.seen.length := Or.inl rfl
    rw [hUncapped, if_pos hNoCap]
    exact hJoined

omit [Allocation] in
/-- Without empty chunks that is every number of rows but the cap itself. -/
theorem seen_lt_iff_rows_le {cap : ℕ} (h : ∀ c ∈ right.chunks, c.empty = false) :
    (right.seen.length < cap ↔ right.rows.length ≤ cap) ↔ right.rows.length ≠ cap := by
  rw [right.seen_eq_rows h]
  omega

end Cap

/-- A store of two rows, one in each chunk. -/
def twoRowStore : ChunkedStore Bytes where
  store := ⟨some (readsOfChunks [Chunk.singleton ⟨[1], [7]⟩, Chunk.singleton ⟨[2], [8]⟩] .done), []⟩
  reads := _
  handle_eq := rfl
  chunks := [Chunk.singleton ⟨[1], [7]⟩, Chunk.singleton ⟨[2], [8]⟩]
  unique := by decide
  decodes kv _ := ⟨kv.value, rfl⟩
  scan_eq := ⟨_, rfl, Stream.ofChunks_emits _ _⟩

def cappedHashJoin (cap : ℕ) : JoinOptions where
  forceStrategy := .hashJoin
  hashBuildCap := cap

theorem hash_cap_exact_iff_twoRows :
    CapExact (Stream.fromVector [(⟨[5], [1]⟩ : Record Bytes)]) twoRowStore
        (fun rec => .ok rec.value) (cappedHashJoin 3) ↔
      (twoRowStore.seen.length < 3 ↔ twoRowStore.rows.length ≤ 3) :=
  hash_cap_exact_iff _ twoRowStore _ (cappedHashJoin 3) rfl (by decide)

/-- As many rows as the cap are refused. -/
theorem hash_cap_refuses_cap :
    twoRowStore.rows.length = 2 ∧
      join (Stream.fromVector [(⟨[5], [1]⟩ : Record Bytes)]) twoRowStore.store
        (fun rec => .ok rec.value) (cappedHashJoin 2) = some (.error capExceeded) ∧
      ¬ CapExact (Stream.fromVector [(⟨[5], [1]⟩ : Record Bytes)]) twoRowStore
        (fun rec => .ok rec.value) (cappedHashJoin 2) := by
  obtain ⟨idx, hJoin⟩ := twoRowStore.join_hashJoin (L := Bytes)
  have hRefused := hJoin (Stream.fromVector [⟨[5], [1]⟩]) (fun rec => .ok rec.value)
    (cappedHashJoin 2) rfl
  rw [if_neg (by decide)] at hRefused
  refine ⟨by decide, hRefused, ?_⟩
  intro hExact
  obtain ⟨joined, hJoined⟩ := hExact.builds_iff.mpr (by decide)
  cases hRefused.symm.trans hJoined

end CelerMem.Materialization
