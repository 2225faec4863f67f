import CelerMem.Materialization.HashBuildCap

/-! The right store of a join as a finite map: what its codec makes of the stored
pairs, and how its point reads and its full scan answer from them. An empty chunk ends a
scan, so that a scan may see fewer pairs than a point read. -/
namespace CelerMem.Materialization

variable {R : Type}

/-! ## Decoding -/

section Decoding
variable [Codec R]

/-- The stored pair under a key, decoded. -/
def valueUnder (kvs : List KVPair) (key : Bytes) : Option R :=
  (kvs.find? fun kv => kv.key == key).bind fun kv => (Codec.decode kv.value).toOption

/-- Looking a key up among the decoded records is decoding what is stored under it. -/
theorem findFirst_decoded {kvs : List KVPair} {records : List (Record R)}
    (h : decodeKVs kvs = .ok records) (key : Bytes) :
    NestedLoopImpl.findFirst records key = valueUnder kvs key := by
  induction kvs generalizing records with
  | nil =>
      obtain rfl : [] = records := by simpa [decodeKVs] using h
      rfl
  | cons kv kvs ih =>
      obtain ⟨value, rest, hValue, hRest, rfl⟩ := decodeKVs_cons_ok h
      have hTail := ih hRest
      unfold NestedLoopImpl.findFirst valueUnder at hTail ⊢
      rw [List.find?_cons, List.find?_cons]
      cases hKey : kv.key == key with
      | true => simp [hValue, Except.toOption]
      | false => exact hTail

/-- More pairs behind the others do not change what is found, they can only add to it. -/
theorem valueUnder_append (front back : List KVPair) (key : Bytes)
    (hDecodes : ∀ kv ∈ front, ∃ value, Codec.decode (T := R) kv.value = .ok value) :
    valueUnder (R := R) (front ++ back) key =
      (valueUnder front key).or (valueUnder back key) := by
  unfold valueUnder
  rw [List.find?_append]
  cases hFront : front.find? fun kv => kv.key == key with
  | none => rfl
  | some kv =>
      obtain ⟨value, hValue⟩ := hDecodes kv (List.mem_of_find?_eq_some hFront)
      simp [hValue, Except.toOption]

theorem isSome_valueUnder {kvs : List KVPair} {key : Bytes}
    (hDecodes : ∀ kv ∈ kvs, ∃ value, Codec.decode (T := R) kv.value = .ok value) :
    (valueUnder (R := R) kvs key).isSome ↔ ∃ kv ∈ kvs, kv.key = key := by
  unfold valueUnder
  cases hFound : kvs.find? fun kv => kv.key == key with
  | none =>
      have hNone := List.find?_eq_none.mp hFound
      simp only [beq_iff_eq] at hNone
      simpa using hNone
  | some kv =>
      obtain ⟨value, hValue⟩ := hDecodes kv (List.mem_of_find?_eq_some hFound)
      have hKey : kv.key = key := by simpa using List.find?_some hFound
      have hThere : ∃ kv ∈ kvs, kv.key = key :=
        ⟨kv, List.mem_of_find?_eq_some hFound, hKey⟩
      simp [hValue, Except.toOption, hThere]

end Decoding

/-! ## The store -/

/-- A right store whose contents are a finite map of keys to values that the codec
decodes, in any chunking of its scan. Its point reads answer from all of them. -/
structure MapStore (R : Type) [Codec R] extends ChunkedStore R where
  getMany_eq : ∀ keys, reads.getMany keys = .ok (keys.map fun k =>
    ⟨k, ((chunkElems chunks).find? fun kv => kv.key == k).map KVPair.value⟩)

namespace MapStore
variable [Codec R] (right : MapStore R)

/-- The map itself. -/
def find (key : Bytes) : Option R := valueUnder right.rows key

/-- The part of the map that a full scan gets to see. -/
def findSeen (key : Bytes) : Option R := valueUnder right.seen key

theorem seen_decodes : ∀ kv ∈ right.seen, ∃ value, Codec.decode (T := R) kv.value = .ok value :=
  fun kv hMem => right.decodes kv (right.seen_sublist.subset hMem)

theorem isSome_find {key : Bytes} : (right.find key).isSome ↔ ∃ kv ∈ right.rows, kv.key = key :=
  isSome_valueUnder right.decodes

theorem isSome_findSeen {key : Bytes} :
    (right.findSeen key).isSome ↔ ∃ kv ∈ right.seen, kv.key = key :=
  isSome_valueUnder right.seen_decodes

/-- What a scan sees under a key is what is stored there. -/
theorem find_of_findSeen {key : Bytes} (h : right.findSeen key ≠ none) :
    right.find key = right.findSeen key := by
  obtain ⟨value, hValue⟩ := Option.ne_none_iff_exists'.mp h
  have hSplit : right.rows = right.seen ++ _ := chunkElems_split right.chunks
  rw [findSeen] at hValue ⊢
  rw [find, hSplit, valueUnder_append _ _ _ right.seen_decodes, hValue, Option.some_or]

theorem findSeen_eq_find_iff {key : Bytes} : right.findSeen key = right.find key ↔
    ((∃ kv ∈ right.rows, kv.key = key) → ∃ kv ∈ right.seen, kv.key = key) := by
  rw [← isSome_find, ← isSome_findSeen]
  cases hSeen : right.findSeen key with
  | none =>
      cases hFound : right.find key with
      | none => simp
      | some value => simp
  | some value =>
      have hSome : right.findSeen key ≠ none := by
        rw [hSeen]
        exact Option.some_ne_none value
      rw [right.find_of_findSeen hSome, hSeen]
      simp

theorem getMany_find (keys : List Bytes) :
    StoreRef.getMany (T := R) right.reads keys = .ok (keys.map fun k => (k, right.find k)) := by
  rw [StoreRef.getMany, right.getMany_eq]
  change StoreRef.decodeItems _ = _
  induction keys with
  | nil => rfl
  | cons k keys ih =>
      rw [List.map_cons, List.map_cons, StoreRef.decodeItems.eq_def]
      cases hFound : (chunkElems right.chunks).find? fun kv => kv.key == k with
      | none =>
          have hNone : right.find k = none := by
            simp [find, valueUnder, ChunkedStore.rows, hFound]
          simp only [Option.map_none, ih, hNone]
      | some kv =>
          obtain ⟨value, hValue⟩ := right.decodes kv (List.mem_of_find?_eq_some hFound)
          have hSome : right.find k = some value := by
            simp [find, valueUnder, ChunkedStore.rows, hFound, hValue, Except.toOption]
          simp only [Option.map_some, hValue, ih, hSome]

/-- The records that a full scan brings, and lookups among them. -/
theorem scan_denotes : ∃ rs records, StoreRef.streamAll (T := R) right.reads = .ok rs ∧
    Denotes rs records .done ∧
    ∀ key, NestedLoopImpl.findFirst records key = right.findSeen key := by
  obtain ⟨rs, records, hScan, hDenotes, hDecoded⟩ := right.streamAll_denotes
  exact ⟨rs, records, hScan, hDenotes, findFirst_decoded hDecoded⟩

/-- A store held in memory, with the chunks that its scan brings. -/
def ofChunks (chunks : List (Chunk KVPair)) (unique : ((chunkElems chunks).map KVPair.key).Nodup)
    (decodes : ∀ kv ∈ chunkElems chunks, ∃ value, Codec.decode (T := R) kv.value = .ok value) :
    MapStore R where
  store := ⟨some ⟨fun keys => .ok (keys.map fun k =>
      ⟨k, ((chunkElems chunks).find? fun kv => kv.key == k).map KVPair.value⟩),
    fun pfx => .ok (Stream.ofChunks (if pfx = [] then chunks else
      ((chunkElems chunks).filter fun kv => pfx.isPrefixOf kv.key).map Chunk.singleton) .done),
    true⟩, []⟩
  reads := _
  handle_eq := rfl
  chunks := chunks
  unique := unique
  decodes := decodes
  scan_eq := ⟨_, rfl, Stream.ofChunks_emits _ _⟩
  getMany_eq _ := rfl

end MapStore

end CelerMem.Materialization
