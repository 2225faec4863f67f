import CelerMem.Backend.S3Get
import CelerMem.Backend.S3Upload

/-! When `stream_put` of S3 stores the stream: each chunk becomes one part, so the chunks
have to obey the rules for parts. -/
namespace CelerMem

variable {ω : Type}

namespace Upload
variable {upload : Upload} {parts : List CompletedPart} {bodies : List Bytes} {n limit : Nat}
  {eTag body : Bytes}

theorem body_put_self : (upload.put n eTag body).body ⟨n, eTag⟩ = some body := by
  simp [Upload.body, Upload.put]

/-- A part of a new number changes none of the others. -/
theorem bodies_put (hBelow : ∀ part ∈ parts, part.partNumber < n) :
    (upload.put n eTag body).bodies parts = upload.bodies parts := by
  induction parts with
  | nil => rfl
  | cons part rest ih =>
      have hOther : part.partNumber ≠ n := (hBelow part List.mem_cons_self).ne
      have hPart : (upload.put n eTag body).body part = upload.body part := by
        simp only [Upload.body, Upload.put, Function.update_of_ne hOther]
      have hRest := ih fun other hMem => hBelow other (List.mem_cons_of_mem part hMem)
      simp only [Upload.bodies] at hRest
      simp only [Upload.bodies, List.mapM_cons, hPart, hRest]

theorem bodies_append (hBodies : upload.bodies parts = some bodies)
    (hBelow : ∀ part ∈ parts, part.partNumber < n) :
    (upload.put n eTag body).bodies (parts ++ [⟨n, eTag⟩]) = some (bodies ++ [body]) := by
  have hKept : (upload.put n eTag body).bodies parts = some bodies := (bodies_put hBelow).trans hBodies
  simp only [Upload.bodies] at hKept ⊢
  simp [List.mapM_append, hKept, body_put_self]

/-- What a completion makes of the parts, by the rules for parts. -/
theorem assemble_eq_some_iff (hBodies : upload.bodies parts = some bodies)
    (hNumbers : (parts.map CompletedPart.partNumber).Pairwise (· < ·))
    (hLimit : bodies.flatten.length ≤ limit) :
    (upload.assemble limit parts = some bodies.flatten ∨ upload.assemble limit parts = none) ∧
      (upload.assemble limit parts ≠ none ↔
        bodies ≠ [] ∧ ∀ body ∈ bodies.dropLast, minPartSize ≤ body.length) := by
  simp only [Upload.assemble, hBodies]
  split
  next hRules => exact ⟨.inl rfl, iff_of_true (Option.some_ne_none _) ⟨hRules.1, hRules.2.2.1⟩⟩
  next hRules =>
    refine ⟨.inr rfl, iff_of_false (fun h => h rfl) fun hBoth => hRules ?_⟩
    exact ⟨hBoth.1, hNumbers, hBoth.2, hLimit⟩

end Upload

section Stores
variable {client : MultipartClient ω} {view : BucketView ω} {limit : Nat} {fullKey id : Bytes}
  {input : StreamHandle Byte} {cs : List (Chunk Byte)} {n : Nat} {w : ω}
  {parts : List CompletedPart} {bodies : List Bytes} {upload : Upload}

/-- The parts that the loop has listed are those of the upload, numbered below the next. -/
structure Progress (view : BucketView ω) (fullKey id : Bytes) (w : ω) (n : Nat)
    (parts : List CompletedPart) (bodies : List Bytes) (upload : Upload) : Prop where
  there : view.uploads w id = some upload
  key : upload.key = fullKey
  low : 1 ≤ n
  bodies : upload.bodies parts = some bodies
  numbers : (parts.map CompletedPart.partNumber).Pairwise (· < ·)
  below : ∀ part ∈ parts, part.partNumber < n

theorem Progress.put (hProgress : Progress view fullKey id w n parts bodies upload) {w' : ω}
    {eTag body : Bytes} (hUploads : view.uploads w' =
      Function.update (view.uploads w) id (some (upload.put n eTag body))) :
    Progress view fullKey id w' (n + 1) (parts ++ [⟨n, eTag⟩]) (bodies ++ [body])
      (upload.put n eTag body) where
  there := by rw [hUploads, Function.update_self]
  key := hProgress.key
  low := Nat.le_add_left 1 n
  bodies := Upload.bodies_append hProgress.bodies hProgress.below
  numbers := by
    rw [List.map_append, List.pairwise_append]
    refine ⟨hProgress.numbers, List.pairwise_singleton _ _, ?_⟩
    intro number hOld last hLast
    obtain ⟨part, hPart, rfl⟩ := List.mem_map.mp hOld
    obtain rfl := List.mem_singleton.mp hLast
    exact hProgress.below part hPart
  below part hMem := by
    rcases List.mem_append.mp hMem with hOld | hNew
    · exact Nat.lt_succ_of_lt (hProgress.below part hOld)
    · obtain rfl := List.mem_singleton.mp hNew
      exact Nat.lt_succ_self n

/-- A chunk is never too large for a part. -/
theorem chunk_fits_part (c : Chunk Byte) : c.toList.length ≤ maxPartSize := by
  have hSize := c.size_lt
  rw [Chunk.length_toList]
  exact hSize.le.trans (by decide)

/-- As long as the numbers of the parts last, every chunk is uploaded. -/
theorem Progress.uploaded (hServes : client.Serves view limit) (hInput : Emits input cs .done)
    (hProgress : Progress view fullKey id w n parts bodies upload)
    (hFits : n + cs.length ≤ maxPartNumber + 1) :
    ∃ parts' w' upload', Uploaded client fullKey id input n w parts' w' ∧
      view.objects w' = view.objects w ∧
      Progress view fullKey id w' (n + cs.length) (parts ++ parts') (bodies ++ cs.map Chunk.toList)
        upload' := by
  generalize hEnd : Ending.done = e at hInput
  induction hInput generalizing n w parts bodies upload with
  | done hPull =>
      refine ⟨[], w, upload, .done hPull, rfl, ?_⟩
      simpa only [List.append_nil, List.map_nil, List.length_nil, Nat.add_zero] using hProgress
  | error => cases hEnd
  | @chunk h h' c cs e hPull _ ih =>
      rw [List.length_cons] at hFits
      obtain ⟨eTag, w', hPart, hObjects, hUploads⟩ := hServes.partTaken hProgress.there
        hProgress.key hProgress.low (by omega) (chunk_fits_part c)
      obtain ⟨parts', w'', upload', hUploaded, hObjects', hAll⟩ :=
        ih (hProgress.put hUploads) (by omega) hEnd
      refine ⟨⟨n, eTag⟩ :: parts', w'', upload', .part hPull hPart hUploaded,
        hObjects'.trans hObjects, ?_⟩
      have hNumber : n + (cs.length + 1) = n + 1 + cs.length := by omega
      simpa only [List.append_assoc, List.singleton_append, List.map_cons, List.length_cons,
        hNumber] using hAll

/-- When the numbers do not last, a part is refused. -/
theorem Progress.broken (hServes : client.Serves view limit) (hInput : Emits input cs .done)
    (hProgress : Progress view fullKey id w n parts bodies upload) (hNext : n ≤ maxPartNumber + 1)
    (hMany : maxPartNumber + 1 < n + cs.length) :
    ∃ e w', Broken client fullKey id input n w e w' := by
  generalize hEnd : Ending.done = e at hInput
  induction hInput generalizing n w parts bodies upload with
  | done hPull =>
      rw [List.length_nil] at hMany
      omega
  | error => cases hEnd
  | @chunk h h' c cs e hPull _ ih =>
      rw [List.length_cons] at hMany
      by_cases hLast : maxPartNumber < n
      · obtain ⟨err, w', hPart⟩ := hServes.partRefused hLast
        exact ⟨_, w', .refused hPull hPart⟩
      · obtain ⟨eTag, w', hPart, -, hUploads⟩ := hServes.partTaken hProgress.there
          hProgress.key hProgress.low (Nat.not_lt.mp hLast) (chunk_fits_part c)
        obtain ⟨e', w'', hBroken⟩ := ih (hProgress.put hUploads) (by omega) (by omega) hEnd
        exact ⟨e', w'', .part hPull hPart hBroken⟩

theorem progress_start (hUploads : view.uploads w id = some (.begin fullKey)) :
    Progress view fullKey id w 1 [] [] (.begin fullKey) where
  there := hUploads
  key := rfl
  low := le_rfl
  bodies := rfl
  numbers := List.Pairwise.nil
  below part hMem := by cases hMem

end Stores

/-- The stream is cut into parts as the service wants them: there is a chunk, all but the
last are large enough, and the numbers of the parts last. -/
structure PartSized (cs : List (Chunk Byte)) : Prop where
  nonempty : cs ≠ []
  large : ∀ c ∈ cs.dropLast, minPartSize ≤ c.size
  few : cs.length ≤ maxPartNumber

section Put
variable {client : MultipartClient ω} {view : BucketView ω} {limit : Nat} {key : Bytes}
  {input : StreamHandle Byte} {cs : List (Chunk Byte)} {w : ω}

/-- `stream_put` stores the stream if its chunks have the size of parts, and fails if not. -/
theorem S3Backend.streamPut_cases (backend : S3Backend ω) (hServes : client.Serves view limit)
    (hInput : Emits input cs .done) (hLimit : (chunkElems cs).length ≤ limit) :
    (PartSized cs ∧ ∃ w', backend.streamPut client key input w = some (.ok (), w') ∧
      view.objects w' = Function.update (view.objects w) (backend.resolveKey key)
        (some (chunkElems cs))) ∨
    ¬PartSized cs ∧ ∃ e w', backend.streamPut client key input w = some (.error e, w') := by
  obtain ⟨id, w₁, hCreate⟩ := hServes.create (backend.resolveKey key) w
  obtain ⟨-, hObjects, hUploads⟩ := hServes.created hCreate
  have hStart : Progress view (backend.resolveKey key) id w₁ 1 [] []
      (.begin (backend.resolveKey key)) :=
    progress_start (by rw [hUploads, Function.update_self])
  by_cases hFew : cs.length ≤ maxPartNumber
  · obtain ⟨parts, w₂, upload, hUploaded, hObjects₂, hAll⟩ :=
      hStart.uploaded hServes hInput (by omega)
    have hPut := backend.streamPut_of_uploaded hCreate hUploaded
    rw [List.nil_append, List.nil_append] at hAll
    obtain ⟨hKind, hRules⟩ := Upload.assemble_eq_some_iff hAll.bodies hAll.numbers hLimit
    have hSized : upload.assemble limit parts ≠ none ↔ PartSized cs := by
      rw [hRules]
      constructor
      · rintro ⟨hSome, hLarge⟩
        refine ⟨fun hNone => hSome (by rw [hNone]; rfl), fun c hc => ?_, hFew⟩
        rw [← Chunk.length_toList]
        apply hLarge
        rw [← List.map_dropLast]
        exact List.mem_map_of_mem hc
      · rintro ⟨hSome, hLarge, -⟩
        refine ⟨fun hNone => hSome (List.map_eq_nil_iff.mp hNone), fun body hBody => ?_⟩
        rw [← List.map_dropLast] at hBody
        obtain ⟨c, hc, rfl⟩ := List.mem_map.mp hBody
        rw [Chunk.length_toList]
        exact hLarge c hc
    rcases hKind with hBody | hNone
    · obtain ⟨w₃, hCompleted, hStored⟩ := hServes.completed hAll.there hBody
      rw [hAll.key] at hCompleted hStored
      refine .inl ⟨hSized.mp (by rw [hBody]; exact Option.some_ne_none _), w₃, ?_, ?_⟩
      · rw [hPut, completeUpload, hCompleted]
      · rw [hStored, hObjects₂, hObjects]
        rfl
    · obtain ⟨err, w₃, hRefused⟩ := hServes.completionRefused hAll.there hNone
      rw [hAll.key] at hRefused
      refine .inr ⟨fun h => hSized.mpr h hNone, ⟨"S3StreamPut", err.message⟩, w₃, ?_⟩
      rw [hPut, completeUpload, hRefused]
  · obtain ⟨e, w₂, hBroken⟩ := hStart.broken hServes hInput (by decide) (by omega)
    exact .inr ⟨fun hSized => hFew hSized.few, e, _, backend.streamPut_of_broken hCreate hBroken⟩

/-- `stream_put` succeeds and `stream_get` brings the bytes of the stream if and only if the
chunks have the size of parts and the object is read in ranges that fit into a chunk. -/
theorem S3Backend.stream_put_stores_iff (backend : S3Backend ω) (hServes : client.Serves view limit)
    (hInput : Emits input cs .done) (hLimit : (chunkElems cs).length ≤ limit)
    (hReads : ∀ w', backend.streamPut client key input w = some (.ok (), w') →
      backend.client.Reads (view.objects w') w') :
    (∃ w', backend.streamPut client key input w = some (.ok (), w') ∧
      Denotes (backend.streamGet key w') (chunkElems cs) .done) ↔
    PartSized cs ∧ min backend.chunkSize (chunkElems cs).length < uint32Size := by
  rcases backend.streamPut_cases hServes hInput hLimit with
    ⟨hSized, w', hPut, hObjects⟩ | ⟨hSized, e, w', hPut⟩
  · have hStored : view.objects w' (backend.resolveKey key) = some (chunkElems cs) := by
      rw [hObjects, Function.update_self]
    have hGet := getAt_denotes (hReads w' hPut) backend.chunkSize_pos hStored 0
    rw [List.drop_zero] at hGet
    rw [← received_eq_self_iff backend.chunkSize_pos]
    constructor
    · rintro ⟨w'', hPut', hSame⟩
      obtain ⟨-, rfl⟩ := Prod.mk.inj (Option.some.inj (hPut.symm.trans hPut'))
      exact ⟨hSized, (hGet.unique hSame).1⟩
    · rintro ⟨-, hWhole⟩
      rw [hWhole] at hGet
      exact ⟨w', hPut, hGet⟩
  · refine iff_of_false ?_ fun hBoth => hSized hBoth.1
    rintro ⟨w'', hPut', -⟩
    rw [hPut] at hPut'
    cases (Prod.mk.inj (Option.some.inj hPut')).1

end Put
open Materialization (Memory)

namespace S3Bucket

theorem backend_reads {b : S3Bucket} (hFew : b.memory.entries.length ≤ 1000) :
    backend.client.Reads (view.objects b) b := by
  have hReads := memoryClient_reads hFew
  refine ⟨hReads.getObject, hReads.getRange, hReads.getBeyond, hReads.getMissing, fun start => ?_⟩
  refine ⟨[(b.memory.entries.map KVPair.key).filter fun key => startsWith key start], .last rfl, ?_⟩
  obtain ⟨pages, hListing, hPages⟩ := hReads.list start
  cases hListing with
  | last hList =>
      obtain ⟨rfl, -⟩ := ListPage.mk.inj (Except.ok.inj hList)
      exact hPages
  | more hList => cases (ListPage.mk.inj (Except.ok.inj hList)).2.1

/-- Where at most one key has a value there is at most one entry. -/
theorem entries_length_le {m : Memory} {key : Bytes} (h : ∀ k, k ≠ key → m.contents k = none) :
    m.entries.length ≤ 1 := by
  have hSubset : m.entries.map KVPair.key ⊆ [key] := by
    intro k hMem
    obtain ⟨kv, hEntry, rfl⟩ := List.mem_map.mp hMem
    by_contra hOther
    have hNone := h kv.key (List.mem_singleton.not.mp hOther)
    rw [Memory.contents, Option.map_eq_none_iff, List.find?_eq_none] at hNone
    exact hNone kv hEntry (beq_self_eq_true _)
  have hLength := (m.unique.subperm hSubset).length_le
  rwa [List.length_map] at hLength

/-- The first chunk is as large as a part must be, the last one is a single byte. -/
def twoParts : List (Chunk Byte) :=
  [Chunk.from (List.replicate minPartSize 7), Chunk.singleton 8]

theorem toList_firstPart : (Chunk.from (List.replicate minPartSize (7 : Byte))).toList =
    List.replicate minPartSize 7 := by
  apply Chunk.toList_from_of_lt
  rw [List.length_replicate]
  decide

theorem twoParts_partSized : PartSized twoParts := by
  refine ⟨List.cons_ne_nil _ _, fun c hc => ?_, by decide⟩
  obtain rfl := List.mem_singleton.mp hc
  rw [← Chunk.length_toList, toList_firstPart, List.length_replicate]

theorem length_twoParts : (chunkElems twoParts).length = minPartSize + 1 := by
  rw [twoParts, chunkElems, List.map_cons, List.flatten_cons, toList_firstPart, List.length_append,
    List.length_replicate]
  rfl

end S3Bucket

open S3Bucket in
/-- Two parts are put and read back. -/
theorem stream_put_stores_iff_twoParts : ∃ w',
    backend.streamPut (multipart (2 ^ 30)) (ascii "k") (Stream.ofChunks twoParts .done)
      S3Bucket.empty = some (.ok (), w') ∧
    Denotes (backend.streamGet (ascii "k") w') (chunkElems twoParts) .done := by
  have hInput : Emits (Stream.ofChunks twoParts .done) twoParts .done := Stream.ofChunks_emits _ _
  have hLimit : (chunkElems twoParts).length ≤ 2 ^ 30 := by
    rw [length_twoParts]
    decide
  refine (backend.stream_put_stores_iff (multipart_serves (2 ^ 30)) hInput hLimit ?_).mpr
    ⟨twoParts_partSized, (Nat.min_le_left _ _).trans_lt (by decide)⟩
  intro w' hPut
  rcases backend.streamPut_cases (multipart_serves (2 ^ 30)) hInput hLimit with
    ⟨-, w'', hPut', hObjects⟩ | ⟨hSized, -⟩
  · obtain ⟨-, rfl⟩ := Prod.mk.inj (Option.some.inj (hPut.symm.trans hPut'))
    have hOthers : ∀ k, k ≠ backend.resolveKey (ascii "k") → w'.memory.contents k = none :=
      fun k hOther => (congrFun hObjects k).trans (Function.update_of_ne hOther _ _)
    exact backend_reads ((entries_length_le hOthers).trans (by decide))
  · exact absurd twoParts_partSized hSized

open S3Bucket in
/-- An empty stream is not stored. -/
theorem empty_stream_is_not_stored :
    ¬∃ w', backend.streamPut (multipart 100) (ascii "k") Stream.empty S3Bucket.empty =
      some (.ok (), w') := by
  have hInput : Emits (Stream.empty : StreamHandle Byte) [] .done := .make_done rfl
  rintro ⟨w', hPut⟩
  rcases backend.streamPut_cases (multipart_serves 100) hInput (Nat.zero_le 100) with
    ⟨hSized, -⟩ | ⟨-, e, w'', hPut'⟩
  · exact hSized.nonempty rfl
  · rw [hPut'] at hPut
    cases (Prod.mk.inj (Option.some.inj hPut)).1

end CelerMem
