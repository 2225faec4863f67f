import CelerMem.Core.Compression
import CelerMem.Core.Meaning

/-! When decompression gives back what was compressed: chunk by chunk, up to the
safety limit of the decoder, and never once the chunk boundaries are lost. -/
namespace CelerMem.Compression

open LittleEndian

variable {p : Primitives} {codec : Codec} {data frame : Bytes}

/-! ## Frames -/

@[simp] theorem length_writeLe32 (v : ℕ) : (writeLe32 v).length = 4 := length_toBytes 4 v

/-- The header of a frame, also of one that lost its tail. -/
theorem readLe32_frame {v k : ℕ} (hv : v < uint32Size) (hk : 4 ≤ k) (body : Bytes) :
    readLe32 ((writeLe32 v ++ body).take k) = v := by
  rw [readLe32, List.take_take, Nat.min_eq_left hk, List.take_left' (length_writeLe32 v), writeLe32,
    ofBytes_toBytes]
  exact Nat.mod_eq_of_lt hv

/-- The compressed bytes are no longer than the libraries allow. -/
theorem compressBlock_frame (h : compressBlock p codec data = .ok frame) :
    ∃ body, frame = writeLe32 data.length ++ body ∧ data.length < uint32Size ∧
      (body.length ≤ 32 + data.length + data.length / 6 ∨ body.length < 2 ^ 31) := by
  unfold compressBlock at h
  split at h
  · cases h
  · rename_i hChecked
    have hSize : data.length < uint32Size := by
      simp only [uint32Size] at hChecked ⊢
      omega
    cases codec with
    | none =>
        refine ⟨data, (Except.ok.inj h).symm, hSize, Or.inl ?_⟩
        omega
    | snappy =>
        simp only at h
        split at h
        · exact ⟨_, (Except.ok.inj h).symm, hSize, Or.inl (p.snappy_length data)⟩
        · cases h
    | lz4 =>
        simp only at h
        split at h
        · split at h
          · cases h
          · split at h
            · cases h
            · rename_i out hOut
              refine ⟨out, (Except.ok.inj h).symm, hSize, Or.inr ?_⟩
              exact (p.lz4_length _ _ _ hOut).trans_lt (p.lz4_bound _)
        · cases h

theorem toInt_of_lt {n : ℕ} (h : n < 2 ^ 31) : toInt n = n := by
  have hWidth : ((2 ^ 32 : ℕ) : ℤ) = 4294967296 := by simp
  refine Int.bmod_eq_of_le_mul_two ?_ ?_
  · omega
  · omega

/-- A block within the limit of the decoder is recovered. -/
theorem decompressBlock_frame (h : compressBlock p codec data = .ok frame)
    (hLimit : data.length ≤ maxDecompressSize) : decompressBlock p codec frame = .ok data := by
  obtain ⟨body, rfl, hSize, -⟩ := compressBlock_frame h
  have hLong : ¬ (writeLe32 data.length ++ body).length < 4 := by
    rw [List.length_append, length_writeLe32]
    omega
  have hHeader : readLe32 (writeLe32 data.length ++ body) = data.length := by
    have hWhole := readLe32_frame hSize (show 4 ≤ (writeLe32 data.length ++ body).length by omega) body
    rwa [List.take_length] at hWhole
  have hBody : (writeLe32 data.length ++ body).drop 4 = body := List.drop_left' (length_writeLe32 _)
  have hFrame : ∀ {body'}, (.ok (writeLe32 data.length ++ body') : Result Bytes) =
      .ok (writeLe32 data.length ++ body) → body' = body := by
    intro body' hSame
    exact List.append_cancel_left (Except.ok.inj hSame)
  have hChecked : ¬ uint32Size - 1 < data.length := by
    simp only [uint32Size] at hSize ⊢
    omega
  unfold compressBlock at h
  rw [if_neg hChecked] at h
  rw [decompressBlock, if_neg hLong, hHeader, if_neg (Nat.not_lt.mpr hLimit), hBody]
  cases codec with
  | none => rw [hFrame h]
  | snappy =>
      simp only at h ⊢
      split at h
      · rename_i hHas
        rw [if_pos hHas, ← hFrame h, p.snappy_lossless]
      · cases h
  | lz4 =>
      simp only at h ⊢
      split at h
      · rename_i hHas
        split at h
        · cases h
        · split at h
          · cases h
          · rename_i out hOut
            obtain rfl := hFrame h
            have hShort : out.length < 2 ^ 31 := (p.lz4_length _ _ _ hOut).trans_lt (p.lz4_bound _)
            have hOriginal : data.length < 2 ^ 31 := by
              refine hLimit.trans_lt ?_
              simp [maxDecompressSize]
            rw [if_pos hHas, toInt_of_lt hShort, toInt_of_lt hOriginal, p.lz4_lossless _ _ _ hOut]
      · cases h

/-- A larger block is refused, whatever of its frame arrives. -/
theorem decompressBlock_large (h : compressBlock p codec data = .ok frame)
    (hLimit : maxDecompressSize < data.length) (k : ℕ) :
    ∃ e, decompressBlock p codec (frame.take k) = .error e := by
  obtain ⟨body, rfl, hSize, -⟩ := compressBlock_frame h
  unfold decompressBlock
  by_cases hShort : ((writeLe32 data.length ++ body).take k).length < 4
  · exact ⟨_, if_pos hShort⟩
  · have hk : 4 ≤ k := by
      rw [List.length_take] at hShort
      omega
    rw [if_neg hShort, readLe32_frame hSize hk, if_pos hLimit]
    exact ⟨_, rfl⟩

theorem frame_length_lt (h : compressBlock p codec data = .ok frame)
    (hLimit : data.length ≤ maxDecompressSize) : frame.length < uint32Size := by
  obtain ⟨body, rfl, -, hBody⟩ := compressBlock_frame h
  rw [List.length_append, length_writeLe32]
  simp only [maxDecompressSize] at hLimit
  simp only [uint32Size]
  omega

/-! ## Streams of blocks -/

/-- What block-wise pulls make of the chunks and the ending of a source. -/
def throughBlocks (block : Bytes → Result Bytes) :
    List (Chunk Byte) → Ending → List (Chunk Byte) × Ending
  | [], e => ([], e)
  | c :: cs, e =>
      match block c.toList with
      | .error err => ([], .error err)
      | .ok out => (Chunk.from out :: (throughBlocks block cs e).1, (throughBlocks block cs e).2)

section Blocks
variable {Impl : Type} [StreamImpl Impl Byte] {block : Bytes → Result Bytes}
  (make : StreamHandle Byte → Impl)

theorem blocks_emits (hPull : ∀ source, StreamImpl.pull (make source) =
      (pullBlock block source).map fun r => (r.1, make r.2))
    {source : StreamHandle Byte} {cs : List (Chunk Byte)} {e : Ending} (h : Emits source cs e) :
    Emits (makeStreamHandle (make source)) (throughBlocks block cs e).1
      (throughBlocks block cs e).2 := by
  induction h with
  | @done source next hSource =>
      exact .done (by rw [makeStreamHandle_pull, hPull, pullBlock, hSource]; rfl)
  | @error source next err hSource =>
      exact .error (by rw [makeStreamHandle_pull, hPull, pullBlock, hSource]; rfl)
  | @chunk source next c cs e hSource _ ih =>
      rw [throughBlocks]
      cases hBlock : block c.toList with
      | error err =>
          have hNext : (makeStreamHandle (make source)).pull =
              some (.error err, makeStreamHandle (make next)) := by
            rw [makeStreamHandle_pull, hPull, pullBlock, hSource]
            simp [hBlock]
          exact .error hNext
      | ok out =>
          have hNext : (makeStreamHandle (make source)).pull =
              some (.ok (some (Chunk.from out)), makeStreamHandle (make next)) := by
            rw [makeStreamHandle_pull, hPull, pullBlock, hSource]
            simp [hBlock]
          exact .chunk hNext ih

end Blocks

variable {s : StreamHandle Byte} {cs : List (Chunk Byte)} {e : Ending}

theorem compress_emits (p : Primitives) (codec : Codec) (h : Emits s cs e) :
    Emits (compress p s codec) (throughBlocks (compressBlock p codec) cs e).1
      (throughBlocks (compressBlock p codec) cs e).2 := by
  refine blocks_emits (fun source => (⟨source, codec⟩ : CompressImpl p)) ?_ h
  intro source
  cases hBlock : pullBlock (compressBlock p codec) source with
  | none => simp [StreamImpl.pull, CompressImpl.pull, hBlock]
  | some r => simp [StreamImpl.pull, CompressImpl.pull, hBlock]

theorem decompress_emits (p : Primitives) (codec : Codec) (h : Emits s cs e) :
    Emits (decompress p s codec) (throughBlocks (decompressBlock p codec) cs e).1
      (throughBlocks (decompressBlock p codec) cs e).2 := by
  refine blocks_emits (fun source => (⟨source, codec⟩ : DecompressImpl p)) ?_ h
  intro source
  cases hBlock : pullBlock (decompressBlock p codec) source with
  | none => simp [StreamImpl.pull, DecompressImpl.pull, hBlock]
  | some r => simp [StreamImpl.pull, DecompressImpl.pull, hBlock]

/-! ## There and back -/

/-- A stream whose blocks all compress has an ending of its own. -/
theorem compress_ok {out : Bytes} (h : Emits s cs e)
    (hCompress : Stream.collect (compress p s codec) = some (.ok out)) :
    (throughBlocks (compressBlock p codec) cs e).2 = .done ∧
      chunkElems (throughBlocks (compressBlock p codec) cs e).1 = out := by
  have hCollect := (compress_emits p codec h).denotes.collect
  rw [hCompress] at hCollect
  cases hEnd : (throughBlocks (compressBlock p codec) cs e).2 with
  | done =>
      rw [hEnd] at hCollect
      exact ⟨rfl, (Except.ok.inj (Option.some.inj hCollect)).symm⟩
  | error err =>
      rw [hEnd] at hCollect
      cases Option.some.inj hCollect

/-- Decoding the frames of the chunks: everything comes back, or a chunk above the
limit ends it with an error. -/
theorem decompress_frames (h : (throughBlocks (compressBlock p codec) cs e).2 = .done) :
    (∀ c ∈ cs, c.size ≤ maxDecompressSize) ∧
        (throughBlocks (decompressBlock p codec)
          (throughBlocks (compressBlock p codec) cs e).1 .done).2 = .done ∧
        chunkElems (throughBlocks (decompressBlock p codec)
          (throughBlocks (compressBlock p codec) cs e).1 .done).1 = chunkElems cs ∨
      (∃ c ∈ cs, maxDecompressSize < c.size) ∧
        ∃ err, (throughBlocks (decompressBlock p codec)
          (throughBlocks (compressBlock p codec) cs e).1 .done).2 = .error err := by
  induction cs with
  | nil => exact Or.inl ⟨by simp, rfl, rfl⟩
  | cons c cs ih =>
      rw [throughBlocks] at h
      cases hFrame : compressBlock p codec c.toList with
      | error err =>
          rw [hFrame] at h
          cases h
      | ok frame =>
          rw [hFrame] at h
          have hFrames : (throughBlocks (compressBlock p codec) (c :: cs) e).1 =
              Chunk.from frame :: (throughBlocks (compressBlock p codec) cs e).1 := by
            rw [throughBlocks, hFrame]
          rw [hFrames, throughBlocks, Chunk.toList_from]
          rcases Nat.lt_or_ge maxDecompressSize c.size with hLarge | hSmall
          · right
            have hOver : maxDecompressSize < c.toList.length := by
              rw [Chunk.length_toList]
              exact hLarge
            obtain ⟨err, hError⟩ := decompressBlock_large hFrame hOver (frame.length % uint32Size)
            refine ⟨⟨c, List.mem_cons_self, hLarge⟩, err, ?_⟩
            simp only [hError]
          · have hLimit : c.toList.length ≤ maxDecompressSize := by
              rw [Chunk.length_toList]
              exact hSmall
            rw [Nat.mod_eq_of_lt (frame_length_lt hFrame hLimit), List.take_length]
            simp only [decompressBlock_frame hFrame hLimit]
            rcases ih h with ⟨hAll, hDone, hElems⟩ | ⟨⟨c', hMem, hLarge⟩, hError⟩
            · left
              refine ⟨?_, hDone, ?_⟩
              · intro c' hMem
                rcases List.mem_cons.mp hMem with rfl | hMem
                · exact hSmall
                · exact hAll c' hMem
              · rw [chunkElems_cons, chunkElems_cons, hElems, Chunk.toList_from_of_lt
                  (by rw [Chunk.length_toList]; exact c.size_lt)]
            · exact Or.inr ⟨⟨c', List.mem_cons_of_mem c hMem, hLarge⟩, hError⟩

/-- What collecting the decompressed stream returns. -/
theorem collect_decompress_compress {out : Bytes} (h : Emits s cs e)
    (hCompress : Stream.collect (compress p s codec) = some (.ok out)) :
    (∀ c ∈ cs, c.size ≤ maxDecompressSize) ∧
        Stream.collect (decompress p (compress p s codec) codec) = some (.ok (chunkElems cs)) ∨
      (∃ c ∈ cs, maxDecompressSize < c.size) ∧
        ∃ err, Stream.collect (decompress p (compress p s codec) codec) = some (.error err) := by
  obtain ⟨hEnd, -⟩ := compress_ok h hCompress
  have hFrames := compress_emits p codec h
  rw [hEnd] at hFrames
  rw [(decompress_emits p codec hFrames).denotes.collect]
  rcases decompress_frames hEnd with ⟨hAll, hDone, hElems⟩ | ⟨hLarge, err, hError⟩
  · rw [hDone, hElems]
    exact Or.inl ⟨hAll, rfl⟩
  · rw [hError]
    exact Or.inr ⟨hLarge, err, rfl⟩

/-- A build without the two libraries. -/
def withoutLibraries : Primitives where
  hasSnappy := false
  hasLz4 := false
  snappyCompress := id
  snappyUncompress := some
  lz4CompressBound _ := 0
  lz4CompressDefault _ _ := none
  lz4DecompressSafe _ _ _ := none
  snappy_lossless _ := rfl
  snappy_length data := by
    rw [id]
    omega
  lz4_lossless _ _ _ h := by cases h
  lz4_length _ _ _ h := by cases h
  lz4_bound _ := Nat.two_pow_pos 31

/-- Without compression, any chunk of fewer than `2 ^ 32` bytes can be framed. -/
theorem compress_none (h : Emits s cs .done) :
    ∃ out, Stream.collect (compress p s .none) = some (.ok out) := by
  have hEnd : (throughBlocks (compressBlock p .none) cs .done).2 = .done := by
    clear h
    induction cs with
    | nil => rfl
    | cons c cs ih =>
        have hSize := c.size_lt
        have hChecked : ¬ uint32Size - 1 < c.toList.length := by
          rw [Chunk.length_toList]
          simp only [uint32Size] at hSize ⊢
          omega
        have hFrame : compressBlock p .none c.toList =
            .ok (writeLe32 c.toList.length ++ c.toList) := by
          unfold compressBlock
          rw [if_neg hChecked]
        rw [throughBlocks, hFrame]
        exact ih
  have hCollect := (compress_emits p .none h).denotes.collect
  rw [hEnd] at hCollect
  exact ⟨_, hCollect⟩

/-- When everything compresses, decompression gives the stream back exactly when no
chunk of it is larger than the limit of the decoder. -/
theorem decompress_compress_iff {out : Bytes} (h : Emits s cs e)
    (hCompress : Stream.collect (compress p s codec) = some (.ok out)) :
    Stream.collect (decompress p (compress p s codec) codec) = some (.ok (chunkElems cs)) ↔
      ∀ c ∈ cs, c.size ≤ maxDecompressSize := by
  rcases collect_decompress_compress h hCompress with ⟨hAll, hOk⟩ | ⟨⟨c, hMem, hLarge⟩, err, hError⟩
  · exact iff_of_true hOk hAll
  · refine iff_of_false ?_ ?_
    · intro hOk
      rw [hError] at hOk
      cases Option.some.inj hOk
    · intro hAll
      exact absurd (hAll c hMem) (Nat.not_le.mpr hLarge)

theorem decompress_compress_two_chunks :
    ∃ out, Stream.collect (compress withoutLibraries
        (Stream.ofChunks [Chunk.none, Chunk.singleton 7] .done) .none) = some (.ok out) ∧
      Stream.collect (decompress withoutLibraries (compress withoutLibraries
        (Stream.ofChunks [Chunk.none, Chunk.singleton 7] .done) .none) .none) = some (.ok [7]) := by
  have hChunks := Stream.ofChunks_emits [Chunk.none, Chunk.singleton (7 : Byte)] .done
  obtain ⟨out, hCompress⟩ := compress_none (p := withoutLibraries) hChunks
  refine ⟨out, hCompress, (decompress_compress_iff hChunks hCompress).mpr ?_⟩
  intro c hMem
  rcases List.mem_cons.mp hMem with rfl | hMem
  · simp [Chunk.none, Chunk.size]
  · rw [List.mem_singleton.mp hMem]
    simp [Chunk.singleton, Chunk.size, maxDecompressSize]

/-- One byte more than 256 MiB. -/
def large : Chunk Byte := Chunk.from (List.replicate (maxDecompressSize + 1) 7)

theorem decompress_refuses_large_chunk :
    (∃ out, Stream.collect (compress withoutLibraries (Stream.ofChunks [large] .done) .none) =
      some (.ok out)) ∧
    Stream.collect (decompress withoutLibraries
        (compress withoutLibraries (Stream.ofChunks [large] .done) .none) .none) ≠
      some (.ok (chunkElems [large])) := by
  have hChunks := Stream.ofChunks_emits [large] .done
  obtain ⟨out, hCompress⟩ := compress_none (p := withoutLibraries) hChunks
  refine ⟨⟨out, hCompress⟩, ?_⟩
  have hLength : (List.replicate (maxDecompressSize + 1) (7 : Byte)).length < uint32Size := by
    rw [List.length_replicate]
    simp [maxDecompressSize, uint32Size]
  have hSize : large.size = maxDecompressSize + 1 := by
    rw [← Chunk.length_toList, large, Chunk.toList_from_of_lt hLength, List.length_replicate]
  rcases collect_decompress_compress hChunks hCompress with ⟨hAll, -⟩ | ⟨-, err, hError⟩
  · have hFits := hAll large List.mem_cons_self
    rw [hSize] at hFits
    exact absurd hFits (Nat.not_succ_le_self _)
  · intro hOk
    rw [hError] at hOk
    cases Option.some.inj hOk

/-! ## Through a store -/

/-- The frame of an empty chunk is not empty. -/
theorem from_frame_ne_nil (h : compressBlock p codec [] = .ok frame) :
    (Chunk.from frame).toList ≠ [] := by
  have hShort : frame.length < uint32Size := frame_length_lt h (Nat.zero_le _)
  obtain ⟨body, rfl, -⟩ := compressBlock_frame h
  rw [Chunk.toList_from_of_lt hShort]
  intro hNil
  have hLength := congrArg List.length hNil
  rw [List.length_append, length_writeLe32, List.length_nil] at hLength
  omega

/-- Compression leaves some bytes of a stream that has chunks. -/
theorem compress_nil (h : (throughBlocks (compressBlock p codec) cs e).2 = .done)
    (hNil : chunkElems (throughBlocks (compressBlock p codec) cs e).1 = [])
    (hElems : chunkElems cs = []) : cs = [] := by
  cases cs with
  | nil => rfl
  | cons c cs =>
      rw [chunkElems_cons, List.append_eq_nil_iff] at hElems
      rw [throughBlocks, hElems.1] at h hNil
      cases hFrame : compressBlock p codec [] with
      | error err =>
          rw [hFrame] at h
          cases h
      | ok frame =>
          rw [hFrame] at hNil
          simp only [chunkElems_cons, List.append_eq_nil_iff] at hNil
          exact absurd hNil.1 (from_frame_ne_nil hFrame)

/-- A chunk of one byte is no frame. -/
theorem decompress_bytes (p : Primitives) (codec : Codec) (b : Byte) (bytes : Bytes) : ∃ err,
    Stream.collect (decompress p (Stream.ofChunks ((b :: bytes).map Chunk.singleton) .done) codec) =
      some (.error err) := by
  have hShort : decompressBlock p codec [b] =
      .error ⟨"Decompress", "frame too short (< 4 bytes)"⟩ := by simp [decompressBlock]
  have hEmits := decompress_emits p codec
    (Stream.ofChunks_emits ((b :: bytes).map Chunk.singleton) .done)
  rw [List.map_cons, throughBlocks, Chunk.toList_singleton, hShort] at hEmits
  exact ⟨_, hEmits.denotes.collect⟩

/-- Frames are found by the chunk boundaries alone: every way to cut the compressed
bytes into chunks anew is decompressed to the stream only if it had no chunks. -/
theorem decompress_rechunked_iff {out : Bytes} (h : Emits s cs e)
    (hCompress : Stream.collect (compress p s codec) = some (.ok out)) :
    (∀ (stored : StreamHandle Byte) (chunks : List (Chunk Byte)), Emits stored chunks .done →
        (∀ c ∈ chunks, c.toList ≠ []) → chunkElems chunks = out →
        Stream.collect (decompress p stored codec) = some (.ok (chunkElems cs))) ↔ cs = [] := by
  obtain ⟨hEnd, hOut⟩ := compress_ok h hCompress
  constructor
  · intro hAll
    cases out with
    | nil =>
        have hEmpty := Stream.ofChunks_emits ([] : List (Chunk Byte)) .done
        have hBack := hAll _ [] hEmpty (by simp) rfl
        rw [(decompress_emits p codec hEmpty).denotes.collect] at hBack
        exact compress_nil hEnd hOut (Except.ok.inj (Option.some.inj hBack)).symm
    | cons b bytes =>
        have hChunks := Stream.ofChunks_emits ((b :: bytes).map Chunk.singleton) .done
        obtain ⟨err, hError⟩ := decompress_bytes p codec b bytes
        have hBack := hAll _ _ hChunks (by simp) (chunkElems_singletons _)
        rw [hError] at hBack
        cases Option.some.inj hBack
  · rintro rfl stored chunks hStored hFull hSame
    obtain rfl : [] = out := hOut
    have hNone : chunks = [] := by
      cases chunks with
      | nil => rfl
      | cons c chunks =>
          rw [chunkElems_cons, List.append_eq_nil_iff] at hSame
          exact absurd hSame.1 (hFull c List.mem_cons_self)
    rw [hNone] at hStored
    exact (decompress_emits p codec hStored).denotes.collect

/-- For a stream of two chunks, some way of storing its frames loses it. -/
theorem decompress_rechunked_two_chunks :
    ¬ ∀ (stored : StreamHandle Byte) (chunks : List (Chunk Byte)), Emits stored chunks .done →
      (∀ c ∈ chunks, c.toList ≠ []) → chunkElems chunks = [1, 0, 0, 0, 1, 1, 0, 0, 0, 2] →
      Stream.collect (decompress withoutLibraries stored .none) = some (.ok [1, 2]) := by
  have hChunks := Stream.ofChunks_emits [Chunk.singleton (1 : Byte), Chunk.singleton 2] .done
  have hCompress : Stream.collect (compress withoutLibraries
      (Stream.ofChunks [Chunk.singleton 1, Chunk.singleton 2] .done) .none) =
        some (.ok [1, 0, 0, 0, 1, 1, 0, 0, 0, 2]) := (compress_emits withoutLibraries .none hChunks).denotes.collect
  intro hAll
  cases (decompress_rechunked_iff hChunks hCompress).mp hAll

/-- Two frames stored as one value and read back as one chunk: the second header
comes out as data. -/
theorem decompress_merged_frames :
    Stream.collect (compress withoutLibraries
        (Stream.ofChunks [Chunk.singleton 1, Chunk.singleton 2] .done) .none) =
      some (.ok [1, 0, 0, 0, 1, 1, 0, 0, 0, 2]) ∧
    Stream.collect (decompress withoutLibraries
        (Stream.fromString [1, 0, 0, 0, 1, 1, 0, 0, 0, 2]) .none) =
      some (.ok [1, 1, 0, 0, 0, 2]) := by
  have hChunks := Stream.ofChunks_emits [Chunk.singleton (1 : Byte), Chunk.singleton 2] .done
  have hStored : Emits (Stream.fromString [1, 0, 0, 0, 1, 1, 0, 0, 0, 2])
      [Chunk.from [1, 0, 0, 0, 1, 1, 0, 0, 0, 2]] .done := .chunk rfl (.done rfl)
  exact ⟨(compress_emits withoutLibraries .none hChunks).denotes.collect, (decompress_emits withoutLibraries .none hStored).denotes.collect⟩

end CelerMem.Compression
