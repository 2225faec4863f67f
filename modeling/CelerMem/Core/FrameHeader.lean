import CelerMem.Core.CompressionRoundTrip

/-! The size that a frame declares against the bytes that come out of it. No branch of
`decompress_block` compares the two: a body that gives another number of bytes is
handed on. -/
namespace CelerMem.Compression

variable {p : Libraries} {codec : Codec} {b out : Bytes}

/-- What a body stands for before any check: itself, or what the library makes of it. -/
def rawBody (p : Libraries) (codec : Codec) (body : Bytes) (originalSize : ℕ) : Option Bytes :=
  match codec with
  | .none => some body
  | .snappy => if p.hasSnappy then p.snappyUncompress body else none
  | .lz4 =>
      if p.hasLz4 then p.lz4DecompressSafe body (toInt body.length) (toInt originalSize) else none

/-- A body whose bytes, if there are any to be had, are as many as declared. -/
def BodyFits (p : Libraries) (codec : Codec) (body : Bytes) (originalSize : ℕ) : Prop :=
  ∀ raw, rawBody p codec body originalSize = some raw → raw.length = originalSize

theorem decompressBlock_ok_iff :
    decompressBlock p codec b = .ok out ↔
      4 ≤ b.length ∧ readLe32 b ≤ maxDecompressSize ∧
        rawBody p codec (b.drop 4) (readLe32 b) = some out := by
  rw [decompressBlock]
  by_cases hShort : b.length < 4
  · rw [if_pos hShort]
    constructor
    · intro h
      cases h
    · rintro ⟨hLong, _⟩
      omega
  · rw [if_neg hShort]
    dsimp only
    by_cases hLarge : maxDecompressSize < readLe32 b
    · rw [if_pos hLarge]
      constructor
      · intro h
        cases h
      · rintro ⟨_, hSmall, _⟩
        exact absurd hLarge (Nat.not_lt.mpr hSmall)
    · rw [if_neg hLarge]
      have hGuards : 4 ≤ b.length ∧ readLe32 b ≤ maxDecompressSize :=
        ⟨Nat.not_lt.mp hShort, Nat.not_lt.mp hLarge⟩
      rw [← and_assoc, and_iff_right hGuards]
      cases codec with
      | none => simp only [rawBody, Except.ok.injEq, Option.some.injEq]
      | snappy =>
          cases hBuilt : p.hasSnappy with
          | false => simp [rawBody, hBuilt]
          | true => cases hRaw : p.snappyUncompress (b.drop 4) <;> simp [rawBody, hBuilt, hRaw]
      | lz4 =>
          cases hBuilt : p.hasLz4 with
          | false => simp [rawBody, hBuilt]
          | true =>
              cases hRaw : p.lz4DecompressSafe (b.drop 4) (toInt (b.drop 4).length)
                (toInt (readLe32 b)) <;>
              simp only [rawBody, hBuilt, hRaw, if_true, reduceCtorEq, Except.ok.injEq,
                Option.some.injEq]

theorem bodyFits_none {body : Bytes} {originalSize : ℕ} :
    BodyFits p .none body originalSize ↔ body.length = originalSize := by
  constructor
  · intro h
    exact h body rfl
  · intro h raw hRaw
    obtain rfl := Option.some.inj hRaw
    exact h

/-- The header of whatever shares its first bytes with a frame. -/
theorem readLe32_comparable {data : Bytes} (hSize : data.length < uint32Size) (hLong : 4 ≤ b.length)
    (h : b <+: writeLe32 data.length ++ data ∨ writeLe32 data.length ++ data <+: b) :
    readLe32 b = data.length := by
  rcases h with hCut | ⟨tail, rfl⟩
  · rw [List.prefix_iff_eq_take.mp hCut]
    exact readLe32_frame hSize hLong data
  · have hWhole := readLe32_frame hSize (Nat.le_refl 4) (data ++ tail)
    rw [readLe32, List.take_take, Nat.min_self] at hWhole
    rw [readLe32, List.append_assoc]
    exact hWhole

/-- Of the bytes that a `none` frame can be cut or extended to, the decoder refuses those
without a whole header, and all of them when too much is declared. -/
theorem decompressBlock_none_comparable {data frame : Bytes}
    (hFrame : compressBlock p .none data = .ok frame) (h : b <+: frame ∨ frame <+: b) :
    (∃ err, decompressBlock p .none b = .error err) ↔
      b.length < 4 ∨ maxDecompressSize < data.length := by
  rw [compressBlock] at hFrame
  split at hFrame
  next => cases hFrame
  next hSize =>
    obtain rfl := Except.ok.inj hFrame
    have hHeader : 4 ≤ b.length → readLe32 b = data.length := by
      intro hLong
      refine readLe32_comparable ?_ hLong h
      simp only [uint32Size] at hSize ⊢
      omega
    have hOk : (∃ raw, decompressBlock p .none b = .ok raw) ↔
        4 ≤ b.length ∧ data.length ≤ maxDecompressSize := by
      constructor
      · rintro ⟨raw, hRaw⟩
        obtain ⟨hLong, hSmall, _⟩ := decompressBlock_ok_iff.mp hRaw
        rw [hHeader hLong] at hSmall
        exact ⟨hLong, hSmall⟩
      · rintro ⟨hLong, hSmall⟩
        rw [← hHeader hLong] at hSmall
        exact ⟨b.drop 4, decompressBlock_ok_iff.mpr ⟨hLong, hSmall, rfl⟩⟩
    rw [← not_iff_not, not_or, Nat.not_lt, Nat.not_lt, ← hOk]
    cases decompressBlock p .none b with
    | error err => simp
    | ok raw => simp

/-- Success means a whole header and as many bytes as it declares exactly when the body
fits its header, or an earlier check fails. For the cuts and extensions of a `none` frame
that means: only where the header itself is cut or declares more than the limit. -/
theorem decompress_header_iff (p : Libraries) (codec : Codec) (b : Bytes) :
    ((∀ out, decompressBlock p codec b = .ok out → 4 ≤ b.length ∧ out.length = readLe32 b) ↔
      (4 ≤ b.length → readLe32 b ≤ maxDecompressSize →
        BodyFits p codec (b.drop 4) (readLe32 b))) ∧
    ∀ data frame, compressBlock p .none data = .ok frame → b <+: frame ∨ frame <+: b →
      ((b ≠ frame → ∃ err, decompressBlock p .none b = .error err) ↔
        b = frame ∨ b.length < 4 ∨ maxDecompressSize < data.length) := by
  refine ⟨⟨?_, ?_⟩, ?_⟩
  · intro hHeader hLong hSmall raw hRaw
    exact (hHeader raw (decompressBlock_ok_iff.mpr ⟨hLong, hSmall, hRaw⟩)).2
  · intro hFits out hOut
    obtain ⟨hLong, hSmall, hRaw⟩ := decompressBlock_ok_iff.mp hOut
    exact ⟨hLong, hFits hLong hSmall out hRaw⟩
  · intro data frame hFrame h
    rw [decompressBlock_none_comparable hFrame h]
    exact Decidable.imp_iff_not_or.trans (by rw [not_not])

/-- A frame of two bytes that lost its last one. -/
theorem decompress_ignores_header :
    ¬ ∀ (p : Libraries) (codec : Codec) (b out : Bytes), decompressBlock p codec b = .ok out →
      4 ≤ b.length ∧ out.length = readLe32 b := by
  intro h
  have hCut := h withoutLibraries .none [2, 0, 0, 0, 7] [7] rfl
  exact absurd hCut.2 (by decide)

end CelerMem.Compression
