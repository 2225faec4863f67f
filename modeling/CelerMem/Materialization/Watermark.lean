import CelerMem.Core.Types
import CelerMem.Library.Framing

/-! The watermark of a Delta materialization and its hand-written encoding. The
length fields are 32 bits wide and, like the timestamp, in the byte order of the
host, taken as little-endian. A record is decoded exactly from what begins with
its encoding. -/
namespace CelerMem.Materialization

open LittleEndian Framing

structure WatermarkRecord where
  viewId : Bytes
  lastKey : Bytes
  timestampUs : Int64
  deriving DecidableEq

def watermarkKey (id : Bytes) : Bytes := ascii "_celer_watermark/" ++ id

def encodeWatermark (w : WatermarkRecord) : Bytes :=
  toBytes 8 w.timestampUs.toBitVec.toNat ++ (toBytes 4 w.viewId.length ++ (w.viewId ++
    (toBytes 4 w.lastKey.length ++ w.lastKey)))

def decodeWatermark (bytes : Bytes) : Result WatermarkRecord :=
  if bytes.length < 8 + 4 + 4 then .error ⟨"WatermarkDecode", "truncated"⟩
  else
    let timestampUs := Int64.ofBitVec (BitVec.ofNat 64 (ofBytes (bytes.take 8)))
    let off := 8
    let l1 := ofBytes ((bytes.drop off).take 4)
    let off := off + 4
    if bytes.length < off + l1 then .error ⟨"WatermarkDecode", "view_id overflow"⟩
    else
      let viewId := (bytes.drop off).take l1
      let off := off + l1
      if bytes.length < off + 4 then .error ⟨"WatermarkDecode", "missing last_key length"⟩
      else
        let l2 := ofBytes ((bytes.drop off).take 4)
        let off := off + 4
        if bytes.length < off + l2 then .error ⟨"WatermarkDecode", "last_key overflow"⟩
        else .ok ⟨viewId, (bytes.drop off).take l2, timestampUs⟩

/-- Fields of fewer than `2 ^ 32` bytes are read back as they were written, whatever
stands behind them. -/
theorem decodeWatermark_append {w : WatermarkRecord} (hId : w.viewId.length < 256 ^ 4)
    (hKey : w.lastKey.length < 256 ^ 4) (tail : Bytes) :
    decodeWatermark (encodeWatermark w ++ tail) = .ok w := by
  obtain ⟨viewId, lastKey, timestampUs⟩ := w
  let time := toBytes 8 timestampUs.toBitVec.toNat
  let len₁ := toBytes 4 viewId.length
  let len₂ := toBytes 4 lastKey.length
  have hBytes : encodeWatermark ⟨viewId, lastKey, timestampUs⟩ ++ tail =
      time ++ (len₁ ++ (viewId ++ (len₂ ++ (lastKey ++ tail)))) := by
    simp only [encodeWatermark, time, len₁, len₂, List.append_assoc]
  have hTime : Int64.ofBitVec (BitVec.ofNat 64 (ofBytes time)) = timestampUs := by
    have hLess := timestampUs.toBitVec.isLt
    rw [ofBytes_toBytes, Nat.mod_eq_of_lt (by simpa using hLess), BitVec.ofNat_toNat,
      BitVec.setWidth_eq]
    rfl
  have h₁ : ofBytes len₁ = viewId.length := by rw [ofBytes_toBytes, Nat.mod_eq_of_lt hId]
  have h₂ : ofBytes len₂ = lastKey.length := by rw [ofBytes_toBytes, Nat.mod_eq_of_lt hKey]
  have hSizes : time.length = 8 ∧ len₁.length = 4 ∧ len₂.length = 4 := by simp [time, len₁, len₂]
  obtain ⟨hSize, hSize₁, hSize₂⟩ := hSizes
  have hLength : (time ++ (len₁ ++ (viewId ++ (len₂ ++ (lastKey ++ tail))))).length =
      16 + viewId.length + lastKey.length + tail.length := by
    simp only [List.length_append, hSize, hSize₁, hSize₂]
    omega
  -- The four cursor positions, each at the start of the next field.
  have hAt₁ : (time ++ (len₁ ++ (viewId ++ (len₂ ++ (lastKey ++ tail))))).drop 8 =
      len₁ ++ (viewId ++ (len₂ ++ (lastKey ++ tail))) := List.drop_left' hSize
  have hAt₂ : (time ++ (len₁ ++ (viewId ++ (len₂ ++ (lastKey ++ tail))))).drop (8 + 4) =
      viewId ++ (len₂ ++ (lastKey ++ tail)) := by
    rw [← List.drop_drop, hAt₁, List.drop_left' hSize₁]
  have hAt₃ : (time ++ (len₁ ++ (viewId ++ (len₂ ++ (lastKey ++ tail))))).drop
      (8 + 4 + viewId.length) = len₂ ++ (lastKey ++ tail) := by
    rw [← List.drop_drop, hAt₂, List.drop_left]
  have hAt₄ : (time ++ (len₁ ++ (viewId ++ (len₂ ++ (lastKey ++ tail))))).drop
      (8 + 4 + viewId.length + 4) = lastKey ++ tail := by
    rw [← List.drop_drop, hAt₃, List.drop_left' hSize₂]
  rw [hBytes, decodeWatermark]
  simp only [hAt₁, hAt₂, List.take_left' hSize, List.take_left' hSize₁, h₁, List.take_left, hAt₃,
    List.take_left' hSize₂, h₂, hAt₄, hLength, hTime]
  rw [if_neg (by omega), if_neg (by omega), if_neg (by omega), if_neg (by omega)]

theorem decodeWatermark_encode {w : WatermarkRecord} (hId : w.viewId.length < 256 ^ 4)
    (hKey : w.lastKey.length < 256 ^ 4) : decodeWatermark (encodeWatermark w) = .ok w := by
  have h := decodeWatermark_append hId hKey []
  rwa [List.append_nil] at h

/-- What is decoded stands encoded at the start of the bytes. -/
theorem decodeWatermark_ok {bytes : Bytes} {w : WatermarkRecord}
    (h : decodeWatermark bytes = .ok w) :
    w.viewId.length < 256 ^ 4 ∧ w.lastKey.length < 256 ^ 4 ∧ encodeWatermark w <+: bytes := by
  simp only [decodeWatermark] at h
  split at h
  next => cases h
  next hSize =>
    split at h
    next => cases h
    next hId =>
      split at h
      next => cases h
      next hLength =>
        split at h
        next => cases h
        next hKey =>
          obtain rfl := Except.ok.inj h
          dsimp only
          generalize hl₁ : ofBytes ((bytes.drop 8).take 4) = l₁ at hId hLength hKey ⊢
          generalize hl₂ : ofBytes ((bytes.drop (8 + 4 + l₁)).take 4) = l₂ at hKey ⊢
          have hFrame₁ := unframe_iff.mp (unframe_drop hl₁ (by omega))
          have hFrame₂ := unframe_iff.mp (unframe_drop hl₂ (by omega))
          refine ⟨hFrame₁.1, hFrame₂.1, bytes.drop (8 + 4 + l₁ + 4 + l₂), ?_⟩
          have hTime : toBytes 8 (Int64.ofBitVec
              (BitVec.ofNat 64 (ofBytes (bytes.take 8)))).toBitVec.toNat = bytes.take 8 := by
            have hEight : (bytes.take 8).length = 8 := by
              rw [List.length_take]
              omega
            have hBound := ofBytes_lt (bytes.take 8)
            rw [hEight] at hBound
            rw [Int64.toBitVec_ofBitVec, BitVec.toNat_ofNat,
              Nat.mod_eq_of_lt (by simpa using hBound), toBytes_ofBytes hEight]
          calc encodeWatermark _ ++ bytes.drop (8 + 4 + l₁ + 4 + l₂)
              = bytes.take 8 ++ (frame 4 ((bytes.drop (8 + 4)).take l₁) ++
                  (frame 4 ((bytes.drop (8 + 4 + l₁ + 4)).take l₂) ++
                    bytes.drop (8 + 4 + l₁ + 4 + l₂))) := by
                simp only [encodeWatermark, frame, hTime, List.append_assoc]
            _ = bytes := by rw [← hFrame₂.2, ← hFrame₁.2, List.take_append_drop]

/-! ## The reads -/

/-- Addition in `size_t`. -/
def addSize (a b : ℕ) : ℕ := (a + b) % 2 ^ 64

/-- A copy of `n` bytes out of the view; past its end there is nothing to copy. -/
def copyBytes (bytes : Bytes) (off n : ℕ) : Option Bytes :=
  if off + n ≤ bytes.length then some ((bytes.drop off).take n) else none

/-- `decode_watermark` with its copies and its sums as the machine makes them:
`none` is a read past the end. -/
def decodeWatermarkReads (bytes : Bytes) : Option (Result WatermarkRecord) :=
  if bytes.length < 8 + 4 + 4 then some (.error ⟨"WatermarkDecode", "truncated"⟩)
  else do
    let off := 0
    let time ← copyBytes bytes off 8
    let timestampUs := Int64.ofBitVec (BitVec.ofNat 64 (ofBytes time))
    let off := addSize off 8
    let l1 := ofBytes (← copyBytes bytes off 4)
    let off := addSize off 4
    if bytes.length < addSize off l1 then some (.error ⟨"WatermarkDecode", "view_id overflow"⟩)
    else
      let viewId ← copyBytes bytes off l1
      let off := addSize off l1
      if bytes.length < addSize off 4 then
        some (.error ⟨"WatermarkDecode", "missing last_key length"⟩)
      else
        let l2 := ofBytes (← copyBytes bytes off 4)
        let off := addSize off 4
        if bytes.length < addSize off l2 then
          some (.error ⟨"WatermarkDecode", "last_key overflow"⟩)
        else
          let lastKey ← copyBytes bytes off l2
          some (.ok ⟨viewId, lastKey, timestampUs⟩)

theorem addSize_eq {a b : ℕ} (h : a + b < 2 ^ 64) : addSize a b = a + b := Nat.mod_eq_of_lt h

theorem copyBytes_eq {bytes : Bytes} {off n : ℕ} (h : off + n ≤ bytes.length) :
    copyBytes bytes off n = some ((bytes.drop off).take n) := if_pos h

/-- Four bytes hold less than `2 ^ 32`. -/
theorem ofBytes_take_lt (bytes : Bytes) : ofBytes (bytes.take 4) < 2 ^ 32 := by
  have hBound := ofBytes_lt (bytes.take 4)
  have hWidth : (bytes.take 4).length ≤ 4 := by
    rw [List.length_take]
    omega
  calc ofBytes (bytes.take 4) < 256 ^ (bytes.take 4).length := hBound
    _ ≤ 256 ^ 4 := Nat.pow_le_pow_right (by decide) hWidth

/-- Every copy stays inside the view, and no sum wraps around. -/
theorem decodeWatermarkReads_eq (bytes : Bytes) :
    decodeWatermarkReads bytes = some (decodeWatermark bytes) := by
  rw [decodeWatermarkReads, decodeWatermark]
  by_cases hSize : bytes.length < 8 + 4 + 4
  · rw [if_pos hSize, if_pos hSize]
  · have hl₁ := ofBytes_take_lt (bytes.drop 8)
    have hTake : (bytes.drop 0).take 8 = bytes.take 8 := rfl
    rw [if_neg hSize, if_neg hSize]
    simp only [copyBytes_eq (show 0 + 8 ≤ bytes.length by omega), hTake, Option.bind_eq_bind,
      Option.bind_some, show addSize 0 8 = 8 from rfl, show addSize 8 4 = 8 + 4 from rfl,
      copyBytes_eq (show 8 + 4 ≤ bytes.length by omega)]
    generalize ofBytes ((bytes.drop 8).take 4) = l₁ at hl₁ ⊢
    rw [addSize_eq (by omega)]
    by_cases hId : bytes.length < 8 + 4 + l₁
    · rw [if_pos hId, if_pos hId]
    · rw [if_neg hId, if_neg hId, copyBytes_eq (by omega), Option.bind_some,
        addSize_eq (by omega)]
      by_cases hLength : bytes.length < 8 + 4 + l₁ + 4
      · rw [if_pos hLength, if_pos hLength]
      · have hl₂ := ofBytes_take_lt (bytes.drop (8 + 4 + l₁))
        rw [if_neg hLength, if_neg hLength, copyBytes_eq (by omega), Option.bind_some]
        generalize ofBytes ((bytes.drop (8 + 4 + l₁)).take 4) = l₂ at hl₂ ⊢
        rw [addSize_eq (by omega)]
        by_cases hKey : bytes.length < 8 + 4 + l₁ + 4 + l₂
        · rw [if_pos hKey, if_pos hKey]
        · rw [if_neg hKey, if_neg hKey, copyBytes_eq (by omega), Option.bind_some]

/-! ## Exactness -/

/-- Bytes decode to a record exactly when its encoding stands at their start; so
decoding undoes encoding, cut encodings are refused, and nothing is read past the end. -/
theorem watermark_codec_exact (b : Bytes) (w : WatermarkRecord)
    (hId : w.viewId.length < 2 ^ 32) (hKey : w.lastKey.length < 2 ^ 32) :
    (decodeWatermark b = .ok w ↔ encodeWatermark w <+: b) ∧
      decodeWatermark (encodeWatermark w) = .ok w ∧
      (b <+: encodeWatermark w → b ≠ encodeWatermark w → ∃ e, decodeWatermark b = .error e) ∧
      decodeWatermarkReads b = some (decodeWatermark b) := by
  have hEncode : decodeWatermark (encodeWatermark w) = .ok w := decodeWatermark_encode hId hKey
  have hPrefix {bytes : Bytes} (h : encodeWatermark w <+: bytes) :
      decodeWatermark bytes = .ok w := by
    obtain ⟨tail, rfl⟩ := h
    exact decodeWatermark_append hId hKey tail
  refine ⟨⟨fun h => (decodeWatermark_ok h).2.2, hPrefix⟩, hEncode, ?_, decodeWatermarkReads_eq b⟩
  intro hCut hShort
  cases hDecoded : decodeWatermark b with
  | error e => exact ⟨e, rfl⟩
  | ok v =>
      -- What is decoded of the cut encoding would be decoded of the whole one too.
      obtain ⟨hId', hKey', hStart⟩ := decodeWatermark_ok hDecoded
      obtain ⟨tail, hWhole⟩ := hStart.trans hCut
      have hSame : decodeWatermark (encodeWatermark w) = .ok v := by
        rw [← hWhole]
        exact decodeWatermark_append hId' hKey' tail
      obtain rfl := Except.ok.inj (hSame.symm.trans hEncode)
      exact absurd (hCut.eq_of_length_le hStart.length_le) hShort

/-- The bytes of a record with one more behind them. -/
theorem watermark_codec_exact_trailing :
    let w : WatermarkRecord := ⟨ascii "v", ascii "k", 5⟩
    let b := encodeWatermark w ++ [0]
    (decodeWatermark b = .ok w ↔ encodeWatermark w <+: b) ∧
      decodeWatermark (encodeWatermark w) = .ok w ∧
      (b <+: encodeWatermark w → b ≠ encodeWatermark w → ∃ e, decodeWatermark b = .error e) ∧
      decodeWatermarkReads b = some (decodeWatermark b) :=
  watermark_codec_exact _ ⟨ascii "v", ascii "k", 5⟩ (by decide) (by decide)

end CelerMem.Materialization
