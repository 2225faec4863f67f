import CelerMem.Library.LittleEndian

/-! Byte strings behind their length, the length in `width` little-endian bytes.
What stands behind such a frame is read back at its start alone, so that frames
put after each other can be taken apart in one way only. -/
namespace Framing

open LittleEndian

abbrev Bytes := List (Fin 256)

def frame (width : ℕ) (part : Bytes) : Bytes := toBytes width part.length ++ part

/-- The part in front and what stands behind it. -/
def unframe (width : ℕ) (bytes : Bytes) : Option (Bytes × Bytes) :=
  if bytes.length < width then none
  else
    let rest := bytes.drop width
    let length := ofBytes (bytes.take width)
    if rest.length < length then none else some (rest.take length, rest.drop length)

@[simp] theorem length_frame (width : ℕ) (part : Bytes) :
    (frame width part).length = width + part.length := by
  rw [frame, List.length_append, length_toBytes]

section RoundTrip

variable {width : ℕ} {part rest bytes : Bytes}

theorem unframe_frame (h : part.length < 256 ^ width) :
    unframe width (frame width part ++ rest) = some (part, rest) := by
  have hSize : (toBytes width part.length).length = width := length_toBytes _ _
  have hBytes : frame width part ++ rest = toBytes width part.length ++ (part ++ rest) := by
    rw [frame, List.append_assoc]
  have hLength : ofBytes (toBytes width part.length) = part.length := by
    rw [ofBytes_toBytes, Nat.mod_eq_of_lt h]
  rw [hBytes, unframe, if_neg (by rw [List.length_append, hSize]; omega)]
  simp only [List.take_left' hSize, List.drop_left' hSize, hLength, List.take_left, List.drop_left,
    List.length_append]
  rw [if_neg (by omega)]

/-- Reading a frame succeeds exactly on what begins with one. -/
theorem unframe_iff :
    unframe width bytes = some (part, rest) ↔
      part.length < 256 ^ width ∧ bytes = frame width part ++ rest := by
  constructor
  · intro h
    rw [unframe] at h
    split at h
    next => cases h
    next hWidth =>
      dsimp only at h
      split at h
      next => cases h
      next hLength =>
        obtain ⟨rfl, rfl⟩ := Prod.mk.inj (Option.some.inj h)
        have hHead : (bytes.take width).length = width := by
          rw [List.length_take]
          omega
        have hPart : ((bytes.drop width).take (ofBytes (bytes.take width))).length =
            ofBytes (bytes.take width) := by
          rw [List.length_take]
          omega
        refine ⟨?_, ?_⟩
        · have hBound := ofBytes_lt (bytes.take width)
          rwa [hHead, ← hPart] at hBound
        · rw [frame, hPart, toBytes_ofBytes hHead, List.append_assoc, List.take_append_drop,
            List.take_append_drop]
  · rintro ⟨hLength, rfl⟩
    exact unframe_frame hLength

/-- A frame that starts at an offset and fits into the bytes is read there. -/
theorem unframe_drop {off length : ℕ} (hLength : ofBytes ((bytes.drop off).take width) = length)
    (hFits : off + width + length ≤ bytes.length) :
    unframe width (bytes.drop off) =
      some ((bytes.drop (off + width)).take length, bytes.drop (off + width + length)) := by
  rw [unframe, if_neg (by rw [List.length_drop]; omega)]
  simp only [hLength, List.drop_drop, List.length_drop]
  rw [if_neg (by omega)]

end RoundTrip

/-- Frames put after each other determine their parts, however many there are. -/
theorem flatMap_frame_injective {width : ℕ} (hWidth : 0 < width) {xs ys : List Bytes}
    (hxs : ∀ part ∈ xs, part.length < 256 ^ width) (hys : ∀ part ∈ ys, part.length < 256 ^ width)
    (h : xs.flatMap (frame width) = ys.flatMap (frame width)) : xs = ys := by
  -- A frame is never empty: only the list without parts has no bytes.
  have hFull (part : Bytes) (rest : List Bytes) :
      (part :: rest).flatMap (frame width) ≠ [] := by
    intro hNil
    have hZero := congrArg List.length hNil
    simp only [List.flatMap_cons, List.length_append, length_frame, List.length_nil] at hZero
    omega
  induction xs generalizing ys with
  | nil =>
      cases ys with
      | nil => rfl
      | cons y ys => exact absurd h.symm (hFull y ys)
  | cons x xs ih =>
      cases ys with
      | nil => exact absurd h (hFull x xs)
      | cons y ys =>
          rw [List.flatMap_cons, List.flatMap_cons] at h
          have hx : unframe width (frame width x ++ xs.flatMap (frame width)) =
              some (x, xs.flatMap (frame width)) := unframe_frame (hxs x (List.mem_cons_self ..))
          have hy : unframe width (frame width y ++ ys.flatMap (frame width)) =
              some (y, ys.flatMap (frame width)) := unframe_frame (hys y (List.mem_cons_self ..))
          rw [h, hy] at hx
          obtain ⟨rfl, hRest⟩ := Prod.mk.inj (Option.some.inj hx)
          have hTail : xs = ys := ih (fun part hm => hxs part (List.mem_cons_of_mem _ hm))
            (fun part hm => hys part (List.mem_cons_of_mem _ hm)) hRest.symm
          rw [hTail]

end Framing
