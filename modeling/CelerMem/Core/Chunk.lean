import CelerMem.Core.Types

/-! `Chunk<T>`: a window of a shared buffer, with 32-bit offset and length. The
buffer itself is immutable, so sharing it is only a matter of equal contents. -/
namespace CelerMem

/-- `std::numeric_limits<std::uint32_t>::max() + 1`. -/
abbrev uint32Size : Nat := 2 ^ 32

/-- `buffer` holds the constructed elements of the `ArcBuf`; the window never
leaves it, and its bounds fit the two 32-bit fields. -/
structure Chunk (α : Type) where
  buffer : List α
  offset : Nat
  length : Nat
  inside : offset + length ≤ buffer.length
  fits : buffer.length < uint32Size
  deriving DecidableEq

namespace Chunk
variable {α β : Type}

/-- The default-constructed chunk, without a buffer. -/
def none : Chunk α := ⟨[], 0, 0, Nat.le_refl 0, by simp⟩

def toList (c : Chunk α) : List α := (c.buffer.drop c.offset).take c.length

def size (c : Chunk α) : Nat := c.length

def empty (c : Chunk α) : Bool := c.length == 0

/-- The length of the vector is cast to 32 bits, and only so many elements are
moved into the buffer. -/
def «from» (data : List α) : Chunk α :=
  if data.isEmpty then none
  else
    let n := data.length % uint32Size
    ⟨data.take n, 0, n,
      by have := Nat.mod_le data.length uint32Size; simp only [List.length_take]; omega,
      by have := Nat.mod_lt data.length (show 0 < uint32Size by decide)
         simp only [List.length_take]; omega⟩

def singleton (value : α) : Chunk α := ⟨[value], 0, 1, Nat.le_refl 1, by simp⟩

/-- `build` with a filler that writes `filled`, no longer than the capacity that
the caller took from the size of another chunk. -/
def build (capacity : Nat) (filled : List α) (hFilled : filled.length ≤ capacity)
    (hCapacity : capacity < uint32Size) : Chunk α :=
  ⟨filled, 0, filled.length, by omega, by omega⟩

/-- The offset and the length of a slice are cast to 32 bits. -/
def slice (c : Chunk α) (off len : Nat) : Chunk α :=
  if h : c.size ≤ off then none
  else
    let avail := c.size - off
    let realOff := (c.offset + off % uint32Size) % uint32Size
    let realLen := min len avail % uint32Size
    if realLen = 0 then none
    else
      ⟨c.buffer, realOff, realLen, by
        have hInside := c.inside
        have hFits := c.fits
        have hLen : realLen ≤ avail :=
          (Nat.mod_le _ _).trans (Nat.min_le_right _ _)
        have hOff : realOff ≤ c.offset + off :=
          (Nat.mod_le _ _).trans (Nat.add_le_add_left (Nat.mod_le _ _) _)
        simp only [size] at h
        simp only [avail, size] at hLen
        omega, c.fits⟩

@[simp] theorem toList_none : (none : Chunk α).toList = [] := rfl

@[simp] theorem length_toList (c : Chunk α) : c.toList.length = c.size := by
  have := c.inside
  simp only [toList, size, List.length_take, List.length_drop]
  omega

theorem size_lt (c : Chunk α) : c.size < uint32Size := by
  have hInside := c.inside
  have hFits := c.fits
  simp only [size]
  omega

theorem empty_iff (c : Chunk α) : c.empty = true ↔ c.toList = [] := by
  rw [← List.length_eq_zero_iff, length_toList]
  simp [empty, size]

/-- A vector survives the conversion up to the cast of its length. -/
theorem toList_from (data : List α) :
    («from» data).toList = data.take (data.length % uint32Size) := by
  cases data with
  | nil => rfl
  | cons first rest => simp [«from», toList, List.take_take]

theorem toList_from_of_lt {data : List α} (h : data.length < uint32Size) :
    («from» data).toList = data := by
  rw [toList_from, Nat.mod_eq_of_lt h, List.take_length]

@[simp] theorem toList_singleton (value : α) : (singleton value).toList = [value] := rfl

@[simp] theorem toList_build (capacity : Nat) (filled : List α)
    (hFilled : filled.length ≤ capacity) (hCapacity : capacity < uint32Size) :
    (build capacity filled hFilled hCapacity).toList = filled := by
  simp [build, toList]

/-- Neither the 32-bit offset nor the 32-bit length of a slice wraps. -/
theorem toList_slice (c : Chunk α) (off len : Nat) :
    (c.slice off len).toList = (c.toList.drop off).take len := by
  have hInside := c.inside
  have hFits := c.fits
  by_cases h : c.size ≤ off
  · have hDrop : c.toList.drop off = [] := List.drop_eq_nil_of_le (by simpa using h)
    simp [slice, h, hDrop]
  · simp only [size] at h
    have hLen : min len (c.length - off) % uint32Size = min len (c.length - off) :=
      Nat.mod_eq_of_lt (by omega)
    have hOff : (c.offset + off % uint32Size) % uint32Size = c.offset + off := by
      rw [Nat.mod_eq_of_lt (show off < uint32Size by omega), Nat.mod_eq_of_lt (by omega)]
    have hWindow : (c.toList.drop off).take len =
        (c.buffer.drop (c.offset + off)).take (min len (c.length - off)) := by
      simp only [toList, List.drop_take, List.drop_drop, List.take_take]
    rw [hWindow]
    by_cases hZero : min len (c.length - off) = 0
    · simp [slice, size, h, hZero]
    · simp only [slice, size, h, dite_false, hLen, hZero, if_false, hOff, toList]

end Chunk
end CelerMem
