import CelerMem.Core.Meaning
import CelerMem.Library.Window
import Mathlib

/-! What a chunk holds of the vector it was made from, after any slices. Slices are exact; the
conversion keeps as many elements as the 32 bits of the length say. -/
namespace CelerMem

variable {α : Type}

namespace Chunk

/-- One slice of the other, each by an offset and a length. -/
def sliceAll (c : Chunk α) (cuts : List (ℕ × ℕ)) : Chunk α :=
  cuts.foldl (fun c cut => c.slice cut.1 cut.2) c

theorem toList_sliceAll (c : Chunk α) (cuts : List (ℕ × ℕ)) :
    (c.sliceAll cuts).toList = Window.slices c.toList cuts := by
  induction cuts generalizing c with
  | nil => rfl
  | cons cut cuts ih =>
      have hNext := ih (c.slice cut.1 cut.2)
      rw [toList_slice] at hNext
      exact hNext

theorem toList_from_eq_iff (data : List α) :
    (Chunk.from data).toList = data ↔ data.length < uint32Size := by
  constructor
  · intro hSame
    have hLength := congrArg List.length hSame
    rw [toList_from, List.length_take] at hLength
    have hMod := Nat.mod_lt data.length (show 0 < uint32Size by decide)
    omega
  · exact toList_from_of_lt

end Chunk

namespace Stream

theorem fromVector_denotes_iff (data : List α) :
    Denotes (fromVector data) data .done ↔ data.length < uint32Size := by
  rw [← Chunk.toList_from_eq_iff]
  constructor
  · intro hDenotes
    exact ((fromVector_denotes_chunk data).unique hDenotes).1
  · intro hSame
    have hDenotes := fromVector_denotes_chunk data
    rwa [hSame] at hDenotes

end Stream

/-- The slices of a chunk are those of its vector if and only if what they leave lies in the
elements that the 32-bit length counts. A stream of all elements needs a length that fits. -/
theorem chunk_holds_list_iff (data : List α) (cuts : List (ℕ × ℕ)) (s : Bytes) :
    (((Chunk.from data).sliceAll cuts).toList = Window.slices data cuts ↔
      Window.Inside (data.length % uint32Size) (Window.window data.length cuts)) ∧
    (Denotes (Stream.fromVector data) data .done ↔ data.length < uint32Size) ∧
    (Denotes (Stream.fromString s) s .done ↔ s.length < uint32Size) := by
  refine ⟨?_, Stream.fromVector_denotes_iff data, Stream.fromVector_denotes_iff s⟩
  rw [Chunk.toList_sliceAll, Chunk.toList_from]
  exact Window.slices_take_eq_iff data (Nat.mod_le _ _) cuts

theorem sliceAll_from_ne {data : List α} (hLong : uint32Size ≤ data.length) :
    ¬ ((Chunk.from data).sliceAll []).toList = Window.slices data [] :=
  fun hSame => absurd ((Chunk.toList_from_eq_iff data).mp hSame) (Nat.not_lt.mpr hLong)

/-- Nothing is left of a vector of 2^32 bytes. -/
theorem chunk_loses_vector :
    ¬ ((Chunk.from (List.replicate uint32Size (0 : Byte))).sliceAll []).toList =
      Window.slices (List.replicate uint32Size (0 : Byte)) [] :=
  sliceAll_from_ne List.length_replicate.ge

end CelerMem
