import Mathlib

/-! Cutting a list into consecutive batches of a fixed size, the last of which
may be shorter. -/
namespace Batches
universe u
variable {α : Type u} {n : ℕ} {l : List α}

def batches (n : ℕ) (l : List α) : List (List α) :=
  if _h : l = [] ∨ n = 0 then [] else l.take n :: batches n (l.drop n)
termination_by l.length
decreasing_by
  have hPos := List.length_pos_iff.mpr (mt Or.inl _h)
  rw [List.length_drop]
  omega

@[simp] theorem batches_nil : batches n ([] : List α) = [] := by
  rw [batches]
  simp

theorem batches_of_ne_nil (hn : 0 < n) (hl : l ≠ []) :
    batches n l = l.take n :: batches n (l.drop n) := by
  rw [batches, dif_neg]
  rintro (h | h)
  · exact hl h
  · omega

/-- Induction along the batches. -/
theorem batches_induction {motive : List α → Prop} (hn : 0 < n) (nil : motive [])
    (cons : ∀ l, l ≠ [] → motive (l.drop n) → motive l) (l : List α) : motive l := by
  induction h : l.length using Nat.strongRecOn generalizing l with
  | ind size ih =>
      by_cases hl : l = []
      · exact hl ▸ nil
      · have hPos := List.length_pos_iff.mpr hl
        exact cons l hl (ih (l.drop n).length (by rw [List.length_drop]; omega) _ rfl)

theorem flatten_batches (hn : 0 < n) (l : List α) : (batches n l).flatten = l := by
  induction l using batches_induction hn with
  | nil => simp
  | cons l hl ih => rw [batches_of_ne_nil hn hl, List.flatten_cons, ih, List.take_append_drop]

theorem length_le_of_mem_batches (hn : 0 < n) {b : List α} (hb : b ∈ batches n l) :
    b.length ≤ n := by
  induction l using batches_induction hn with
  | nil => simp at hb
  | cons l hl ih =>
      rw [batches_of_ne_nil hn hl, List.mem_cons] at hb
      rcases hb with rfl | hb
      · exact List.length_take_le n l
      · exact ih hb

/-- A prefix made of whole batches. -/
theorem flatten_take_batches (hn : 0 < n) (l : List α) (k : ℕ) :
    ((batches n l).take k).flatten = l.take (k * n) := by
  induction l using batches_induction hn generalizing k with
  | nil => simp
  | cons l hl ih =>
      cases k with
      | zero => simp
      | succ k =>
          rw [batches_of_ne_nil hn hl, List.take_succ_cons, List.flatten_cons, ih, Nat.succ_mul,
            Nat.add_comm, List.take_add]

/-- The batch with a number, which is empty behind the end. -/
def batchAt (n : ℕ) (l : List α) (i : ℕ) : List α := (l.drop (n * i)).take n

theorem batchAt_eq_nil_iff (hn : 0 < n) {i : ℕ} : batchAt n l i = [] ↔ l.length ≤ n * i := by
  rw [batchAt, List.take_eq_nil_iff, or_iff_right hn.ne', List.drop_eq_nil_iff]

/-- Batches in a row make up what they pass. -/
theorem flatMap_batchAt (n : ℕ) (l : List α) (first count : ℕ) :
    (List.range count).flatMap (fun i => batchAt n l (first + i)) =
      (l.drop (n * first)).take (n * count) := by
  induction count with
  | zero => rfl
  | succ count ih =>
      rw [List.range_succ, List.flatMap_append, ih, List.flatMap_singleton, batchAt, Nat.mul_add,
        Nat.mul_succ, List.take_add, List.drop_drop]

end Batches
