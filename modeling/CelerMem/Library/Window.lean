import Mathlib

/-! Slices of a list, each of what the one before has left. Together they cut out one window,
and what they leave of a list and of its beginning is the same if the window is inside. -/
namespace Window
universe u
variable {α : Type u} {n m : ℕ} {w : ℕ × ℕ}

/-- A cut drops `cut.1` elements and keeps `cut.2` of the others at most. -/
def slices (l : List α) (cuts : List (ℕ × ℕ)) : List α :=
  cuts.foldl (fun l cut => (l.drop cut.1).take cut.2) l

/-- The offset and the length of a window after a cut. -/
def cutWindow (w cut : ℕ × ℕ) : ℕ × ℕ := (w.1 + cut.1, min cut.2 (w.2 - cut.1))

/-- The offset and the length of what is left of `n` elements. -/
def window (n : ℕ) (cuts : List (ℕ × ℕ)) : ℕ × ℕ := cuts.foldl cutWindow (0, n)

theorem foldl_slices (l : List α) (cuts : List (ℕ × ℕ)) (w : ℕ × ℕ) :
    slices ((l.drop w.1).take w.2) cuts =
      (l.drop (cuts.foldl cutWindow w).1).take (cuts.foldl cutWindow w).2 := by
  induction cuts generalizing w with
  | nil => rfl
  | cons cut cuts ih =>
      have hCut : (((l.drop w.1).take w.2).drop cut.1).take cut.2 =
          (l.drop (cutWindow w cut).1).take (cutWindow w cut).2 := by
        rw [List.drop_take, List.drop_drop, List.take_take]
        rfl
      rw [List.foldl_cons, ← ih, ← hCut]
      rfl

theorem slices_eq (l : List α) (cuts : List (ℕ × ℕ)) :
    slices l cuts = (l.drop (window l.length cuts).1).take (window l.length cuts).2 := by
  have hWhole : l = (l.drop 0).take l.length := by rw [List.drop_zero, List.take_length]
  conv_lhs => rw [hWhole]
  exact foldl_slices l cuts (0, l.length)

/-- The window is empty or inside. -/
def Inside (n : ℕ) (w : ℕ × ℕ) : Prop := w.2 = 0 ∨ w.1 + w.2 ≤ n

theorem Inside.cut (h : Inside n w) (cut : ℕ × ℕ) : Inside n (cutWindow w cut) := by
  simp only [Inside, cutWindow] at h ⊢
  omega

theorem window_inside (n : ℕ) (cuts : List (ℕ × ℕ)) : Inside n (window n cuts) := by
  have hFold : ∀ w, Inside n w → Inside n (cuts.foldl cutWindow w) := by
    induction cuts with
    | nil => exact fun w h => h
    | cons cut cuts ih => exact fun w h => ih _ (h.cut cut)
  exact hFold (0, n) (Or.inr (Nat.zero_add n).le)

/-- The same cuts of fewer elements. -/
theorem window_of_le (hLess : m ≤ n) (cuts : List (ℕ × ℕ)) :
    window m cuts = ((window n cuts).1, min (window n cuts).2 (m - (window n cuts).1)) := by
  have hFold : ∀ w w', w' = (w.1, min w.2 (m - w.1)) → cuts.foldl cutWindow w' =
      ((cuts.foldl cutWindow w).1,
        min (cuts.foldl cutWindow w).2 (m - (cuts.foldl cutWindow w).1)) := by
    induction cuts with
    | nil => exact fun w w' h => h
    | cons cut cuts ih =>
        rintro w _ rfl
        apply ih
        simp only [cutWindow, Prod.mk.injEq, true_and]
        omega
  apply hFold
  rw [Nat.sub_zero, Nat.min_eq_right hLess]

/-- Nothing is missing of the window in the first `m` elements if and only if it is inside. -/
theorem slices_take_eq_iff (l : List α) (hLess : m ≤ l.length) (cuts : List (ℕ × ℕ)) :
    slices (l.take m) cuts = slices l cuts ↔ Inside m (window l.length cuts) := by
  have hInside := window_inside l.length cuts
  have hLength : (l.take m).length = m := by rw [List.length_take, Nat.min_eq_left hLess]
  rw [slices_eq, slices_eq, hLength, window_of_le hLess, List.drop_take, List.take_take]
  generalize window l.length cuts = w at hInside
  simp only [Inside] at hInside ⊢
  constructor
  · intro hSame
    have hLengths := congrArg List.length hSame
    rw [List.length_take, List.length_take, List.length_drop] at hLengths
    omega
  · intro hFits
    have hKept : min (min w.2 (m - w.1)) (m - w.1) = w.2 := by omega
    rw [hKept]

end Window
