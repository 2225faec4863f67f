import Mathlib

/-! A list gone through from an index that keeps growing, one element after the other:
the order in which the elements are met is the list rotated by the index. -/
namespace RoundRobin
universe u
variable {α : Type u} {l t : List α} {y : α} {k : ℕ}

theorem mod_lt_of_rotate (h : l.rotate k = y :: t) : k % l.length < l.length := by
  apply Nat.mod_lt
  apply List.length_pos_of_ne_nil
  rintro rfl
  simp at h

theorem getElem?_of_rotate (h : l.rotate k = y :: t) : l[k % l.length]? = some y := by
  rw [← List.head?_rotate (mod_lt_of_rotate h), List.rotate_mod, h]
  rfl

/-- The element whose turn it was comes last, also when it has been replaced. -/
theorem rotate_set (h : l.rotate k = y :: t) (x : α) :
    (l.set (k % l.length) x).rotate (k + 1) = t ++ [x] := by
  have hLess := mod_lt_of_rotate h
  have hTurn : (l.set (k % l.length) x).rotate k = x :: t := by
    rw [List.rotate_eq_drop_append_take_mod] at h ⊢
    rw [List.length_set, List.drop_set, if_neg (lt_irrefl _), Nat.sub_self, List.take_set,
      List.set_eq_of_length_le (List.length_take_le _ _)]
    cases hDrop : l.drop (k % l.length) with
    | nil => exact absurd (List.drop_eq_nil_iff.mp hDrop) (Nat.not_le.mpr hLess)
    | cons z d =>
        rw [hDrop, List.cons_append, List.cons.injEq] at h
        rw [List.set_cons_zero, List.cons_append, h.2]
  rw [← List.rotate_rotate, hTurn, List.rotate_cons_succ, List.rotate_zero]

theorem rotate_succ (h : l.rotate k = y :: t) : l.rotate (k + 1) = t ++ [y] := by
  rw [← List.rotate_rotate, h, List.rotate_cons_succ, List.rotate_zero]

/-- When what is looked for is all on one side of the index, it is met in the order of
the list. -/
theorem filter_rotate {p : α → Bool} (h : (∀ x ∈ l.take (k % l.length), p x = false) ∨
    ∀ x ∈ l.drop (k % l.length), p x = false) : (l.rotate k).filter p = l.filter p := by
  rw [List.rotate_eq_drop_append_take_mod, List.filter_append]
  conv_rhs => rw [← List.take_append_drop (k % l.length) l, List.filter_append]
  rcases h with hTake | hDrop
  · have hNone : (l.take (k % l.length)).filter p = [] := by
      rw [List.filter_eq_nil_iff]
      intro x hx
      simp [hTake x hx]
    rw [hNone, List.append_nil, List.nil_append]
  · have hNone : (l.drop (k % l.length)).filter p = [] := by
      rw [List.filter_eq_nil_iff]
      intro x hx
      simp [hDrop x hx]
    rw [hNone, List.append_nil, List.nil_append]

end RoundRobin
