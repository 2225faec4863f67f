import Mathlib

/-! The lists that start with a given one form a range of the lexicographic order. Its upper
end is found by counting the last element up, with a carry. -/
namespace PrefixRange
universe u v
variable {α : Type u} [LinearOrder α]

/-- `next a` is the element right above `a`, if there is one above it at all. -/
structure IsNext (next : α → Option α) : Prop where
  lt_iff : ∀ {a b}, next a = some b → ∀ c, c < b ↔ c ≤ a
  top : ∀ {a}, next a = none → ∀ c, c ≤ a

/-- The least list above all that start with `p`. -/
def upperBound (next : α → Option α) : List α → Option (List α)
  | [] => none
  | a :: p =>
      match upperBound next p with
      | some u => some (a :: u)
      | none => (next a).map fun b => [b]

variable {p k k' u : List α}

theorem nil_le (k : List α) : [] ≤ k := not_lt.mp (List.not_lt_nil k)

theorem cons_le_cons_iff {a b : α} : a :: p ≤ b :: k ↔ a < b ∨ a = b ∧ p ≤ k := by
  rw [← not_lt, ← not_lt, List.cons_lt_cons_iff, not_or, not_and, not_lt, le_iff_lt_or_eq]
  constructor
  · rintro ⟨hLess | rfl, hTail⟩
    · exact Or.inl hLess
    · exact Or.inr ⟨rfl, hTail rfl⟩
  · rintro (hLess | ⟨rfl, hTail⟩)
    · exact ⟨Or.inl hLess, fun hSame => absurd hSame hLess.ne'⟩
    · exact ⟨Or.inr rfl, fun _ => hTail⟩

theorem le_of_prefix (h : p <+: k) : p ≤ k := by
  induction p generalizing k with
  | nil => exact nil_le k
  | cons a p ih =>
      cases k with
      | nil => simp at h
      | cons b k =>
          obtain ⟨rfl, hTail⟩ := List.cons_prefix_cons.mp h
          exact cons_le_cons_iff.mpr (Or.inr ⟨rfl, ih hTail⟩)

/-- Above a prefix, what does not start with it is above all that does. -/
theorem lt_of_not_prefix (hLe : p ≤ k) (hNot : ¬ p <+: k) (h : p <+: k') : k' < k := by
  induction p generalizing k k' with
  | nil => exact absurd List.nil_prefix hNot
  | cons a p ih =>
      cases k with
      | nil => exact absurd (List.nil_lt_cons a p) (not_lt.mpr hLe)
      | cons b k =>
          cases k' with
          | nil => simp at h
          | cons c k' =>
              obtain ⟨rfl, hTail⟩ := List.cons_prefix_cons.mp h
              rcases cons_le_cons_iff.mp hLe with hLess | ⟨rfl, hLe'⟩
              · exact List.cons_lt_cons_iff.mpr (Or.inl hLess)
              · have hNot' : ¬ p <+: k :=
                  fun hPrefix => hNot (List.cons_prefix_cons.mpr ⟨rfl, hPrefix⟩)
                exact List.cons_lt_cons_iff.mpr (Or.inr ⟨rfl, ih hLe' hNot' hTail⟩)

section UpperBound
variable {next : α → Option α}

theorem prefix_iff_of_none (hNext : IsNext next) (h : upperBound next p = none) :
    p <+: k ↔ p ≤ k := by
  constructor
  · exact le_of_prefix
  · intro hLe
    induction p generalizing k with
    | nil => exact List.nil_prefix
    | cons a p ih =>
        rw [upperBound] at h
        cases hTail : upperBound next p with
        | some u => simp [hTail] at h
        | none =>
            have hTop : next a = none := by simpa [hTail] using h
            cases k with
            | nil => exact absurd (List.nil_lt_cons a p) (not_lt.mpr hLe)
            | cons b k =>
                rcases cons_le_cons_iff.mp hLe with hLess | ⟨rfl, hLe'⟩
                · exact absurd (hNext.top hTop b) (not_le.mpr hLess)
                · exact List.cons_prefix_cons.mpr ⟨rfl, ih hTail hLe'⟩

theorem prefix_iff_of_some (hNext : IsNext next) (h : upperBound next p = some u) :
    p <+: k ↔ p ≤ k ∧ k < u := by
  induction p generalizing k u with
  | nil => simp [upperBound] at h
  | cons a p ih =>
      rw [upperBound] at h
      cases k with
      | nil =>
          refine iff_of_false (by simp) ?_
          rintro ⟨hLe, -⟩
          exact absurd (List.nil_lt_cons a p) (not_lt.mpr hLe)
      | cons b k =>
          rw [List.cons_prefix_cons, cons_le_cons_iff]
          cases hTail : upperBound next p with
          | some u' =>
              obtain rfl : a :: u' = u := by simpa [hTail] using h
              rw [List.cons_lt_cons_iff, ih hTail]
              constructor
              · rintro ⟨rfl, hLe, hLess⟩
                exact ⟨Or.inr ⟨rfl, hLe⟩, Or.inr ⟨rfl, hLess⟩⟩
              · rintro ⟨hAbove | ⟨rfl, hLe⟩, hBelow | ⟨hSame, hLess⟩⟩
                · exact absurd hAbove hBelow.asymm
                · exact absurd hAbove hSame.not_gt
                · exact absurd hBelow (lt_irrefl a)
                · exact ⟨rfl, hLe, hLess⟩
          | none =>
              obtain ⟨c, hStep, rfl⟩ : ∃ c, next a = some c ∧ [c] = u := by
                simpa [hTail] using h
              rw [List.cons_lt_cons_iff, hNext.lt_iff hStep, prefix_iff_of_none hNext hTail]
              constructor
              · rintro ⟨rfl, hLe⟩
                exact ⟨Or.inr ⟨rfl, hLe⟩, Or.inl (le_refl a)⟩
              · rintro ⟨hAbove | ⟨rfl, hLe⟩, hBelow⟩
                · rcases hBelow with hBelow | ⟨-, hNil⟩
                  · exact absurd hAbove (not_lt.mpr hBelow)
                  · simp at hNil
                · exact ⟨rfl, hLe⟩

end UpperBound

section Sorted
variable {ρ : Type v} {key : ρ → List α} {starts : ρ → Bool} {rows : List ρ}

/-- In sorted rows from a prefix on, those that start with it come first. -/
theorem takeWhile_eq_filter (hStarts : ∀ row, starts row = true ↔ p <+: key row)
    (hSorted : rows.Pairwise fun a b => key a < key b) (hFrom : ∀ row ∈ rows, p ≤ key row) :
    rows.takeWhile starts = rows.filter starts := by
  induction rows with
  | nil => rfl
  | cons row rows ih =>
      obtain ⟨hFirst, hRest⟩ := List.pairwise_cons.mp hSorted
      rw [List.takeWhile_cons, List.filter_cons]
      cases hRow : starts row with
      | true =>
          simp only [if_true]
          rw [ih hRest fun other hMem => hFrom other (List.mem_cons_of_mem row hMem)]
      | false =>
          have hNot : ¬ p <+: key row := by
            rw [← hStarts, hRow]
            exact Bool.false_ne_true
          have hNone : rows.filter starts = [] := by
            apply List.filter_eq_nil_iff.mpr
            intro other hMem hOther
            have hBelow := lt_of_not_prefix (hFrom row List.mem_cons_self) hNot
              ((hStarts other).mp hOther)
            exact absurd (hFirst other hMem) hBelow.asymm
          rw [hNone, if_neg Bool.false_ne_true, if_neg Bool.false_ne_true]

end Sorted
end PrefixRange
