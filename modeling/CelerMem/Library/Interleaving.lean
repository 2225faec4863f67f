import Mathlib

/-! Interleavings of finitely many sequences: every item of every sequence exactly once,
and each sequence in its own order. -/
namespace Interleaving
universe u v
variable {α : Type u} {β : Type v} {ls pre post : List (List α)} {l out : List α}

/-- The next item is the head of some sequence, until all of them are empty. -/
inductive Interleaves : List (List α) → List α → Prop where
  | nil {ls : List (List α)} (h : ∀ l ∈ ls, l = []) : Interleaves ls []
  | cons {pre post : List (List α)} {l out : List α} {a : α}
      (rest : Interleaves (pre ++ l :: post) out) :
      Interleaves (pre ++ (a :: l) :: post) (a :: out)

namespace Interleaves

/-- Some items of one sequence come out together. -/
theorem prepend (chunk : List α) (h : Interleaves (pre ++ l :: post) out) :
    Interleaves (pre ++ (chunk ++ l) :: post) (chunk ++ out) := by
  induction chunk with
  | nil => exact h
  | cons a chunk ih => exact .cons ih

/-- An empty sequence may stand anywhere. -/
theorem insert_nil (h : Interleaves (pre ++ post) out) : Interleaves (pre ++ [] :: post) out := by
  generalize hAll : pre ++ post = ls at h
  induction h generalizing pre post with
  | nil hEmpty =>
      apply Interleaves.nil
      intro l hl
      rw [← hAll] at hEmpty
      rcases List.mem_append.mp hl with hPre | hPost
      · exact hEmpty l (List.mem_append_left post hPre)
      · rcases List.mem_cons.mp hPost with rfl | hPost
        · rfl
        · exact hEmpty l (List.mem_append_right pre hPost)
  | @cons before behind l out a rest ih =>
      rcases List.append_eq_append_iff.mp hAll with ⟨mid, rfl, rfl⟩ | ⟨mid, rfl, hSplit⟩
      · -- The head comes from behind the new sequence.
        have hRest : Interleaves (pre ++ [] :: (mid ++ l :: behind)) out := ih (by simp)
        have hCons : Interleaves ((pre ++ [] :: mid) ++ (a :: l) :: behind) (a :: out) :=
          .cons (by simpa using hRest)
        simpa using hCons
      · cases mid with
        | nil =>
            have hRest : Interleaves (before ++ [] :: l :: behind) out := ih (by simp)
            have hCons : Interleaves ((before ++ [[]]) ++ (a :: l) :: behind) (a :: out) :=
              .cons (by simpa using hRest)
            rw [List.nil_append] at hSplit
            rw [← hSplit]
            simpa using hCons
        | cons first mid =>
            rw [List.cons_append, List.cons.injEq] at hSplit
            obtain ⟨rfl, rfl⟩ := hSplit
            have hRest : Interleaves ((before ++ l :: mid) ++ [] :: post) out := ih (by simp)
            have hCons : Interleaves (before ++ (a :: l) :: (mid ++ [] :: post)) (a :: out) :=
              .cons (by simpa using hRest)
            simpa using hCons

theorem insert_empties {mid : List (List α)} (hEmpty : ∀ l ∈ mid, l = [])
    (h : Interleaves (pre ++ post) out) : Interleaves (pre ++ mid ++ post) out := by
  induction mid with
  | nil => rwa [List.append_nil]
  | cons l mid ih =>
      obtain rfl := hEmpty l List.mem_cons_self
      have hRest := ih fun m hm => hEmpty m (List.mem_cons_of_mem [] hm)
      rw [List.append_assoc] at hRest ⊢
      exact hRest.insert_nil

/-- Nothing is lost and nothing duplicated. -/
theorem perm (h : Interleaves ls out) : out.Perm ls.flatten := by
  induction h with
  | nil hEmpty => rw [List.flatten_eq_nil_iff.mpr hEmpty]
  | @cons pre post l out a rest ih =>
      have hMoved : (pre ++ (a :: l) :: post).flatten.Perm (a :: (pre ++ l :: post).flatten) := by
        simp only [List.flatten_append, List.flatten_cons, List.cons_append]
        exact List.perm_middle
      exact (ih.cons a).trans hMoved.symm

theorem length_eq (h : Interleaves ls out) : out.length = ls.flatten.length :=
  h.perm.length_eq

end Interleaves

/-! ## Sequences given one by one -/

/-- A relation to a list in two parts splits where the list does. -/
theorem forall₂_append_left {R : α → β → Prop} {first second : List α} {l : List β}
    (h : List.Forall₂ R (first ++ second) l) :
    ∃ l₁ l₂, l = l₁ ++ l₂ ∧ List.Forall₂ R first l₁ ∧ List.Forall₂ R second l₂ := by
  induction first generalizing l with
  | nil => exact ⟨[], l, rfl, .nil, h⟩
  | cons a first ih =>
      cases h with
      | cons hHead hTail =>
          obtain ⟨l₁, l₂, rfl, hFirst, hSecond⟩ := ih hTail
          exact ⟨_ :: l₁, l₂, rfl, .cons hHead hFirst, hSecond⟩

/-- An entry and what is around it, also when it is replaced. -/
theorem exists_set_eq {as : List α} {i : ℕ} {a : α} (h : as[i]? = some a) :
    ∃ pre post, as = pre ++ a :: post ∧ ∀ b, as.set i b = pre ++ b :: post := by
  obtain ⟨hLess, hEntry⟩ := List.getElem?_eq_some_iff.mp h
  refine ⟨as.take i, as.drop (i + 1), ?_, ?_⟩
  · rw [← hEntry, ← List.drop_eq_getElem_cons hLess, List.take_append_drop]
  · intro b
    rw [List.set_eq_take_append_cons_drop, if_pos hLess]

/-- Every member has its counterpart. -/
theorem exists_of_forall₂ {R : α → β → Prop} {as : List α} {bs : List β} {a : α}
    (h : List.Forall₂ R as bs) (hMem : a ∈ as) : ∃ b, R a b := by
  induction h with
  | nil => cases hMem
  | @cons first b as bs hHead _ ih =>
      rcases List.mem_cons.mp hMem with rfl | hMem
      · exact ⟨b, hHead⟩
      · exact ih hMem

end Interleaving
