import Mathlib

/-! Cells that are rewritten one after the other, in place: each rewrite sees the ones before it.
What is asked is when the cells end with values that were fixed beforehand. -/
namespace Sweep
universe u v
variable {ι : Type u} {α : Type v} [DecidableEq ι] {rule : (ι → α) → ι → α} {goal : ι → α}
  {s : ι → α}

/-- The cells of the list are rewritten in its order. -/
def inPlace (rule : (ι → α) → ι → α) (l : List ι) (s : ι → α) : ι → α :=
  l.foldl (fun s i => Function.update s i (rule s i)) s

/-- The cells of the list have their goals. -/
def reached (goal : ι → α) (l : List ι) (s : ι → α) : ι → α := fun i =>
  if i ∈ l then goal i else s i

/-- A cell is rewritten to its goal when those before it have theirs. -/
def Steady (rule : (ι → α) → ι → α) (goal : ι → α) (l : List ι) (s : ι → α) : Prop :=
  ∀ before i after, l = before ++ i :: after → rule (reached goal before s) i = goal i

theorem inPlace_append (l l' : List ι) (s : ι → α) :
    inPlace rule (l ++ l') s = inPlace rule l' (inPlace rule l s) :=
  List.foldl_append

theorem inPlace_cons (i : ι) (l : List ι) (s : ι → α) :
    inPlace rule (i :: l) s = inPlace rule l (Function.update s i (rule s i)) := rfl

theorem inPlace_of_not_mem {l : List ι} {i : ι} (h : i ∉ l) (s : ι → α) :
    inPlace rule l s i = s i := by
  induction l generalizing s with
  | nil => rfl
  | cons j l ih =>
      rw [List.mem_cons, not_or] at h
      rw [inPlace_cons, ih h.2, Function.update_of_ne h.1]

theorem reached_append_singleton (l : List ι) (i : ι) (s : ι → α) :
    reached goal (l ++ [i]) s = Function.update (reached goal l s) i (goal i) := by
  funext j
  by_cases hSame : j = i
  · subst hSame
    rw [Function.update_self, reached, if_pos (List.mem_append_right l List.mem_cons_self)]
  · rw [Function.update_of_ne hSame, reached, reached]
    simp only [List.mem_append, List.mem_singleton, hSame, or_false]

theorem inPlace_eq_reached {l : List ι} (h : Steady rule goal l s) :
    inPlace rule l s = reached goal l s := by
  have hPrefix : ∀ before after, l = before ++ after →
      inPlace rule before s = reached goal before s := by
    intro before
    induction before using List.reverseRecOn with
    | nil =>
        intro after hSplit
        funext i
        rw [reached, if_neg List.not_mem_nil]
        rfl
    | append_singleton before i ih =>
        intro after hSplit
        rw [List.append_assoc, List.singleton_append] at hSplit
        rw [inPlace_append, ih _ hSplit, reached_append_singleton, ← h before i after hSplit]
        rfl
  exact hPrefix l [] (List.append_nil l).symm

/-- Without repetitions, the goals are reached only by rewriting every cell to its own. -/
theorem inPlace_eq_reached_iff {l : List ι} (hOnce : l.Nodup) :
    inPlace rule l s = reached goal l s ↔ Steady rule goal l s := by
  refine ⟨?_, inPlace_eq_reached⟩
  rintro hEnd before i after rfl
  obtain ⟨-, hLater, hApart⟩ := List.nodup_append.mp hOnce
  have hBefore : inPlace rule before s = reached goal before s := by
    funext j
    by_cases hMem : j ∈ before
    · have hNot : j ∉ i :: after := fun hIn => hApart j hMem j hIn rfl
      have hHere := congrFun hEnd j
      rw [inPlace_append, inPlace_of_not_mem hNot, reached,
        if_pos (List.mem_append_left _ hMem)] at hHere
      rw [hHere, reached, if_pos hMem]
    · rw [inPlace_of_not_mem hMem, reached, if_neg hMem]
  have hHere := congrFun hEnd i
  rw [inPlace_append, inPlace_cons, inPlace_of_not_mem (List.nodup_cons.mp hLater).1,
    Function.update_self, reached, if_pos (List.mem_append_right before List.mem_cons_self)] at hHere
  rw [← hBefore]
  exact hHere

theorem reached_perm {l l' : List ι} (h : l.Perm l') : reached goal l s = reached goal l' s := by
  funext i
  rw [reached, reached]
  simp only [h.mem_iff]

end Sweep
