import Mathlib

/-! Counters over a history that some events set back to zero. Such a counter is the sum over
the last stretch of the history in which nothing sets it back. -/
namespace Stretch
universe u
variable {α : Type u} {reset : α → Prop} [DecidablePred reset] {weight : α → ℕ}

/-- The counter at the end of a history that begins with a count. -/
def countFrom (reset : α → Prop) [DecidablePred reset] (weight : α → ℕ) (count : ℕ)
    (history : List α) : ℕ :=
  history.foldl (fun count a => if reset a then 0 else count + weight a) count

theorem countFrom_append_singleton (count : ℕ) (history : List α) (a : α) :
    countFrom reset weight count (history ++ [a]) =
      if reset a then 0 else countFrom reset weight count history + weight a := by
  rw [countFrom, List.foldl_append]
  rfl

theorem countFrom_append (count : ℕ) (first second : List α) :
    countFrom reset weight count (first ++ second) =
      countFrom reset weight (countFrom reset weight count first) second :=
  List.foldl_append

theorem countFrom_mono {count count' : ℕ} (h : count ≤ count') (history : List α) :
    countFrom reset weight count history ≤ countFrom reset weight count' history := by
  induction history using List.reverseRecOn with
  | nil => exact h
  | append_singleton history a ih =>
      rw [countFrom_append_singleton, countFrom_append_singleton]
      split
      · exact le_rfl
      · exact Nat.add_le_add_right ih _

/-- What has been counted since the last reset. -/
def since (reset : α → Prop) [DecidablePred reset] (weight : α → ℕ) (history : List α) : ℕ :=
  countFrom reset weight 0 history

theorem since_nil : since reset weight [] = 0 := rfl

theorem since_append_singleton (history : List α) (a : α) :
    since reset weight (history ++ [a]) =
      if reset a then 0 else since reset weight history + weight a :=
  countFrom_append_singleton 0 history a

/-- A counter that was zero once has counted nothing that came before. -/
theorem countFrom_eq_since {count : ℕ} {history : List α}
    (h : count = 0 ∨ ∃ a ∈ history, reset a) :
    countFrom reset weight count history = since reset weight history := by
  induction history using List.reverseRecOn with
  | nil => exact h.resolve_right (by simp)
  | append_singleton history a ih =>
      rw [countFrom_append_singleton, since_append_singleton]
      split
      · rfl
      · rename_i hGood
        rw [ih]
        refine h.imp_right ?_
        rintro ⟨b, hMem, hReset⟩
        rcases List.mem_append.mp hMem with hOld | hNew
        · exact ⟨b, hOld, hReset⟩
        · rw [List.mem_singleton.mp hNew] at hReset
          exact absurd hReset hGood

/-- The last stretch without a reset. -/
theorem exists_stretch (history : List α) : ∃ before stretch, history = before ++ stretch ∧
    (∀ a ∈ stretch, ¬ reset a) ∧ since reset weight history = (stretch.map weight).sum := by
  induction history using List.reverseRecOn with
  | nil => exact ⟨[], [], rfl, by simp, rfl⟩
  | append_singleton history a ih =>
      rw [since_append_singleton]
      by_cases hReset : reset a
      · exact ⟨history ++ [a], [], by simp, by simp, by simp [hReset]⟩
      · obtain ⟨before, stretch, rfl, hStretch, hSum⟩ := ih
        refine ⟨before, stretch ++ [a], List.append_assoc _ _ _, ?_, ?_⟩
        · intro b hMem
          rcases List.mem_append.mp hMem with hOld | hNew
          · exact hStretch b hOld
          · rwa [List.mem_singleton.mp hNew]
        · rw [if_neg hReset, hSum, List.map_append, List.sum_append, List.map_singleton,
            List.sum_singleton]

/-- Counting one by one, the count is how many of the last events are no resets. -/
theorem le_since_iff {n : ℕ} (history : List α) : n ≤ since reset (fun _ => 1) history ↔
    n ≤ history.length ∧ ∀ a ∈ history.drop (history.length - n), ¬ reset a := by
  induction history using List.reverseRecOn generalizing n with
  | nil => simp [since_nil]
  | append_singleton history a ih =>
      cases n with
      | zero => simp
      | succ n =>
          have hDrop : (history ++ [a]).drop ((history ++ [a]).length - (n + 1)) =
              history.drop (history.length - n) ++ [a] := by
            rw [List.length_append, List.length_singleton, Nat.add_sub_add_right,
              List.drop_append_of_le_length (Nat.sub_le _ _)]
          rw [since_append_singleton, hDrop, List.forall_mem_append, List.forall_mem_singleton,
            List.length_append, List.length_singleton]
          by_cases hReset : reset a
          · simp [hReset]
          · rw [if_neg hReset, Nat.add_le_add_iff_right, ih, Nat.add_le_add_iff_right]
            exact and_congr_right fun _ => (and_iff_left hReset).symm

end Stretch
