import Mathlib

/-! Edits of a map, each of which sets or removes one key, applied in order. Setting first
and removing afterwards is another order, and it matters for some lists of edits. -/
namespace Edits
universe u v
variable {κ : Type u} {ν : Type v} [DecidableEq κ]

/-- An edit gives a key a value, or none. -/
def apply (m : κ → Option ν) (edits : List (κ × Option ν)) : κ → Option ν :=
  edits.foldl (fun m e => Function.update m e.1 e.2) m

variable {m : κ → Option ν} {edits : List (κ × Option ν)} {k : κ}

@[simp] theorem apply_nil (m : κ → Option ν) : apply m [] = m := rfl

@[simp] theorem apply_cons (m : κ → Option ν) (e : κ × Option ν) (edits : List (κ × Option ν)) :
    apply m (e :: edits) = apply (Function.update m e.1 e.2) edits := rfl

theorem apply_append (m : κ → Option ν) (first second : List (κ × Option ν)) :
    apply m (first ++ second) = apply (apply m first) second := by
  rw [apply, List.foldl_append]
  rfl

theorem apply_of_not_mem (h : k ∉ edits.map Prod.fst) : apply m edits k = m k := by
  induction edits generalizing m with
  | nil => rfl
  | cons e edits ih =>
      rw [List.map_cons, List.mem_cons, not_or] at h
      rw [apply_cons, ih h.2, Function.update_of_ne h.1]

/-- The last edit of a key decides. -/
theorem apply_of_last {before after : List (κ × Option ν)} {value : Option ν}
    (h : k ∉ after.map Prod.fst) : apply m (before ++ (k, value) :: after) k = value := by
  rw [apply_append, apply_cons, apply_of_not_mem h, Function.update_self]

theorem exists_last (h : k ∈ edits.map Prod.fst) :
    ∃ before value after, edits = before ++ (k, value) :: after ∧ k ∉ after.map Prod.fst := by
  induction edits with
  | nil => simp at h
  | cons e edits ih =>
      by_cases hLater : k ∈ edits.map Prod.fst
      · obtain ⟨before, value, after, rfl, hLast⟩ := ih hLater
        exact ⟨e :: before, value, after, rfl, hLast⟩
      · have hKey : k = e.1 := by
          rw [List.map_cons, List.mem_cons] at h
          exact h.resolve_right hLater
        exact ⟨[], e.2, edits, by rw [hKey]; rfl, hLater⟩

/-- Nothing changes if and only if the last edit of each key gives it what it has. -/
theorem apply_eq_self_iff : apply m edits = m ↔
    ∀ before k value after, edits = before ++ (k, value) :: after → k ∉ after.map Prod.fst →
      m k = value := by
  classical
  constructor
  · rintro hSame before k value after rfl hLast
    have hKey := congrFun hSame k
    rw [apply_of_last hLast] at hKey
    exact hKey.symm
  · intro hLasts
    funext k
    by_cases hEdited : k ∈ edits.map Prod.fst
    · obtain ⟨before, value, after, rfl, hLast⟩ := exists_last hEdited
      rw [apply_of_last hLast]
      exact (hLasts before k value after rfl hLast).symm
    · exact apply_of_not_mem hEdited

/-- The edits of other keys do not matter. -/
theorem apply_filter (keep : κ × Option ν → Bool) (h : ∀ e ∈ edits, e.1 = k → keep e = true) :
    apply m (edits.filter keep) k = apply m edits k := by
  induction edits generalizing m with
  | nil => rfl
  | cons e edits ih =>
      have hRest : ∀ other ∈ edits, other.1 = k → keep other = true :=
        fun other hMem => h other (List.mem_cons_of_mem e hMem)
      cases hKeep : keep e with
      | true => rw [List.filter_cons_of_pos hKeep, apply_cons, apply_cons, ih hRest]
      | false =>
          have hOther : k ≠ e.1 := by
            intro hSame
            rw [h e List.mem_cons_self hSame.symm] at hKeep
            cases hKeep
          rw [List.filter_cons_of_neg (by simp [hKeep]), ih hRest, apply_cons]
          by_cases hEdited : k ∈ edits.map Prod.fst
          · obtain ⟨before, value, after, rfl, hLast⟩ := exists_last hEdited
            rw [apply_of_last hLast, apply_of_last hLast]
          · rw [apply_of_not_mem hEdited, apply_of_not_mem hEdited, Function.update_of_ne hOther]

theorem apply_removals (h : ∀ e ∈ edits, e.2 = none) :
    apply m edits k = if k ∈ edits.map Prod.fst then none else m k := by
  split
  · rename_i hEdited
    obtain ⟨before, value, after, rfl, hLast⟩ := exists_last hEdited
    rw [apply_of_last hLast]
    exact h (k, value) (by simp)
  · rename_i hOther
    exact apply_of_not_mem hOther

/-- What sets a key. -/
def sets (e : κ × Option ν) : Bool := e.2.isSome

/-- All that sets a key in order, and then all that removes one. -/
def setsFirst (m : κ → Option ν) (edits : List (κ × Option ν)) : κ → Option ν :=
  apply (apply m (edits.filter sets)) (edits.filter fun e => !sets e)

theorem setsFirst_eq (m : κ → Option ν) (edits : List (κ × Option ν)) (k : κ)
    [Decidable ((k, none) ∈ edits)] :
    setsFirst m edits k = if (k, none) ∈ edits then none else apply m edits k := by
  have hRemovals : ∀ e ∈ edits.filter fun e => !sets e, e.2 = none := by
    intro e hMem
    have hNot := (List.mem_filter.mp hMem).2
    simpa [sets] using hNot
  have hRemoved : k ∈ (edits.filter fun e => !sets e).map Prod.fst ↔ (k, none) ∈ edits := by
    constructor
    · intro hKey
      obtain ⟨e, hMem, rfl⟩ := List.mem_map.mp hKey
      rw [← hRemovals e hMem]
      exact List.mem_of_mem_filter hMem
    · intro hMem
      exact List.mem_map.mpr ⟨(k, none), List.mem_filter.mpr ⟨hMem, rfl⟩, rfl⟩
  rw [setsFirst, apply_removals hRemovals, if_congr hRemoved rfl rfl]
  split
  · rfl
  · rename_i hKept
    apply apply_filter
    intro e hMem hKey
    cases hValue : e.2 with
    | some value => rw [sets, hValue, Option.isSome_some]
    | none =>
        have hSame : e = (k, none) := Prod.ext hKey hValue
        exact absurd (hSame ▸ hMem) hKept

/-- The two orders agree if and only if no key that is removed is set by its last edit. -/
theorem setsFirst_eq_apply_iff (m : κ → Option ν) (edits : List (κ × Option ν)) :
    setsFirst m edits = apply m edits ↔
      ∀ before k value after, edits = before ++ (k, some value) :: after →
        k ∉ after.map Prod.fst → (k, none) ∉ before := by
  classical
  constructor
  · rintro hSame before k value after rfl hLast hRemoved
    have hKey := congrFun hSame k
    have hMem : (k, none) ∈ before ++ (k, some value) :: after := List.mem_append_left _ hRemoved
    rw [setsFirst_eq, if_pos hMem, apply_of_last hLast] at hKey
    cases hKey
  · intro hOrder
    funext k
    rw [setsFirst_eq]
    split
    · rename_i hRemoved
      obtain ⟨before, value, after, rfl, hLast⟩ :=
        exists_last (List.mem_map.mpr ⟨(k, none), hRemoved, rfl⟩)
      rw [apply_of_last hLast]
      cases value with
      | none => rfl
      | some value =>
          have hBefore := hOrder before k value after rfl hLast
          rcases List.mem_append.mp hRemoved with hEarlier | hLater
          · exact absurd hEarlier hBefore
          · rcases List.mem_cons.mp hLater with hSame | hAfter
            · cases hSame
            · exact absurd (List.mem_map.mpr ⟨(k, none), hAfter, rfl⟩) hLast
    · rfl

end Edits
