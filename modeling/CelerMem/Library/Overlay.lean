import Mathlib

/-! Maps from keys to optional values, overlaid by a list of writes in order. -/
namespace Overlay
universe u v
variable {κ : Type u} {ν : Type v} [DecidableEq κ] {m m' : κ → Option ν} {k : κ}

/-- The last write to a key wins. -/
def overlay (m : κ → Option ν) (writes : List (κ × ν)) : κ → Option ν :=
  writes.foldl (fun m w => Function.update m w.1 (some w.2)) m

@[simp] theorem overlay_nil (m : κ → Option ν) : overlay m [] = m := rfl

theorem overlay_cons (m : κ → Option ν) (w : κ × ν) (writes : List (κ × ν)) :
    overlay m (w :: writes) = overlay (Function.update m w.1 (some w.2)) writes := rfl

theorem overlay_append (m : κ → Option ν) (first second : List (κ × ν)) :
    overlay m (first ++ second) = overlay (overlay m first) second := by
  rw [overlay, List.foldl_append]
  rfl

theorem overlay_of_not_mem {writes : List (κ × ν)} (h : k ∉ writes.map Prod.fst) :
    overlay m writes k = m k := by
  induction writes generalizing m with
  | nil => rfl
  | cons w writes ih =>
      rw [List.map_cons, List.mem_cons, not_or] at h
      rw [overlay_cons, ih h.2, Function.update_of_ne h.1]

/-- An overlay has the keys that are written and those that were there. -/
theorem overlay_ne_none_iff (writes : List (κ × ν)) :
    overlay m writes k ≠ none ↔ k ∈ writes.map Prod.fst ∨ m k ≠ none := by
  induction writes generalizing m with
  | nil => simp
  | cons w writes ih =>
      rw [overlay_cons, ih, List.map_cons, List.mem_cons]
      by_cases hKey : k = w.1
      · simp [hKey]
      · rw [Function.update_of_ne hKey, or_iff_right hKey]

/-- A value of an overlay was written under its key or was there. -/
theorem mem_of_overlay_eq_some {writes : List (κ × ν)} {v : ν} (h : overlay m writes k = some v) :
    (k, v) ∈ writes ∨ m k = some v := by
  induction writes generalizing m with
  | nil => exact Or.inr h
  | cons w writes ih =>
      rw [overlay_cons] at h
      rcases ih h with hLater | hHere
      · exact Or.inl (List.mem_cons_of_mem w hLater)
      · by_cases hKey : k = w.1
        · rw [hKey, Function.update_self, Option.some.injEq] at hHere
          left
          rw [hKey, ← hHere]
          exact List.mem_cons_self
        · rw [Function.update_of_ne hKey] at hHere
          exact Or.inr hHere

/-- Below an overlay, only the keys that it does not write matter. -/
theorem overlay_congr {writes : List (κ × ν)} (h : k ∈ writes.map Prod.fst ∨ m k = m' k) :
    overlay m writes k = overlay m' writes k := by
  induction writes generalizing m m' with
  | nil => exact h.resolve_left (by simp)
  | cons w writes ih =>
      rw [overlay_cons, overlay_cons]
      refine ih ?_
      by_cases hKey : k = w.1
      · right
        rw [hKey, Function.update_self, Function.update_self]
      · rw [Function.update_of_ne hKey, Function.update_of_ne hKey]
        exact h.imp_left fun hMem => (List.mem_cons.mp hMem).resolve_left hKey

/-- Writing some of the writes before all of them changes nothing. -/
theorem overlay_overlay {first writes : List (κ × ν)}
    (h : ∀ w ∈ first, w.1 ∈ writes.map Prod.fst) :
    overlay (overlay m first) writes = overlay m writes := by
  funext k
  apply overlay_congr
  by_cases hMem : k ∈ first.map Prod.fst
  · obtain ⟨w, hw, rfl⟩ := List.mem_map.mp hMem
    exact Or.inl (h w hw)
  · exact Or.inr (overlay_of_not_mem hMem)

/-- Dropping writes to other keys does not change what is under a key. -/
theorem overlay_filter (keep : κ → Bool) (writes : List (κ × ν)) (hKeep : keep k = true) :
    overlay m (writes.filter fun w => keep w.1) k = overlay m writes k := by
  induction writes generalizing m with
  | nil => rfl
  | cons w writes ih =>
      cases hw : keep w.1 with
      | true => rw [List.filter_cons, if_pos hw, overlay_cons, overlay_cons, ih]
      | false =>
          have hKey : k ≠ w.1 := by
            rintro rfl
            rw [hKeep] at hw
            cases hw
          rw [List.filter_cons, if_neg (by simp [hw]), overlay_cons, ih]
          exact overlay_congr (Or.inr (Function.update_of_ne hKey _ _).symm)

end Overlay
