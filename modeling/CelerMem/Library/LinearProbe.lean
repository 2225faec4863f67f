import Mathlib

/-! Open addressing with linear probing, without deletion. Slots are gone through from the
home of a key, round the end of the list, up to a free one; an entry is put in the first
free slot from its home. -/
namespace LinearProbe
universe u
variable {K V : Type u} {home : K → ℕ} {entries : List (K × V)}
  {slots slots' : List (Option (K × V))} {e : K × V} {key : K}

/-! ## One slot of a rotated list -/

section Rotate
variable {α : Type u} {l : List α} {a b : α} {i : ℕ}

theorem split_at (h : l[i]? = some a) (b : α) :
    l = l.take i ++ a :: l.drop (i + 1) ∧ l.set i b = l.take i ++ b :: l.drop (i + 1) := by
  obtain ⟨hLess, rfl⟩ := List.getElem?_eq_some_iff.mp h
  refine ⟨?_, List.set_eq_take_append_cons_drop.trans (if_pos hLess)⟩
  rw [List.getElem_cons_drop, List.take_append_drop]

theorem rotate_set_at (hLess : i < l.length) (k : ℕ) (b : α) :
    (l.set ((k + i) % l.length) b).rotate k = (l.rotate k).set i b := by
  apply List.ext_getElem?
  intro j
  by_cases hj : j < l.length
  · have hSame : (k + i) % l.length = (j + k) % l.length ↔ i = j := by
      rw [Nat.add_comm k i]
      constructor
      · intro hMod
        have hBoth : i ≡ j [MOD l.length] := Nat.ModEq.add_right_cancel' k hMod
        exact Nat.ModEq.eq_of_lt_of_lt hBoth hLess hj
      · rintro rfl
        rfl
    rw [List.getElem?_rotate (by rwa [List.length_set]), List.length_set, List.getElem?_set,
      List.getElem?_set, List.length_rotate, List.getElem?_rotate hj]
    by_cases hEq : i = j
    · rw [if_pos (hSame.mpr hEq), if_pos hEq, if_pos hLess,
        if_pos (Nat.mod_lt _ (Nat.zero_lt_of_lt hLess))]
    · rw [if_neg (mt hSame.mp hEq), if_neg hEq]
  · rw [List.getElem?_eq_none (by simpa using hj), List.getElem?_eq_none (by simpa using hj)]

/-- Lists that differ in one slot do so wherever they are started. -/
theorem split_rotate (h : l[i]? = some a) (b : α) (k : ℕ) :
    ∃ before after, l.rotate k = before ++ a :: after ∧
      (l.set i b).rotate k = before ++ b :: after := by
  obtain ⟨hLess, rfl⟩ := List.getElem?_eq_some_iff.mp h
  -- How far the slot is from the start, round the end of the list.
  have hTurn : ∃ d < l.length, (k + d) % l.length = i := by
    refine ⟨(i + (l.length - k % l.length)) % l.length, Nat.mod_lt _ (by omega), ?_⟩
    have hMod : k % l.length < l.length := Nat.mod_lt _ (by omega)
    rw [Nat.add_mod_mod, ← Nat.mod_add_mod]
    have hSum : k % l.length + (i + (l.length - k % l.length)) = i + l.length := by omega
    rw [hSum, Nat.add_mod_right, Nat.mod_eq_of_lt hLess]
  obtain ⟨d, hd, rfl⟩ := hTurn
  rw [rotate_set_at hd]
  have hAt : (l.rotate k)[d]? = some l[(k + d) % l.length] := by
    rw [List.getElem?_rotate hd, Nat.add_comm d k, List.getElem?_eq_getElem]
  exact ⟨_, _, split_at hAt b⟩

end Rotate

/-! ## Looking up -/

variable [DecidableEq K]

/-- Through the slots up to the key or to a free one. -/
def lookup (key : K) : List (Option (K × V)) → Option V
  | [] => none
  | none :: _ => none
  | some e :: rest => if key = e.1 then some e.2 else lookup key rest

theorem lookup_append {before : List (Option (K × V))} (hTaken : none ∉ before)
    (rest : List (Option (K × V))) :
    lookup key (before ++ rest) = (lookup key before).or (lookup key rest) := by
  induction before with
  | nil => rfl
  | cons slot before ih =>
      rw [List.mem_cons, not_or] at hTaken
      cases slot with
      | none => exact absurd rfl hTaken.1
      | some e =>
          rw [List.cons_append, lookup, lookup, ih hTaken.2]
          split
          · rfl
          · rfl

theorem lookup_append_of_free {before : List (Option (K × V))} (hFree : none ∈ before)
    (rest : List (Option (K × V))) : lookup key (before ++ rest) = lookup key before := by
  induction before with
  | nil => cases hFree
  | cons slot before ih =>
      cases slot with
      | none => rfl
      | some e =>
          rw [List.cons_append, lookup, lookup, ih (by simpa using hFree)]

theorem lookup_eq_none {rest : List (Option (K × V))} (h : ∀ v, some (key, v) ∉ rest) :
    lookup key rest = none := by
  induction rest with
  | nil => rfl
  | cons slot rest ih =>
      cases slot with
      | none => rfl
      | some e =>
          have hOther : key ≠ e.1 := by
            rintro rfl
            exact h e.2 List.mem_cons_self
          rw [lookup, if_neg hOther]
          exact ih fun v hMem => h v (List.mem_cons_of_mem _ hMem)

/-! ## Tables -/

/-- The entry has been put in the first free slot from its home, `d` slots away. -/
def Placed (home : K → ℕ) (slots : List (Option (K × V))) (e : K × V)
    (slots' : List (Option (K × V))) : Prop :=
  ∃ d < slots.length, none ∉ (slots.rotate (home e.1)).take d ∧
    slots[(home e.1 + d) % slots.length]? = some none ∧
    slots' = slots.set ((home e.1 + d) % slots.length) (some e)

/-- The slots after the entries have been put in, one after the other. -/
inductive Filled (home : K → ℕ) : List (K × V) → List (Option (K × V)) → Prop where
  | empty (n : ℕ) : Filled home [] (List.replicate n none)
  | place {entries : List (K × V)} {slots slots' : List (Option (K × V))} {e : K × V}
      (hFilled : Filled home entries slots) (hPlaced : Placed home slots e slots') :
      Filled home (entries ++ [e]) slots'

/-- Every key in the table is found from its home. -/
def Reached (home : K → ℕ) (slots : List (Option (K × V))) : Prop :=
  ∀ key, lookup key (slots.rotate (home key)) = none → ∀ v, some (key, v) ∉ slots

theorem Placed.lookup (hPlaced : Placed home slots e slots') (hReached : Reached home slots)
    (key : K) : lookup key (slots'.rotate (home key)) =
      (lookup key (slots.rotate (home key))).or (if key = e.1 then some e.2 else none) := by
  obtain ⟨d, hd, hTaken, hFree, hSet⟩ := hPlaced
  by_cases hSame : key = e.1
  · subst hSame
    have hAt : (slots.rotate (home e.1))[d]? = some none := by
      rw [List.getElem?_rotate hd, Nat.add_comm d, hFree]
    obtain ⟨hOld, hNew⟩ := split_at hAt (some e)
    rw [hSet, rotate_set_at hd, hNew, lookup_append hTaken]
    conv_rhs => rw [hOld, lookup_append hTaken]
    rw [LinearProbe.lookup, LinearProbe.lookup, if_pos rfl, if_pos rfl, Option.or_none]
  · obtain ⟨before, after, hOld, hNew⟩ := split_rotate hFree (some e) (home key)
    rw [if_neg hSame, Option.or_none, hSet, hOld, hNew]
    by_cases hEarly : none ∈ before
    · rw [lookup_append_of_free hEarly, lookup_append_of_free hEarly]
    · rw [lookup_append hEarly, lookup_append hEarly, LinearProbe.lookup, LinearProbe.lookup,
        if_neg hSame, Option.or_none]
      -- Beyond a slot that was free, the key cannot have been put.
      cases hFound : LinearProbe.lookup key before with
      | some v => rfl
      | none =>
          have hNone : ∀ v, some (key, v) ∉ slots := by
            apply hReached key
            rw [hOld, lookup_append hEarly, hFound]
            rfl
          apply lookup_eq_none
          intro v hMem
          apply hNone v
          rw [← List.mem_rotate (n := home key), hOld]
          exact List.mem_append_right _ (List.mem_cons_of_mem _ hMem)

theorem Placed.reached (hPlaced : Placed home slots e slots') (hReached : Reached home slots) :
    Reached home slots' := by
  intro key hNone v hMem
  rw [hPlaced.lookup hReached, Option.or_eq_none_iff] at hNone
  obtain ⟨d, hd, hTaken, hFree, hSet⟩ := hPlaced
  rw [hSet] at hMem
  rcases List.mem_or_eq_of_mem_set hMem with hOld | hNew
  · exact hReached key hNone.1 v hOld
  · have hSame : key = e.1 := congrArg Prod.fst (Option.some.inj hNew)
    rw [if_pos hSame] at hNone
    cases hNone.2

namespace Filled

theorem reached (hFilled : Filled home entries slots) : Reached home slots := by
  induction hFilled with
  | empty n =>
      intro key _ v hMem
      cases List.eq_of_mem_replicate hMem
  | place _ hPlaced ih => exact hPlaced.reached ih

/-- The first entry of a key is the one that is found. -/
theorem lookup_eq [BEq K] [LawfulBEq K] (hFilled : Filled home entries slots) (key : K) :
    lookup key (slots.rotate (home key)) = entries.lookup key := by
  induction hFilled with
  | empty n =>
      rw [List.rotate_replicate]
      apply lookup_eq_none
      intro v hMem
      cases List.eq_of_mem_replicate hMem
  | @place entries slots slots' e hFilled hPlaced ih =>
      have hLast : List.lookup key [e] = if key = e.1 then some e.2 else none := by
        rw [List.lookup_cons]
        by_cases hSame : key = e.1
        · rw [if_pos hSame, beq_iff_eq.mpr hSame]
        · rw [if_neg hSame, beq_eq_false_iff_ne.mpr hSame, List.lookup_nil]
      rw [hPlaced.lookup hFilled.reached, ih, List.lookup_append, hLast]

omit [DecidableEq K] in
theorem count_taken (hFilled : Filled home entries slots) :
    slots.countP Option.isSome = entries.length := by
  induction hFilled with
  | empty n => simp [List.countP_replicate]
  | place _ hPlaced ih =>
      obtain ⟨d, hd, hTaken, hFree, hSet⟩ := hPlaced
      obtain ⟨hOld, hNew⟩ := split_at hFree (some _)
      rw [hSet, hNew, List.length_append, ← ih]
      conv_rhs => rw [hOld]
      simp [List.countP_append]
      omega

omit [DecidableEq K] in
theorem exists_free (hFilled : Filled home entries slots) (hRoom : entries.length < slots.length) :
    none ∈ slots := by
  by_contra hTaken
  have hAll : slots.countP Option.isSome = slots.length := by
    rw [List.countP_eq_length]
    intro slot hMem
    cases slot with
    | none => exact absurd hMem hTaken
    | some e => rfl
  rw [hFilled.count_taken] at hAll
  omega

end Filled

/-- What is found is found within as many slots as are taken. -/
theorem lookup_take {bound : ℕ} (hBound : slots.countP Option.isSome ≤ bound) :
    lookup key (slots.take bound) = lookup key slots := by
  induction slots generalizing bound with
  | nil => rw [List.take_nil]
  | cons slot slots ih =>
      cases slot with
      | none =>
          cases bound with
          | zero => rfl
          | succ bound => rfl
      | some e =>
          rw [List.countP_cons_of_pos rfl] at hBound
          cases bound with
          | zero => omega
          | succ bound =>
              rw [List.take_succ_cons, lookup, lookup, ih (Nat.le_of_succ_le_succ hBound)]

/-- So a search that gives up after as many slots as there are entries loses nothing. -/
theorem Filled.lookup_take [BEq K] [LawfulBEq K] (hFilled : Filled home entries slots)
    {bound : ℕ} (hBound : entries.length ≤ bound) (key : K) :
    lookup key ((slots.rotate (home key)).take bound) = entries.lookup key := by
  rw [LinearProbe.lookup_take, hFilled.lookup_eq]
  rwa [(List.rotate_perm slots (home key)).countP_eq, hFilled.count_taken]

end LinearProbe
