import Mathlib

/-! Steps on a family of cells, taken one after the other up to the first that fails. Each
step works on cells of its own and does all of its work or none; what is asked is when the
whole sequence does. -/
namespace Sequence
universe u v w x
variable {ι : Type u} {σ : Type v} {ε : Type w} {α : Type x}

abbrev Step (ι : Type u) (σ : Type v) (ε : Type w) := (ι → σ) → Except ε Unit × (ι → σ)

def run : List (Step ι σ ε) → Step ι σ ε
  | [], s => (.ok (), s)
  | step :: steps, s =>
      match step s with
      | (.error e, s) => (.error e, s)
      | (.ok (), s) => run steps s

def Fails (step : Step ι σ ε) (s : ι → σ) : Prop := ∃ e, (step s).1 = .error e

/-- A failed step changes nothing. -/
def Atomic (step : Step ι σ ε) : Prop := ∀ s, Fails step s → (step s).2 = s

/-- A step only looks at some cells and only changes those. -/
structure On (cells : Set ι) (step : Step ι σ ε) : Prop where
  frame : ∀ s i, i ∉ cells → (step s).2 i = s i
  result : ∀ {s s'}, (∀ i ∈ cells, s i = s' i) → (step s).1 = (step s').1
  value : ∀ {s s'}, (∀ i ∈ cells, s i = s' i) → ∀ i ∈ cells, (step s).2 i = (step s').2 i

/-- Nothing is changed before the first failure. -/
def UnchangedBefore (fails changes : α → Prop) (steps : List α) : Prop :=
  ∀ before a after, steps = before ++ a :: after → fails a → (∀ b ∈ before, ¬ fails b) →
    ∀ b ∈ before, ¬ changes b

/-! ## One step -/

section Step
variable {step : Step ι σ ε} {cells : Set ι} {s s' : ι → σ}

theorem run_cons_of_fails {steps : List (Step ι σ ε)} (h : Fails step s) :
    run (step :: steps) s = step s := by
  obtain ⟨e, hError⟩ := h
  rw [run]
  split
  · rename_i hStep
    exact hStep.symm
  · rename_i hStep
    rw [hStep] at hError
    cases hError

theorem run_cons_of_not_fails {steps : List (Step ι σ ε)} (h : ¬ Fails step s) :
    run (step :: steps) s = run steps (step s).2 := by
  rw [run]
  split
  · rename_i e t hStep
    exact absurd ⟨e, by rw [hStep]⟩ h
  · rename_i t hStep
    rw [hStep]

theorem fails_run_cons_of_fails {steps : List (Step ι σ ε)} (h : Fails step s) :
    Fails (run (step :: steps)) s := by
  unfold Fails
  rw [run_cons_of_fails h]
  exact h

theorem fails_run_cons_of_not_fails {steps : List (Step ι σ ε)} (h : ¬ Fails step s) :
    Fails (run (step :: steps)) s ↔ Fails (run steps) (step s).2 := by
  unfold Fails
  rw [run_cons_of_not_fails h]

theorem On.fails_congr (hOn : On cells step) (h : ∀ i ∈ cells, s i = s' i) :
    Fails step s ↔ Fails step s' := by
  unfold Fails
  rw [hOn.result h]

theorem On.unchanged_iff (hOn : On cells step) : (step s).2 = s ↔ ∀ i ∈ cells, (step s).2 i = s i := by
  constructor
  · intro h i hMem
    rw [h]
  · intro h
    funext i
    by_cases hMem : i ∈ cells
    · exact h i hMem
    · exact hOn.frame s i hMem

theorem On.unchanged_congr (hOn : On cells step) (h : ∀ i ∈ cells, s i = s' i) :
    (step s).2 = s ↔ (step s').2 = s' := by
  rw [hOn.unchanged_iff, hOn.unchanged_iff]
  apply forall₂_congr
  intro i hMem
  rw [hOn.value h i hMem, h i hMem]

end Step

/-! ## A sequence of steps -/

theorem UnchangedBefore.congr {fails fails' changes changes' : α → Prop} {steps : List α}
    (hFails : ∀ a ∈ steps, fails a ↔ fails' a) (hChanges : ∀ a ∈ steps, changes a ↔ changes' a) :
    UnchangedBefore fails changes steps ↔ UnchangedBefore fails' changes' steps := by
  unfold UnchangedBefore
  apply forall₄_congr
  rintro before a after rfl
  have hBefore : ∀ b ∈ before, b ∈ before ++ a :: after :=
    fun b hMem => List.mem_append_left _ hMem
  have hNone : (∀ b ∈ before, ¬ fails b) ↔ ∀ b ∈ before, ¬ fails' b :=
    forall₂_congr fun b hMem => not_congr (hFails b (hBefore b hMem))
  have hSame : (∀ b ∈ before, ¬ changes b) ↔ ∀ b ∈ before, ¬ changes' b :=
    forall₂_congr fun b hMem => not_congr (hChanges b (hBefore b hMem))
  rw [hFails a (by simp), hNone, hSame]

/-- The first of the elements that fail. -/
theorem exists_first {fails : α → Prop} {steps : List α} (h : ∃ a ∈ steps, fails a) :
    ∃ before a after, steps = before ++ a :: after ∧ fails a ∧ ∀ b ∈ before, ¬ fails b := by
  induction steps with
  | nil => simp at h
  | cons a steps ih =>
      by_cases hFirst : fails a
      · exact ⟨[], a, steps, rfl, hFirst, by simp⟩
      · obtain ⟨b, hMem, hFails⟩ := h
        have hLater : b ∈ steps := by
          rcases List.mem_cons.mp hMem with rfl | hLater
          · exact absurd hFails hFirst
          · exact hLater
        obtain ⟨before, c, after, rfl, hc, hBefore⟩ := ih ⟨b, hLater, hFails⟩
        refine ⟨a :: before, c, after, rfl, hc, ?_⟩
        intro d hd
        rcases List.mem_cons.mp hd with rfl | hd
        · exact hFirst
        · exact hBefore d hd

section Cons
variable {fails changes : α → Prop} {a : α} {steps : List α}

theorem unchangedBefore_cons_of_fails (h : fails a) :
    UnchangedBefore fails changes (a :: steps) := by
  intro before b after hSteps hb hBefore
  cases before with
  | nil => simp
  | cons d before =>
      obtain ⟨rfl, -⟩ := List.cons.inj hSteps
      exact absurd h (hBefore a List.mem_cons_self)

theorem unchangedBefore_cons_of_not_fails (h : ¬ fails a) :
    UnchangedBefore fails changes (a :: steps) ↔
      ((∃ b ∈ steps, fails b) → ¬ changes a) ∧ UnchangedBefore fails changes steps := by
  have hNone : ∀ {before : List α}, (∀ b ∈ before, ¬ fails b) → ∀ b ∈ a :: before, ¬ fails b := by
    intro before hBefore b hMem
    rcases List.mem_cons.mp hMem with rfl | hMem
    · exact h
    · exact hBefore b hMem
  constructor
  · intro hOrder
    constructor
    · intro hLater
      obtain ⟨before, b, after, rfl, hb, hBefore⟩ := exists_first hLater
      exact hOrder (a :: before) b after rfl hb (hNone hBefore) a List.mem_cons_self
    · intro before b after hSteps hb hBefore c hMem
      exact hOrder (a :: before) b after (congrArg (a :: ·) hSteps) hb (hNone hBefore) c
        (List.mem_cons_of_mem a hMem)
  · rintro ⟨hHead, hOrder⟩ before b after hSteps hb hBefore
    cases before with
    | nil => simp
    | cons d before =>
        obtain ⟨rfl, rfl⟩ := List.cons.inj hSteps
        intro c hMem
        rcases List.mem_cons.mp hMem with rfl | hMem
        · exact hHead ⟨b, by simp, hb⟩
        · exact hOrder before b after rfl hb
            (fun e he => hBefore e (List.mem_cons_of_mem a he)) c hMem

end Cons

section Run
variable {step : α → Step ι σ ε} {cells : α → Set ι} {steps : List α}

theorem run_frame (hOn : ∀ a ∈ steps, On (cells a) (step a)) (s : ι → σ) {i : ι}
    (hOther : ∀ a ∈ steps, i ∉ cells a) : (run (steps.map step) s).2 i = s i := by
  induction steps generalizing s with
  | nil => rfl
  | cons a steps ih =>
      have hFrame := (hOn a List.mem_cons_self).frame s i (hOther a List.mem_cons_self)
      rw [List.map_cons]
      by_cases hFails : Fails (step a) s
      · rw [run_cons_of_fails hFails, hFrame]
      · rw [run_cons_of_not_fails hFails, ← hFrame]
        exact ih (fun b hMem => hOn b (List.mem_cons_of_mem a hMem)) _
          fun b hMem => hOther b (List.mem_cons_of_mem a hMem)

/-- A step leaves the cells of a later one as they were. -/
theorem agree_after {a b : α} (hOn : On (cells a) (step a)) (hApart : Disjoint (cells a) (cells b))
    (s : ι → σ) : ∀ i ∈ cells b, (step a s).2 i = s i := by
  intro i hMem
  exact hOn.frame s i (Set.disjoint_right.mp hApart hMem)

theorem run_fails_iff (hOn : ∀ a ∈ steps, On (cells a) (step a))
    (hApart : steps.Pairwise fun a b => Disjoint (cells a) (cells b)) (s : ι → σ) :
    Fails (run (steps.map step)) s ↔ ∃ a ∈ steps, Fails (step a) s := by
  induction steps generalizing s with
  | nil => simp [Fails, run]
  | cons a steps ih =>
      obtain ⟨hFirst, hApart⟩ := List.pairwise_cons.mp hApart
      have hRest : ∀ b ∈ steps, On (cells b) (step b) :=
        fun b hMem => hOn b (List.mem_cons_of_mem a hMem)
      rw [List.exists_mem_cons_iff, List.map_cons]
      by_cases hFails : Fails (step a) s
      · exact iff_of_true (fails_run_cons_of_fails hFails) (Or.inl hFails)
      · rw [fails_run_cons_of_not_fails hFails, ih hRest hApart, or_iff_right hFails]
        apply exists_congr
        intro b
        apply and_congr_right
        intro hMem
        exact (hRest b hMem).fails_congr (agree_after (hOn a List.mem_cons_self) (hFirst b hMem) s)

/-- A failed sequence leaves everything as it was if and only if its steps before the
first failure do. -/
theorem run_atomic_iff (hOn : ∀ a ∈ steps, On (cells a) (step a))
    (hAtomic : ∀ a ∈ steps, Atomic (step a))
    (hApart : steps.Pairwise fun a b => Disjoint (cells a) (cells b)) (s : ι → σ) :
    (Fails (run (steps.map step)) s → (run (steps.map step) s).2 = s) ↔
      UnchangedBefore (fun a => Fails (step a) s) (fun a => (step a s).2 ≠ s) steps := by
  induction steps generalizing s with
  | nil =>
      refine iff_of_true ?_ ?_
      · rintro ⟨e, hError⟩
        cases hError
      · intro before a after hSteps
        simp at hSteps
  | cons a steps ih =>
      obtain ⟨hFirst, hApart⟩ := List.pairwise_cons.mp hApart
      have hHead := hOn a List.mem_cons_self
      have hRest : ∀ b ∈ steps, On (cells b) (step b) :=
        fun b hMem => hOn b (List.mem_cons_of_mem a hMem)
      have hRestAtomic : ∀ b ∈ steps, Atomic (step b) :=
        fun b hMem => hAtomic b (List.mem_cons_of_mem a hMem)
      rw [List.map_cons]
      by_cases hFails : Fails (step a) s
      · refine iff_of_true ?_ (unchangedBefore_cons_of_fails hFails)
        intro hRun
        rw [run_cons_of_fails hFails]
        exact hAtomic a List.mem_cons_self s hFails
      · -- The later steps see their own cells as they were before this one.
        have hSee : ∀ b ∈ steps, ∀ i ∈ cells b, (step a s).2 i = s i :=
          fun b hMem => agree_after hHead (hFirst b hMem) s
        have hSame : UnchangedBefore (fun b => Fails (step b) (step a s).2)
            (fun b => (step b (step a s).2).2 ≠ (step a s).2) steps ↔
            UnchangedBefore (fun b => Fails (step b) s) (fun b => (step b s).2 ≠ s) steps :=
          UnchangedBefore.congr
            (fun b hMem => (hRest b hMem).fails_congr (hSee b hMem))
            fun b hMem => not_congr ((hRest b hMem).unchanged_congr (hSee b hMem))
        have hLater : Fails (run (steps.map step)) (step a s).2 ↔
            ∃ b ∈ steps, Fails (step b) s := by
          rw [run_fails_iff hRest hApart]
          exact exists_congr fun b => and_congr_right fun hMem =>
            (hRest b hMem).fails_congr (hSee b hMem)
        have hRun : run (step a :: steps.map step) s = run (steps.map step) (step a s).2 :=
          run_cons_of_not_fails hFails
        have hCons : UnchangedBefore (fun b => Fails (step b) s) (fun b => (step b s).2 ≠ s)
            (a :: steps) ↔ ((∃ b ∈ steps, Fails (step b) s) → ¬ (step a s).2 ≠ s) ∧
              UnchangedBefore (fun b => Fails (step b) s) (fun b => (step b s).2 ≠ s) steps :=
          unchangedBefore_cons_of_not_fails hFails
        rw [hCons, ← hSame, ← ih hRest hRestAtomic hApart (step a s).2, ← hLater, not_ne_iff,
          fails_run_cons_of_not_fails hFails, hRun]
        constructor
        · intro hWhole
          have hUnchanged : Fails (run (steps.map step)) (step a s).2 → (step a s).2 = s := by
            intro hError
            apply hHead.unchanged_iff.mpr
            intro i hMem
            have hFrame := run_frame hRest (step a s).2
              fun c hc => Set.disjoint_left.mp (hFirst c hc) hMem
            rw [← hFrame, hWhole hError]
          exact ⟨hUnchanged, fun hError => (hWhole hError).trans (hUnchanged hError).symm⟩
        · rintro ⟨hUnchanged, hTail⟩ hError
          exact (hTail hError).trans (hUnchanged hError)

/-- A sequence without a failure ends as each of its steps, taken alone, leaves its cells. -/
theorem run_value (hOn : ∀ a ∈ steps, On (cells a) (step a))
    (hApart : steps.Pairwise fun a b => Disjoint (cells a) (cells b)) {s : ι → σ}
    (hOk : ¬ Fails (run (steps.map step)) s) {a : α} (hMem : a ∈ steps) {i : ι}
    (hCell : i ∈ cells a) : (run (steps.map step) s).2 i = (step a s).2 i := by
  induction steps generalizing s with
  | nil => exact absurd hMem List.not_mem_nil
  | cons b steps ih =>
      obtain ⟨hFirst, hRestApart⟩ := List.pairwise_cons.mp hApart
      have hHead := hOn b List.mem_cons_self
      have hRest : ∀ c ∈ steps, On (cells c) (step c) :=
        fun c hc => hOn c (List.mem_cons_of_mem b hc)
      have hStep : ¬ Fails (step b) s :=
        fun hFails => hOk ((run_fails_iff hOn hApart s).mpr ⟨b, List.mem_cons_self, hFails⟩)
      rw [List.map_cons, run_cons_of_not_fails hStep]
      rcases List.mem_cons.mp hMem with rfl | hLater
      · exact run_frame hRest _ fun c hc => Set.disjoint_left.mp (hFirst c hc) hCell
      · have hSee := agree_after hHead (hFirst a hLater) s
        have hOkRest : ¬ Fails (run (steps.map step)) (step b s).2 := by
          rwa [List.map_cons, fails_run_cons_of_not_fails hStep] at hOk
        rw [ih hRest hRestApart hOkRest hLater]
        exact (hRest a hLater).value hSee i hCell

/-- A sequence that fails has done the steps before the first that fails, and none after it. -/
theorem run_first_failure (hOn : ∀ a ∈ steps, On (cells a) (step a))
    (hApart : steps.Pairwise fun a b => Disjoint (cells a) (cells b)) {s : ι → σ}
    (hFails : Fails (run (steps.map step)) s) :
    ∃ before a after, steps = before ++ a :: after ∧
      (∀ b ∈ before, ¬ Fails (step b) s ∧
        ∀ i ∈ cells b, (run (steps.map step) s).2 i = (step b s).2 i) ∧
      ∀ b ∈ after, ∀ i ∈ cells b, (run (steps.map step) s).2 i = s i := by
  induction steps generalizing s with
  | nil =>
      obtain ⟨e, hError⟩ := hFails
      cases hError
  | cons b steps ih =>
      obtain ⟨hFirst, hRestApart⟩ := List.pairwise_cons.mp hApart
      have hHead := hOn b List.mem_cons_self
      have hRest : ∀ c ∈ steps, On (cells c) (step c) :=
        fun c hc => hOn c (List.mem_cons_of_mem b hc)
      rw [List.map_cons] at hFails ⊢
      by_cases hStep : Fails (step b) s
      · refine ⟨[], b, steps, rfl, fun c hc => absurd hc List.not_mem_nil, ?_⟩
        intro c hc i hCell
        rw [run_cons_of_fails hStep]
        exact agree_after hHead (hFirst c hc) s i hCell
      · rw [fails_run_cons_of_not_fails hStep] at hFails
        rw [run_cons_of_not_fails hStep]
        obtain ⟨before, a, after, rfl, hBefore, hAfter⟩ := ih hRest hRestApart hFails
        refine ⟨b :: before, a, after, rfl, ?_, ?_⟩
        · intro c hc
          rcases List.mem_cons.mp hc with rfl | hc
          · refine ⟨hStep, fun i hCell => ?_⟩
            exact run_frame hRest _ fun d hd => Set.disjoint_left.mp (hFirst d hd) hCell
          · have hMem : c ∈ before ++ a :: after := List.mem_append_left _ hc
            have hSee := agree_after hHead (hFirst c hMem) s
            obtain ⟨hOk, hValue⟩ := hBefore c hc
            refine ⟨fun hFails => hOk (((hRest c hMem).fails_congr hSee).mpr hFails), ?_⟩
            intro i hCell
            rw [hValue i hCell]
            exact (hRest c hMem).value hSee i hCell
        · intro c hc i hCell
          have hMem : c ∈ before ++ a :: after :=
            List.mem_append_right _ (List.mem_cons_of_mem a hc)
          rw [hAfter c hc i hCell]
          exact agree_after hHead (hFirst c hMem) s i hCell

end Run

/-! ## Actions on one cell each -/

section Actions
variable [DecidableEq ι] {cell : α → Option ι} {act : α → σ → Except ε σ} {missing : α → ε}

/-- Actions on one cell, one after the other. -/
def applyAll (act : α → σ → Except ε σ) : List α → σ → Except ε σ
  | [], s => .ok s
  | a :: as, s =>
      match act a s with
      | .error e => .error e
      | .ok t => applyAll act as t

/-- Actions one after the other, each on the cell it is for. -/
def applyEach (cell : α → Option ι) (missing : α → ε) (act : α → σ → Except ε σ) :
    List α → (ι → σ) → Except ε (ι → σ)
  | [], s => .ok s
  | a :: as, s =>
      match cell a with
      | none => .error (missing a)
      | some i =>
          match act a (s i) with
          | .error e => .error e
          | .ok t => applyEach cell missing act as (Function.update s i t)

/-- Each cell only sees the actions that are for it. -/
theorem applyEach_eq_ok {as : List α} {s s' : ι → σ} (hFor : ∀ a ∈ as, cell a ≠ none)
    (hCells : ∀ i, applyAll act (as.filter fun a => cell a = some i) (s i) = .ok (s' i)) :
    applyEach cell missing act as s = .ok s' := by
  induction as generalizing s with
  | nil =>
      have hSame : s = s' := funext fun i => Except.ok.inj (hCells i)
      rw [applyEach, hSame]
  | cons a as ih =>
      obtain ⟨i, hCell⟩ := Option.ne_none_iff_exists'.mp (hFor a List.mem_cons_self)
      have hHere := hCells i
      rw [List.filter_cons_of_pos (by simp [hCell]), applyAll] at hHere
      cases hAct : act a (s i) with
      | error e =>
          rw [hAct] at hHere
          cases hHere
      | ok t =>
          rw [hAct] at hHere
          simp only [applyEach, hCell, hAct]
          apply ih fun b hMem => hFor b (List.mem_cons_of_mem a hMem)
          intro j
          by_cases hSame : j = i
          · subst hSame
            rwa [Function.update_self]
          · have hOther := hCells j
            rw [List.filter_cons_of_neg (by simpa [hCell] using Ne.symm hSame)] at hOther
            rwa [Function.update_of_ne hSame]

end Actions
end Sequence
