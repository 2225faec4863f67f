import Mathlib

/-! Runs of a labelled transition system whose step function is partial: a label
that is not enabled, or whose step never comes back, has no successor. -/
namespace Transition
universe u v

variable {State : Type u} {Label : Type v}

/-- Finitely many steps, each under a label that is allowed in the state it starts from. -/
def RunsWhere (allowed : State → Label → Prop) (step : State → Label → Option State) :
    State → State → Prop :=
  Relation.ReflTransGen fun s t => ∃ label, allowed s label ∧ step s label = some t

/-- Finitely many steps under any labels. -/
abbrev Runs (step : State → Label → Option State) : State → State → Prop :=
  RunsWhere (fun _ _ => True) step

variable {allowed : State → Label → Prop} {step : State → Label → Option State} {s t u : State}

namespace RunsWhere

theorem refl : RunsWhere allowed step s s := Relation.ReflTransGen.refl

theorem trans (first : RunsWhere allowed step s t) (second : RunsWhere allowed step t u) :
    RunsWhere allowed step s u :=
  Relation.ReflTransGen.trans first second

theorem tail (run : RunsWhere allowed step s t) (label : Label) (hAllowed : allowed t label)
    (h : step t label = some u) : RunsWhere allowed step s u :=
  Relation.ReflTransGen.tail run ⟨label, hAllowed, h⟩

/-- Forget the restriction on the labels. -/
theorem unrestricted (run : RunsWhere allowed step s t) : Runs step s t := by
  induction run with
  | refl => exact refl
  | tail prior last ih =>
      obtain ⟨label, -, hLast⟩ := last
      exact ih.tail label trivial hLast

/-- What every allowed step preserves holds at the end of a run if it held at its start. -/
theorem preserves {Inv : State → Prop}
    (hStep : ∀ s label t, Inv s → allowed s label → step s label = some t → Inv t)
    (run : RunsWhere allowed step s t) (hInv : Inv s) : Inv t := by
  induction run with
  | refl => exact hInv
  | tail prior last ih =>
      obtain ⟨label, hAllowed, hLast⟩ := last
      exact hStep _ label _ ih hAllowed hLast

/-- Executing labels that are allowed everywhere, one after another. -/
theorem of_foldlM (labels : List Label) (hAllowed : ∀ label ∈ labels, ∀ s, allowed s label)
    (h : labels.foldlM step s = some t) : RunsWhere allowed step s t := by
  induction labels generalizing s with
  | nil =>
      obtain rfl := Option.some.inj h
      exact refl
  | cons label rest ih =>
      simp only [List.foldlM_cons, Option.bind_eq_bind, Option.bind_eq_some_iff] at h
      obtain ⟨middle, hFirst, hRest⟩ := h
      have hTail := ih (fun other hOther => hAllowed other (List.mem_cons_of_mem label hOther)) hRest
      exact (refl.tail label (hAllowed label List.mem_cons_self s) hFirst).trans hTail

end RunsWhere

theorem Runs.tail (run : Runs step s t) (label : Label) (h : step t label = some u) :
    Runs step s u :=
  RunsWhere.tail run label trivial h

end Transition
