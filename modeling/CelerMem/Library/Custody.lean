import Mathlib

/-! Tokens that pass between places. Each place holds a list of tokens in an order of
its own, and no token is ever in two places, or twice in one. -/
namespace Custody
universe u v

variable {Place : Type u} {Token : Type v}

/-- Every token is held at most once. -/
structure Exclusive (held : Place → List Token) : Prop where
  nodup : ∀ p, (held p).Nodup
  unique : ∀ p q t, t ∈ held p → t ∈ held q → p = q

/-- A token comes to a place. -/
structure Given (held held' : Place → List Token) (q : Place) (t : Token) : Prop where
  «to» : (held' q).Perm (t :: held q)
  other : ∀ r, r ≠ q → held' r = held r

/-- A token leaves a place. -/
structure Taken (held held' : Place → List Token) (p : Place) (t : Token) : Prop where
  «from» : (held p).Perm (t :: held' p)
  other : ∀ r, r ≠ p → held' r = held r

/-- What one step does: nothing, or a token passes from a place to a place, comes in, or
goes out. -/
inductive Moves (held : Place → List Token) :
    (Place → List Token) → Option Token → Option Token → Prop where
  | same : Moves held held none none
  | pass {middle held' : Place → List Token} {p q : Place} {t : Token}
      (hTaken : Taken held middle p t) (hGiven : Given middle held' q t) : Moves held held' none none
  | comes {held' : Place → List Token} {q : Place} {t : Token} (hGiven : Given held held' q t) :
      Moves held held' (some t) none
  | goes {held' : Place → List Token} {p : Place} {t : Token} (hTaken : Taken held held' p t) :
      Moves held held' none (some t)

variable {held held' : Place → List Token} {p q : Place} {t u : Token}

namespace Given

theorem holds (hGiven : Given held held' q t) : t ∈ held' q :=
  hGiven.to.mem_iff.mpr List.mem_cons_self

theorem keeps (hGiven : Given held held' q t) {r : Place} (hHeld : u ∈ held r) : u ∈ held' r := by
  by_cases hr : r = q
  · subst hr
    exact hGiven.to.mem_iff.mpr (List.mem_cons_of_mem t hHeld)
  · exact (hGiven.other r hr).symm ▸ hHeld

theorem before (hGiven : Given held held' q t) {r : Place} (hHeld : u ∈ held' r) :
    u ∈ held r ∨ (u = t ∧ r = q) := by
  by_cases hr : r = q
  · subst hr
    rcases List.mem_cons.mp (hGiven.to.mem_iff.mp hHeld) with hEq | hOld
    · exact .inr ⟨hEq, rfl⟩
    · exact .inl hOld
  · exact .inl (hGiven.other r hr ▸ hHeld)

/-- A token that nobody holds may come to a place. -/
theorem exclusive (hGiven : Given held held' q t) (hHeld : Exclusive held) (hNew : ∀ p, t ∉ held p) :
    Exclusive held' := by
  constructor
  · intro r
    by_cases hr : r = q
    · subst hr
      exact hGiven.to.nodup_iff.mpr (List.nodup_cons.mpr ⟨hNew r, hHeld.nodup r⟩)
    · exact (hGiven.other r hr).symm ▸ hHeld.nodup r
  · intro r r' u hu hu'
    rcases hGiven.before hu with hOld | ⟨rfl, rfl⟩ <;>
      rcases hGiven.before hu' with hOld' | ⟨hEq, rfl⟩
    · exact hHeld.unique r r' u hOld hOld'
    · exact absurd (hEq ▸ hOld) (hNew r)
    · exact absurd hOld' (hNew r')
    · rfl

end Given

namespace Taken

theorem holds (hTaken : Taken held held' p t) : t ∈ held p :=
  hTaken.from.mem_iff.mpr List.mem_cons_self

theorem before (hTaken : Taken held held' p t) {r : Place} (hHeld : u ∈ held' r) : u ∈ held r := by
  by_cases hr : r = p
  · subst hr
    exact hTaken.from.mem_iff.mpr (List.mem_cons_of_mem t hHeld)
  · exact hTaken.other r hr ▸ hHeld

theorem keeps (hTaken : Taken held held' p t) {r : Place} (hHeld : u ∈ held r) :
    u = t ∨ u ∈ held' r := by
  by_cases hr : r = p
  · subst hr
    exact List.mem_cons.mp (hTaken.from.mem_iff.mp hHeld)
  · exact .inr ((hTaken.other r hr).symm ▸ hHeld)

/-- Nobody holds a token after it has left its place. -/
theorem exclusive (hTaken : Taken held held' p t) (hHeld : Exclusive held) :
    Exclusive held' ∧ ∀ r, t ∉ held' r := by
  have hNodup := hTaken.from.nodup_iff.mp (hHeld.nodup p)
  refine ⟨⟨?_, ?_⟩, ?_⟩
  · intro r
    by_cases hr : r = p
    · subst hr
      exact (List.nodup_cons.mp hNodup).2
    · exact (hTaken.other r hr).symm ▸ hHeld.nodup r
  · intro r r' u hu hu'
    exact hHeld.unique r r' u (hTaken.before hu) (hTaken.before hu')
  · intro r hIn
    have hr : r = p := hHeld.unique r p t (hTaken.before hIn) hTaken.holds
    subst hr
    exact (List.nodup_cons.mp hNodup).1 hIn

end Taken

namespace Moves
variable {came gone : Option Token}

/-- No step puts a token in a second place, as long as what comes in is new. -/
theorem exclusive (hMoves : Moves held held' came gone) (hHeld : Exclusive held)
    (hNew : ∀ t ∈ came, ∀ p, t ∉ held p) : Exclusive held' := by
  cases hMoves with
  | same => exact hHeld
  | pass hTaken hGiven =>
      obtain ⟨hMiddle, hNowhere⟩ := hTaken.exclusive hHeld
      exact hGiven.exclusive hMiddle hNowhere
  | comes hGiven => exact hGiven.exclusive hHeld (hNew _ rfl)
  | goes hTaken => exact (hTaken.exclusive hHeld).1

/-- What is held after a step was held before it, or has come in. -/
theorem before (hMoves : Moves held held' came gone) {r : Place} (hHeld : u ∈ held' r) :
    (∃ p, u ∈ held p) ∨ u ∈ came := by
  cases hMoves with
  | same => exact .inl ⟨r, hHeld⟩
  | pass hTaken hGiven =>
      rcases hGiven.before hHeld with hMiddle | ⟨rfl, -⟩
      · exact .inl ⟨r, hTaken.before hMiddle⟩
      · exact .inl ⟨_, hTaken.holds⟩
  | comes hGiven =>
      rcases hGiven.before hHeld with hOld | ⟨rfl, -⟩
      · exact .inl ⟨r, hOld⟩
      · exact .inr rfl
  | goes hTaken => exact .inl ⟨r, hTaken.before hHeld⟩

/-- What was held before a step, or came in, is held after it unless it went out. -/
theorem after (hMoves : Moves held held' came gone) (hHeld : (∃ p, u ∈ held p) ∨ u ∈ came) :
    u ∈ gone ∨ ∃ p, u ∈ held' p := by
  cases hMoves with
  | same =>
      rcases hHeld with hHeld | hNone
      · exact .inr hHeld
      · cases hNone
  | @pass _ _ p q t hTaken hGiven =>
      rcases hHeld with ⟨r, hr⟩ | hNone
      · rcases hTaken.keeps hr with rfl | hMiddle
        · exact .inr ⟨q, hGiven.holds⟩
        · exact .inr ⟨r, hGiven.keeps hMiddle⟩
      · cases hNone
  | comes hGiven =>
      rcases hHeld with ⟨r, hr⟩ | hCame
      · exact .inr ⟨r, hGiven.keeps hr⟩
      · obtain rfl := Option.some.inj hCame
        exact .inr ⟨_, hGiven.holds⟩
  | goes hTaken =>
      rcases hHeld with ⟨r, hr⟩ | hNone
      · rcases hTaken.keeps hr with rfl | hMiddle
        · exact .inl rfl
        · exact .inr ⟨r, hMiddle⟩
      · cases hNone

end Moves
end Custody
