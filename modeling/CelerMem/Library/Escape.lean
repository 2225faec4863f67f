import Mathlib

/-! Texts in which safe symbols stand for themselves and every other one is written as a mark
and two digits. Such a text can be read back, whatever it is a text of. -/
namespace Escape
universe u

/-- The mark is not safe, so no symbol that stands for itself is read as one. -/
structure Scheme (α : Type u) where
  safe : α → Bool
  mark : α
  digits : α → α × α
  /-- What two digits stand for, if both are digits. -/
  value : α → α → Option α
  mark_unsafe : safe mark = false
  value_digits : ∀ a, value (digits a).1 (digits a).2 = some a

namespace Scheme
variable {α : Type u}

def encode (S : Scheme α) : List α → List α
  | [] => []
  | a :: l =>
      if S.safe a then a :: encode S l
      else S.mark :: (S.digits a).1 :: (S.digits a).2 :: encode S l

/-- A mark without two digits after it stands for itself. -/
def decode [DecidableEq α] (S : Scheme α) : List α → List α
  | a :: high :: low :: l =>
      if a = S.mark then
        match S.value high low with
        | some b => b :: decode S l
        | none => a :: decode S (high :: low :: l)
      else a :: decode S (high :: low :: l)
  | a :: l => a :: decode S l
  | [] => []

/-- Safe symbols, and marks that two digits follow. -/
inductive Text (S : Scheme α) (digit : α → Prop) : List α → Prop where
  | nil : Text S digit []
  | safe {a : α} {l : List α} (hSafe : S.safe a = true) (rest : Text S digit l) :
      Text S digit (a :: l)
  | escape {high low : α} {l : List α} (hHigh : digit high) (hLow : digit low)
      (rest : Text S digit l) : Text S digit (S.mark :: high :: low :: l)

theorem encode_text {S : Scheme α} {digit : α → Prop}
    (hDigits : ∀ a, digit (S.digits a).1 ∧ digit (S.digits a).2) (l : List α) :
    S.Text digit (S.encode l) := by
  induction l with
  | nil => exact .nil
  | cons a l ih =>
      rw [encode]
      split
      · rename_i hSafe
        exact .safe hSafe ih
      · obtain ⟨hHigh, hLow⟩ := hDigits a
        exact .escape hHigh hLow ih

variable [DecidableEq α] {S : Scheme α} {a high low : α}

theorem decode_cons_of_ne (h : a ≠ S.mark) (l : List α) :
    S.decode (a :: l) = a :: S.decode l := by
  match l with
  | [] => rfl
  | [_] => rfl
  | _ :: _ :: _ => rw [decode, if_neg h]

theorem decode_mark (h : S.value high low = some a) (l : List α) :
    S.decode (S.mark :: high :: low :: l) = a :: S.decode l := by
  rw [decode, if_pos rfl, h]

@[simp] theorem decode_encode (S : Scheme α) (l : List α) : S.decode (S.encode l) = l := by
  induction l with
  | nil => rfl
  | cons a l ih =>
      rw [encode]
      split
      · rename_i hSafe
        have hOther : a ≠ S.mark := by
          intro hSame
          rw [hSame, S.mark_unsafe] at hSafe
          cases hSafe
        rw [decode_cons_of_ne hOther, ih]
      · rw [decode_mark (S.value_digits a), ih]

theorem encode_injective (S : Scheme α) : Function.Injective S.encode :=
  Function.LeftInverse.injective S.decode_encode

end Scheme
end Escape
