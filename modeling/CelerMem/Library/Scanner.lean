import Mathlib

/-! Scanners: they read a text symbol by symbol and give out tokens. A text between two marks
in which every mark is doubled is read as the text it was made of. -/
namespace Scanner
universe u v w

variable {α : Type u} {τ : Type v} {σ : Type w}

/-- The tokens that a text leads to, and the state the scanner is in behind it. -/
def run (step : σ → α → List τ × σ) : List α → σ → List τ × σ
  | [], s => ([], s)
  | a :: l, s => ((step s a).1 ++ (run step l (step s a).2).1, (run step l (step s a).2).2)

section Run
variable {step : σ → α → List τ × σ} {l l' : List α} {s s' s'' : σ} {tokens tokens' : List τ}

@[simp] theorem run_nil : run step [] s = ([], s) := rfl

theorem run_cons (a : α) (l : List α) (s : σ) : run step (a :: l) s =
    ((step s a).1 ++ (run step l (step s a).2).1, (run step l (step s a).2).2) := rfl

theorem run_append (l l' : List α) (s : σ) : run step (l ++ l') s =
    ((run step l s).1 ++ (run step l' (run step l s).2).1, (run step l' (run step l s).2).2) := by
  induction l generalizing s with
  | nil => rfl
  | cons a l ih => rw [List.cons_append, run_cons, run_cons, ih, List.append_assoc]

/-- Texts after one another, by the state between them. -/
theorem run_trans (h : run step l s = (tokens, s')) (h' : run step l' s' = (tokens', s'')) :
    run step (l ++ l') s = (tokens ++ tokens', s'') := by
  rw [run_append, h, h']

end Run

/-! ## Quoted texts -/

/-- Each mark inside the text is doubled. -/
def doubled [DecidableEq α] (mark : α) (l : List α) : List α :=
  l.flatMap fun a => if a = mark then [mark, mark] else [a]

def quote [DecidableEq α] (mark : α) (l : List α) : List α := mark :: (doubled mark l ++ [mark])

/-- How a scanner reads what is quoted. At a mark it does not know yet whether it is the last. -/
structure Quotes (step : σ → α → List τ × σ) (mark : α) (inside closing : List α → σ) : Prop where
  other : ∀ l a, a ≠ mark → step (inside l) a = ([], inside (l ++ [a]))
  marked : ∀ l, step (inside l) mark = ([], closing l)
  again : ∀ l, step (closing l) mark = ([], inside (l ++ [mark]))

variable [DecidableEq α] {step : σ → α → List τ × σ} {mark : α} {inside closing : List α → σ}

theorem Quotes.run_doubled (h : Quotes step mark inside closing) (l before : List α) :
    run step (doubled mark l) (inside before) = ([], inside (before ++ l)) := by
  induction l generalizing before with
  | nil => simp [doubled]
  | cons a l ih =>
      have hFirst : run step (if a = mark then [mark, mark] else [a]) (inside before) =
          ([], inside (before ++ [a])) := by
        split
        · rename_i hMark
          simp [run_cons, h.marked, h.again, hMark]
        · rename_i hOther
          simp [run_cons, h.other before a hOther]
      have hRun := run_trans hFirst (ih (before ++ [a]))
      rw [List.append_assoc] at hRun
      exact hRun

/-- Behind the last mark the scanner has the whole text, whatever symbols it is made of. -/
theorem Quotes.run_quote (h : Quotes step mark inside closing) {s : σ}
    (hOpen : step s mark = ([], inside [])) (l : List α) :
    run step (quote mark l) s = ([], closing l) := by
  have hLast : run step [mark] (inside l) = ([], closing l) := by
    simp [run_cons, h.marked]
  have hText := run_trans (h.run_doubled l []) hLast
  rw [quote, run_cons, hOpen, hText]
  rfl

end Scanner
