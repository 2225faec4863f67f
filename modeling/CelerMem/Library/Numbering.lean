import Mathlib

/-! The numbers that senders give to what they send. Each sender counts for itself,
modulo `M`; as long as nobody sends more than `M` times, the numbers tell the entries
of a log apart and grow with it. -/
namespace Numbering
universe u v

variable {ι : Type u} {α : Type v} [DecidableEq ι] {M : Nat} {sender : α → ι} {number : α → Nat}
variable {log : List α} {a : α} {i : ι}

/-- How often a sender occurs in a log. -/
def count (sender : α → ι) (log : List α) (i : ι) : Nat := log.countP fun a => sender a = i

/-- Each entry carries the number of earlier entries of its sender. -/
inductive Numbered (M : Nat) (sender : α → ι) (number : α → Nat) : List α → Prop where
  | nil : Numbered M sender number []
  | snoc {log : List α} {a : α} (prior : Numbered M sender number log)
      (hNumber : number a = count sender log (sender a) % M) :
      Numbered M sender number (log ++ [a])

@[simp] theorem count_nil : count sender [] i = 0 := rfl

@[simp] theorem count_append (log more : List α) :
    count sender (log ++ more) i = count sender log i + count sender more i :=
  List.countP_append

theorem count_singleton_self (h : sender a = i) : count sender [a] i = 1 := by
  simp [count, h]

theorem count_singleton_other (h : sender a ≠ i) : count sender [a] i = 0 := by
  simp [count, h]

theorem count_le_append (log more : List α) (i : ι) :
    count sender log i ≤ count sender (log ++ more) i := by
  rw [count_append]
  exact Nat.le_add_right _ _

/-- Nobody of whom there is no entry. -/
theorem count_eq_zero (h : ∀ a ∈ log, sender a ≠ i) : count sender log i = 0 := by
  simpa [count] using h

namespace Numbered

/-- What is sent next carries a greater number than what was sent before. -/
theorem number_lt (hLog : Numbered M sender number log) (hFits : count sender log i ≤ M)
    (hMem : a ∈ log) (hSender : sender a = i) : number a < count sender log i := by
  induction hLog with
  | nil => cases hMem
  | @snoc log b prior hNumber ih =>
      have hPrior : count sender log i ≤ M := (count_le_append log [b] i).trans hFits
      rcases List.mem_append.mp hMem with hOld | hNew
      · exact (ih hPrior hOld).trans_le (count_le_append log [b] i)
      · obtain rfl := List.mem_singleton.mp hNew
        rw [count_append, count_singleton_self hSender] at hFits ⊢
        rw [hNumber, hSender, Nat.mod_eq_of_lt (by omega)]
        exact Nat.lt_succ_self _

/-- The numbers of a sender grow. -/
theorem increasing (hLog : Numbered M sender number log) (hFits : ∀ i, count sender log i ≤ M) :
    log.Pairwise fun a b => sender a = sender b → number a < number b := by
  induction hLog with
  | nil => exact List.Pairwise.nil
  | @snoc log b prior hNumber ih =>
      have hPrior : ∀ i, count sender log i ≤ M :=
        fun i => (count_le_append log [b] i).trans (hFits i)
      refine List.pairwise_append.mpr ⟨ih hPrior, List.pairwise_singleton _ _, ?_⟩
      intro a hMem c hLast hSame
      obtain rfl := List.mem_singleton.mp hLast
      have hCount := hFits (sender c)
      rw [count_append, count_singleton_self rfl] at hCount
      rw [hNumber, Nat.mod_eq_of_lt (by omega)]
      exact prior.number_lt (hPrior _) hMem hSame

/-- Sender and number identify an entry. -/
theorem nodup (hLog : Numbered M sender number log) (hFits : ∀ i, count sender log i ≤ M) :
    (log.map fun a => (sender a, number a)).Nodup := by
  refine List.pairwise_map.mpr ((hLog.increasing hFits).imp ?_)
  intro a b hLess hSame
  obtain ⟨hSender, hNumber⟩ := Prod.mk.inj hSame
  exact absurd hNumber (hLess hSender).ne

end Numbered
end Numbering
