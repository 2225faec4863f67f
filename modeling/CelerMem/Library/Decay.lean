import Mathlib

/-! A quantity that loses a fixed share of itself from time to time and may gain in between.
With bounded gains from one loss to the next it stays below a level of its own. -/
namespace Decay
universe u
variable {K : Type u} [Field K] [LinearOrder K]

/-- Where the quantity is at most after a loss: at the start, or where a loss just makes up for
the gains. -/
def level (rate gains start : K) : K := max start ((1 - rate) * gains / rate)

variable {rate gains start x : K}

theorem start_le_level : start ≤ level rate gains start := le_max_left _ _

variable [IsStrictOrderedRing K]

/-- A loss brings the quantity back to the level if it has not gained more since the last one. -/
theorem decayed_le (hRate : 0 < rate) (hLeft : rate ≤ 1) (h : x ≤ level rate gains start + gains) :
    x * (1 - rate) ≤ level rate gains start := by
  have hSettled : (1 - rate) * gains ≤ rate * level rate gains start := by
    have hLevel : (1 - rate) * gains / rate ≤ level rate gains start := le_max_right _ _
    rwa [div_le_iff₀' hRate] at hLevel
  calc x * (1 - rate) ≤ (level rate gains start + gains) * (1 - rate) :=
        mul_le_mul_of_nonneg_right h (sub_nonneg.mpr hLeft)
    _ = level rate gains start - rate * level rate gains start + (1 - rate) * gains := by ring
    _ ≤ level rate gains start := by linarith

end Decay
