import Mathlib

/-! References to shared objects. A holder has at most one reference; an object has any
number of holders, and one lemma says what a change at one holder does to that number. -/
namespace References
universe u v

variable {Holder : Type u} {Object : Type v}

/-- Exactly `n` holders refer to the object. -/
def Counted (held : Holder → Option Object) (object : Object) (n : Nat) : Prop :=
  ∃ holders : Finset Holder, (∀ h, h ∈ holders ↔ held h = some object) ∧ holders.card = n

variable {held : Holder → Option Object} {object : Object} {n m : Nat} {h : Holder}

namespace Counted

theorem unique (first : Counted held object n) (second : Counted held object m) : n = m := by
  obtain ⟨holders, hHolders, rfl⟩ := first
  obtain ⟨others, hOthers, rfl⟩ := second
  have hSame : holders = others := by
    ext h
    rw [hHolders, hOthers]
  rw [hSame]

theorem of_nobody (hNobody : ∀ h, held h ≠ some object) : Counted held object 0 :=
  ⟨∅, fun h => by simp [hNobody h], rfl⟩

theorem zero_iff (hCounted : Counted held object n) : n = 0 ↔ ∀ h, held h ≠ some object := by
  obtain ⟨holders, hHolders, rfl⟩ := hCounted
  rw [Finset.card_eq_zero, Finset.eq_empty_iff_forall_notMem]
  exact forall_congr' fun h => by rw [hHolders]

theorem pos (hCounted : Counted held object n) (hHeld : held h = some object) : 0 < n := by
  rcases Nat.eq_zero_or_pos n with hZero | hPos
  · exact absurd hHeld (hCounted.zero_iff.mp hZero h)
  · exact hPos

/-- One holder gives up what it refers to, and takes up something else. -/
theorem update [DecidableEq Holder] [DecidableEq Object] (hCounted : Counted held object n)
    (h : Holder) (next : Option Object) :
    ∃ m, Counted (Function.update held h next) object m ∧
      m + (if held h = some object then 1 else 0) =
        n + (if next = some object then 1 else 0) := by
  obtain ⟨holders, hHolders, rfl⟩ := hCounted
  have hErased : (holders.erase h).card + (if held h = some object then 1 else 0) =
      holders.card := by
    by_cases hHeld : held h = some object
    · rw [if_pos hHeld, Finset.card_erase_add_one ((hHolders h).mpr hHeld)]
    · rw [if_neg hHeld, Finset.erase_eq_of_notMem (fun hIn => hHeld ((hHolders h).mp hIn)),
        Nat.add_zero]
  by_cases hNext : next = some object
  · refine ⟨(insert h (holders.erase h)).card, ⟨_, fun k => ?_, rfl⟩, ?_⟩
    · by_cases hk : k = h
      · simp [hk, hNext]
      · simp [hk, hHolders]
    · rw [Finset.card_insert_of_notMem (Finset.notMem_erase h holders), if_pos hNext]
      omega
  · refine ⟨(holders.erase h).card, ⟨holders.erase h, fun k => ?_, rfl⟩, ?_⟩
    · by_cases hk : k = h
      · simp [hk, hNext]
      · simp [hk, hHolders]
    · rw [if_neg hNext]
      omega

/-- What the number of holders is after a change that gives up one object for another. -/
theorem update_eq [DecidableEq Holder] [DecidableEq Object] (hCounted : Counted held object n)
    {next : Option Object}
    (hSum : m + (if held h = some object then 1 else 0) =
      n + (if next = some object then 1 else 0)) :
    Counted (Function.update held h next) object m := by
  obtain ⟨k, hk, hEq⟩ := hCounted.update h next
  have hSame : k = m := by omega
  exact hSame ▸ hk

/-- Some holders do not count when none of the others refers to the object. -/
theorem comap {Some : Type*} {place : Some → Holder} (hPlace : Function.Injective place)
    (hCounted : Counted held object n) (hOthers : ∀ h, held h = some object → ∃ k, place k = h) :
    Counted (fun k => held (place k)) object n := by
  obtain ⟨holders, hHolders, rfl⟩ := hCounted
  refine ⟨holders.preimage place hPlace.injOn, fun k => ?_, ?_⟩
  · rw [Finset.mem_preimage, hHolders]
  · refine Finset.card_nbij place (fun k hk => Finset.mem_preimage.mp hk) hPlace.injOn ?_
    intro h hIn
    obtain ⟨k, rfl⟩ := hOthers h ((hHolders h).mp hIn)
    exact ⟨k, by simpa using hIn, rfl⟩

end Counted
end References
