import Mathlib

/-! Unsigned integers as fixed numbers of bytes, the low byte first. -/
namespace LittleEndian

/-- The literals of `Fin 256`. -/
instance neZeroByte : NeZero 256 := ⟨by decide⟩

/-- The low `n` bytes of a number. -/
def toBytes : ℕ → ℕ → List (Fin 256)
  | 0, _ => []
  | n + 1, x => Fin.ofNat 256 x :: toBytes n (x / 256)

def ofBytes : List (Fin 256) → ℕ
  | [] => 0
  | b :: bytes => b.val + 256 * ofBytes bytes

@[simp] theorem length_toBytes (n x : ℕ) : (toBytes n x).length = n := by
  induction n generalizing x with
  | zero => rfl
  | succ n ih => rw [toBytes, List.length_cons, ih]

/-- Reading back gives the number modulo the width. -/
theorem ofBytes_toBytes (n x : ℕ) : ofBytes (toBytes n x) = x % 256 ^ n := by
  induction n generalizing x with
  | zero => simp [toBytes, ofBytes, Nat.mod_one]
  | succ n ih =>
      rw [toBytes, ofBytes, ih, Nat.pow_succ, Nat.mul_comm (256 ^ n), Nat.mod_mul]
      rfl

theorem ofBytes_lt (bytes : List (Fin 256)) : ofBytes bytes < 256 ^ bytes.length := by
  induction bytes with
  | nil => exact Nat.one_pos
  | cons b bytes ih =>
      have hByte := b.isLt
      rw [ofBytes, List.length_cons, Nat.pow_succ]
      omega

/-- Writing what was read gives the bytes again. -/
theorem toBytes_ofBytes {n : ℕ} {bytes : List (Fin 256)} (h : bytes.length = n) :
    toBytes n (ofBytes bytes) = bytes := by
  subst h
  induction bytes with
  | nil => rfl
  | cons b bytes ih =>
      have hLow : Fin.ofNat 256 (b.val + 256 * ofBytes bytes) = b := by
        apply Fin.ext
        rw [Fin.val_ofNat, Nat.add_mul_mod_self_left, Nat.mod_eq_of_lt b.isLt]
      have hHigh : (b.val + 256 * ofBytes bytes) / 256 = ofBytes bytes := by
        rw [Nat.add_mul_div_left _ _ (by decide), Nat.div_eq_of_lt b.isLt, Nat.zero_add]
      rw [ofBytes, List.length_cons, toBytes, hLow, hHigh, ih]

end LittleEndian
