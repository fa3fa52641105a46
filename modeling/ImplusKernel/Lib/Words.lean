import Mathlib.Data.Nat.Bitwise
import Mathlib.Tactic.Linarith

/-!
# Masks on machine words

Clearing the low `k` bits of a `w`-bit word, as `x & ~(2^k - 1)` does, rounds
it down to a multiple of `2 ^ k`; setting low bits of such a multiple adds
them.
-/

namespace ImplusKernel.Words

/-- The complement of `2 ^ k - 1` in `w` bits. -/
def highMask (w k : ℕ) : ℕ := 2 ^ w - 2 ^ k

theorem highMask_eq_shiftLeft {w k : ℕ} (hk : k ≤ w) :
    highMask w k = (2 ^ (w - k) - 1) <<< k := by
  have hpow : 2 ^ w = 2 ^ (w - k) * 2 ^ k := by
    rw [← pow_add, Nat.sub_add_cancel hk]
  rw [highMask, Nat.shiftLeft_eq, Nat.sub_mul, one_mul, hpow]

theorem land_highMask {w k x : ℕ} (hk : k ≤ w) (hx : x < 2 ^ w) :
    x &&& highMask w k = x / 2 ^ k * 2 ^ k := by
  rw [highMask_eq_shiftLeft hk]
  apply Nat.eq_of_testBit_eq
  intro i
  rw [Nat.testBit_and, Nat.testBit_shiftLeft, ← Nat.shiftLeft_eq, Nat.testBit_shiftLeft,
    Nat.testBit_two_pow_sub_one, Nat.testBit_div_two_pow]
  by_cases hi : k ≤ i
  · have hki : i - k + k = i := Nat.sub_add_cancel hi
    by_cases hiw : i - k < w - k
    · simp [hi, hiw, hki]
    · have hbit : x.testBit i = false := by
        apply Nat.testBit_lt_two_pow
        exact hx.trans_le (Nat.pow_le_pow_right (by norm_num) (by omega))
      simp [hi, hiw, hki, hbit]
  · simp [hi]

/-- Setting bits below a multiple of `2 ^ k` adds them. -/
theorem lor_eq_add {k x y : ℕ} (hx : 2 ^ k ∣ x) (hy : y < 2 ^ k) : x ||| y = x + y := by
  obtain ⟨q, rfl⟩ := hx
  exact (Nat.two_pow_add_eq_or_of_lt hy q).symm

end ImplusKernel.Words
