import Mathlib

/-!
# Rounding with bit masks

Machine code rounds an address to a power of two by masking: `x & !(a - 1)`. On
64-bit words the mask `!(a - 1)` is `2 ^ 64 - a`, so `maskDown` is that
expression on natural numbers below `2 ^ 64`. The lemmas turn it into ordinary
division, which is what bounds and alignment proofs use.
-/
namespace Efiks.Lib

/-- `x & !(a - 1)` on 64-bit words. -/
def maskDown (x a : ℕ) : ℕ := x &&& (2 ^ 64 - a)

theorem maskDown_two_pow {x k : ℕ} (hx : x < 2 ^ 64) (hk : k ≤ 64) :
    maskDown x (2 ^ k) = x / 2 ^ k * 2 ^ k := by
  have hpos : 0 < 2 ^ k := Nat.two_pow_pos k
  have hle : 2 ^ k ≤ 2 ^ 64 := Nat.pow_le_pow_right (by norm_num) hk
  apply Nat.eq_of_testBit_eq
  intro i
  have hmask : (2 ^ 64 - 2 ^ k).testBit i = (decide (i < 64) && !decide (i < k)) := by
    have h := Nat.testBit_two_pow_sub_succ (x := 2 ^ k - 1) (n := 64) (by omega) i
    rw [Nat.sub_add_cancel hpos, Nat.testBit_two_pow_sub_one] at h
    exact h
  rw [maskDown, Nat.testBit_and, hmask, Nat.testBit_mul_two_pow, Nat.testBit_div_two_pow]
  by_cases hik : i < k
  · simp [hik]
  · have hki : k ≤ i := by omega
    by_cases hi : i < 64
    · simp [hik, hi, hki]
    · have : x.testBit i = false :=
        Nat.testBit_lt_two_pow (lt_of_lt_of_le hx (Nat.pow_le_pow_right (by norm_num) (by omega)))
      simp [hi, hki, this]

theorem maskDown_le (x a : ℕ) : maskDown x a ≤ x := Nat.and_le_left

/-- Masking down lands on a multiple. -/
theorem maskDown_two_pow_mod {x k : ℕ} (hx : x < 2 ^ 64) (hk : k ≤ 64) :
    maskDown x (2 ^ k) % 2 ^ k = 0 := by
  rw [maskDown_two_pow hx hk, Nat.mul_mod_left]

/-- Masking down loses less than one unit. -/
theorem lt_maskDown_two_pow_add {x k : ℕ} (hx : x < 2 ^ 64) (hk : k ≤ 64) :
    x < maskDown x (2 ^ k) + 2 ^ k := by
  rw [maskDown_two_pow hx hk]
  have := Nat.div_add_mod' x (2 ^ k)
  have := Nat.mod_lt x (Nat.two_pow_pos k)
  omega

/-- Rounding up by masking gives the least multiple. -/
theorem maskDown_two_pow_le {x y k : ℕ} (hx : x + 2 ^ k - 1 < 2 ^ 64) (hk : k ≤ 64)
    (hy : y % 2 ^ k = 0) (hle : x ≤ y) : maskDown (x + 2 ^ k - 1) (2 ^ k) ≤ y := by
  have hpos : 0 < 2 ^ k := Nat.two_pow_pos k
  rw [maskDown_two_pow hx hk]
  obtain ⟨q, rfl⟩ := Nat.dvd_of_mod_eq_zero hy
  rw [Nat.mul_comm (2 ^ k) q]
  apply Nat.mul_le_mul_right
  rw [← Nat.lt_succ_iff, Nat.div_lt_iff_lt_mul hpos, Nat.succ_mul, Nat.mul_comm q]
  omega

end Efiks.Lib
