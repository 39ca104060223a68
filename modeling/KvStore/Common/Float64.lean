import Mathlib

/-!
# Integers as `float64`

The conversion of a natural number to `float64`: the nearest number with a significand of 53 bits,
and of two that are equally near the one with the even significand. The product of two such numbers
is rounded in the same way.

* `float64_le`: the relative error is at most `2^-53`.
-/

namespace KvStore.Common

/-- The nearest multiple of `2^k`; the even one, if there are two. -/
def roundEven (k n : ℕ) : ℕ :=
  if 2 * (n % 2 ^ k) < 2 ^ k ∨ 2 * (n % 2 ^ k) = 2 ^ k ∧ n / 2 ^ k % 2 = 0 then n / 2 ^ k * 2 ^ k
  else (n / 2 ^ k + 1) * 2 ^ k

/-- `n` rounded to a significand of 53 bits. -/
def float64 (n : ℕ) : ℕ := if n < 2 ^ 53 then n else roundEven (n.log2 - 52) n

theorem two_mul_roundEven_le (k n : ℕ) : 2 * roundEven k n ≤ 2 * n + 2 ^ k := by
  have hdiv := Nat.div_add_mod' n (2 ^ k)
  unfold roundEven
  split_ifs with hdown
  · omega
  · rw [Nat.add_mul, one_mul]
    omega

theorem float64_le (n : ℕ) : 2 ^ 53 * float64 n ≤ (2 ^ 53 + 1) * n := by
  unfold float64
  split_ifs with hsmall
  · exact Nat.mul_le_mul_right n (Nat.le_succ _)
  · have hpos : n ≠ 0 := by rintro rfl; exact hsmall (by norm_num)
    have hlog : 53 ≤ n.log2 := (Nat.le_log2 hpos).mpr (not_lt.mp hsmall)
    have hulp : 2 ^ 52 * 2 ^ (n.log2 - 52) ≤ n := by
      rw [← pow_add, Nat.add_sub_cancel' (by omega)]
      exact Nat.log2_self_le hpos
    have hround := two_mul_roundEven_le (n.log2 - 52) n
    omega

end KvStore.Common
