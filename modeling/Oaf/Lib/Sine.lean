/-
# The sines of whole numbers

`exp i` is close to a complex number with a power of two as denominator, and its powers are close to the powers
of that one, which are computed with integers.  So the digits of the sine of a whole number of radians can be
checked by a computation.

* `norm_exp_I_sub_le`: how close `exp i` is.
* `norm_exp_pow_sub_le`: and its powers.
* `floor_sin_eq`: **the first 32 binary digits** of a sine.
-/
import Mathlib.Analysis.Complex.Basic
import Mathlib.Analysis.Complex.Trigonometric
import Mathlib.Data.Rat.Cast.Order
import Mathlib.Tactic.LinearCombination
import Mathlib.Tactic.NormNum.NatFactorial

namespace Sine

open Complex Finset

/-- The sums of the power series of the cosine and of the sine at 1. -/
def cosSum (n : ℕ) : ℚ := ∑ j ∈ range n, (-1) ^ j / (2 * j).factorial
def sinSum (n : ℕ) : ℚ := ∑ j ∈ range n, (-1) ^ j / (2 * j + 1).factorial

theorem sum_exp_I (n : ℕ) :
    ∑ m ∈ range (2 * n), (I ^ m / m.factorial : ℂ) = (cosSum n : ℂ) + (sinSum n : ℂ) * I := by
  induction n with
  | zero => simp [cosSum, sinSum]
  | succ n ih =>
    have heven : I ^ (2 * n) = (-1) ^ n := by rw [pow_mul, I_sq]
    have hodd : I ^ (2 * n + 1) = (-1) ^ n * I := by rw [pow_succ, heven]
    rw [Nat.mul_succ, sum_range_succ, sum_range_succ, ih, cosSum, cosSum, sinSum, sinSum, sum_range_succ,
      sum_range_succ, heven, hodd]
    push_cast
    ring

/-- The real and the imaginary part of `exp i`, times `2 ^ 64`. -/
def turnCos : ℤ := 9966818358784711826
def turnSin : ℤ := 15522399902203605025

theorem norm_exp_I_sub_le : ‖exp I - (turnCos + turnSin * I) / 2 ^ 64‖ ≤ 1 / 2 ^ 62 := by
  have hseries : ‖exp I - (cosSum 11 + sinSum 11 * I)‖ ≤ 1 / 2 ^ 64 := by
    have hbound := @exp_bound I (by simp) 22 (by decide)
    rw [sum_exp_I 11, norm_I] at hbound
    refine hbound.trans ?_
    norm_num [Nat.factorial]
  have hcos : |cosSum 11 - turnCos / 2 ^ 64| ≤ 1 / 2 ^ 64 := by decide +kernel
  have hsin : |sinSum 11 - turnSin / 2 ^ 64| ≤ 1 / 2 ^ 64 := by decide +kernel
  have hround : ‖(cosSum 11 + sinSum 11 * I) - (turnCos + turnSin * I) / 2 ^ 64‖ ≤ 2 / 2 ^ 64 := by
    have hparts : (cosSum 11 + sinSum 11 * I : ℂ) - (turnCos + turnSin * I) / 2 ^ 64 =
        ((cosSum 11 - turnCos / 2 ^ 64 : ℚ) : ℝ) + ((sinSum 11 - turnSin / 2 ^ 64 : ℚ) : ℝ) * I := by
      push_cast
      ring
    rw [hparts]
    refine (norm_le_abs_re_add_abs_im _).trans ?_
    have hcast {q : ℚ} (hq : |q| ≤ 1 / 2 ^ 64) : |(q : ℝ)| ≤ 1 / 2 ^ 64 := by
      obtain ⟨hlow, hhigh⟩ := abs_le.mp hq
      refine abs_le.mpr ⟨?_, ?_⟩
      · have := (Rat.cast_le (K := ℝ)).mpr hlow
        push_cast at this
        exact this
      · have := (Rat.cast_le (K := ℝ)).mpr hhigh
        push_cast at this
        exact this
    have hcos' := hcast hcos
    have hsin' := hcast hsin
    simp only [add_re, ofReal_re, mul_re, I_re, mul_zero, ofReal_im, I_im, sub_self, add_zero, add_im, mul_im,
      mul_one, zero_add]
    linarith
  calc ‖exp I - (turnCos + turnSin * I) / 2 ^ 64‖
      ≤ ‖exp I - (cosSum 11 + sinSum 11 * I)‖ + ‖(cosSum 11 + sinSum 11 * I) - (turnCos + turnSin * I) / 2 ^ 64‖ :=
        norm_sub_le_norm_sub_add_norm_sub ..
    _ ≤ 1 / 2 ^ 64 + 2 / 2 ^ 64 := add_le_add hseries hround
    _ ≤ 1 / 2 ^ 62 := by norm_num

/-- The powers of `turnCos + turnSin * i`. -/
def turnPow : ℕ → ℤ × ℤ
  | 0 => (1, 0)
  | k + 1 =>
    ((turnPow k).1 * turnCos - (turnPow k).2 * turnSin, (turnPow k).1 * turnSin + (turnPow k).2 * turnCos)

theorem turnPow_eq (k : ℕ) :
    ((turnPow k).1 + (turnPow k).2 * I : ℂ) / 2 ^ (64 * k) = ((turnCos + turnSin * I) / 2 ^ 64) ^ k := by
  have hpow : ((turnPow k).1 + (turnPow k).2 * I : ℂ) = (turnCos + turnSin * I) ^ k := by
    induction k with
    | zero => simp [turnPow]
    | succ k ih =>
      rw [pow_succ, ← ih, turnPow]
      push_cast
      linear_combination (-((turnPow k).2 : ℂ) * turnSin) * I_sq
  rw [hpow, div_pow, pow_mul]

/-- Powers of close numbers are close. -/
theorem norm_pow_sub_le {z w : ℂ} {ε : ℝ} (hz : ‖z‖ = 1) (hε : ‖z - w‖ ≤ ε) {n : ℕ} (hn : 2 * n * ε ≤ 1) :
    ∀ {k : ℕ}, k ≤ n → ‖z ^ k - w ^ k‖ ≤ 2 * k * ε
  | 0, _ => by simp
  | k + 1, hk => by
    have hε0 : 0 ≤ ε := (norm_nonneg _).trans hε
    have ih := norm_pow_sub_le hz hε hn (Nat.le_of_succ_le hk)
    have hsmall : 2 * k * ε ≤ 1 := by
      refine le_trans ?_ hn
      have : (k : ℝ) ≤ n := by exact_mod_cast Nat.le_of_succ_le hk
      gcongr
    have hw : ‖w ^ k‖ ≤ 2 := by
      have htri : ‖w ^ k‖ ≤ ‖z ^ k‖ + ‖z ^ k - w ^ k‖ := by
        rw [← norm_neg (z ^ k - w ^ k)]
        exact (congrArg norm (by ring : w ^ k = z ^ k + -(z ^ k - w ^ k))).le.trans (norm_add_le _ _)
      have hone : ‖z ^ k‖ = 1 := by rw [norm_pow, hz, one_pow]
      linarith
    have hsplit : z ^ (k + 1) - w ^ (k + 1) = z * (z ^ k - w ^ k) + (z - w) * w ^ k := by ring
    calc ‖z ^ (k + 1) - w ^ (k + 1)‖ ≤ ‖z‖ * ‖z ^ k - w ^ k‖ + ‖z - w‖ * ‖w ^ k‖ := by
          rw [hsplit, ← norm_mul, ← norm_mul]
          exact norm_add_le _ _
      _ ≤ 1 * (2 * k * ε) + ε * 2 := by
          rw [hz]
          gcongr
      _ = 2 * (k + 1 : ℕ) * ε := by push_cast; ring

theorem norm_exp_I : ‖exp I‖ = 1 := by
  have h := norm_exp_ofReal_mul_I 1
  rwa [ofReal_one, one_mul] at h

/-- The sine of `k` is close to the imaginary part of the power. -/
theorem abs_sin_sub_le {k : ℕ} (hk : k ≤ 64) :
    |Real.sin k - (turnPow k).2 / 2 ^ (64 * k)| ≤ 1 / 2 ^ 55 := by
  have hpow := norm_pow_sub_le norm_exp_I norm_exp_I_sub_le (n := 64) (by norm_num) hk
  have hexp : exp I ^ k = exp ((k : ℝ) * I) := by rw [← exp_nat_mul, ofReal_natCast]
  have hsin : (exp I ^ k).im = Real.sin k := by rw [hexp, exp_ofReal_mul_I_im]
  have him : (((turnPow k).1 + (turnPow k).2 * I : ℂ) / 2 ^ (64 * k)).im = (turnPow k).2 / 2 ^ (64 * k) := by
    have hden : (2 : ℂ) ^ (64 * k) = ((2 ^ (64 * k) : ℝ) : ℂ) := by push_cast; rfl
    rw [hden, div_ofReal_im]
    simp
  rw [← turnPow_eq] at hpow
  have h := (abs_im_le_norm _).trans hpow
  rw [sub_im, hsin, him] at h
  refine h.trans ?_
  have hk' : (k : ℝ) ≤ 64 := by exact_mod_cast hk
  linarith

/-- The integer in front of the point is `t`, by the power. -/
def checkDigits (k t : ℕ) : Bool :=
  t * 2 ^ (64 * k) + 2 ^ (64 * k - 23) ≤ 2 ^ 32 * (turnPow k).2.natAbs &&
    2 ^ 32 * (turnPow k).2.natAbs + 2 ^ (64 * k - 23) < (t + 1) * 2 ^ (64 * k)

/-- **The first 32 binary digits** of a sine. -/
theorem floor_sin_eq {k t : ℕ} (hpos : 0 < k) (hk : k ≤ 64) (h : checkDigits k t = true) :
    ⌊4294967296 * |Real.sin k|⌋₊ = t := by
  rw [checkDigits, Bool.and_eq_true, decide_eq_true_iff, decide_eq_true_iff] at h
  obtain ⟨hlow, hhigh⟩ := h
  have hclose : |(|Real.sin k| - (turnPow k).2.natAbs / 2 ^ (64 * k))| ≤ 1 / 2 ^ 55 := by
    refine le_trans ?_ (abs_sin_sub_le hk)
    have habs : |((turnPow k).2 : ℝ) / 2 ^ (64 * k)| = (turnPow k).2.natAbs / 2 ^ (64 * k) := by
      rw [abs_div, abs_of_pos (by positivity : (0 : ℝ) < 2 ^ (64 * k)), Nat.cast_natAbs, Int.cast_abs]
    rw [← habs]
    exact abs_abs_sub_abs_le _ _
  obtain ⟨hbelow, habove⟩ := abs_le.mp hclose
  have hsplit : (2 : ℝ) ^ (64 * k) = 2 ^ 23 * 2 ^ (64 * k - 23) := by
    rw [← pow_add]
    congr 1
    omega
  have hden : (0 : ℝ) < 2 ^ (64 * k - 23) := by positivity
  have hlow' : (t : ℝ) * 2 ^ (64 * k) + 2 ^ (64 * k - 23) ≤ 2 ^ 32 * (turnPow k).2.natAbs := by exact_mod_cast hlow
  have hhigh' : 2 ^ 32 * ((turnPow k).2.natAbs : ℝ) + 2 ^ (64 * k - 23) < (t + 1) * 2 ^ (64 * k) := by
    exact_mod_cast hhigh
  generalize ((turnPow k).2.natAbs : ℝ) = s at hbelow habove hlow' hhigh'
  generalize (2 : ℝ) ^ (64 * k - 23) = d at hsplit hden hlow' hhigh'
  rw [hsplit] at hbelow habove hlow' hhigh'
  have hs : 4294967296 * (s / (2 ^ 23 * d)) = 2 ^ 9 * (s / d) := by
    field_simp
    ring
  rw [Nat.floor_eq_iff (by positivity)]
  have hlow'' : t + 1 / 2 ^ 23 ≤ 2 ^ 9 * (s / d) := by
    rw [← mul_div_assoc, le_div_iff₀ hden]
    linarith
  have hhigh'' : 2 ^ 9 * (s / d) + 1 / 2 ^ 23 < t + 1 := by
    rw [← mul_div_assoc, ← lt_sub_iff_add_lt, div_lt_iff₀ hden]
    linarith
  constructor <;> linarith

end Sine
