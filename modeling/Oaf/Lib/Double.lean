/-
# Doubles

The numbers of a C `double`, 64 bits with round to nearest, ties to even.  A finite one is the rational it
stands for, so the two zeros are one here, and every operation is the exact one, rounded.

* `le_roundRat`, `roundRat_le`: rounding does not cross a number that is a double.
* `natCast_add`, `natCast_mul`, `natCast_sub`: up to 2 ^ 53, natural numbers are counted exactly.
* `two_pow_53_add_one`: behind it they are not.
* **`floor_div`**: up to 2 ^ 53, the floor of a rounded quotient is that of the quotient.
-/
import Mathlib.Algebra.Order.Floor.Div
import Mathlib.Data.Int.Log
import Mathlib.Data.Rat.Floor
import Mathlib.Tactic.Linarith
import Mathlib.Tactic.NormNum.Pow
import Mathlib.Tactic.Positivity

namespace Double

/-! ## 1. The nearest integer -/

/-- The nearest integer, of two the even one. -/
def roundEven (y : ℚ) : ℤ :=
  if y - ⌊y⌋ < 1 / 2 then ⌊y⌋
  else if 1 / 2 < y - ⌊y⌋ then ⌊y⌋ + 1
  else if ⌊y⌋ % 2 = 0 then ⌊y⌋
  else ⌊y⌋ + 1

theorem abs_roundEven_sub_le (y : ℚ) : |roundEven y - y| ≤ 1 / 2 := by
  have h0 := Int.floor_le y
  have h1 := Int.lt_floor_add_one y
  unfold roundEven
  split_ifs with ha hb hc <;> (rw [abs_le]; push_cast; constructor <;> linarith)

theorem le_roundEven {m : ℤ} {y : ℚ} (h : (m : ℚ) ≤ y) : m ≤ roundEven y := by
  have hfloor : m ≤ ⌊y⌋ := Int.le_floor.mpr h
  unfold roundEven
  split_ifs <;> omega

theorem roundEven_le {m : ℤ} {y : ℚ} (h : y ≤ m) : roundEven y ≤ m := by
  have hfloor : ⌊y⌋ ≤ m := Int.floor_le_iff.mpr (h.trans_lt (by linarith))
  rcases hfloor.lt_or_eq with hlt | heq
  · unfold roundEven
    split_ifs <;> omega
  · -- then `y` is `m` itself
    have hy : y = m := le_antisymm h (heq ▸ Int.floor_le y)
    rw [roundEven, heq, hy, sub_self, if_pos (by norm_num)]

theorem roundEven_intCast (m : ℤ) : roundEven m = m :=
  le_antisymm (roundEven_le le_rfl) (le_roundEven le_rfl)

/-! ## 2. The numbers that are doubles -/

/-- The finite doubles: 53 bits, from the smallest subnormal to the largest number. -/
def IsFloat (q : ℚ) : Prop := ∃ m e : ℤ, |m| < 2 ^ 53 ∧ -1074 ≤ e ∧ e ≤ 971 ∧ q = m * 2 ^ e

/-- The exponent of the last place of a number of this size. -/
def ulpExp (q : ℚ) : ℤ := max (Int.log 2 |q| - 52) (-1074)

/-- The number rounded to its last place. -/
def roundRat (q : ℚ) : ℚ := roundEven (q / 2 ^ ulpExp q) * 2 ^ ulpExp q

theorem isFloat_intCast {m : ℤ} (h : |m| < 2 ^ 53) : IsFloat m :=
  ⟨m, 0, h, by norm_num, by norm_num, by simp⟩

theorem isFloat_natCast {n : ℕ} (h : n ≤ 2 ^ 53) : IsFloat n := by
  rcases h.lt_or_eq with hlt | rfl
  · have hint : |(n : ℤ)| < 2 ^ 53 := by
      rw [abs_of_nonneg (by positivity)]
      exact_mod_cast hlt
    exact_mod_cast isFloat_intCast hint
  · exact ⟨1, 53, by norm_num, by norm_num, by norm_num, by norm_num⟩

theorem isFloat_half : IsFloat (1 / 2) := ⟨1, -1, by norm_num, by norm_num, by norm_num, by norm_num⟩

theorem IsFloat.neg {q : ℚ} (h : IsFloat q) : IsFloat (-q) := by
  obtain ⟨m, e, hm, he, he', rfl⟩ := h
  exact ⟨-m, e, by rwa [abs_neg], he, he', by push_cast; ring⟩

theorem IsFloat.abs_lt {q : ℚ} (h : IsFloat q) : |q| < 2 ^ 1024 := by
  obtain ⟨m, e, hm, -, he, rfl⟩ := h
  have hm' : |(m : ℚ)| < 2 ^ 53 := by exact_mod_cast hm
  have he' : (2 : ℚ) ^ e ≤ 2 ^ (971 : ℤ) := zpow_le_zpow_right₀ (by norm_num) he
  have hpos : (0 : ℚ) < 2 ^ e := zpow_pos (by norm_num) e
  rw [abs_mul, abs_of_pos hpos]
  calc |(m : ℚ)| * 2 ^ e < 2 ^ 53 * 2 ^ e := by gcongr
    _ ≤ 2 ^ 53 * 2 ^ (971 : ℤ) := by gcongr
    _ = 2 ^ 1024 := by rw [zpow_ofNat, ← pow_add]

/-- All 53 bits lie at or above the last place. -/
theorem abs_lt_ulp (q : ℚ) : |q| < 2 ^ (53 + ulpExp q) := by
  have hlog : Int.log 2 |q| + 1 ≤ 53 + ulpExp q := by
    have : Int.log 2 |q| - 52 ≤ ulpExp q := le_max_left ..
    omega
  have hlt : |q| < ((2 : ℕ) : ℚ) ^ (Int.log 2 |q| + 1) := Int.lt_zpow_succ_log_self (by norm_num) _
  exact hlt.trans_le (zpow_le_zpow_right₀ (by norm_num) hlog)

theorem ulp_pos (q : ℚ) : (0 : ℚ) < 2 ^ ulpExp q := zpow_pos (by norm_num) _

/-- Above the subnormal numbers the first of them is set. -/
theorem ulp_le_abs {q : ℚ} (h : -1074 < ulpExp q) (hq : q ≠ 0) : 2 ^ (52 + ulpExp q) ≤ |q| := by
  have hlog : ulpExp q = Int.log 2 |q| - 52 := by
    rcases max_choice (Int.log 2 |q| - 52) (-1074) with heq | heq
    · exact heq
    · rw [ulpExp, heq] at h
      omega
  have hle := Int.zpow_log_le_self (R := ℚ) (b := 2) (by norm_num) (abs_pos.mpr hq)
  rwa [show 52 + ulpExp q = Int.log 2 |q| by omega]

/-- A double is a multiple of every last place that is not above its own. -/
theorem IsFloat.div_zpow {q : ℚ} {m e u : ℤ} (hq : q = m * 2 ^ e) (hu : u ≤ e) :
    ∃ j : ℤ, q / 2 ^ u = j := by
  refine ⟨m * 2 ^ (e - u).toNat, ?_⟩
  have hsplit : (2 : ℚ) ^ e = 2 ^ (e - u).toNat * 2 ^ u := by
    rw [← zpow_natCast, ← zpow_add₀ (by norm_num)]
    congr 1
    omega
  rw [hq, hsplit, ← mul_assoc, mul_div_cancel_right₀ _ (zpow_ne_zero _ (by norm_num))]
  push_cast
  rfl

/-- A double with smaller places is smaller. -/
theorem IsFloat.lt_of_lt_ulp {k x : ℚ} {m e : ℤ} (hm : |m| < 2 ^ 53) (hk : k = m * 2 ^ e)
    (hu : e < ulpExp x) : |k| < 2 ^ (52 + ulpExp x) := by
  have hm' : |(m : ℚ)| < 2 ^ 53 := by exact_mod_cast hm
  have hpos : (0 : ℚ) < 2 ^ e := zpow_pos (by norm_num) e
  calc |k| = |(m : ℚ)| * 2 ^ e := by rw [hk, abs_mul, abs_of_pos hpos]
    _ < 2 ^ 53 * 2 ^ e := by gcongr
    _ = 2 ^ (53 + e) := by rw [zpow_add₀ (by norm_num), zpow_ofNat]
    _ ≤ 2 ^ (52 + ulpExp x) := zpow_le_zpow_right₀ (by norm_num) (by omega)

/-- Rounding does not go below a double. -/
theorem le_roundRat {k x : ℚ} (hk : IsFloat k) (hx : 0 < x) (h : k ≤ x) : k ≤ roundRat x := by
  obtain ⟨m, e, hm, he, -, hkeq⟩ := hk
  have hpos := ulp_pos x
  rcases le_or_gt (ulpExp x) e with hu | hu
  · obtain ⟨j, hj⟩ := IsFloat.div_zpow hkeq hu
    have hle : j ≤ roundEven (x / 2 ^ ulpExp x) := by
      apply le_roundEven
      rw [← hj]
      gcongr
    calc k = j * 2 ^ ulpExp x := by rw [← hj, div_mul_cancel₀ _ hpos.ne']
      _ ≤ roundRat x := mul_le_mul_of_nonneg_right (by exact_mod_cast hle) hpos.le
  · -- `x` is normal, and its first bit alone is above `k`
    have hfirst := ulp_le_abs (by omega) hx.ne'
    rw [abs_of_pos hx, zpow_add₀ (by norm_num)] at hfirst
    have hle : 2 ^ 52 ≤ roundEven (x / 2 ^ ulpExp x) := by
      apply le_roundEven
      rw [le_div_iff₀ hpos]
      exact_mod_cast hfirst
    calc k ≤ 2 ^ 52 * 2 ^ ulpExp x := by
          have := (le_abs_self k).trans_lt (IsFloat.lt_of_lt_ulp hm hkeq hu)
          rw [zpow_add₀ (by norm_num)] at this
          exact_mod_cast this.le
      _ ≤ roundRat x := mul_le_mul_of_nonneg_right (by exact_mod_cast hle) hpos.le

/-- Rounding does not go above a double. -/
theorem roundRat_le {k x : ℚ} (hk : IsFloat k) (hx : 0 < x) (h : x ≤ k) : roundRat x ≤ k := by
  obtain ⟨m, e, hm, he, -, hkeq⟩ := hk
  have hpos := ulp_pos x
  have hu : ulpExp x ≤ e := by
    by_contra hlt
    have hfirst := ulp_le_abs (by omega) hx.ne'
    rw [abs_of_pos hx] at hfirst
    have hlast := (le_abs_self k).trans_lt (IsFloat.lt_of_lt_ulp hm hkeq (not_le.mp hlt))
    exact absurd hlast (hfirst.trans h).not_gt
  obtain ⟨j, hj⟩ := IsFloat.div_zpow hkeq hu
  have hle : roundEven (x / 2 ^ ulpExp x) ≤ j := by
    apply roundEven_le
    rw [← hj]
    gcongr
  calc roundRat x ≤ j * 2 ^ ulpExp x :=
        mul_le_mul_of_nonneg_right (by exact_mod_cast hle) hpos.le
    _ = k := by rw [← hj, div_mul_cancel₀ _ hpos.ne']

/-- A double is not rounded. -/
theorem roundRat_of_isFloat {q : ℚ} (h : IsFloat q) : roundRat q = q := by
  obtain ⟨m, e, hm, he, -, hq⟩ := h
  rcases eq_or_ne q 0 with rfl | h0
  · simp [roundRat, roundEven]
  have hu : ulpExp q ≤ e := by
    by_contra hlt
    have hfirst := ulp_le_abs (by omega) h0
    exact absurd (IsFloat.lt_of_lt_ulp hm hq (not_le.mp hlt)) hfirst.not_gt
  obtain ⟨j, hj⟩ := IsFloat.div_zpow hq hu
  rw [roundRat, hj, roundEven_intCast, ← hj, div_mul_cancel₀ _ (ulp_pos q).ne']

/-- Rounding is off by half a last place at most. -/
theorem abs_roundRat_sub_le (x : ℚ) : |roundRat x - x| ≤ 2 ^ ulpExp x / 2 := by
  have hpos := ulp_pos x
  have hx : roundRat x - x =
      (roundEven (x / 2 ^ ulpExp x) - x / 2 ^ ulpExp x) * 2 ^ ulpExp x := by
    rw [sub_mul, div_mul_cancel₀ _ hpos.ne', roundRat]
  rw [hx, abs_mul, abs_of_pos hpos]
  calc |roundEven (x / 2 ^ ulpExp x) - x / 2 ^ ulpExp x| * 2 ^ ulpExp x
      ≤ 1 / 2 * 2 ^ ulpExp x := by
        have := abs_roundEven_sub_le (x / 2 ^ ulpExp x)
        gcongr
    _ = 2 ^ ulpExp x / 2 := by ring

/-- From one half on that is less than a part in 2 ^ 53. -/
theorem roundRat_lt_add {x : ℚ} (h : 1 / 2 ≤ x) : roundRat x < x + x / 2 ^ 53 := by
  have hx : 0 < x := by linarith
  have hpos := ulp_pos x
  have hlog : -1 ≤ Int.log 2 x := by
    rw [← Int.zpow_le_iff_le_log (by norm_num) hx]
    norm_num
    linarith
  have hu : -1074 < ulpExp x := by
    rw [ulpExp, abs_of_pos hx]
    exact lt_max_of_lt_left (by omega)
  have hfirst := ulp_le_abs hu hx.ne'
  rw [abs_of_pos hx, zpow_add₀ (by norm_num), zpow_ofNat] at hfirst
  rcases hfirst.lt_or_eq with hlt | heq
  · have herr := (abs_le.mp (abs_roundRat_sub_le x)).2
    have : 2 ^ ulpExp x / 2 < x / 2 ^ 53 := by
      rw [div_lt_div_iff₀ (by norm_num) (by norm_num)]
      linarith
    linarith
  · -- a power of two is not rounded
    have hdiv : x / 2 ^ ulpExp x = (2 ^ 52 : ℤ) := by
      rw [div_eq_iff hpos.ne']
      exact_mod_cast heq.symm
    have : roundRat x = x := by
      rw [roundRat, hdiv, roundEven_intCast, ← hdiv, div_mul_cancel₀ _ hpos.ne']
    rw [this]
    linarith [div_pos hx (by norm_num : (0 : ℚ) < 2 ^ 53)]

/-- Between a double up to 2 ^ 53 and a larger integer there is that much room. -/
theorem IsFloat.add_le {q : ℚ} {n : ℤ} (h : IsFloat q) (hle : q ≤ 2 ^ 53) (hn : q < n) :
    q + q / 2 ^ 53 ≤ n := by
  obtain ⟨m, e, hm, -, -, hq⟩ := h
  have hpos : (0 : ℚ) < 2 ^ min e 0 := zpow_pos (by norm_num) _
  have hplace : q / 2 ^ 53 ≤ 2 ^ min e 0 := by
    rw [div_le_iff₀ (by norm_num)]
    rcases le_total e 0 with he | he
    · rw [min_eq_left he, hq, mul_comm]
      have hm' : (m : ℚ) ≤ 2 ^ 53 := by exact_mod_cast ((le_abs_self m).trans_lt hm).le
      have : (0 : ℚ) < 2 ^ e := zpow_pos (by norm_num) e
      gcongr
    · rw [min_eq_right he, zpow_zero, one_mul]
      exact hle
  -- both are multiples of the last place
  obtain ⟨j, hj⟩ := IsFloat.div_zpow hq (min_le_left e 0)
  obtain ⟨k, hk⟩ := IsFloat.div_zpow (q := n) (m := n) (e := 0) (by simp) (min_le_right e 0)
  have hstep : j + 1 ≤ k := by
    have : (j : ℚ) < k := by
      rw [← hj, ← hk]
      gcongr
    exact_mod_cast this
  calc q + q / 2 ^ 53 ≤ q + 2 ^ min e 0 := by gcongr
    _ = (j + 1) * 2 ^ min e 0 := by rw [← hj, add_mul, div_mul_cancel₀ _ hpos.ne', one_mul]
    _ ≤ k * 2 ^ min e 0 := by
      have : (j : ℚ) + 1 ≤ k := by exact_mod_cast hstep
      gcongr
    _ = n := by rw [← hk, div_mul_cancel₀ _ hpos.ne']

/-- What rounding leaves has 53 bits, or 2 ^ 53 of the last place. -/
theorem abs_roundEven_le (q : ℚ) : |roundEven (q / 2 ^ ulpExp q)| ≤ 2 ^ 53 := by
  have hpos := ulp_pos q
  have hlt : |q / 2 ^ ulpExp q| < 2 ^ 53 := by
    rw [abs_div, abs_of_pos hpos, div_lt_iff₀ hpos]
    have := abs_lt_ulp q
    rwa [zpow_add₀ (by norm_num), zpow_ofNat] at this
  obtain ⟨h0, h1⟩ := abs_lt.mp hlt
  rw [abs_le]
  constructor
  · apply le_roundEven
    push_cast
    exact h0.le
  · apply roundEven_le
    push_cast
    exact h1.le

/-- Above the subnormal numbers it keeps its 53 bits. -/
theorem le_abs_roundEven {q : ℚ} (h : -1074 < ulpExp q) (hq : q ≠ 0) :
    2 ^ 52 ≤ |roundEven (q / 2 ^ ulpExp q)| := by
  have hpos := ulp_pos q
  have hle : 2 ^ 52 ≤ |q / 2 ^ ulpExp q| := by
    rw [abs_div, abs_of_pos hpos, le_div_iff₀ hpos]
    have := ulp_le_abs h hq
    rwa [zpow_add₀ (by norm_num), zpow_ofNat] at this
  rw [le_abs] at hle ⊢
  rcases hle with hle | hle
  · left
    apply le_roundEven
    exact_mod_cast hle
  · right
    have : roundEven (q / 2 ^ ulpExp q) ≤ -2 ^ 52 := by
      apply roundEven_le
      push_cast
      linarith
    omega

/-- A rounded number is a double, if it is not too large. -/
theorem isFloat_roundRat {q : ℚ} (h : |roundRat q| < 2 ^ 1024) : IsFloat (roundRat q) := by
  have hu : -1074 ≤ ulpExp q := le_max_right ..
  rcases eq_or_ne q 0 with rfl | hq
  · rw [roundRat_of_isFloat] <;> exact_mod_cast isFloat_natCast (n := 0) (by norm_num)
  have hsize : |(roundEven (q / 2 ^ ulpExp q) : ℚ)| * 2 ^ ulpExp q < 2 ^ (1024 : ℤ) := by
    rw [roundRat, abs_mul, abs_of_pos (ulp_pos q)] at h
    exact_mod_cast h
  -- the exponent of the first bit is below 1024
  have hexp {n : ℕ} (hn : 2 ^ n ≤ |roundEven (q / 2 ^ ulpExp q)|) : n + ulpExp q < 1024 := by
    rw [← zpow_lt_zpow_iff_right₀ (a := (2 : ℚ)) (by norm_num), zpow_add₀ (by norm_num), zpow_natCast]
    have hn' : (2 : ℚ) ^ n ≤ |(roundEven (q / 2 ^ ulpExp q) : ℚ)| := by exact_mod_cast hn
    exact (mul_le_mul_of_nonneg_right hn' (ulp_pos q).le).trans_lt hsize
  rcases (abs_roundEven_le q).lt_or_eq with hlt | heq
  · refine ⟨_, ulpExp q, hlt, hu, ?_, rfl⟩
    by_contra hbig
    have := hexp (le_abs_roundEven (by omega) hq)
    omega
  · -- the 54th bit alone is set
    have hlast := hexp heq.ge
    have htwo : (2 : ℚ) ^ ulpExp q * 2 = 2 ^ (ulpExp q + 1) := by
      rw [zpow_add_one₀ (by norm_num)]
    rcases eq_or_eq_neg_of_abs_eq heq with hM | hM
    · refine ⟨2 ^ 52, ulpExp q + 1, by norm_num, by omega, by omega, ?_⟩
      rw [roundRat, hM, ← htwo]
      push_cast
      ring
    · refine ⟨-2 ^ 52, ulpExp q + 1, by norm_num, by omega, by omega, ?_⟩
      rw [roundRat, hM, ← htwo]
      push_cast
      ring

end Double

/-! ## 3. Doubles -/

/-- A double: no number, an infinity, or a finite number. -/
inductive Double where
  | nan
  | inf (neg : Bool)
  | num (q : ℚ) (h : Double.IsFloat q)
deriving DecidableEq

namespace Double

/-- The double nearest to a number. -/
def round (q : ℚ) : Double :=
  if h : |roundRat q| < 2 ^ 1024 then .num (roundRat q) (isFloat_roundRat h) else .inf (q < 0)

instance : NatCast Double := ⟨fun n => round n⟩
instance : Zero Double := ⟨(0 : ℕ)⟩
instance : One Double := ⟨(1 : ℕ)⟩

def neg : Double → Double
  | nan => nan
  | inf s => inf !s
  | num q h => num (-q) h.neg

def add : Double → Double → Double
  | num p _, num q _ => round (p + q)
  | inf s, num _ _ => inf s
  | num _ _, inf s => inf s
  | inf s, inf t => if s = t then inf s else nan
  | _, _ => nan

def sub (x y : Double) : Double := add x (neg y)

/-- The sign of a number, for a product with an infinity. -/
def timesInf (q : ℚ) (s : Bool) : Double :=
  if q = 0 then nan else inf (xor s (q < 0))

def mul : Double → Double → Double
  | num p _, num q _ => round (p * q)
  | inf s, num q _ => timesInf q s
  | num q _, inf s => timesInf q s
  | inf s, inf t => inf (xor s t)
  | _, _ => nan

/-- A quotient by zero has the sign of its numerator. -/
def div : Double → Double → Double
  | num p _, num q _ =>
    if q = 0 then (if p = 0 then nan else inf (p < 0)) else round (p / q)
  | inf s, num q _ => inf (xor s (q < 0))
  | num _ _, inf _ => 0
  | _, _ => nan

/-- `floor`. -/
def floor : Double → Double
  | num q _ => round ⌊q⌋
  | x => x

/-- `<`. -/
def lt : Double → Double → Bool
  | num p _, num q _ => p < q
  | inf s, num _ _ => s
  | num _ _, inf s => !s
  | inf s, inf t => s && !t
  | _, _ => false

/-- `<=`. -/
def le : Double → Double → Bool
  | num p _, num q _ => p ≤ q
  | inf s, num _ _ => s
  | num _ _, inf s => !s
  | inf s, inf t => s || !t
  | _, _ => false

instance : Add Double := ⟨add⟩
instance : Sub Double := ⟨sub⟩
instance : Mul Double := ⟨mul⟩
instance : Div Double := ⟨div⟩
instance : LT Double := ⟨fun x y => lt x y = true⟩
instance : LE Double := ⟨fun x y => le x y = true⟩
instance : DecidableRel (α := Double) (· < ·) := fun x y => inferInstanceAs (Decidable (lt x y = true))
instance : DecidableRel (α := Double) (· ≤ ·) := fun x y => inferInstanceAs (Decidable (le x y = true))

theorem round_of_isFloat {q : ℚ} (h : IsFloat q) : round q = num q h := by
  have heq := roundRat_of_isFloat h
  have hlt : |roundRat q| < 2 ^ 1024 := by
    rw [heq]
    exact h.abs_lt
  rw [round, dif_pos hlt]
  congr 1

/-! ## 4. Natural numbers up to 2 ^ 53 -/

section Counting

variable {m n : ℕ}

theorem natCast_eq (h : n ≤ 2 ^ 53) : (n : Double) = num n (isFloat_natCast h) :=
  round_of_isFloat _

theorem natCast_inj (hm : m ≤ 2 ^ 53) (hn : n ≤ 2 ^ 53) : (m : Double) = n ↔ m = n := by
  rw [natCast_eq hm, natCast_eq hn, num.injEq, Nat.cast_inj]

theorem natCast_lt (hm : m ≤ 2 ^ 53) (hn : n ≤ 2 ^ 53) : (m : Double) < n ↔ m < n := by
  rw [natCast_eq hm, natCast_eq hn]
  change decide ((m : ℚ) < n) = true ↔ _
  rw [decide_eq_true_iff, Nat.cast_lt]

theorem natCast_le (hm : m ≤ 2 ^ 53) (hn : n ≤ 2 ^ 53) : (m : Double) ≤ n ↔ m ≤ n := by
  rw [natCast_eq hm, natCast_eq hn]
  change decide ((m : ℚ) ≤ n) = true ↔ _
  rw [decide_eq_true_iff, Nat.cast_le]

theorem natCast_add (hm : m ≤ 2 ^ 53) (hn : n ≤ 2 ^ 53) : (m : Double) + n = (m + n : ℕ) := by
  rw [natCast_eq hm, natCast_eq hn]
  change round (m + n) = round (m + n : ℕ)
  rw [Nat.cast_add]

theorem natCast_le_zero (hn : n ≤ 2 ^ 53) : (n : Double) ≤ 0 ↔ n = 0 :=
  (natCast_le hn (Nat.zero_le _)).trans Nat.le_zero

theorem natCast_add_one (hn : n ≤ 2 ^ 53) : (n : Double) + 1 = (n + 1 : ℕ) :=
  natCast_add hn (by norm_num : 1 ≤ 2 ^ 53)

theorem natCast_mul (hm : m ≤ 2 ^ 53) (hn : n ≤ 2 ^ 53) : (m : Double) * n = (m * n : ℕ) := by
  rw [natCast_eq hm, natCast_eq hn]
  change round (m * n) = round (m * n : ℕ)
  rw [Nat.cast_mul]

theorem natCast_sub (h : n ≤ m) (hm : m ≤ 2 ^ 53) : (m : Double) - n = (m - n : ℕ) := by
  rw [natCast_eq hm, natCast_eq (h.trans hm)]
  change round (m + -n) = round (m - n : ℕ)
  rw [Nat.cast_sub h, sub_eq_add_neg]

/-- What is positive. -/
theorem pos_iff {x : Double} : 0 < x ↔ x = inf false ∨ ∃ q h, x = num q h ∧ 0 < q := by
  have hzero : (0 : Double) = num (0 : ℕ) (isFloat_natCast (Nat.zero_le _)) := natCast_eq (Nat.zero_le _)
  rw [hzero]
  cases x with
  | nan => exact ⟨fun h => Bool.noConfusion h, by simp⟩
  | inf s =>
    change (!s) = true ↔ _
    simp
  | num q h =>
    change decide (((0 : ℕ) : ℚ) < q) = true ↔ _
    simp [h]

/-- A natural number that is not exact is still not below one that is. -/
theorem not_natCast_lt (h : m ≤ n) (hm : m ≤ 2 ^ 53) : ¬ (n : Double) < m := by
  rw [natCast_eq hm]
  change lt (round n) _ ≠ true
  rw [round]
  split
  · change decide (roundRat n < m) ≠ true
    rcases Nat.eq_zero_or_pos n with rfl | hn
    · simp [Nat.le_zero.mp h, roundRat, roundEven]
    · have := le_roundRat (isFloat_natCast hm) (x := n) (by exact_mod_cast hn) (by exact_mod_cast h)
      simpa using this
  · change decide ((n : ℚ) < 0) ≠ true
    simp

/-- The first natural number that is no double. -/
theorem two_pow_53_add_one : ((2 ^ 53 + 1 : ℕ) : Double) = (2 ^ 53 : ℕ) := by
  have hulp : ulpExp (2 ^ 53 + 1 : ℕ) = 1 := by
    rw [ulpExp, Nat.abs_cast, Int.log_natCast,
      Nat.log_eq_of_pow_le_of_lt_pow (m := 53) (by norm_num) (by norm_num)]
    norm_num
  have heven : roundEven ((2 ^ 53 + 1 : ℕ) / 2 ^ (1 : ℤ)) = 2 ^ 52 := by
    have : ⌊((2 ^ 53 + 1 : ℕ) / 2 ^ (1 : ℤ) : ℚ)⌋ = 2 ^ 52 := by
      rw [Int.floor_eq_iff]
      norm_num
    rw [roundEven, this]
    norm_num
  have hround : roundRat (2 ^ 53 + 1 : ℕ) = (2 ^ 53 : ℕ) := by
    rw [roundRat, hulp, heven]
    norm_num
  have hlt : |roundRat (2 ^ 53 + 1 : ℕ)| < 2 ^ 1024 := by
    rw [hround]
    exact (isFloat_natCast le_rfl).abs_lt
  rw [natCast_eq le_rfl]
  change round _ = _
  rw [round, dif_pos hlt, num.injEq, hround]

end Counting

/-- A rounded quotient stays below the integer behind the quotient. -/
theorem roundRat_div_lt {q : ℚ} {d n : ℕ} (hq : IsFloat q) (h0 : 0 < q) (hle : q ≤ 2 ^ 53) (hd : 0 < d)
    (h : q < d * n) : roundRat (q / d) < n := by
  have hdpos : (0 : ℚ) < d := by exact_mod_cast hd
  rcases le_total (1 / 2) (q / d) with hx | hx
  · have hgap : q + q / 2 ^ 53 ≤ (d * n : ℕ) := by
      have := IsFloat.add_le (n := (d * n : ℕ)) hq hle (by exact_mod_cast h)
      exact_mod_cast this
    calc roundRat (q / d) < q / d + q / d / 2 ^ 53 := roundRat_lt_add hx
      _ = (q + q / 2 ^ 53) / d := by ring
      _ ≤ n := by
        rw [div_le_iff₀ hdpos, mul_comm]
        exact_mod_cast hgap
  · have hn : (1 : ℚ) ≤ n := by
      have : n ≠ 0 := by
        rintro rfl
        rw [Nat.cast_zero, mul_zero] at h
        exact absurd h h0.not_gt
      exact_mod_cast Nat.one_le_iff_ne_zero.mpr this
    have := roundRat_le isFloat_half (div_pos h0 hdpos) hx
    linarith

/-- **Up to 2 ^ 53 the floor of a rounded quotient is that of the quotient.** -/
theorem floor_div {q : ℚ} {d : ℕ} (hq : IsFloat q) (h0 : 0 < q) (hle : q ≤ 2 ^ 53) (hd : 0 < d)
    (hd' : d ≤ 2 ^ 53) : floor (num q hq / (d : Double)) = (⌊q⌋₊ / d : ℕ) := by
  have hdpos : (0 : ℚ) < d := by exact_mod_cast hd
  have hfloor : ⌊q⌋₊ ≤ 2 ^ 53 := by exact_mod_cast (Nat.floor_le h0.le).trans hle
  have hk : ⌊q⌋₊ / d ≤ 2 ^ 53 := (Nat.div_le_self ..).trans hfloor
  have hlow : ((⌊q⌋₊ / d : ℕ) : ℚ) ≤ roundRat (q / d) := by
    refine le_roundRat (isFloat_natCast hk) (div_pos h0 hdpos) ?_
    rw [le_div_iff₀ hdpos]
    calc ((⌊q⌋₊ / d : ℕ) : ℚ) * d = (⌊q⌋₊ / d * d : ℕ) := by push_cast; rfl
      _ ≤ ⌊q⌋₊ := by exact_mod_cast Nat.div_mul_le_self ..
      _ ≤ q := Nat.floor_le h0.le
  have hhigh : roundRat (q / d) < (⌊q⌋₊ / d + 1 : ℕ) := by
    refine roundRat_div_lt hq h0 hle hd ?_
    calc q < (⌊q⌋₊ + 1 : ℕ) := by exact_mod_cast Nat.lt_floor_add_one q
      _ ≤ (d * (⌊q⌋₊ / d + 1) : ℕ) := by
        exact_mod_cast Nat.lt_mul_div_succ ⌊q⌋₊ hd
      _ = d * (⌊q⌋₊ / d + 1 : ℕ) := by push_cast; rfl
  have hsize : |roundRat (q / d)| < 2 ^ 1024 := by
    rw [abs_of_nonneg ((Nat.cast_nonneg _).trans hlow)]
    calc roundRat (q / d) < (⌊q⌋₊ / d + 1 : ℕ) := hhigh
      _ ≤ (2 ^ 53 + 1 : ℕ) := by exact_mod_cast Nat.succ_le_succ hk
      _ ≤ 2 ^ 54 := by norm_num
      _ < 2 ^ 1024 := pow_lt_pow_right₀ (by norm_num) (by norm_num)
  rw [natCast_eq hd']
  change floor (div _ _) = _
  rw [div, if_neg hdpos.ne', round, dif_pos hsize]
  change round _ = round _
  congr 1
  have : ⌊roundRat (q / d)⌋ = (⌊q⌋₊ / d : ℕ) := by
    rw [Int.floor_eq_iff]
    exact ⟨by exact_mod_cast hlow, by exact_mod_cast hhigh⟩
  rw [this]
  rfl

theorem natCast_floor_div {n d : ℕ} (hn : 0 < n) (hn' : n ≤ 2 ^ 53) (hd : 0 < d) (hd' : d ≤ 2 ^ 53) :
    floor ((n : Double) / (d : Double)) = (n / d : ℕ) := by
  rw [natCast_eq hn', floor_div _ (by exact_mod_cast hn) (by exact_mod_cast hn') hd hd', Nat.floor_natCast]

end Double
