/-
# Cyclic redundancy checks

A bit-serial CRC register over `BitVec w`, low bit first.  One bit is linear and, when the polynomial
has its top bit, injective; so the difference of two registers is a register of the differences,
and what is not zero stays so.

* `feed_short`: up to `w` bits go into the register as one word.
* `feed_ne_of_burst`: **every error burst no longer than the register is seen**, whatever comes before
  and behind it.
-/
import Mathlib.Data.BitVec
import Mathlib.Logic.Function.Iterate

namespace Crc

variable {w : Nat} (poly : BitVec w)

/-! ## 1. One bit -/

/-- The register, one bit later. -/
def step (c : BitVec w) : BitVec w := (c >>> 1) ^^^ (if c.getLsbD 0 then poly else 0#w)

theorem step_xor (a b : BitVec w) : step poly (a ^^^ b) = step poly a ^^^ step poly b := by
  unfold step
  rw [BitVec.ushiftRight_xor_distrib, BitVec.getLsbD_xor]
  cases a.getLsbD 0 <;> cases b.getLsbD 0 <;> simp [BitVec.xor_assoc, BitVec.xor_comm poly]

/-- The top bit of the next register is the low bit of this one. -/
theorem step_eq_zero (hpoly : poly.msb = true) {c : BitVec w} (h : step poly c = 0#w) : c = 0#w := by
  have hw : 0 < w := by
    rcases Nat.eq_zero_or_pos w with rfl | hw
    · simp [BitVec.of_length_zero] at hpoly
    · exact hw
  have hbit : ∀ i, (c >>> 1).getLsbD i = (if c.getLsbD 0 then poly else 0#w).getLsbD i := by
    intro i
    rw [BitVec.xor_eq_zero_iff.mp h]
  have htop : c.getLsbD 0 = false := by
    by_contra hlow
    have hlast := hbit (w - 1)
    rw [if_pos (by simpa using hlow), BitVec.getLsbD_ushiftRight,
      BitVec.getLsbD_of_ge c (1 + (w - 1)) (by omega)] at hlast
    rw [BitVec.msb_eq_getLsbD_last, ← hlast] at hpoly
    cases hpoly
  refine BitVec.eq_of_getLsbD_eq (fun i hi => ?_)
  rcases i with _ | i
  · simpa using htop
  · have hnext := hbit i
    rw [BitVec.getLsbD_ushiftRight, htop, if_neg (by decide), Nat.add_comm 1 i] at hnext
    simpa using hnext

/-! ## 2. Several bits -/

theorem steps_xor (n : Nat) (a b : BitVec w) :
    (step poly)^[n] (a ^^^ b) = (step poly)^[n] a ^^^ (step poly)^[n] b := by
  induction n generalizing a b with
  | zero => rfl
  | succ n ih => simp only [Function.iterate_succ_apply, step_xor, ih]

theorem steps_injective (hpoly : poly.msb = true) (n : Nat) :
    Function.Injective (step poly)^[n] := by
  refine Function.Injective.iterate (fun a b hab => ?_) n
  have hzero : step poly (a ^^^ b) = 0#w := by
    rw [step_xor, hab, BitVec.xor_self]
  exact BitVec.xor_eq_zero_iff.mp (step_eq_zero poly hpoly hzero)

/-- Bits above the low `n` only move down. -/
theorem steps_shiftLeft : ∀ (n : Nat) (x : BitVec w), (∀ i, w - n ≤ i → x.getLsbD i = false) →
    (step poly)^[n] (x <<< n) = x
  | 0, x, _ => by simp
  | n + 1, x, h => by
    have hlow : (x <<< (n + 1)).getLsbD 0 = false := by simp
    have hdown : (x <<< (n + 1)) >>> 1 = x <<< n := by
      refine BitVec.eq_of_getLsbD_eq (fun i hi => ?_)
      rw [BitVec.getLsbD_ushiftRight, BitVec.getLsbD_shiftLeft, BitVec.getLsbD_shiftLeft]
      by_cases hn : i < n
      · simp [hn, show 1 + i < n + 1 by omega]
      · by_cases hlast : 1 + i < w
        · simp [hn, hlast, hi, show ¬ 1 + i < n + 1 by omega, show 1 + i - (n + 1) = i - n by omega]
        · have hx : x.getLsbD (i - n) = false := h (i - n) (by omega)
          simp [hn, hlast, hx]
    rw [Function.iterate_succ_apply, step, hlow, if_neg (by decide), BitVec.xor_zero, hdown]
    exact steps_shiftLeft n x (fun i hi => h i (by omega))

/-! ## 3. Bytes -/

/-- The register after some bytes: each goes into the low end, then eight bits. -/
def feed (c : BitVec w) (bytes : List (BitVec 8)) : BitVec w :=
  bytes.foldl (fun c b => (step poly)^[8] (c ^^^ b.setWidth w)) c

theorem feed_append (c : BitVec w) (a b : List (BitVec 8)) :
    feed poly c (a ++ b) = feed poly (feed poly c a) b :=
  List.foldl_append

/-- The same bytes keep two registers apart. -/
theorem feed_injective (hpoly : poly.msb = true) : ∀ (bytes : List (BitVec 8)) {c c' : BitVec w},
    feed poly c bytes = feed poly c' bytes → c = c'
  | [], _, _, h => h
  | b :: bytes, c, c', h => by
    have hxor := steps_injective poly hpoly 8 (feed_injective hpoly bytes h)
    exact (BitVec.xor_left_inj (b.setWidth w)).mp hxor

/-- Some bytes as one word, the first one low. -/
def word (w : Nat) : List (BitVec 8) → BitVec w
  | [] => 0#w
  | b :: bytes => b.setWidth w ^^^ (word w bytes <<< 8)

theorem word_high : ∀ (bytes : List (BitVec 8)) (i : Nat), 8 * bytes.length ≤ i →
    (word w bytes).getLsbD i = false
  | [], i, _ => by simp [word]
  | b :: bytes, i, h => by
    rw [List.length_cons] at h
    have htail := word_high bytes (i - 8) (by omega)
    have hb : b.getLsbD i = false := BitVec.getLsbD_of_ge b i (by omega)
    simp [word, htail, hb]

/-- **Up to `w` bits go into the register as one word.** -/
theorem feed_short : ∀ (bytes : List (BitVec 8)) (c : BitVec w), 8 * bytes.length ≤ w →
    feed poly c bytes = (step poly)^[8 * bytes.length] (c ^^^ word w bytes)
  | [], c, _ => by simp [feed, word]
  | b :: bytes, c, h => by
    rw [List.length_cons] at h
    have hmoved : (step poly)^[8] (word w bytes <<< 8) = word w bytes :=
      steps_shiftLeft poly 8 _ (fun i hi => word_high bytes i (by omega))
    calc feed poly c (b :: bytes)
        = feed poly ((step poly)^[8] (c ^^^ b.setWidth w)) bytes := rfl
      _ = (step poly)^[8 * bytes.length] ((step poly)^[8] (c ^^^ b.setWidth w) ^^^ word w bytes) :=
          feed_short bytes _ (by omega)
      _ = (step poly)^[8 * bytes.length]
            ((step poly)^[8] (c ^^^ b.setWidth w ^^^ (word w bytes <<< 8))) := by
          rw [steps_xor poly 8 (c ^^^ b.setWidth w) (word w bytes <<< 8), hmoved]
      _ = (step poly)^[8 * (b :: bytes).length] (c ^^^ word w (b :: bytes)) := by
          rw [← Function.iterate_add_apply, List.length_cons, Nat.mul_succ, word, BitVec.xor_assoc]

theorem word_injective : ∀ {a b : List (BitVec 8)}, a.length = b.length → 8 * a.length ≤ w →
    word w a = word w b → a = b
  | [], [], _, _, _ => rfl
  | x :: a, y :: b, hlen, hw, h => by
    simp only [List.length_cons] at hlen hw
    have hbit : ∀ i, (word w (x :: a)).getLsbD i = (word w (y :: b)).getLsbD i := by
      intro i
      rw [h]
    have hhead : x = y := by
      refine BitVec.eq_of_getLsbD_eq (fun i hi => ?_)
      have hx := hbit i
      simpa [word, hi, show i < w by omega] using hx
    have htail : word w a = word w b := by
      refine BitVec.eq_of_getLsbD_eq (fun i hi => ?_)
      by_cases hshort : i < 8 * a.length
      · have hx := hbit (i + 8)
        have hxb : x.getLsbD (i + 8) = false := BitVec.getLsbD_of_ge x _ (by omega)
        have hyb : y.getLsbD (i + 8) = false := BitVec.getLsbD_of_ge y _ (by omega)
        have hi8 : i + 8 < w := by omega
        have hlow : ¬ i + 8 < 8 := by omega
        simpa [word, hxb, hyb, hi8, hlow, -BitVec.getLsbD_eq_getElem] using hx
      · rw [word_high a i (by omega), word_high b i (by omega)]
    rw [hhead, word_injective (by omega) (by omega) htail]

/-- **Every burst no longer than the register is seen.** -/
theorem feed_ne_of_burst (hpoly : poly.msb = true) (c : BitVec w) (front back : List (BitVec 8))
    {a b : List (BitVec 8)} (hlen : a.length = b.length) (hw : 8 * a.length ≤ w) (hne : a ≠ b) :
    feed poly c (front ++ a ++ back) ≠ feed poly c (front ++ b ++ back) := by
  intro h
  rw [feed_append, feed_append, feed_append, feed_append] at h
  have hmid := feed_injective poly hpoly back h
  rw [feed_short poly a _ hw, feed_short poly b _ (hlen ▸ hw), hlen] at hmid
  have hxor := steps_injective poly hpoly _ hmid
  exact hne (word_injective hlen hw ((BitVec.xor_right_inj _).mp hxor))

end Crc
