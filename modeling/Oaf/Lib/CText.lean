/-
# Texts a program prints and reads back

The few functions of the C library that a line-based text format rests on: `%d` and `%02x` on the
way out; `strtol`, `strchr`, `strstr` and the trimming of white space on the way in.  A text is
the list of its bytes.

* `strtol10_printInt`: a printed number is read back, up to a byte that is no digit.
* `Kernel.scanD_printInt`, `Kernel.scanX_printHex2`: `vsscanf` reads the same.
* `hexByte_printHex2`: so is a printed byte.
* `strchrSplit_append`, `splitExact_append`: a field without the delimiter comes back whole.
* `snprintfList_eq`: a list printed piece by piece, as long as it fits.
-/
import Oaf.Lib.KScan
import Mathlib.Data.Nat.Digits.Lemmas

namespace CLib

/-! ## 1. Printing numbers -/

/-- A digit of a number to a base up to 16. -/
def digitByte (d : Nat) : UInt8 := (if d < 10 then 48 + d else 87 + d).toUInt8

/-- `%u`. -/
def printNat (n : Nat) : List UInt8 :=
  if n = 0 then [48] else ((Nat.digits 10 n).map digitByte).reverse

/-- `%d`. -/
def printInt (i : Int) : List UInt8 :=
  if i < 0 then 45 :: printNat i.natAbs else printNat i.natAbs

/-- `%02x` of a byte. -/
def printHex2 (v : UInt8) : List UInt8 := [digitByte (v.toNat / 16), digitByte (v.toNat % 16)]

theorem isdigit_digitByte {d : Nat} (h : d < 10) : isdigit (digitByte d) = true := by
  revert h
  revert d
  decide

theorem digitVal_digitByte {d : Nat} (h : d < 16) : Kernel.digitVal (digitByte d) = d := by
  revert h
  revert d
  decide

theorem isxdigit_digitByte {d : Nat} (h : d < 16) : isxdigit (digitByte d) = true := by
  revert h
  revert d
  decide

/-- A printed number is digits. -/
theorem isdigit_of_mem_printNat {n : Nat} {c : UInt8} (h : c ∈ printNat n) : isdigit c = true := by
  unfold printNat at h
  split at h
  · rw [List.mem_singleton.mp h]
    rfl
  · obtain ⟨d, hd, rfl⟩ := List.mem_map.mp (List.mem_reverse.mp h)
    exact isdigit_digitByte (Nat.digits_lt_base (by decide) hd)

theorem printNat_ne_nil (n : Nat) : printNat n ≠ [] := by
  unfold printNat
  split
  · simp
  · rename_i h
    simpa using Nat.digits_ne_nil_iff_ne_zero.mpr h

/-- What the digits spell. -/
theorem ofDigits_printNat (n : Nat) : Kernel.ofDigits 10 (printNat n) = n := by
  unfold printNat
  split
  · rename_i h
    rw [h]
    rfl
  · have hval : ∀ l : List Nat, (∀ d ∈ l, d < 10) →
        Kernel.ofDigits 10 (l.map digitByte).reverse = Nat.ofDigits 10 l := by
      intro l hl
      rw [Kernel.ofDigits, List.foldl_reverse, List.foldr_map, Nat.ofDigits_eq_foldr]
      induction l with
      | nil => rfl
      | cons d l ih =>
        have hd : Kernel.digitVal (digitByte d) = d :=
          digitVal_digitByte ((hl d (List.mem_cons_self ..)).trans (by decide))
        have ih := ih (fun x hx => hl x (List.mem_cons_of_mem _ hx))
        simp only [List.foldr_cons, ih, hd, Nat.cast_id]
        omega
    rw [hval _ (fun d hd => Nat.digits_lt_base (by decide) hd), Nat.ofDigits_digits]

theorem printNat_length_le {n k : Nat} (hk : 0 < k) (h : n < 10 ^ k) : (printNat n).length ≤ k := by
  unfold printNat
  split
  · exact hk
  · simpa using (Nat.digits_length_le_iff (by decide) n).mpr h

/-- A printed integer is digits behind a sign. -/
theorem mem_printInt {i : Int} {c : UInt8} (h : c ∈ printInt i) : isdigit c = true ∨ c = 45 := by
  unfold printInt at h
  split at h
  · rcases List.mem_cons.mp h with h | h
    · exact Or.inr h
    · exact Or.inl (isdigit_of_mem_printNat h)
  · exact Or.inl (isdigit_of_mem_printNat h)

theorem not_mem_printInt {i : Int} {c : UInt8} (h1 : isdigit c = false) (h2 : c ≠ 45) :
    c ∉ printInt i := by
  intro h
  rcases mem_printInt h with h | h
  · simp [h1] at h
  · exact h2 h

theorem printInt_ne_nil (i : Int) : printInt i ≠ [] := by
  unfold printInt
  split
  · simp
  · exact printNat_ne_nil _

theorem printInt_length_le {i : Int} {k : Nat} (hk : 0 < k) (h : i.natAbs < 10 ^ k) :
    (printInt i).length ≤ k + 1 := by
  have := printNat_length_le hk h
  unfold printInt
  split
  · simpa using this
  · omega

theorem printInt_of_nonneg {i : Int} (h : 0 ≤ i) : printInt i = printNat i.toNat := by
  rw [printInt, if_neg (by omega)]
  congr 1
  omega

/-! ## 2. Reading numbers -/

/-- What `strtol` answers: the value, where it stopped (`endptr`) and whether it set `ERANGE`. -/
structure Strtol where
  value : Int
  rest : List UInt8
  erange : Bool
deriving DecidableEq

/-- The sign in front of a number. -/
def takeSign : List UInt8 → Bool × List UInt8
  | 45 :: rest => (true, rest)
  | 43 :: rest => (false, rest)
  | l => (false, l)

/-- `strtol(s, &end, 10)` with a 64-bit `long`.  Without a digit nothing is read. -/
def strtol10 (l : List UInt8) : Strtol :=
  let (neg, t) := takeSign (l.dropWhile isspace)
  let digits := t.takeWhile isdigit
  let v : Int := if neg then -(Kernel.ofDigits 10 digits : Int) else Kernel.ofDigits 10 digits
  if digits = [] then ⟨0, l, false⟩
  else if v < -2 ^ 63 then ⟨-2 ^ 63, t.dropWhile isdigit, true⟩
  else if 2 ^ 63 ≤ v then ⟨2 ^ 63 - 1, t.dropWhile isdigit, true⟩
  else ⟨v, t.dropWhile isdigit, false⟩

/-- `atoi`: `strtol` into an `int`. -/
def atoi (text : List UInt8) : Int := Kernel.toInt32 (strtol10 text).value

/-- `strcasecmp(..) == 0`. -/
def caseEq (a b : List UInt8) : Bool := a.map tolower = b.map tolower

theorem tolower_tolower (c : UInt8) : tolower (tolower c) = tolower c := by
  unfold tolower
  split
  · rename_i hupper
    refine if_neg (fun hlower => ?_)
    simp only [Bool.and_eq_true, decide_eq_true_eq, UInt8.le_iff_toNat_le, UInt8.toNat_add,
      UInt8.reduceToNat] at hupper hlower
    omega
  · rfl

/-- Two hexadecimal digits, which are all of the text. -/
def hexByte : List UInt8 → Option UInt8
  | [a, b] => if isxdigit a && isxdigit b then some (Kernel.ofDigits 16 [a, b]).toUInt8 else none
  | _ => none

/-- A text whose first byte is no digit. -/
def NoDigitHead (l : List UInt8) : Prop := ∀ c, l.head? = some c → isdigit c = false

theorem noDigitHead_nil : NoDigitHead [] := by simp [NoDigitHead]

theorem noDigitHead_cons {c : UInt8} {l : List UInt8} (h : isdigit c = false) :
    NoDigitHead (c :: l) := by
  simpa [NoDigitHead] using h

/-- Digits end where something else starts. -/
theorem takeWhile_digits {digits rest : List UInt8} (hdigits : ∀ c ∈ digits, isdigit c = true)
    (h : NoDigitHead rest) :
    (digits ++ rest).takeWhile isdigit = digits ∧ (digits ++ rest).dropWhile isdigit = rest := by
  rw [List.takeWhile_append_of_pos hdigits, List.dropWhile_append_of_pos hdigits]
  cases rest with
  | nil => simp
  | cons c rest => simp [h c rfl]

theorem takeWhile_printNat (n : Nat) {rest : List UInt8} (h : NoDigitHead rest) :
    (printNat n ++ rest).takeWhile isdigit = printNat n ∧
      (printNat n ++ rest).dropWhile isdigit = rest :=
  takeWhile_digits (fun _ hc => isdigit_of_mem_printNat hc) h

/-- The first byte of a number is neither white space nor a sign. -/
theorem printNat_cons (n : Nat) : ∃ c l, printNat n = c :: l ∧ isdigit c = true := by
  obtain ⟨c, l, hl⟩ := List.exists_cons_of_ne_nil (printNat_ne_nil n)
  exact ⟨c, l, hl, isdigit_of_mem_printNat (hl ▸ List.mem_cons_self ..)⟩

theorem isdigit_bounds {c : UInt8} (h : isdigit c = true) : 48 ≤ c.toNat ∧ c.toNat ≤ 57 := by
  simpa [isdigit, UInt8.le_iff_toNat_le] using h

theorem isspace_of_isdigit {c : UInt8} (h : isdigit c = true) : isspace c = false := by
  have hb := isdigit_bounds h
  by_contra hs
  simp [isspace, UInt8.le_iff_toNat_le, ← UInt8.toNat_inj] at hs
  omega

theorem takeSign_printNat (n : Nat) (rest : List UInt8) :
    takeSign (printNat n ++ rest) = (false, printNat n ++ rest) := by
  obtain ⟨c, l, hl, hc⟩ := printNat_cons n
  have hb := isdigit_bounds hc
  rw [hl, List.cons_append]
  unfold takeSign
  split
  · rename_i h
    rw [(List.cons.inj h).1] at hb
    simp at hb
  · rename_i h
    rw [(List.cons.inj h).1] at hb
    simp at hb
  · rfl

/-- The sign and the digits of a printed integer. -/
theorem takeSign_printInt (i : Int) (rest : List UInt8) :
    takeSign ((printInt i ++ rest).dropWhile isspace) =
      (decide (i < 0), printNat i.natAbs ++ rest) := by
  unfold printInt
  by_cases h : i < 0
  · simp [h, isspace, takeSign]
  · obtain ⟨c, l, hl, hc⟩ := printNat_cons i.natAbs
    have hdrop : (printNat i.natAbs ++ rest).dropWhile isspace = printNat i.natAbs ++ rest := by
      simp [hl, isspace_of_isdigit hc]
    rw [if_neg h, hdrop, takeSign_printNat]
    simp [h]

/-- **A printed number is read back**, and the reading stops behind it. -/
theorem strtol10_printInt {i : Int} (h1 : -2 ^ 63 ≤ i) (h2 : i < 2 ^ 63) {rest : List UInt8}
    (h : NoDigitHead rest) : strtol10 (printInt i ++ rest) = ⟨i, rest, false⟩ := by
  obtain ⟨htake, hdrop⟩ := takeWhile_printNat i.natAbs h
  have hval : (if decide (i < 0) = true then -(Kernel.ofDigits 10 (printNat i.natAbs) : Int)
      else Kernel.ofDigits 10 (printNat i.natAbs)) = i := by
    rw [ofDigits_printNat]
    by_cases hneg : i < 0
    · simp only [hneg, decide_true, if_true]
      omega
    · simp only [hneg, decide_false, Bool.false_eq_true, if_false]
      omega
  unfold strtol10
  simp only [takeSign_printInt, htake, hdrop, hval, if_neg (printNat_ne_nil _)]
  rw [if_neg (by omega), if_neg (by omega)]

theorem strtol10_printInt_nil {i : Int} (h1 : -2 ^ 63 ≤ i) (h2 : i < 2 ^ 63) :
    strtol10 (printInt i) = ⟨i, [], false⟩ := by
  simpa using strtol10_printInt h1 h2 noDigitHead_nil

/-- **A printed byte is read back.** -/
theorem hexByte_printHex2 (v : UInt8) : hexByte (printHex2 v) = some v := by
  have hv : v.toNat < 256 := v.toNat_lt
  have hhi : v.toNat / 16 < 16 := by omega
  have hlo : v.toNat % 16 < 16 := by omega
  have hsum : v.toNat / 16 * 16 + v.toNat % 16 = v.toNat := by omega
  simp [printHex2, hexByte, isxdigit_digitByte, hhi, hlo, Kernel.ofDigits, digitVal_digitByte, hsum]

theorem mem_printHex2 {v c : UInt8} (h : c ∈ printHex2 v) : isxdigit c = true := by
  have hv : v.toNat < 256 := v.toNat_lt
  have hhi : v.toNat / 16 < 16 := by omega
  have hlo : v.toNat % 16 < 16 := by omega
  rcases List.mem_cons.mp h with rfl | h
  · exact isxdigit_digitByte hhi
  · rw [List.mem_singleton.mp h]
    exact isxdigit_digitByte hlo

/-! ## 3. The kernel reading printed numbers -/

namespace Kernel

theorem toInt32_self {i : Int} (h1 : -2 ^ 31 ≤ i) (h2 : i < 2 ^ 31) : toInt32 i = i := by
  unfold toInt32
  rw [Int.bmod_def]
  split <;> omega

/-- A decimal text: digits, with or without a minus. -/
def decText (neg : Bool) (digits : List UInt8) : List UInt8 := if neg then 45 :: digits else digits

def decVal (neg : Bool) (digits : List UInt8) : Int :=
  if neg then -(ofDigits 10 digits : Int) else ofDigits 10 digits

/-- `%d` reads a decimal text that does not wrap in 64 bits. -/
theorem scanD_digits {neg : Bool} {digits rest : List UInt8} (hne : digits ≠ [])
    (hdigits : ∀ c ∈ digits, isdigit c = true) (hwrap : ofDigits 10 digits < 2 ^ 64)
    (h : NoDigitHead rest) :
    scanD (decText neg digits ++ rest) = some (toInt32 (decVal neg digits), rest) := by
  obtain ⟨htake, hdrop⟩ := takeWhile_digits hdigits h
  have hread : simpleStrtoull10 (digits ++ rest) = (ofDigits 10 digits, rest) := by
    rw [simpleStrtoull10, htake, hdrop, Nat.mod_eq_of_lt hwrap]
  obtain ⟨c, l, rfl⟩ := List.exists_cons_of_ne_nil hne
  have hc : isdigit c = true := hdigits c (List.mem_cons_self ..)
  cases neg with
  | true =>
    rw [List.cons_append] at hread
    simp only [scanD, decText, decVal, if_true, List.cons_append, List.head?_cons, Option.map_some,
      hc, Option.getD_some, simpleStrtol10, hread]
  | false =>
    have hminus : c ≠ 45 := by
      rintro rfl
      exact absurd hc (by decide)
    rw [List.cons_append] at hread
    rw [decText, decVal, if_neg Bool.false_ne_true, if_neg Bool.false_ne_true, List.cons_append]
    unfold scanD simpleStrtol10
    split
    · rename_i heq
      exact absurd (List.cons.inj heq).1 hminus
    · simp [hc, hread]

/-- `%d` reads a decimal text whose value is an `int`, however many digits it has. -/
theorem scanD_decText {neg : Bool} {digits rest : List UInt8} (hne : digits ≠ [])
    (hdigits : ∀ c ∈ digits, isdigit c = true) (h1 : -2 ^ 31 ≤ decVal neg digits)
    (h2 : decVal neg digits < 2 ^ 31) (h : NoDigitHead rest) :
    scanD (decText neg digits ++ rest) = some (decVal neg digits, rest) := by
  have hwrap : ofDigits 10 digits < 2 ^ 64 := by
    rw [decVal] at h1 h2
    cases neg
    · simp only [Bool.false_eq_true, if_false] at h2
      omega
    · simp only [if_true] at h1
      omega
  rw [scanD_digits hne hdigits hwrap h, toInt32_self h1 h2]

theorem ofDigits_concat (base : Nat) (l : List UInt8) (c : UInt8) :
    ofDigits base (l ++ [c]) = ofDigits base l * base + digitVal c := by
  simp [ofDigits]

theorem ofDigits_lt {base : Nat} {l : List UInt8} (h : ∀ c ∈ l, digitVal c < base) :
    ofDigits base l < base ^ l.length := by
  induction l using List.reverseRecOn with
  | nil => simp [ofDigits]
  | append_singleton l c ih =>
    have hl := ih fun d hd => h d (List.mem_append_left _ hd)
    have hc := h c (List.mem_append_right _ (List.mem_singleton.mpr rfl))
    rw [ofDigits_concat, List.length_append, List.length_singleton, Nat.pow_succ]
    calc ofDigits base l * base + digitVal c < ofDigits base l * base + base := by omega
      _ = (ofDigits base l + 1) * base := (Nat.succ_mul _ _).symm
      _ ≤ base ^ l.length * base := Nat.mul_le_mul_right _ hl

/-- What `%d` reads of a text: a decimal number up to where its digits end, as an `int`. -/
def ReadsInt (text : List UInt8) (v : Int) (rest : List UInt8) : Prop :=
  ∃ neg digits, digits ≠ [] ∧ (∀ c ∈ digits, isdigit c = true) ∧ NoDigitHead rest ∧
    text = decText neg digits ++ rest ∧ v = toInt32 (decVal neg digits)

theorem noDigitHead_dropWhile (l : List UInt8) : NoDigitHead (l.dropWhile isdigit) := by
  intro c hc
  have hnot := List.head?_dropWhile_not isdigit l
  rw [hc] at hnot
  simpa using hnot

theorem ofDigits_lt_pow {digits : List UInt8} (hdigits : ∀ c ∈ digits, isdigit c = true) :
    ofDigits 10 digits < 10 ^ digits.length := by
  refine ofDigits_lt ?_
  intro c hc
  have := isdigit_bounds (hdigits c hc)
  rw [digitVal, if_pos (hdigits c hc)]
  omega

theorem ofDigits_lt_word {digits : List UInt8} (hdigits : ∀ c ∈ digits, isdigit c = true)
    (hlen : digits.length ≤ 18) : ofDigits 10 digits < 2 ^ 64 := by
  have hlt := ofDigits_lt_pow hdigits
  have hle : 10 ^ digits.length ≤ 10 ^ 18 := Nat.pow_le_pow_right (by decide) hlen
  omega

/-- **What `%d` reads** of a short text. -/
theorem scanD_iff {text rest : List UInt8} {v : Int} (hlen : text.length ≤ 18) :
    scanD text = some (v, rest) ↔ ReadsInt text v rest := by
  constructor
  · intro h
    have hsplit : ∀ (neg : Bool) (l : List UInt8), text = (if neg then 45 :: l else l) →
        (l.head?.map isdigit).getD false = true →
        scanD text = some (toInt32 (decVal neg (l.takeWhile isdigit)), l.dropWhile isdigit) ∧
          ReadsInt text (toInt32 (decVal neg (l.takeWhile isdigit))) (l.dropWhile isdigit) := by
      intro neg l htext hhead
      have hall : ∀ c ∈ l.takeWhile isdigit, isdigit c = true := fun c hc => List.mem_takeWhile_imp hc
      have hne : l.takeWhile isdigit ≠ [] := by
        cases l with
        | nil => cases hhead
        | cons c l => simp [show isdigit c = true from hhead]
      have hle : (l.takeWhile isdigit).length ≤ 18 := by
        have := (List.takeWhile_prefix isdigit (l := l)).length_le
        rw [htext] at hlen
        split at hlen
        · rw [List.length_cons] at hlen
          omega
        · omega
      have hjoin : text = decText neg (l.takeWhile isdigit) ++ l.dropWhile isdigit := by
        rw [htext, decText]
        split
        · rw [List.cons_append, List.takeWhile_append_dropWhile]
        · rw [List.takeWhile_append_dropWhile]
      have hrest := noDigitHead_dropWhile l
      refine ⟨?_, neg, _, hne, hall, hrest, hjoin, rfl⟩
      rw [hjoin]
      exact scanD_digits hne hall (ofDigits_lt_word hall hle) hrest
    have hfound : ∃ (neg : Bool) (l : List UInt8), text = (if neg then 45 :: l else l) ∧
        (l.head?.map isdigit).getD false = true := by
      have hsome : (scanD text).isSome := by simp [h]
      unfold scanD at hsome
      split at hsome
      · rename_i rest'
        refine ⟨true, rest', rfl, ?_⟩
        by_contra hno
        simp [hno] at hsome
      · refine ⟨false, text, rfl, ?_⟩
        by_contra hno
        simp [hno] at hsome
    obtain ⟨neg, l, htext, hhead⟩ := hfound
    obtain ⟨hval, hreads⟩ := hsplit neg l htext hhead
    rw [h] at hval
    obtain ⟨rfl, rfl⟩ := Prod.mk.inj (Option.some.inj hval)
    exact hreads
  · rintro ⟨neg, digits, hne, hdigits, hrest, rfl, rfl⟩
    refine scanD_digits hne hdigits (ofDigits_lt_word hdigits ?_) hrest
    rw [List.length_append, decText] at hlen
    split at hlen
    · rw [List.length_cons] at hlen
      omega
    · omega

/-- `%d` reads a printed `int`. -/
theorem scanD_printInt {i : Int} (h1 : -2 ^ 31 ≤ i) (h2 : i < 2 ^ 31) {rest : List UInt8}
    (h : NoDigitHead rest) : scanD (printInt i ++ rest) = some (i, rest) := by
  have htext : printInt i = decText (decide (i < 0)) (printNat i.natAbs) := by
    simp [printInt, decText]
  have hval : decVal (decide (i < 0)) (printNat i.natAbs) = i := by
    simp only [decVal, ofDigits_printNat, decide_eq_true_eq]
    split <;> omega
  have hread := @scanD_decText (decide (i < 0)) (printNat i.natAbs) rest (printNat_ne_nil _)
    (fun c hc => isdigit_of_mem_printNat hc) (by omega) (by omega) h
  rwa [← htext, hval] at hread

theorem isspace_of_digit {c : UInt8} (h : isdigit c = true ∨ c = 45) : isspace c = false := by
  rcases h with h | rfl
  · have hb := isdigit_bounds h
    have hs := isspace_of_isdigit h
    simp [isspace, hs]
    rintro rfl
    simp at hb
  · decide

/-- A printed number is not white space, whichever white space a format skips. -/
theorem dropWhile_printInt {space : UInt8 → Bool}
    (hspace : ∀ c, isdigit c = true ∨ c = 45 → space c = false) (i : Int) (rest : List UInt8) :
    (printInt i ++ rest).dropWhile space = printInt i ++ rest := by
  obtain ⟨c, l, hl⟩ := List.exists_cons_of_ne_nil (printInt_ne_nil i)
  have hc := hspace c (mem_printInt (hl ▸ List.mem_cons_self ..))
  simp [hl, hc]

theorem isxdigit_facts {c : UInt8} (h : isxdigit c = true) :
    digitVal c < 16 ∧ tolower c ≠ 120 ∧ CLib.isspace c = false := by
  have hall : ∀ n < 256, isxdigit n.toUInt8 = true → digitVal n.toUInt8 < 16 ∧
      tolower n.toUInt8 ≠ 120 ∧ CLib.isspace n.toUInt8 = false := by decide +kernel
  have hc := hall c.toNat c.toNat_lt
  rw [Nat.toUInt8_eq, UInt8.ofNat_toNat] at hc
  exact hc h

/-- `%x` reads hexadecimal digits.  None of them is the `x` of a `0x`. -/
theorem scanX_hexDigits {l : List UInt8} (hne : l ≠ []) (h : ∀ c ∈ l, isxdigit c = true)
    (hlen : l.length ≤ 7) : scanX l = some ((ofDigits 16 l : Int), []) := by
  have hlt : ofDigits 16 l < 16 ^ 7 :=
    lt_of_lt_of_le (ofDigits_lt fun c hc => (isxdigit_facts (h c hc)).1)
      (Nat.pow_le_pow_right (by decide) hlen)
  have hread : simpleStrtoul16 l = (ofDigits 16 l, []) := by
    have htake : l.takeWhile isxdigit = l := List.takeWhile_eq_self_iff.mpr h
    have hdrop : l.dropWhile isxdigit = [] := List.dropWhile_eq_nil_iff.mpr h
    unfold simpleStrtoul16
    split
    · rename_i c rest
      have hc : tolower c ≠ 120 := (isxdigit_facts (h c (by simp))).2.1
      rw [if_neg hc]
      simp only [htake, hdrop]
      rw [Nat.mod_eq_of_lt (by omega)]
    · simp only [htake, hdrop]
      rw [Nat.mod_eq_of_lt (by omega)]
  obtain ⟨c, l, rfl⟩ := List.exists_cons_of_ne_nil hne
  have hval : toInt32 (ofDigits 16 (c :: l) : Int) = ofDigits 16 (c :: l) :=
    toInt32_self (by omega) (by omega)
  rw [scanX, hread]
  simp [h c (by simp), hval]

/-- `%x` reads a printed byte. -/
theorem scanX_printHex2 (v : UInt8) : scanX (printHex2 v) = some ((v.toNat : Int), []) := by
  have hv : v.toNat < 256 := v.toNat_lt
  have hhi : v.toNat / 16 < 16 := by omega
  have hlo : v.toNat % 16 < 16 := by omega
  have hsum : v.toNat / 16 * 16 + v.toNat % 16 = v.toNat := by omega
  have hval : ofDigits 16 (printHex2 v) = v.toNat := by
    simp [printHex2, ofDigits, digitVal_digitByte hhi, digitVal_digitByte hlo, hsum]
  have hread := scanX_hexDigits (l := printHex2 v) (by simp [printHex2])
    (fun c hc => mem_printHex2 hc) (by simp [printHex2])
  rwa [hval] at hread

/-- `kstrtol` reads a printed number. -/
theorem kstrtol10_printNat {n : Nat} (hn : n < 2 ^ 63) : kstrtol10 (printNat n) = some (n : Int) := by
  obtain ⟨h1, h2⟩ := takeWhile_printNat n noDigitHead_nil
  rw [List.append_nil] at h1 h2
  have h3 := ofDigits_printNat n
  obtain ⟨c, l, hl, hc⟩ := printNat_cons n
  have hminus : c ≠ 45 := by
    rintro rfl
    exact absurd hc (by decide)
  have hplus : c ≠ 43 := by
    rintro rfl
    exact absurd hc (by decide)
  rw [hl] at h1 h2 h3 ⊢
  simp [kstrtol10, hminus, hplus, h1, h2, h3]
  omega

end Kernel

/-- A printed `int` is read back. -/
theorem atoi_printInt {i : Int} (h1 : -2 ^ 31 ≤ i) (h2 : i < 2 ^ 31) : atoi (printInt i) = i := by
  rw [atoi, strtol10_printInt_nil (by omega) (by omega)]
  exact Kernel.toInt32_self h1 h2

/-! ## 4. White space -/

/-- The text without the white space at its two ends. -/
def trimSpaces (l : List UInt8) : List UInt8 := (l.dropWhile isspace).rdropWhile isspace

theorem mem_of_mem_trimSpaces {c : UInt8} {l : List UInt8} (h : c ∈ trimSpaces l) : c ∈ l :=
  (List.dropWhile_suffix isspace).subset ((List.rdropWhile_prefix isspace _).subset h)

/-- Nothing is trimmed where nothing is there to trim. -/
theorem trim_of_forall {p : UInt8 → Bool} {l : List UInt8} (h : ∀ c ∈ l, p c = false) :
    (l.dropWhile p).rdropWhile p = l := by
  have hdrop : l.dropWhile p = l := by
    cases l with
    | nil => rfl
    | cons c l => simp [h c (List.mem_cons_self ..)]
  rw [hdrop]
  refine List.rdropWhile_eq_self_iff.mpr ?_
  intro hl
  simp [h _ (List.getLast_mem hl)]

/-- A text without white space. -/
theorem trimSpaces_of_forall {l : List UInt8} (h : ∀ c ∈ l, isspace c = false) : trimSpaces l = l :=
  trim_of_forall h

/-- Trimming twice changes nothing more. -/
theorem trimSpaces_idem (l : List UInt8) : trimSpaces (trimSpaces l) = trimSpaces l := by
  have hdrop : (trimSpaces l).dropWhile isspace = trimSpaces l := by
    refine List.dropWhile_eq_self_iff.mpr ?_
    intro hl
    have hp := List.rdropWhile_prefix isspace (l.dropWhile isspace)
    have hne : l.dropWhile isspace ≠ [] := by
      intro h0
      simp [trimSpaces, h0] at hl
    have hhead := List.head_dropWhile_not isspace (l := l) hne
    have hsame : (trimSpaces l)[0] = (l.dropWhile isspace).head hne := by
      rw [← List.getElem_zero_eq_head]
      exact hp.getElem hl
    simpa [hsame] using hhead
  rw [trimSpaces, hdrop]
  exact List.rdropWhile_idempotent isspace (l.dropWhile isspace)

/-- What is cut off at the end of a text stops at a byte that stays. -/
theorem rdropWhile_append_cons {p : UInt8 → Bool} {c : UInt8} (h : p c = false)
    (u v : List UInt8) : (u ++ c :: v).rdropWhile p = u ++ c :: v.rdropWhile p := by
  induction v using List.reverseRecOn with
  | nil => simpa using List.rdropWhile_concat_neg p u c (by simp [h])
  | append_singleton v x ih =>
    rw [← List.cons_append, ← List.append_assoc]
    by_cases hx : p x = true
    · rw [List.rdropWhile_concat_pos p _ x hx, List.rdropWhile_concat_pos p _ x hx, ih]
    · rw [List.rdropWhile_concat_neg p _ x hx, List.rdropWhile_concat_neg p _ x hx]
      simp

theorem rdropWhile_append (p : UInt8 → Bool) (u v : List UInt8) :
    (u ++ v).rdropWhile p = if v.rdropWhile p = [] then u.rdropWhile p else u ++ v.rdropWhile p := by
  simp only [List.rdropWhile, List.reverse_append, List.dropWhile_append, List.isEmpty_iff,
    List.reverse_eq_nil_iff]
  split
  · rfl
  · rw [List.reverse_append, List.reverse_reverse]

/-- Blanks at the end of a text do not matter. -/
theorem trimSpaces_append_blanks (u : List UInt8) {v : List UInt8} (hv : ∀ c ∈ v, isspace c = true) :
    trimSpaces (u ++ v) = trimSpaces u := by
  have hdrop : v.dropWhile isspace = [] := List.dropWhile_eq_nil_iff.mpr hv
  unfold trimSpaces
  rw [List.dropWhile_append]
  split
  · rename_i hu
    rw [hdrop, List.isEmpty_iff.mp hu]
  · rw [rdropWhile_append, if_pos (List.rdropWhile_eq_nil_iff.mpr hv)]

/-- A text that is not blank in front, and one that is not blank behind, trimmed together. -/
theorem trimSpaces_append {u v : List UInt8} (hu : u.dropWhile isspace ≠ [])
    (hv : v.rdropWhile isspace ≠ []) :
    trimSpaces (u ++ v) = u.dropWhile isspace ++ v.rdropWhile isspace := by
  unfold trimSpaces
  rw [List.dropWhile_append, if_neg (by simpa using hu), rdropWhile_append, if_neg hv]

/-! ## 5. Delimiters -/

/-- `strchr`: the text before the first `d` and the text behind it. -/
def strchrSplit (d : UInt8) : List UInt8 → Option (List UInt8 × List UInt8)
  | [] => none
  | c :: l => if c = d then some ([], l) else (strchrSplit d l).map (fun r => (c :: r.1, r.2))

/-- `strstr`: the text before the first `pat` and the text behind it. -/
def strstrSplit (pat : List UInt8) : List UInt8 → Option (List UInt8 × List UInt8)
  | [] => if pat = [] then some ([], []) else none
  | c :: l =>
    if pat.isPrefixOf (c :: l) then some ([], (c :: l).drop pat.length)
    else (strstrSplit pat l).map (fun r => (c :: r.1, r.2))

/-- The `n + 1` fields of a text with exactly `n` delimiters. -/
def splitExact (d : UInt8) : Nat → List UInt8 → Option (List (List UInt8))
  | 0, text => if d ∈ text then none else some [text]
  | n + 1, text =>
    match strchrSplit d text with
    | none => none
    | some (field, rest) => (splitExact d n rest).map (field :: ·)

theorem strchrSplit_append {d : UInt8} : ∀ {w : List UInt8}, d ∉ w → ∀ rest : List UInt8,
    strchrSplit d (w ++ d :: rest) = some (w, rest)
  | [], _, rest => by simp [strchrSplit]
  | c :: w, h, rest => by
    rw [List.mem_cons, not_or] at h
    simp [strchrSplit, Ne.symm h.1, strchrSplit_append h.2]

theorem strchrSplit_eq_none {d : UInt8} : ∀ {l : List UInt8}, d ∉ l → strchrSplit d l = none
  | [], _ => rfl
  | c :: l, h => by
    rw [List.mem_cons, not_or] at h
    simp [strchrSplit, Ne.symm h.1, strchrSplit_eq_none h.2]

theorem strchrSplit_eq_some {d : UInt8} : ∀ {l w rest : List UInt8},
    strchrSplit d l = some (w, rest) → l = w ++ d :: rest ∧ d ∉ w
  | [], w, rest, h => by simp [strchrSplit] at h
  | c :: l, w, rest, h => by
    unfold strchrSplit at h
    split at h
    · rename_i hc
      cases h
      simp [hc]
    · rename_i hc
      obtain ⟨⟨w', rest'⟩, h1, h2⟩ := Option.map_eq_some_iff.mp h
      cases h2
      obtain ⟨h3, h4⟩ := strchrSplit_eq_some h1
      simp [h3, h4, Ne.symm hc]

/-- **One field more.** -/
theorem splitExact_append {d : UInt8} {w : List UInt8} (h : d ∉ w) (n : Nat) (rest : List UInt8) :
    splitExact d (n + 1) (w ++ d :: rest) = (splitExact d n rest).map (w :: ·) := by
  simp [splitExact, strchrSplit_append h]

theorem splitExact_zero {d : UInt8} {w : List UInt8} (h : d ∉ w) :
    splitExact d 0 w = some [w] := if_neg h

theorem strstrSplit_eq_some {pat : List UInt8} : ∀ {l w rest : List UInt8},
    strstrSplit pat l = some (w, rest) → l = w ++ pat ++ rest
  | [], w, rest, h => by
    unfold strstrSplit at h
    split at h
    · rename_i hpat
      cases h
      simp [hpat]
    · simp at h
  | c :: l, w, rest, h => by
    unfold strstrSplit at h
    split at h
    · rename_i hpre
      obtain ⟨t, ht⟩ := List.isPrefixOf_iff_prefix.mp hpre
      cases h
      simp [← ht]
    · obtain ⟨⟨w', rest'⟩, h1, h2⟩ := Option.map_eq_some_iff.mp h
      cases h2
      simp [strstrSplit_eq_some h1]

/-- `strstr` of two bytes, the first of which does not come earlier. -/
theorem strstrSplit_pair {a b : UInt8} : ∀ {w : List UInt8}, a ∉ w → ∀ rest : List UInt8,
    strstrSplit [a, b] (w ++ a :: b :: rest) = some (w, rest)
  | [], _, rest => by simp [strstrSplit]
  | c :: w, h, rest => by
    rw [List.mem_cons, not_or] at h
    simp [strstrSplit, h.1, strstrSplit_pair h.2]

/-- Without the first byte there is no `strstr`. -/
theorem strstrSplit_pair_eq_none {a b : UInt8} : ∀ {l : List UInt8}, a ∉ l →
    strstrSplit [a, b] l = none
  | [], _ => by simp [strstrSplit]
  | c :: l, h => by
    rw [List.mem_cons, not_or] at h
    simp [strstrSplit, h.1, strstrSplit_pair_eq_none h.2]

/-! ## 6. Printing a list into a buffer -/

/-- The loop `snprintf(buffer + used, length - used, "%s%s", i ? sep : "", piece)`: `more` is
`i != 0`, and a piece that does not fit ends it. -/
def snprintfList (length : Nat) (sep : UInt8) :
    List UInt8 → Bool → List (List UInt8) → Option (List UInt8)
  | text, _, [] => some text
  | text, more, piece :: rest =>
    let piece := if more then sep :: piece else piece
    if length - text.length ≤ piece.length then none
    else snprintfList length sep (text ++ piece) true rest

/-- The text all the pieces make. -/
def joined (sep : UInt8) (more : Bool) (pieces : List (List UInt8)) : List UInt8 :=
  if more then pieces.flatMap (sep :: ·) else [sep].intercalate pieces

theorem joined_cons (sep : UInt8) (more : Bool) (piece : List UInt8) (rest : List (List UInt8)) :
    joined sep more (piece :: rest) =
      (if more then sep :: piece else piece) ++ joined sep true rest := by
  cases more with
  | true => simp [joined]
  | false =>
    induction rest generalizing piece with
    | nil => simp [joined]
    | cons p rest ih => simpa [joined] using ih p

/-- **A list printed piece by piece** is there whole, or does not fit. -/
theorem snprintfList_eq (length : Nat) (sep : UInt8) : ∀ (pieces : List (List UInt8))
    (text : List UInt8) (more : Bool), text.length < length →
    snprintfList length sep text more pieces =
      if (text ++ joined sep more pieces).length < length then some (text ++ joined sep more pieces)
      else none
  | [], text, more, h => by
    cases more <;> simp [snprintfList, joined, h]
  | piece :: rest, text, more, h => by
    rw [snprintfList, joined_cons]
    generalize (if more = true then sep :: piece else piece) = s
    by_cases hfit : length - text.length ≤ s.length
    · have hlong : ¬ (text ++ (s ++ joined sep true rest)).length < length := by
        simp only [List.length_append]
        omega
      rw [if_pos hfit, if_neg hlong]
    · have hlt : (text ++ s).length < length := by
        simp
        omega
      simp only [if_neg hfit, snprintfList_eq length sep rest (text ++ s) true hlt,
        List.append_assoc]

end CLib
