/-
# Texts that are read back

Strings, numbers and members as a program writes them, and what the parser reads of them.

* `parseString_escaped`: a text with its quotes and backslashes escaped.
* `parseNumber_printNat`: a printed number.
* `reads_object_iff`, `reads_member_iff`, `reads_lastMember_iff`: an object, member by member.
-/
import Oaf.Json.Grammar
import Oaf.Lib.CText

namespace Oaf

open CLib

variable {uninit : Bytes → UInt32}

/-! ## 1. Strings -/

/-- A character of a text, a quote or a backslash escaped. -/
def escapeChar (c : UInt8) : List UInt8 := if c = 34 ∨ c = 92 then [92, c] else [c]

/-- A text with its quotes and backslashes escaped. -/
def escaped (text : List UInt8) : List UInt8 := text.flatMap escapeChar

theorem escaped_cons (c : UInt8) (text : List UInt8) :
    escaped (c :: text) = escapeChar c ++ escaped text := List.flatMap_cons

/-- A text of plain characters needs no escapes. -/
theorem escaped_plain {text : List UInt8} (h : text.all isPlain = true) : escaped text = text := by
  induction text with
  | nil => rfl
  | cons c text ih =>
    rw [List.all_cons, Bool.and_eq_true] at h
    obtain ⟨-, hquote, hescape⟩ := isPlain_iff.mp h.1
    rw [escaped_cons, ih h.2, escapeChar, if_neg (by tauto)]
    rfl

/-- What stands for itself but for the escapes. -/
theorem isPlain_of_not_escaped {c : UInt8} (h : endsText c = false) (hc : ¬(c = 34 ∨ c = 92)) :
    isPlain c = true := isPlain_iff.mpr ⟨h, not_or.mp hc⟩

theorem stringLen_escaped {text : List UInt8} (h : text.any endsText = false) (rest : List UInt8) :
    stringLen (escaped text ++ 34 :: rest) = some text.length := by
  induction text with
  | nil => exact stringLen_quote rest
  | cons c text ih =>
    rw [List.any_cons, Bool.or_eq_false_iff] at h
    rw [escaped_cons, List.append_assoc, escapeChar]
    split
    · change stringLen (92 :: c :: (escaped text ++ 34 :: rest)) = _
      rw [stringLen_escape, ih h.2]
      rfl
    · rename_i hc
      change stringLen (c :: (escaped text ++ 34 :: rest)) = _
      rw [stringLen_plain (isPlain_of_not_escaped h.1 hc), ih h.2]
      rfl

theorem stringBytes_escaped (uc : UInt32) {text : List UInt8} (h : text.any endsText = false)
    (rest : List UInt8) : stringBytes uc (escaped text ++ 34 :: rest) = some (text, rest) := by
  induction text with
  | nil => exact stringBytes_quote uc rest
  | cons c text ih =>
    rw [List.any_cons, Bool.or_eq_false_iff] at h
    rw [escaped_cons, List.append_assoc, escapeChar]
    split
    · rename_i hc
      have hself : c ≠ 117 ∧ unescape c = c := by obtain rfl | rfl := hc <;> decide
      change stringBytes uc (92 :: c :: (escaped text ++ 34 :: rest)) = _
      rw [stringBytes_escape uc hself.1, ih h.2, hself.2]
      rfl
    · rename_i hc
      change stringBytes uc (c :: (escaped text ++ 34 :: rest)) = _
      rw [stringBytes_plain uc (isPlain_of_not_escaped h.1 hc), ih h.2]
      rfl

/-- **An escaped text is read back**, if none of its characters ends a string. -/
theorem parseString_escaped {text : CStr} (h : text.bytes.any endsText = false) (rest : List UInt8) :
    parseString uninit (escaped text.bytes ++ 34 :: rest) = some (text, rest) := by
  rw [parseString, stringLen_escaped h, stringBytes_escaped _ h]
  simp

theorem any_endsText_of_plain {text : List UInt8} (h : text.all isPlain = true) :
    text.any endsText = false := by
  rw [List.any_eq_false]
  intro c hc
  rw [(isPlain_iff.mp (List.all_eq_true.mp h c hc)).1]
  exact Bool.false_ne_true

/-- A text of plain characters is read as it is. -/
theorem parseString_plain {text : CStr} (h : text.bytes.all isPlain = true) (rest : List UInt8) :
    parseString uninit (text.bytes ++ 34 :: rest) = some (text, rest) := by
  have hread := @parseString_escaped uninit text (any_endsText_of_plain h) rest
  rwa [escaped_plain h] at hread

/-- A text as it is costs more than it is long by the characters that are not plain. -/
theorem textCost_self (text : List UInt8) :
    textCost text = text.length + text.countP fun c => !isPlain c := by
  induction text with
  | nil => rfl
  | cons c text ih =>
    rw [textCost_cons, ih, charCost, List.countP_cons, List.length_cons]
    cases isPlain c <;> simp <;> omega

/-- An escaped text costs more by the characters that end a string. -/
theorem textCost_escaped (text : List UInt8) :
    textCost text = (escaped text).length + text.countP endsText := by
  induction text with
  | nil => rfl
  | cons c text ih =>
    rw [textCost_cons, ih, escaped_cons, List.length_append, List.countP_cons, charCost, escapeChar]
    by_cases hc : c = 34 ∨ c = 92
    · have hself : isPlain c = false ∧ endsText c = false := by obtain rfl | rfl := hc <;> decide
      rw [if_pos hc, hself.1, hself.2]
      simp
      omega
    · rw [if_neg hc]
      cases hends : endsText c with
      | false =>
        rw [if_pos (isPlain_of_not_escaped hends hc)]
        simp
        omega
      | true =>
        rw [if_neg (by rw [isPlain_iff, hends]; simp)]
        simp
        omega

/-! ## 2. Numbers -/

theorem foldl_digits_le (ds : List UInt8) (n : Nat) :
    n ≤ ds.foldl (fun v d => v * 10 + Kernel.digitVal d) n := by
  induction ds generalizing n with
  | nil => exact Nat.le_refl n
  | cons d ds ih => exact Nat.le_trans (by omega) (ih (n * 10 + Kernel.digitVal d))

/-- The digits of a number that fits an `int`. -/
theorem digits_append {ds : List UInt8} {n : Nat} (hds : ∀ d ∈ ds, isdigit d = true)
    (hfits : ds.foldl (fun v d => v * 10 + Kernel.digitVal d) n < 2 ^ 31) {c : UInt8}
    (hc : isdigit c = false) (rest : List UInt8) :
    digits n (ds ++ c :: rest) =
      some (((ds.foldl (fun v d => v * 10 + Kernel.digitVal d) n : Nat) : Int), c :: rest) := by
  induction ds generalizing n with
  | nil => simp [digits, hc]
  | cons d ds ih =>
    obtain ⟨hd, hds⟩ := List.forall_mem_cons.mp hds
    have hle := foldl_digits_le ds (n * 10 + Kernel.digitVal d)
    have hval : (n : Int) * 10 + (d.toNat - 48) = ((n * 10 + Kernel.digitVal d : Nat) : Int) := by
      rw [Kernel.digitVal, if_pos hd]
      simp only [isdigit, Bool.and_eq_true, decide_eq_true_eq, UInt8.le_iff_toNat_le,
        UInt8.reduceToNat] at hd
      omega
    rw [List.foldl_cons] at hfits
    have hwrap := @Kernel.toInt32_self (n * 10 + Kernel.digitVal d : Nat) (by omega) (by omega)
    rw [List.cons_append, digits, if_pos hd, hval, hwrap]
    exact ih hds hfits

/-- The first digit of a number is not zero. -/
theorem printNat_head {n : Nat} (h : 0 < n) :
    ∃ d ds, printNat n = d :: ds ∧ isdigit d = true ∧ d ≠ 48 := by
  have hne : Nat.digits 10 n ≠ [] := Nat.digits_ne_nil_iff_ne_zero.mpr h.ne'
  refine ⟨digitByte ((Nat.digits 10 n).getLast hne),
    ((Nat.digits 10 n).dropLast.map digitByte).reverse, ?_, ?_, ?_⟩
  · rw [printNat, if_neg h.ne']
    conv_lhs => rw [← List.dropLast_append_getLast hne]
    simp
  · exact isdigit_digitByte (Nat.digits_lt_base (by decide) (List.getLast_mem hne))
  · have hlast := Nat.getLast_digit_ne_zero 10 h.ne'
    have hlt := Nat.digits_lt_base (by decide : 1 < 10) (List.getLast_mem hne)
    revert hlast
    revert hlt
    generalize (Nat.digits 10 n).getLast hne = d
    revert d
    decide

/-- **A printed number is read back**, if it fits an `int` and no digit comes after it. -/
theorem parseNumber_printNat {n : Nat} (h : n < 2 ^ 31) {c : UInt8} (hc : isdigit c = false)
    (rest : Bytes) : parseNumber (printNat n ++ c :: rest) = some ((n : Int), c :: rest) := by
  obtain rfl | hpos := Nat.eq_zero_or_pos n
  · change (if (49 ≤ c && c ≤ 57) = true then digits 0 (c :: rest) else some (0, c :: rest)) = _
    by_cases hzero : c = 48
    · rw [hzero] at hc
      exact absurd hc (by decide)
    · rw [nonzero_digit hzero, hc]
      rfl
  · obtain ⟨d, ds, hprint, hd, hne⟩ := printNat_head hpos
    have hfits : Kernel.ofDigits 10 (printNat n) < 2 ^ 31 := by rwa [ofDigits_printNat]
    have hread := @digits_append (printNat n) 0 (fun _ => isdigit_of_mem_printNat) hfits c hc rest
    rw [← Kernel.ofDigits, ofDigits_printNat, hprint] at hread
    have hsign : d ≠ 45 := by rintro rfl; exact absurd hd (by decide)
    rw [hprint]
    simp only [parseNumber, List.cons_append, skipOne, if_neg hsign, if_neg hne, Option.bind_eq_bind,
      Option.bind_some, nonzero_digit hne, hd, if_true]
    exact hread

/-! ## 3. Values -/

theorem reads_number {n : Nat} (h : n < 2 ^ 31) {c : UInt8} (hc : isdigit c = false) (rest : Bytes) :
    Reads uninit (printNat n ++ c :: rest) (.value (.number n)) (c :: rest) := by
  have hread := parseNumber_printNat h hc rest
  cases hprint : printNat n with
  | nil => exact absurd hprint (printNat_ne_nil n)
  | cons d ds =>
    rw [hprint] at hread
    exact .number (.inr (isdigit_of_mem_printNat (hprint ▸ List.mem_cons_self))) hread

theorem reads_plain {text : CStr} (h : text.bytes.all isPlain = true) (rest : Bytes) :
    Reads uninit (34 :: (text.bytes ++ 34 :: rest)) (.value (.string text)) rest :=
  .string (parseString_plain h rest)

/-- An array whose first item is a string. -/
theorem reads_array_iff {s rest : Bytes} {vs : List KJson} :
    Reads uninit (91 :: 34 :: s) (.value (.array vs)) rest ↔ Reads uninit (34 :: s) (.items vs) rest := by
  constructor
  · intro h
    generalize hs : 91 :: 34 :: s = t at h
    generalize hv : KJson.array vs = v at h
    cases h with
    | array hskip _ hitems =>
      rw [← (List.cons.inj hs).2] at hskip
      obtain rfl := Option.some.inj hskip
      rwa [KJson.array.inj hv]
    | emptyArray hskip =>
      rw [← (List.cons.inj hs).2] at hskip
      cases Option.some.inj hskip
    | _ => cases hv
  · intro h
    exact .array rfl (by simp) h

/-- An object that is not empty. -/
theorem reads_object_iff {s rest : Bytes} {ms : List (CStr × KJson)} :
    Reads uninit (123 :: 34 :: s) (.value (.object ms)) rest ↔ Reads uninit (34 :: s) (.members ms) rest := by
  constructor
  · intro h
    generalize hs : 123 :: 34 :: s = t at h
    generalize hv : KJson.object ms = v at h
    cases h with
    | object hskip _ hmembers =>
      rw [← (List.cons.inj hs).2] at hskip
      obtain rfl := Option.some.inj hskip
      rwa [KJson.object.inj hv]
    | emptyObject hskip =>
      rw [← (List.cons.inj hs).2] at hskip
      cases Option.some.inj hskip
    | _ => cases hv
  · intro h
    exact .object rfl (by simp) h

section

variable {key : CStr} (hkey : key.bytes.all isPlain = true) {x : Bytes} (hx : skip x = some x)
include hkey hx

/-- The key in front of a member. -/
theorem member_inv {key' : CStr} {k t u v : Bytes}
    (hs : skip (34 :: (key.bytes ++ 34 :: 58 :: x)) = some (34 :: k))
    (hk : parseString uninit k = some (key', t)) (ht : skip t = some (58 :: u)) (hu : skip u = some v) :
    key' = key ∧ v = x := by
  obtain ⟨-, rfl⟩ := List.cons.inj (Option.some.inj hs)
  rw [parseString_plain hkey] at hk
  obtain ⟨rfl, rfl⟩ := Prod.mk.inj (Option.some.inj hk)
  obtain ⟨-, rfl⟩ := List.cons.inj (Option.some.inj ht)
  exact ⟨rfl, Option.some.inj (hu.symm.trans hx)⟩

/-- The last member of an object. -/
theorem reads_lastMember_iff {value : KJson} {rest : Bytes} :
    Reads uninit (34 :: (key.bytes ++ 34 :: 58 :: x)) (.members [(key, value)]) rest ↔
      ∃ w, Reads uninit x (.value value) w ∧ skip w = some (125 :: rest) := by
  constructor
  · intro h
    generalize hms : [(key, value)] = ms at h
    cases h with
    | lastMember hs hk ht hu hv hw =>
      obtain ⟨-, rfl⟩ := member_inv hkey hx hs hk ht hu
      obtain ⟨-, rfl⟩ := Prod.mk.inj (List.cons.inj hms).1
      exact ⟨_, hv, hw⟩
    | nextMember _ _ _ _ _ _ hrest =>
      rw [← (List.cons.inj hms).2] at hrest
      cases hrest
  · rintro ⟨w, hv, hw⟩
    exact .lastMember rfl (parseString_plain hkey _) rfl hx hv hw

/-- A member in front of others, of which it is known what it reads as. -/
theorem reads_member_iff {value : KJson} {y rest : Bytes} (hv : Reads uninit x (.value value) (44 :: y))
    {m : CStr × KJson} {ms : List (CStr × KJson)} :
    Reads uninit (34 :: (key.bytes ++ 34 :: 58 :: x)) (.members ((key, value) :: m :: ms)) rest ↔
      Reads uninit y (.members (m :: ms)) rest := by
  constructor
  · intro h
    generalize hms : (key, value) :: m :: ms = ms' at h
    cases h with
    | lastMember => cases (List.cons.inj hms).2
    | nextMember hs hk ht hu hx' hw hrest =>
      obtain ⟨-, rfl⟩ := member_inv hkey hx hs hk ht hu
      obtain ⟨-, rfl⟩ := reads_unique hv hx'
      obtain ⟨-, rfl⟩ := List.cons.inj (Option.some.inj hw)
      rwa [(List.cons.inj hms).2]
  · intro h
    exact .nextMember rfl (parseString_plain hkey _) rfl hx hv rfl h

end

end Oaf
