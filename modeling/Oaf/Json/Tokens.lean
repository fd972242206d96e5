/-
# Tokens

What becomes of the tokens of the parser: where they end, what they take, and when the buffer ends in them.

* `skip_eq_none_iff`, `parseNumber_eq_none_iff`, `parseString_eq_none_iff`: the tokens that are cut.
* `parseString_cost`: a string takes what its characters take.
-/
import Mathlib.Tactic.Tauto
import Oaf.Json.Model

namespace Oaf

open CLib

variable {uninit : Bytes → UInt32}

/-! ## 1. Where a token is cut -/

/-- A character that stands for itself in a string. -/
def isPlain (c : UInt8) : Bool := !endsText c && c ≠ 34 && c ≠ 92

/-- A number that goes on to the end: a sign, a zero, and then no digit or one that is not zero. -/
def CutNumber (num : Bytes) : Prop :=
  ∃ sign ∈ [[], [45]], ∃ zero ∈ [[], [48]], ∃ ds : Bytes, num = sign ++ zero ++ ds ∧
    ds.all isdigit = true ∧ ds.head? ≠ some 48

/-- What `sscanf` reads to the end: white space, and then fewer digits than it looks for. -/
def CutScan (s : Bytes) : Prop :=
  match s.dropWhile Kernel.isspace with
  | [] => True
  | [c] => isxdigit c = true
  | c :: d :: ds =>
    isxdigit c = true ∧ (isxdigit d = true ∨ c = 48 ∧ tolower d = 120) ∧
      ds.length < 2 ∧ ds.all isxdigit = true

/-- A string that the first loop of `parse_string` follows to the end. -/
inductive CutLen : Bytes → Prop
  | ended : CutLen []
  | char {c s} : isPlain c = true → CutLen s → CutLen (c :: s)
  | inEscape : CutLen [92]
  | escape {e s} : CutLen s → CutLen (92 :: e :: s)

/-- A string that the second loop follows to the end, or behind it in a `\u`. -/
inductive CutBytes : Bytes → Prop
  | ended : CutBytes []
  | char {c s} : isPlain c = true → CutBytes s → CutBytes (c :: s)
  | inEscape : CutBytes [92]
  | escape {e s} : e ≠ 117 → CutBytes s → CutBytes (92 :: e :: s)
  | inUnicode {s} : s.length < 4 ∨ CutScan s → CutBytes (92 :: 117 :: s)
  | unicode {a b c d s} : CutBytes s → CutBytes (92 :: 117 :: a :: b :: c :: d :: s)

/-- A string that one of the loops follows to the end. -/
def CutString (s : Bytes) : Prop := CutLen s ∨ CutBytes s

/-! ## 2. White space and numbers -/

theorem skip_eq_none_iff {s : Bytes} : skip s = none ↔ s.all isBlank = true := by
  induction s with
  | nil => exact ⟨fun _ => rfl, fun _ => rfl⟩
  | cons c s ih =>
    rw [skip, List.all_cons, Bool.and_eq_true]
    split
    · rename_i hc
      exact ih.trans ⟨fun h => ⟨hc, h⟩, fun h => h.2⟩
    · rename_i hc
      exact ⟨fun h => (by cases h), fun h => absurd h.1 hc⟩

theorem digits_eq_none_iff {n : Int} {s : Bytes} : digits n s = none ↔ s.all isdigit = true := by
  induction s generalizing n with
  | nil => exact ⟨fun _ => rfl, fun _ => rfl⟩
  | cons c s ih =>
    rw [digits, List.all_cons, Bool.and_eq_true]
    split
    · rename_i hc
      exact ih.trans ⟨fun h => ⟨hc, h⟩, fun h => h.2⟩
    · rename_i hc
      exact ⟨fun h => (by cases h), fun h => absurd h.1 hc⟩

theorem skipOne_of_ne {c d : UInt8} (h : d ≠ c) (s : Bytes) : skipOne c (d :: s) = some (d :: s) := if_neg h

theorem skipOne_self (c : UInt8) (s : Bytes) : skipOne c (c :: s) = some s := if_pos rfl

theorem skipOne_cons {c : UInt8} (d : UInt8) (s : Bytes) :
    ∃ p ∈ [[], [c]], ∃ t, skipOne c (d :: s) = some t ∧ d :: s = p ++ t := by
  by_cases hd : d = c
  · subst hd
    exact ⟨[d], by simp, s, skipOne_self d s, rfl⟩
  · exact ⟨[], by simp, d :: s, skipOne_of_ne hd s, rfl⟩

/-- `1` to `9`. -/
theorem nonzero_digit {c : UInt8} (h : c ≠ 48) : (49 ≤ c && c ≤ 57) = isdigit c := by
  have h : c.toNat ≠ 48 := fun heq => h (UInt8.toNat_inj.mp heq)
  rw [isdigit, Bool.eq_iff_iff]
  simp only [Bool.and_eq_true, decide_eq_true_eq, UInt8.le_iff_toNat_le, UInt8.reduceToNat]
  omega

/-- `parse_number` behind the sign and the zero. -/
def numberTail (num : Bytes) : Option (Int × Bytes) :=
  match num with
  | [] => none
  | c :: _ => if 49 ≤ c && c ≤ 57 then digits 0 num else some (0, num)

theorem numberTail_eq_none_iff {num : Bytes} :
    numberTail num = none ↔ num.all isdigit = true ∧ num.head? ≠ some 48 := by
  cases num with
  | nil => simp [numberTail]
  | cons c s =>
    by_cases hc : c = 48
    · subst hc
      simp [numberTail]
    · rw [numberTail, nonzero_digit hc]
      split
      · rename_i hdigit
        simp [digits_eq_none_iff, hc]
      · rename_i hdigit
        simp [hdigit]

theorem parseNumber_eq (num : Bytes) :
    parseNumber num = (skipOne 45 num).bind fun num => (skipOne 48 num).bind numberTail := rfl

theorem parseNumber_eq_none_iff {num : Bytes} : parseNumber num = none ↔ CutNumber num := by
  rw [parseNumber_eq]
  constructor
  · intro h
    cases num with
    | nil => exact ⟨[], by simp, [], by simp, [], rfl, rfl, by simp⟩
    | cons d s =>
      obtain ⟨sign, hsign, t, ht, heq⟩ := @skipOne_cons 45 d s
      rw [ht, Option.bind_some] at h
      cases t with
      | nil => exact ⟨sign, hsign, [], by simp, [], by rw [heq, List.append_assoc]; rfl, rfl, by simp⟩
      | cons e u =>
        obtain ⟨zero, hzero, ds, hds, heq'⟩ := @skipOne_cons 48 e u
        rw [hds, Option.bind_some, numberTail_eq_none_iff] at h
        exact ⟨sign, hsign, zero, hzero, ds, by rw [heq, heq', List.append_assoc], h⟩
  · rintro ⟨sign, hsign, zero, hzero, ds, rfl, htail⟩
    have hnone := numberTail_eq_none_iff.mpr htail
    have hzeros : (skipOne 48 (zero ++ ds)).bind numberTail = none := by
      obtain rfl | rfl := by simpa using hzero
      · cases ds with
        | nil => rfl
        | cons c ds =>
          have hc : c ≠ 48 := by simpa using htail.2
          rw [List.nil_append, skipOne_of_ne hc]
          exact hnone
      · exact hnone
    obtain rfl | rfl := by simpa using hsign
    · rw [List.nil_append]
      cases hcs : zero ++ ds with
      | nil => rfl
      | cons c s =>
        have hc : c ≠ 45 := by
          rintro rfl
          have hmem : (45 : UInt8) ∈ zero ++ ds := hcs ▸ List.mem_cons_self
          obtain hmem | hmem := List.mem_append.mp hmem
          · obtain rfl | rfl := by simpa using hzero
            · cases hmem
            · simp at hmem
          · exact absurd (List.all_eq_true.mp htail.1 45 hmem) (by decide)
        rw [skipOne_of_ne hc, ← hcs]
        exact hzeros
    · exact hzeros

/-! ## 3. Strings -/

theorem isPlain_iff {c : UInt8} : isPlain c = true ↔ endsText c = false ∧ c ≠ 34 ∧ c ≠ 92 := by
  simp [isPlain, and_assoc]

theorem stringLen_quote (s : Bytes) : stringLen (34 :: s) = some 0 := by rw [stringLen.eq_def]; rfl

theorem stringLen_plain {c : UInt8} (h : isPlain c = true) (s : Bytes) :
    stringLen (c :: s) = (stringLen s).map (· + 1) := by
  obtain ⟨hends, hquote, hescape⟩ := isPlain_iff.mp h
  rw [stringLen.eq_def]
  simp [hends, hquote, hescape]

theorem stringLen_escape (e : UInt8) (s : Bytes) :
    stringLen (92 :: e :: s) = (stringLen s).map (· + 1) := by
  rw [stringLen.eq_def]
  simp [endsText]

theorem stringBytes_quote (uc : UInt32) (s : Bytes) : stringBytes uc (34 :: s) = some ([], s) := by
  rw [stringBytes.eq_def]
  rfl

theorem stringBytes_plain (uc : UInt32) {c : UInt8} (h : isPlain c = true) (s : Bytes) :
    stringBytes uc (c :: s) = (stringBytes uc s).map fun p => (c :: p.1, p.2) := by
  obtain ⟨hends, hquote, hescape⟩ := isPlain_iff.mp h
  rw [stringBytes.eq_def]
  simp [hends, hquote, hescape]

theorem stringBytes_escape (uc : UInt32) {e : UInt8} (he : e ≠ 117) (s : Bytes) :
    stringBytes uc (92 :: e :: s) = (stringBytes uc s).map fun p => (unescape e :: p.1, p.2) := by
  rw [stringBytes.eq_def]
  simp [endsText, he]

theorem stringLen_eq_none_iff {s : Bytes} : stringLen s = none ↔ CutLen s := by
  constructor
  · intro h
    fun_induction stringLen s with
    | case1 => exact .ended
    | case2 c s hc => cases h
    | case3 => exact .inEscape
    | case4 e s _ ih => exact .escape (ih (Option.map_eq_none_iff.mp h))
    | case5 c s hends hescape ih =>
      have hplain : isPlain c = true := isPlain_iff.mpr (by simpa [and_assoc, hescape, and_comm] using hends)
      exact .char hplain (ih (Option.map_eq_none_iff.mp h))
  · intro h
    induction h with
    | ended => rw [stringLen.eq_def]
    | char hc _ ih =>
      obtain ⟨hends, hquote, hescape⟩ := isPlain_iff.mp hc
      rw [stringLen.eq_def]
      simp [hends, hquote, hescape, ih]
    | inEscape =>
      rw [stringLen.eq_def]
      simp [endsText]
    | escape _ ih =>
      rw [stringLen.eq_def]
      simp [endsText, ih]

theorem hexDigits_eq_none_iff {n : Nat} {s : Bytes} :
    hexDigits n s = none ↔ s.length < n ∧ s.all isxdigit = true := by
  induction n generalizing s with
  | zero => simp [hexDigits]
  | succ n ih =>
    cases s with
    | nil => simp [hexDigits]
    | cons c s =>
      rw [hexDigits]
      split
      · rename_i hc
        simp [ih, hc]
      · rename_i hc
        simp [hc]

theorem sscanf4x_eq_none_iff {s : Bytes} {uc : UInt32} : sscanf4x s uc = none ↔ CutScan s := by
  rw [sscanf4x, CutScan]
  generalize s.dropWhile Kernel.isspace = t
  cases t with
  | nil => simp
  | cons c t =>
    by_cases hc : isxdigit c = true
    · cases t with
      | nil => simp [hc]
      | cons d ds =>
        by_cases hx : c = 48 ∧ tolower d = 120
        · have hzero : isxdigit 48 = true := by decide
          simp [hx, hzero, hexDigits_eq_none_iff]
        · have hlen : ds.length + 1 + 1 < 4 ↔ ds.length ≤ 1 := by omega
          simp [hc, hx, hexDigits_eq_none_iff, hlen]
          tauto
    · cases t <;> simp [hc]

theorem stringBytes_unicode {uc uc' : UInt32} {a b c d : UInt8} {s : Bytes}
    (h : sscanf4x (a :: b :: c :: d :: s) uc = some uc') :
    stringBytes uc (92 :: 117 :: a :: b :: c :: d :: s) =
      (stringBytes (utf8 uc').2 s).map fun p => ((utf8 uc').1 ++ p.1, p.2) := by
  rw [stringBytes.eq_def]
  simp [endsText, h]

theorem stringBytes_inUnicode {uc : UInt32} {s : Bytes} (h : s.length < 4 ∨ sscanf4x s uc = none) :
    stringBytes uc (92 :: 117 :: s) = none := by
  have hnone : ∀ uc' a b c d s', ¬(sscanf4x s uc = some uc' ∧ s = a :: b :: c :: d :: s') := by
    rintro uc' a b c d s' ⟨hscan, rfl⟩
    obtain hshort | hscan' := h
    · simp only [List.length_cons] at hshort
      omega
    · cases hscan.symm.trans hscan'
  rw [stringBytes.eq_def]
  simp only [if_neg (by decide : ¬(92 : UInt8) = 34), if_neg (by decide : ¬endsText 92 = true), if_true]
  split
  · rename_i hscan
    exact (hnone _ _ _ _ _ _ ⟨hscan, rfl⟩).elim
  · rfl

theorem stringBytes_eq_none_iff {s : Bytes} {uc : UInt32} : stringBytes uc s = none ↔ CutBytes s := by
  constructor
  · intro h
    fun_induction stringBytes uc s with
    | case1 uc => exact .ended
    | case2 uc s => cases h
    | case3 uc c s _ hends => cases h
    | case4 uc => exact .inEscape
    | case5 uc uc' a b c d s _ _ hscan ih =>
      simp only [hscan] at h
      exact .unicode (ih (Option.map_eq_none_iff.mp h))
    | case6 uc s hnone =>
      refine .inUnicode (Decidable.or_iff_not_imp_left.mpr fun hlong => ?_)
      match s, hnone, hlong with
      | a :: b :: c :: d :: s, hnone, _ =>
        cases hscan : sscanf4x (a :: b :: c :: d :: s) uc with
        | none => exact sscanf4x_eq_none_iff.mp hscan
        | some uc' => exact (hnone _ _ _ _ _ _ hscan rfl).elim
      | [], _, hlong | [_], _, hlong | [_, _], _, hlong | [_, _, _], _, hlong =>
        exact absurd (by simp) hlong
    | case7 uc e s he _ _ ih => exact .escape he (ih (Option.map_eq_none_iff.mp h))
    | case8 uc c s hquote hends hescape ih =>
      exact .char (isPlain_iff.mpr ⟨by simpa using hends, hquote, hescape⟩) (ih (Option.map_eq_none_iff.mp h))
  · intro h
    induction h generalizing uc with
    | ended => rw [stringBytes.eq_def]
    | char hc _ ih =>
      obtain ⟨hends, hquote, hescape⟩ := isPlain_iff.mp hc
      rw [stringBytes.eq_def]
      simp [hends, hquote, hescape, ih]
    | inEscape =>
      rw [stringBytes.eq_def]
      simp [endsText]
    | escape he _ ih =>
      rw [stringBytes.eq_def]
      simp [endsText, he, ih]
    | inUnicode hcut => exact stringBytes_inUnicode (hcut.imp_right sscanf4x_eq_none_iff.mpr)
    | @unicode a b c d s _ ih =>
      cases hscan : sscanf4x (a :: b :: c :: d :: s) uc with
      | none => exact stringBytes_inUnicode (.inr hscan)
      | some uc' => rw [stringBytes_unicode hscan, ih, Option.map_none]

theorem parseString_eq_none_iff {s : Bytes} :
    parseString uninit s = none ↔ CutString s := by
  rw [parseString, CutString, ← stringLen_eq_none_iff, ← stringBytes_eq_none_iff]
  cases stringLen s with
  | none => simp
  | some len => cases stringBytes (uninit s) s <;> simp

/-! ## 4. Tokens end in the text -/

theorem skip_suffix {s v : Bytes} (h : skip s = some v) : v <:+ s := by
  induction s with
  | nil => cases h
  | cons c s ih =>
    rw [skip] at h
    split at h
    · exact (ih h).trans (List.suffix_cons c s)
    · exact Option.some.inj h ▸ List.suffix_rfl

theorem skip_length {s v : Bytes} (h : skip s = some v) : v.length ≤ s.length := (skip_suffix h).length_le

theorem digits_suffix {n m : Int} {s rest : Bytes} (h : digits n s = some (m, rest)) : rest <:+ s := by
  induction s generalizing n with
  | nil => cases h
  | cons c s ih =>
    rw [digits] at h
    split at h
    · exact (ih h).trans (List.suffix_cons c s)
    · exact (Prod.mk.inj (Option.some.inj h)).2 ▸ List.suffix_rfl

theorem skipOne_suffix {c : UInt8} {s rest : Bytes} (h : skipOne c s = some rest) : rest <:+ s := by
  cases s with
  | nil => cases h
  | cons d s =>
    rw [skipOne] at h
    split at h
    · exact Option.some.inj h ▸ List.suffix_cons d s
    · exact Option.some.inj h ▸ List.suffix_rfl

theorem parseNumber_suffix {n : Int} {s rest : Bytes} (h : parseNumber s = some (n, rest)) : rest <:+ s := by
  obtain ⟨s₁, h₁, h⟩ := Option.bind_eq_some_iff.mp h
  obtain ⟨s₂, h₂, h⟩ := Option.bind_eq_some_iff.mp h
  have hsuffix : s₂ <:+ s := (skipOne_suffix h₂).trans (skipOne_suffix h₁)
  cases s₂ with
  | nil => cases h
  | cons c s₂ =>
    simp only at h
    split at h
    · exact (digits_suffix h).trans hsuffix
    · exact (Prod.mk.inj (Option.some.inj h)).2 ▸ hsuffix

theorem stringBytes_suffix {uc : UInt32} {s : Bytes} {out rest : List UInt8}
    (h : stringBytes uc s = some (out, rest)) : rest <:+ s := by
  fun_induction stringBytes uc s generalizing out rest with
  | case1 uc => cases h
  | case2 uc s => exact (Prod.mk.inj (Option.some.inj h)).2 ▸ List.suffix_cons 34 s
  | case3 uc c s => exact (Prod.mk.inj (Option.some.inj h)).2 ▸ List.suffix_rfl
  | case4 uc => cases h
  | case5 uc uc' a b c d s _ _ hscan ih =>
    simp only [hscan] at h
    obtain ⟨⟨out', rest'⟩, hrec, heq⟩ := Option.map_eq_some_iff.mp h
    obtain ⟨-, rfl⟩ := Prod.mk.inj heq
    exact (ih hrec).trans (List.suffix_append [92, 117, a, b, c, d] s)
  | case6 uc s hnone =>
    split at h
    · exact (hnone _ _ _ _ _ _ ‹_› rfl).elim
    · cases h
  | case7 uc e s _ _ _ ih =>
    obtain ⟨⟨out', rest'⟩, hrec, heq⟩ := Option.map_eq_some_iff.mp h
    obtain ⟨-, rfl⟩ := Prod.mk.inj heq
    exact (ih hrec).trans (List.suffix_append [92, e] s)
  | case8 uc c s _ _ _ ih =>
    obtain ⟨⟨out', rest'⟩, hrec, heq⟩ := Option.map_eq_some_iff.mp h
    obtain ⟨-, rfl⟩ := Prod.mk.inj heq
    exact (ih hrec).trans (List.suffix_cons c s)

/-! ## 5. What a string takes -/

/-- What ends a string is white space, but for the quote. -/
theorem isBlank_of_endsText {c : UInt8} (h : endsText c = true) : isBlank c = true := by
  simp only [endsText, isBlank, Bool.or_eq_true, decide_eq_true_eq] at h ⊢
  exact h.imp_left fun hle => UInt8.le_trans hle (by decide)

/-- What it takes at least to write a character. -/
def charCost (c : UInt8) : Nat := if isPlain c then 1 else 2

/-- What it takes at least to write a text. -/
def textCost (out : List UInt8) : Nat := (out.map charCost).sum

theorem charCost_le (c : UInt8) : charCost c ≤ 2 := by
  rw [charCost]
  split <;> omega

theorem textCost_append (out out' : List UInt8) : textCost (out ++ out') = textCost out + textCost out' := by
  rw [textCost, List.map_append, List.sum_append]
  rfl

theorem textCost_cons (c : UInt8) (out : List UInt8) : textCost (c :: out) = charCost c + textCost out := by
  rw [textCost, List.map_cons, List.sum_cons]
  rfl

theorem textCost_utf8 (uc : UInt32) : textCost (utf8 uc).1 ≤ 6 := by
  have hthree : ∀ a b c : UInt8, textCost [a, b, c] ≤ 6 := by
    intro a b c
    have ha := charCost_le a
    have hb := charCost_le b
    have hc := charCost_le c
    simp only [textCost, List.map_cons, List.map_nil, List.sum_cons, List.sum_nil]
    omega
  have htwo : ∀ a b : UInt8, textCost [a, b] ≤ 6 := fun a b =>
    Nat.le_trans (by simp [textCost]) (hthree a b 0)
  simp only [utf8]
  split
  · exact Nat.le_trans (by simp [textCost]) (hthree uc.toUInt8 0 0)
  · split
    · exact htwo _ _
    · exact hthree _ _ _

/-- **A string takes what its characters take**, and the mark at its end or what ends it otherwise. -/
theorem stringBytes_cost {uc : UInt32} {s : Bytes} {out rest : List UInt8}
    (h : stringBytes uc s = some (out, rest)) : textCost out + rest.length ≤ s.length ∧
      (textCost out + rest.length < s.length ∨ rest.head?.any endsText = true) := by
  fun_induction stringBytes uc s generalizing out rest with
  | case1 uc => cases h
  | case2 uc s =>
    obtain ⟨rfl, rfl⟩ := Prod.mk.inj (Option.some.inj h)
    simp [textCost]
  | case3 uc c s _ hends =>
    obtain ⟨rfl, rfl⟩ := Prod.mk.inj (Option.some.inj h)
    simp [textCost, hends]
  | case4 uc => cases h
  | case5 uc uc' a b c d s _ _ hscan ih =>
    simp only [hscan] at h
    obtain ⟨⟨out', rest'⟩, hrec, heq⟩ := Option.map_eq_some_iff.mp h
    obtain ⟨rfl, rfl⟩ := Prod.mk.inj heq
    obtain ⟨hle, hends⟩ := ih hrec
    have hutf8 := textCost_utf8 uc'
    simp only [textCost_append, List.length_cons]
    exact ⟨by omega, hends.imp (by omega) id⟩
  | case6 uc s hnone =>
    split at h
    · rename_i heq
      exact (hnone _ _ _ _ _ _ ‹_› rfl).elim
    · cases h
  | case7 uc e s _ _ _ ih =>
    obtain ⟨⟨out', rest'⟩, hrec, heq⟩ := Option.map_eq_some_iff.mp h
    obtain ⟨rfl, rfl⟩ := Prod.mk.inj heq
    obtain ⟨hle, hends⟩ := ih hrec
    have hcost := charCost_le (unescape e)
    simp only [textCost_cons, List.length_cons]
    exact ⟨by omega, hends.imp (by omega) id⟩
  | case8 uc c s hquote hends hescape ih =>
    obtain ⟨⟨out', rest'⟩, hrec, heq⟩ := Option.map_eq_some_iff.mp h
    obtain ⟨rfl, rfl⟩ := Prod.mk.inj heq
    obtain ⟨hle, hends'⟩ := ih hrec
    have hcost : charCost c = 1 := by
      rw [charCost, isPlain, if_pos]
      simp [hquote, hends, hescape]
    simp only [textCost_cons, List.length_cons]
    exact ⟨by omega, hends'.imp (by omega) id⟩

theorem parseString_eq {s : Bytes} {str : CStr} {rest : Bytes}
    (h : parseString uninit s = some (str, rest)) :
    ∃ out, stringBytes (uninit s) s = some (out, rest) ∧ str = .ofBytes out := by
  obtain ⟨_, _, h⟩ := Option.bind_eq_some_iff.mp h
  obtain ⟨⟨out, rest'⟩, hbytes, h⟩ := Option.bind_eq_some_iff.mp h
  obtain ⟨rfl, rfl⟩ := Prod.mk.inj (Option.some.inj h)
  exact ⟨out, hbytes, rfl⟩

theorem textCost_prefix {l l' : List UInt8} (h : l <+: l') : textCost l ≤ textCost l' := by
  obtain ⟨t, rfl⟩ := h
  rw [textCost_append]
  exact Nat.le_add_right _ _

theorem parseString_cost {s : Bytes} {str : CStr} {rest : Bytes}
    (h : parseString uninit s = some (str, rest)) : textCost str.bytes + rest.length ≤ s.length ∧
      (textCost str.bytes + rest.length < s.length ∨ rest.head?.any endsText = true) := by
  obtain ⟨out, hbytes, rfl⟩ := parseString_eq h
  obtain ⟨hle, hends⟩ := stringBytes_cost hbytes
  have hcut : textCost (CStr.ofBytes out).bytes ≤ textCost out := textCost_prefix (List.takeWhile_prefix _)
  exact ⟨by omega, hends.imp (by omega) id⟩

theorem parseString_suffix {s : Bytes} {str : CStr} {rest : Bytes}
    (h : parseString uninit s = some (str, rest)) : rest <:+ s := by
  obtain ⟨out, hbytes, rfl⟩ := parseString_eq h
  exact stringBytes_suffix hbytes

theorem parseString_length {s : Bytes} {str : CStr} {rest : Bytes}
    (h : parseString uninit s = some (str, rest)) : rest.length ≤ s.length :=
  (parseString_suffix h).length_le

end Oaf
