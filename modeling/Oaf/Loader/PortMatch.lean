/-
# The destination ports of a feature

A port field is a list of items, joined by `|`: a port or a range of ports, and a `!` before it
when it is meant to be left out.  `PortItem` is a well-formed item; `ReadsRange` is what
`sscanf` takes for one, which is more: it stops where the digits end and never looks at the rest.

* `rangeOf_eq_some_iff`: an item gives a range iff it reads as one.
* `ranges_portField`: the ranges of a list of well-formed items, their numbers taken as `int`s.
* `parsePortInfo_match_iff`: a field with no well-formed item at all should not match every
  port.  An empty list matches every port, so it does unless an item is read all the same, and
  what is read leaves out a port.
-/
import Oaf.Loader.Bounds
import Oaf.Lib.Words

namespace Oaf

open CLib

/-! ## 1. What is read as a range -/

/-- `sscanf` reads `start` and `stop` from a text: with `%d-%d` if it has a `-`, with `%d` if not. -/
def ReadsRange (text : List UInt8) (start stop : Int) : Prop :=
  (45 ∉ text ∧ (∃ rest, Kernel.ReadsInt text start rest) ∧ stop = start) ∨
    (45 ∈ text ∧ ∃ mid rest, Kernel.ReadsInt text start (45 :: mid) ∧
      Kernel.ReadsInt (mid.dropWhile Kernel.isspace) stop rest)

/-- An item of a port list reads as a range: it has only blanks, `!`, `-` and digits, and behind
its `!` and the blanks `sscanf` finds the range. -/
def ReadsItem (item : CStr) (range : RangeValue) : Prop :=
  validateRangeValue item = true ∧
    (range.neg = true ↔ (Kernel.trim item.bytes).head? = some 33) ∧
    ReadsRange (if range.neg then Kernel.trim (Kernel.trim item.bytes).tail
      else Kernel.trim item.bytes) range.start range.stop

theorem dropWhile_trim (l : List UInt8) :
    (Kernel.trim l).dropWhile Kernel.isspace = Kernel.trim l := by
  cases h : Kernel.trim l with
  | nil => rfl
  | cons c rest =>
    have hpre := Kernel.trim_sublist_dropWhile l
    rw [h] at hpre
    obtain ⟨more, hmore⟩ := hpre
    have hnot := List.head?_dropWhile_not Kernel.isspace l
    rw [← hmore] at hnot
    have hc : Kernel.isspace c = false := by simpa using hnot
    rw [List.dropWhile_cons_of_neg (by simp [hc])]

theorem trim_trim (l : List UInt8) : Kernel.trim (Kernel.trim l) = Kernel.trim l := by
  rw [Kernel.trim, dropWhile_trim, Kernel.trim, List.rdropWhile_idempotent]

theorem vsscanf_d {text : List UInt8} {v : Int} :
    Kernel.vsscanf Kernel.isspace [.d] text = [v] ↔
      ∃ rest, Kernel.scanD (text.dropWhile Kernel.isspace) = some (v, rest) := by
  rw [Kernel.vsscanf]
  cases h : Kernel.scanD (text.dropWhile Kernel.isspace) with
  | none => simp
  | some found => simp [Kernel.vsscanf, Prod.ext_iff]

theorem vsscanf_lit_d {text : List UInt8} {v : Int} :
    Kernel.vsscanf Kernel.isspace [.lit 45, .d] text = [v] ↔
      ∃ mid rest, text = 45 :: mid ∧
        Kernel.scanD (mid.dropWhile Kernel.isspace) = some (v, rest) := by
  cases text with
  | nil => simp [Kernel.vsscanf]
  | cons c mid =>
    by_cases hc : (45 : UInt8) = c
    · subst hc
      have hstep : Kernel.vsscanf Kernel.isspace [.lit 45, .d] (45 :: mid) =
          Kernel.vsscanf Kernel.isspace [.d] mid := by
        rw [Kernel.vsscanf]
        exact if_pos rfl
      rw [hstep, vsscanf_d]
      simp
    · have hstep : Kernel.vsscanf Kernel.isspace [.lit 45, .d] (c :: mid) = [] := by
        rw [Kernel.vsscanf]
        exact if_neg hc
      rw [hstep]
      simp [Ne.symm hc]

theorem vsscanf_d_d {text : List UInt8} {v w : Int} :
    Kernel.vsscanf Kernel.isspace [.d, .lit 45, .d] text = [v, w] ↔
      ∃ mid rest, Kernel.scanD (text.dropWhile Kernel.isspace) = some (v, 45 :: mid) ∧
        Kernel.scanD (mid.dropWhile Kernel.isspace) = some (w, rest) := by
  rw [Kernel.vsscanf]
  cases h : Kernel.scanD (text.dropWhile Kernel.isspace) with
  | none => simp
  | some found =>
    obtain ⟨a, next⟩ := found
    simp only [List.cons.injEq, vsscanf_lit_d, Option.some.injEq, Prod.mk.injEq]
    constructor
    · rintro ⟨rfl, mid, rest, rfl, hrest⟩
      exact ⟨mid, rest, ⟨rfl, rfl⟩, hrest⟩
    · rintro ⟨mid, rest, ⟨rfl, rfl⟩, hrest⟩
      exact ⟨rfl, mid, rest, rfl, hrest⟩

theorem length_of_readsInt {text mid : List UInt8} {v : Int}
    (h : Kernel.ReadsInt text v (45 :: mid)) :
    (mid.dropWhile Kernel.isspace).length ≤ text.length := by
  obtain ⟨neg, digits, -, -, -, rfl, -⟩ := h
  have hle := (List.dropWhile_suffix Kernel.isspace (l := mid)).length_le
  rw [List.length_append, List.length_cons]
  omega

/-- The scan of a trimmed text. -/
theorem scanRange_iff {neg : Bool} {text : CStr} {range : RangeValue} (hlen : text.strlen ≤ 18)
    (htrim : text.bytes.dropWhile Kernel.isspace = text.bytes) :
    scanRange neg text = some range ↔
      range.neg = neg ∧ ReadsRange text.bytes range.start range.stop := by
  have hint := fun v rest => @Kernel.scanD_iff text.bytes rest v hlen
  obtain ⟨rneg, start, stop⟩ := range
  rw [scanRange, CStr.strchr, ReadsRange]
  by_cases hdash : 45 ∈ text.bytes
  · rw [if_pos (by simpa using hdash)]
    have hpair := @vsscanf_d_d text.bytes
    rw [htrim] at hpair
    simp only [hdash, not_true_eq_false, false_and, true_and, false_or]
    constructor
    · intro h
      split at h
      · rename_i a b hvals
        obtain ⟨mid, rest, h1, h2⟩ := hpair.mp hvals
        obtain ⟨rfl, rfl, rfl⟩ := RangeValue.mk.inj (Option.some.inj h)
        have hread := (hint _ _).mp h1
        have hmid := (length_of_readsInt hread).trans hlen
        exact ⟨rfl, mid, rest, hread, (Kernel.scanD_iff hmid).mp h2⟩
      · cases h
    · rintro ⟨rfl, mid, rest, h1, h2⟩
      have hmid := (length_of_readsInt h1).trans hlen
      rw [hpair.mpr ⟨mid, rest, (hint _ _).mpr h1, (Kernel.scanD_iff hmid).mpr h2⟩]
  · rw [if_neg (by simpa using hdash)]
    have hsingle := @vsscanf_d text.bytes
    rw [htrim] at hsingle
    simp only [hdash, not_false_eq_true, true_and, false_and, or_false]
    constructor
    · intro h
      split at h
      · rename_i a hvals
        obtain ⟨rest, h1⟩ := hsingle.mp hvals
        obtain ⟨rfl, rfl, rfl⟩ := RangeValue.mk.inj (Option.some.inj h)
        exact ⟨rfl, ⟨rest, (hint _ _).mp h1⟩, rfl⟩
      · cases h
    · rintro ⟨rfl, ⟨rest, h1⟩, rfl⟩
      rw [hsingle.mpr ⟨rest, (hint _ _).mpr h1⟩]

theorem get_zero_beq (s : CStr) : (s.get 0 == 33) = decide (s.bytes.head? = some 33) := by
  rw [CStr.get]
  cases s.bytes with
  | nil => rfl
  | cons c l => simp [beq_eq_decide]

/-- The text of an item that is scanned. -/
def scannedText (neg : Bool) (item : CStr) : CStr :=
  Kernel.trimStr (if neg then .ofBytes (Kernel.trimStr item).bytes.tail else Kernel.trimStr item)

theorem rangeOf_eq_scanRange {neg : Bool} {item : CStr}
    (hneg : neg = decide ((Kernel.trim item.bytes).head? = some 33)) :
    rangeOf item = if validateRangeValue item then scanRange neg (scannedText neg item) else none := by
  have hget : ((Kernel.trimStr item).get 0 == 33) = neg := (get_zero_beq _).trans hneg.symm
  simp only [rangeOf, hget, scannedText]

theorem scannedText_bytes (neg : Bool) (item : CStr) :
    (scannedText neg item).bytes =
      if neg then Kernel.trim (Kernel.trim item.bytes).tail else Kernel.trim item.bytes := by
  cases neg with
  | false => exact trim_trim item.bytes
  | true =>
    have htail : (CStr.ofBytes (Kernel.trimStr item).bytes.tail).bytes =
        (Kernel.trim item.bytes).tail :=
      CStr.ofBytes_of_noNul fun h0 => (Kernel.trimStr item).noNul (List.mem_of_mem_tail h0)
    rw [if_pos rfl, ← htail]
    rfl

theorem scannedText_strlen_le (neg : Bool) (item : CStr) :
    (scannedText neg item).strlen ≤ item.strlen := by
  have h1 : (Kernel.trim item.bytes).length ≤ item.bytes.length := Kernel.trim_length_le _
  rw [CStr.strlen, scannedText_bytes, CStr.strlen]
  split
  · have h2 := Kernel.trim_length_le (Kernel.trim item.bytes).tail
    rw [List.length_tail] at h2
    omega
  · exact h1

/-- **An item gives a range** iff it reads as one. -/
theorem rangeOf_eq_some_iff {item : CStr} {range : RangeValue} (hlen : item.strlen ≤ 18) :
    rangeOf item = some range ↔ ReadsItem item range := by
  obtain ⟨neg, hneg⟩ : ∃ neg, neg = decide ((Kernel.trim item.bytes).head? = some 33) := ⟨_, rfl⟩
  have hshort := (scannedText_strlen_le neg item).trans hlen
  have htrim : (scannedText neg item).bytes.dropWhile Kernel.isspace =
      (scannedText neg item).bytes := dropWhile_trim _
  have hsign : range.neg = neg ↔
      (range.neg = true ↔ (Kernel.trim item.bytes).head? = some 33) := by
    rw [hneg, Bool.eq_iff_iff, decide_eq_true_eq]
  rw [rangeOf_eq_scanRange hneg, ReadsItem]
  cases validateRangeValue item with
  | false => simp
  | true =>
    rw [if_pos rfl, scanRange_iff hshort htrim, scannedText_bytes, ← hsign]
    constructor
    · rintro ⟨h1, h2⟩
      rw [h1]
      exact ⟨rfl, rfl, h2⟩
    · rintro ⟨-, h1, h2⟩
      rw [h1] at h2
      exact ⟨h1, h2⟩

/-! ## 2. Well-formed items -/

def blanks (n : Nat) : List UInt8 := List.replicate n 32

/-- One item as it should be written: blanks, `!` and blanks when it is negated, a port or two
with a `-` between, blanks. -/
structure PortItem where
  before : Nat
  neg : Bool
  gap : Nat
  low : List UInt8
  high : Option (List UInt8)
  after : Nat
  low_ne : low ≠ []
  low_digits : ∀ c ∈ low, isdigit c = true
  high_ne : ∀ l, high = some l → l ≠ []
  high_digits : ∀ l, high = some l → ∀ c ∈ l, isdigit c = true

namespace PortItem

def number (item : PortItem) : List UInt8 :=
  item.low ++ (item.high.elim [] (45 :: ·))

/-- The item without the blanks around it. -/
def core (item : PortItem) : List UInt8 :=
  if item.neg then 33 :: (blanks item.gap ++ item.number) else item.number

def text (item : PortItem) : List UInt8 := blanks item.before ++ (item.core ++ blanks item.after)

/-- The ports the item names. -/
def range (item : PortItem) : RangeValue :=
  ⟨item.neg, Kernel.ofDigits 10 item.low, Kernel.ofDigits 10 (item.high.getD item.low)⟩

/-- Its numbers as `int`s, the way `sscanf` stores them. -/
def stored (item : PortItem) : RangeValue :=
  ⟨item.neg, Kernel.toInt32 item.range.start, Kernel.toInt32 item.range.stop⟩

theorem mem_number {item : PortItem} {c : UInt8} (h : c ∈ item.number) :
    isdigit c = true ∨ c = 45 := by
  rcases List.mem_append.mp h with h | h
  · exact Or.inl (item.low_digits c h)
  · cases hhigh : item.high with
    | none => simp [hhigh] at h
    | some l =>
      rw [hhigh] at h
      rcases List.mem_cons.mp h with h | h
      · exact Or.inr h
      · exact Or.inl (item.high_digits l hhigh c h)

theorem number_ne_nil (item : PortItem) : item.number ≠ [] := by
  simp [number, item.low_ne]

theorem mem_text {item : PortItem} {c : UInt8} (h : c ∈ item.text) :
    isdigit c = true ∨ c = 45 ∨ c = 32 ∨ c = 33 := by
  have hblank : ∀ n, c ∈ blanks n → c = 32 := fun n hc => List.eq_of_mem_replicate hc
  have hnumber : c ∈ item.number → isdigit c = true ∨ c = 45 ∨ c = 32 ∨ c = 33 := by
    intro hc
    rcases mem_number hc with hc | hc
    · exact Or.inl hc
    · exact Or.inr (Or.inl hc)
  rcases List.mem_append.mp h with h | h
  · simp [hblank _ h]
  · rcases List.mem_append.mp h with h | h
    · unfold core at h
      split at h
      · rcases List.mem_cons.mp h with h | h
        · simp [h]
        · rcases List.mem_append.mp h with h | h
          · simp [hblank _ h]
          · exact hnumber h
      · exact hnumber h
    · simp [hblank _ h]

theorem zero_not_mem (item : PortItem) : 0 ∉ item.text := by
  intro h
  rcases mem_text h with h | h | h | h <;> exact absurd h (by decide)

theorem bar_not_mem (item : PortItem) : 124 ∉ item.text := by
  intro h
  rcases mem_text h with h | h | h | h <;> exact absurd h (by decide)

/-- The item as a string. -/
def str (item : PortItem) : CStr := ⟨item.text, item.zero_not_mem⟩

theorem isspace_blanks {n : Nat} {c : UInt8} (h : c ∈ blanks n) : Kernel.isspace c = true := by
  rw [List.eq_of_mem_replicate h]
  decide

theorem number_ends (item : PortItem) {c : UInt8}
    (h : item.number.head? = some c ∨ item.number.getLast? = some c) :
    Kernel.isspace c = false := by
  have hmem : c ∈ item.number := by
    rcases h with h | h
    · exact List.mem_of_head? h
    · exact List.mem_of_getLast? h
  exact Kernel.isspace_of_digit (mem_number hmem)

/-- An item neither starts nor ends with a blank. -/
theorem core_ends (item : PortItem) {c : UInt8}
    (h : item.core.head? = some c ∨ item.core.getLast? = some c) : Kernel.isspace c = false := by
  unfold core at h
  split at h
  · rcases h with h | h
    · rw [List.head?_cons, Option.some.injEq] at h
      rw [← h]
      decide
    · rw [← List.cons_append, List.getLast?_append_of_ne_nil _ item.number_ne_nil] at h
      exact item.number_ends (Or.inr h)
  · exact item.number_ends h

theorem trim_text (item : PortItem) : Kernel.trim item.text = item.core :=
  Kernel.trim_append (fun _ => isspace_blanks) (fun _ => isspace_blanks)
    (fun _ h => item.core_ends (Or.inl h)) (fun _ h => item.core_ends (Or.inr h))

theorem head_core (item : PortItem) : item.core.head? = some 33 ↔ item.neg = true := by
  unfold core
  split
  · rename_i h
    simp [h]
  · rename_i h
    refine ⟨fun hhead => ?_, fun hneg => absurd hneg h⟩
    rcases mem_number (List.mem_of_head? hhead) with h | h <;> exact absurd h (by decide)

theorem trim_tail_core (item : PortItem) (h : item.neg = true) :
    Kernel.trim item.core.tail = item.number := by
  have htail : item.core.tail = blanks item.gap ++ (item.number ++ []) := by
    rw [core, if_pos h, List.tail_cons, List.append_nil]
  rw [htail]
  exact Kernel.trim_append (fun _ => isspace_blanks) (by simp)
    (fun _ h => item.number_ends (Or.inl h)) (fun _ h => item.number_ends (Or.inr h))

theorem readsInt_digits {digits rest : List UInt8} (hne : digits ≠ [])
    (hdigits : ∀ c ∈ digits, isdigit c = true) (h : NoDigitHead rest) :
    Kernel.ReadsInt (digits ++ rest) (Kernel.toInt32 (Kernel.ofDigits 10 digits)) rest :=
  ⟨false, digits, hne, hdigits, h, by simp [Kernel.decText], by simp [Kernel.decVal]⟩

theorem readsRange_number (item : PortItem) :
    ReadsRange item.number item.stored.start item.stored.stop := by
  have hlow : (45 : UInt8) ∉ item.low := fun h => absurd (item.low_digits 45 h) (by decide)
  have hstart : item.stored.start = Kernel.toInt32 (Kernel.ofDigits 10 item.low) := by
    simp only [stored, range]
  cases hhigh : item.high with
  | none =>
    have hnumber : item.number = item.low ++ [] := by simp [number, hhigh]
    have hread := readsInt_digits item.low_ne item.low_digits noDigitHead_nil
    refine Or.inl ⟨by simp [hnumber, hlow], ⟨[], ?_⟩, by simp [stored, range, hhigh]⟩
    rw [hnumber, hstart]
    exact hread
  | some l =>
    have hl := item.high_digits l hhigh
    have hnumber : item.number = item.low ++ 45 :: (l ++ []) := by simp [number, hhigh]
    have hread1 := readsInt_digits item.low_ne item.low_digits
      (noDigitHead_cons (c := 45) (l := l ++ []) (by decide))
    have hread2 := readsInt_digits (item.high_ne l hhigh) hl noDigitHead_nil
    have hstop : item.stored.stop = Kernel.toInt32 (Kernel.ofDigits 10 l) := by
      simp [stored, range, hhigh]
    have hdrop : (l ++ []).dropWhile Kernel.isspace = l ++ [] := by
      obtain ⟨c, t, ht⟩ := List.exists_cons_of_ne_nil (item.high_ne l hhigh)
      have hc := Kernel.isspace_of_digit (Or.inl (hl c (by rw [ht]; simp)))
      rw [ht, List.cons_append, List.dropWhile_cons_of_neg (by simp [hc])]
    refine Or.inr ⟨by simp [hnumber], l ++ [], [], ?_, ?_⟩
    · rw [hnumber, hstart]
      exact hread1
    · rw [hdrop, hstop]
      exact hread2

/-- **A well-formed item reads as the range it names**, its numbers taken as `int`s. -/
theorem rangeOf_str (item : PortItem) (hlen : item.text.length ≤ 18) :
    rangeOf item.str = some item.stored := by
  have hlen : item.str.strlen ≤ 18 := hlen
  refine (rangeOf_eq_some_iff hlen).mpr ⟨?_, ?_, ?_⟩
  · refine List.all_eq_true.mpr ?_
    intro c hc
    rcases mem_text hc with h | rfl | rfl | rfl
    · simp [h]
    all_goals decide
  · rw [str, item.trim_text, item.head_core]
    rfl
  · have hbytes : (if item.stored.neg then Kernel.trim (Kernel.trim item.str.bytes).tail
        else Kernel.trim item.str.bytes) = item.number := by
      rw [str, item.trim_text]
      by_cases hneg : item.neg = true
      · have hneg' : item.stored.neg = true := hneg
        rw [if_pos hneg', item.trim_tail_core hneg]
      · have hneg' : ¬ item.stored.neg = true := hneg
        rw [if_neg hneg', core, if_neg hneg]
    rw [hbytes]
    exact item.readsRange_number

/-- Below 2^31 the numbers are stored as they are. -/
theorem stored_eq_range {item : PortItem} (h1 : item.range.start < 2 ^ 31)
    (h2 : item.range.stop < 2 ^ 31) : item.stored = item.range := by
  have hlow : (0 : Int) ≤ item.range.start := Int.natCast_nonneg _
  have hhigh : (0 : Int) ≤ item.range.stop := Int.natCast_nonneg _
  rw [stored, Kernel.toInt32_self (by omega) h1, Kernel.toInt32_self (by omega) h2]
  rfl

theorem number_length_le (item : PortItem) : item.number.length ≤ item.text.length := by
  have hcore : item.number.length ≤ item.core.length := by
    rw [core]
    split
    · rw [List.length_cons, List.length_append]
      omega
    · exact Nat.le_refl _
  rw [text, List.length_append, List.length_append]
  omega

/-- Numbers of nine digits are below it. -/
theorem stored_eq_range_of_short {item : PortItem} (h : item.text.length ≤ 9) :
    item.stored = item.range := by
  have hnumber := item.number_length_le.trans h
  have hint : ∀ digits : List UInt8, (∀ c ∈ digits, isdigit c = true) → digits.length ≤ 9 →
      (Kernel.ofDigits 10 digits : Int) < 2 ^ 31 := by
    intro digits hdigits hlen
    have hlt := Kernel.ofDigits_lt_pow hdigits
    have hle : 10 ^ digits.length ≤ 10 ^ 9 := Nat.pow_le_pow_right (by decide) hlen
    omega
  rw [number, List.length_append] at hnumber
  refine stored_eq_range (hint _ item.low_digits (by omega)) ?_
  rw [range]
  cases hhigh : item.high with
  | none => exact hint item.low item.low_digits (by omega)
  | some l =>
    rw [hhigh] at hnumber
    exact hint l (item.high_digits l hhigh) (by
      simp only [Option.elim_some, List.length_cons] at hnumber
      omega)

end PortItem

/-- A piece of a field is a well-formed item. -/
def WellFormedItem (piece : List UInt8) : Prop := ∃ item : PortItem, item.text = piece

/-- The field that lists the items. -/
def portField (items : List PortItem) : List UInt8 := [124].intercalate (items.map (·.text))

namespace PortItem

def dropBefore (item : PortItem) : PortItem := { item with before := 0 }

def dropAfter (item : PortItem) : PortItem := { item with after := 0 }

theorem core_ne_nil (item : PortItem) : item.core ≠ [] := by
  unfold core
  split
  · exact List.cons_ne_nil _ _
  · exact item.number_ne_nil

theorem text_ne_nil (item : PortItem) : item.text ≠ [] := by
  simp [text, item.core_ne_nil]

theorem text_dropBefore (item : PortItem) :
    item.text = blanks item.before ++ item.dropBefore.text := rfl

theorem text_dropAfter (item : PortItem) :
    item.text = item.dropAfter.text ++ blanks item.after := by
  have h : item.dropAfter.text = blanks item.before ++ (item.core ++ []) := rfl
  rw [h, List.append_nil, List.append_assoc, text]

end PortItem

theorem portField_cons (first : PortItem) (rest : List PortItem) :
    portField (first :: rest) = first.text ++ rest.flatMap (124 :: ·.text) := by
  rw [portField, List.map_cons, intercalate_cons_eq, List.flatMap_map]

theorem portField_concat (init : List PortItem) :
    ∃ front, ∀ last' : PortItem, portField (init ++ [last']) = front ++ last'.text := by
  cases init with
  | nil => exact ⟨[], fun last' => by simp [portField]⟩
  | cons first init =>
    refine ⟨portField (first :: init) ++ [124], ?_⟩
    intro last'
    rw [portField, List.map_append, intercalate_append (by simp) (by simp)]
    simp [portField]

/-- Blanks in front of the first item and behind the last do not belong to the field. -/
theorem trim_portField {items : List PortItem} (hne : items ≠ []) :
    ∃ items' : List PortItem, items' ≠ [] ∧ items'.map (·.stored) = items.map (·.stored) ∧
      Kernel.trim (portField items) = portField items' := by
  obtain ⟨init, last, rfl⟩ := (List.eq_nil_or_concat' items).resolve_left hne
  obtain ⟨front, hfront⟩ := portField_concat init
  obtain ⟨first, rest, hfirst⟩ := List.exists_cons_of_ne_nil
    (List.append_ne_nil_of_right_ne_nil init (List.cons_ne_nil last.dropAfter []))
  have hsplit : portField (first :: rest) =
      blanks first.before ++ portField (first.dropBefore :: rest) := by
    rw [portField_cons, portField_cons, ← List.append_assoc, ← PortItem.text_dropBefore]
  have hwhole : portField (init ++ [last]) =
      blanks first.before ++ (portField (first.dropBefore :: rest) ++ blanks last.after) := by
    rw [← List.append_assoc, ← hsplit, ← hfirst, hfront, hfront, List.append_assoc,
      ← PortItem.text_dropAfter]
  refine ⟨first.dropBefore :: rest, List.cons_ne_nil _ _, ?_, ?_⟩
  · have hstored : (first :: rest).map (·.stored) = (init ++ [last]).map (·.stored) := by
      rw [← hfirst, List.map_append, List.map_append]
      rfl
    rw [← hstored]
    rfl
  · rw [hwhole]
    refine Kernel.trim_append (fun _ => PortItem.isspace_blanks)
      (fun _ => PortItem.isspace_blanks) ?_ ?_
    · intro c hc
      have htext : first.dropBefore.text = first.core ++ blanks first.after := rfl
      rw [portField_cons, htext, List.append_assoc,
        List.head?_append_of_ne_nil _ first.core_ne_nil] at hc
      exact first.core_ends (Or.inl hc)
    · intro c hc
      have hlast : (portField (first :: rest)).getLast? = some c := by
        rw [hsplit, List.getLast?_append_of_ne_nil _ (by simp [portField_cons,
          PortItem.text_ne_nil]), hc]
      have htext : last.dropAfter.text = blanks last.before ++ last.core := by
        have h : last.dropAfter.text = blanks last.before ++ (last.core ++ []) := rfl
        rw [h, List.append_nil]
      rw [← hfirst, hfront, htext, ← List.append_assoc,
        List.getLast?_append_of_ne_nil _ last.core_ne_nil] at hlast
      exact last.core_ends (Or.inr hlast)

theorem text_length_le {items : List PortItem} {item : PortItem} (h : item ∈ items) :
    item.text.length ≤ (portField items).length := by
  obtain ⟨pre, post, rfl⟩ := List.append_of_mem h
  cases pre with
  | nil => simp [portField_cons]
  | cons first pre =>
    simp only [List.cons_append, portField_cons, List.length_append, List.flatMap_append,
      List.flatMap_cons, List.length_cons]
    omega

/-- **The ranges of a field of well-formed items** are those of its items. -/
theorem ranges_portField {field : CStr} {items : List PortItem} (hne : items ≠ [])
    (hfield : field.bytes = portField items) (hlen : field.strlen ≤ 18) :
    (portItems field).map rangeOf = items.map (fun item => some item.stored) := by
  obtain ⟨items', hne', hstored, htrim⟩ := trim_portField hne
  have hbytes : (Kernel.trimStr field).bytes = portField items' := by
    rw [← htrim, ← hfield]
    rfl
  have hshort : (portField items').length ≤ 18 := by
    rw [← hbytes]
    exact (Kernel.trimStr_strlen_le field).trans hlen
  obtain ⟨init, last, rfl⟩ := (List.eq_nil_or_concat' items').resolve_left hne'
  have htokens : tokens 124 (Kernel.trimStr field) = (init.map (·.str), last.str) := by
    refine tokens_intercalate ?_ last.bar_not_mem ?_ ?_
    · intro t ht
      obtain ⟨item, -, rfl⟩ := List.mem_map.mp ht
      exact item.bar_not_mem
    · rw [hbytes, portField, List.map_append, List.map_map]
      rfl
    · intro t ht
      have hmem := List.mem_of_head? ht
      rcases List.mem_append.mp hmem with hmem | hmem
      · obtain ⟨item, -, rfl⟩ := List.mem_map.mp hmem
        exact item.text_ne_nil
      · rw [List.mem_singleton.mp hmem]
        exact last.text_ne_nil
  have hitems : portItems field = (init ++ [last]).map (·.str) := by
    have hlen0 : ¬ (Kernel.trimStr field).strlen = 0 := by
      rw [CStr.strlen, hbytes, List.length_eq_zero_iff]
      obtain ⟨first, rest, hfirst⟩ := List.exists_cons_of_ne_nil hne'
      simp [hfirst, portField_cons, PortItem.text_ne_nil]
    rw [portItems]
    simp only [if_neg hlen0, htokens, List.map_append, List.map_singleton]
  have hall : ∀ item ∈ init ++ [last], rangeOf item.str = some item.stored := fun item hitem =>
    item.rangeOf_str ((text_length_le hitem).trans hshort)
  calc (portItems field).map rangeOf
      = (init ++ [last]).map (fun item => rangeOf item.str) := by rw [hitems, List.map_map]; rfl
    _ = (init ++ [last]).map (fun item => some item.stored) := List.map_congr_left hall
    _ = ((init ++ [last]).map (·.stored)).map some := by rw [List.map_map]; rfl
    _ = items.map (fun item => some item.stored) := by rw [hstored, List.map_map]; rfl

/-! ## 3. What a list of ranges matches -/

def RangeValue.Holds (range : RangeValue) (port : Int) : Prop :=
  range.start ≤ port ∧ port ≤ range.stop

/-- What a list of ranges is meant to match: with a negated range among them, the ports in no
negated range, and without, the ports in some range. -/
def MeantMatch (ranges : List RangeValue) (port : Int) : Prop :=
  if ∃ range ∈ ranges, range.neg = true then
    ∀ range ∈ ranges, range.neg = true → ¬ range.Holds port
  else ∃ range ∈ ranges, range.Holds port

/-- **`af_match_port`** on a list that is not empty. -/
theorem afMatchPort_iff {ranges : List RangeValue} (hne : ranges ≠ []) (port : Int) :
    afMatchPort ⟨ranges⟩ port = true ↔ MeantMatch ranges port := by
  have hnum : ¬ (PortInfo.mk ranges).num = 0 := by simpa [PortInfo.num] using hne
  rw [afMatchPort, if_neg hnum, MeantMatch]
  by_cases hneg : ∃ range ∈ ranges, range.neg = true
  · have hany : ranges.any (·.neg) = true := List.any_eq_true.mpr hneg
    rw [if_pos hneg, if_pos hany]
    simp [RangeValue.Holds]
  · have hany : ¬ ranges.any (·.neg) = true := fun h => hneg (List.any_eq_true.mp h)
    rw [if_neg hneg, if_neg hany]
    simp [RangeValue.Holds]

/-- What is read of the field leaves out a port: a negated range has one, or no range is negated
and one is in none of them. -/
def LeavesPort (field : CStr) : Prop :=
  ∃ port : UInt16,
    (∃ item ∈ portItems field, ∃ range, ReadsItem item range ∧ range.neg = true ∧
      range.Holds port.toNat) ∨
    ((∃ item ∈ portItems field, ∃ range, ReadsItem item range) ∧
      ∀ item ∈ portItems field, ∀ range, ReadsItem item range →
        range.neg = false ∧ ¬ range.Holds port.toNat)

/-- Five items of the field are read, and one behind them has the bytes of a range. -/
def SixthRange (field : CStr) : Prop :=
  ∃ (pre : List CStr) (item : CStr) (post five : List CStr),
    portItems field = pre ++ item :: post ∧ validateRangeValue item = true ∧ five.Sublist pre ∧
    five.length = MAX_PORT_RANGE_NUM ∧ ∀ x ∈ five, ∃ range, ReadsItem x range

/-- Taking the numbers of the items as `int`s makes no difference to a port. -/
def Unwrapped (items : List PortItem) : Prop :=
  ∀ port : UInt16, MeantMatch (items.map (·.stored)) port.toNat ↔
    MeantMatch (items.map (·.range)) port.toNat

theorem unwrapped_of_short {items : List PortItem} (h : (portField items).length ≤ 9) :
    Unwrapped items := by
  have hsame : items.map (·.stored) = items.map (·.range) :=
    List.map_congr_left fun _ hitem =>
      PortItem.stored_eq_range_of_short ((text_length_le hitem).trans h)
  intro port
  rw [hsame]

section
variable {field : CStr} (hlen : field.strlen < 16)
include hlen

theorem mem_ranges_iff {range : RangeValue} :
    range ∈ (portItems field).filterMap rangeOf ↔
      ∃ item ∈ portItems field, ReadsItem item range := by
  rw [List.mem_filterMap]
  constructor
  · rintro ⟨item, hitem, h⟩
    have hshort := portItems_strlen_le hitem
    exact ⟨item, hitem, (rangeOf_eq_some_iff (by omega)).mp h⟩
  · rintro ⟨item, hitem, h⟩
    have hshort := portItems_strlen_le hitem
    exact ⟨item, hitem, (rangeOf_eq_some_iff (by omega)).mpr h⟩

/-- The ports fit when no sixth range is begun. -/
theorem portsFit_iff : PortsFit field ↔ ¬ SixthRange field := by
  constructor
  · rintro hfit ⟨pre, item, post, five, hsplit, hvalid, hsub, hfive, hreads⟩
    have hlt := hfit pre item post hsplit hvalid
    have hall : (five.filterMap rangeOf).length = five.length := by
      rw [List.filterMap_length_eq_length]
      intro x hx
      obtain ⟨range, hrange⟩ := hreads x hx
      have hmem : x ∈ portItems field := by
        rw [hsplit]
        exact List.mem_append_left _ (hsub.subset hx)
      have hshort := portItems_strlen_le hmem
      simp [(rangeOf_eq_some_iff (by omega)).mpr hrange]
    have hle := (hsub.filterMap rangeOf).length_le
    omega
  · intro hno pre item post hsplit hvalid
    by_contra hfull
    rw [Nat.zero_add, Nat.not_lt] at hfull
    have hcount : (pre.filter (fun x => (rangeOf x).isSome)).length =
        (pre.filterMap rangeOf).length := by
      rw [List.length_filterMap_eq_countP, List.countP_eq_length_filter]
    refine hno ⟨pre, item, post, (pre.filter (fun x => (rangeOf x).isSome)).take MAX_PORT_RANGE_NUM,
      hsplit, hvalid, (List.take_sublist _ _).trans List.filter_sublist, ?_, ?_⟩
    · rw [List.length_take, hcount]
      omega
    · intro x hx
      obtain ⟨hmem, hsome⟩ := List.mem_filter.mp (List.mem_of_mem_take hx)
      obtain ⟨range, hrange⟩ := Option.isSome_iff_exists.mp hsome
      have hitem : x ∈ portItems field := by
        rw [hsplit]
        exact List.mem_append_left _ hmem
      have hshort := portItems_strlen_le hitem
      exact ⟨range, (rangeOf_eq_some_iff (by omega)).mp hrange⟩

/-- A port is left out of what was read iff the loaded list does not match it. -/
theorem leavesPort_iff :
    LeavesPort field ↔
      ∃ port : UInt16, ¬ afMatchPort ⟨(portItems field).filterMap rangeOf⟩ port.toNat = true := by
  refine exists_congr fun port => ?_
  by_cases hnil : (portItems field).filterMap rangeOf = []
  · have hnone : ∀ item ∈ portItems field, ∀ range, ¬ ReadsItem item range := by
      intro item hitem range h
      have hmem := (mem_ranges_iff hlen).mpr ⟨item, hitem, h⟩
      simp [hnil] at hmem
    have hmatch : afMatchPort ⟨(portItems field).filterMap rangeOf⟩ port.toNat = true := by
      rw [hnil]
      rfl
    simp only [hmatch, not_true_eq_false, iff_false]
    rintro (⟨item, hitem, range, h, -⟩ | ⟨⟨item, hitem, range, h⟩, -⟩)
    · exact hnone item hitem range h
    · exact hnone item hitem range h
  · rw [afMatchPort_iff hnil, MeantMatch]
    by_cases hneg : ∃ range ∈ (portItems field).filterMap rangeOf, range.neg = true
    · rw [if_pos hneg]
      obtain ⟨r, hr, hrneg⟩ := hneg
      obtain ⟨i, hi, hread⟩ := (mem_ranges_iff hlen).mp hr
      constructor
      · rintro (⟨item, hitem, range, h, hrange, hholds⟩ | ⟨-, hall⟩) hout
        · exact hout range ((mem_ranges_iff hlen).mpr ⟨item, hitem, h⟩) hrange hholds
        · simp [(hall i hi r hread).1] at hrneg
      · intro hout
        push Not at hout
        obtain ⟨range, hmem, hrange, hholds⟩ := hout
        obtain ⟨item, hitem, h⟩ := (mem_ranges_iff hlen).mp hmem
        exact Or.inl ⟨item, hitem, range, h, hrange, hholds⟩
    · rw [if_neg hneg]
      push Not at hneg
      constructor
      · rintro (⟨item, hitem, range, h, hrange, -⟩ | ⟨-, hall⟩)
        · exact absurd hrange (hneg range ((mem_ranges_iff hlen).mpr ⟨item, hitem, h⟩))
        · rintro ⟨range, hmem, hholds⟩
          obtain ⟨item, hitem, h⟩ := (mem_ranges_iff hlen).mp hmem
          exact (hall item hitem range h).2 hholds
      · intro hout
        obtain ⟨range, hmem⟩ := List.exists_mem_of_ne_nil _ hnil
        obtain ⟨item, hitem, h⟩ := (mem_ranges_iff hlen).mp hmem
        refine Or.inr ⟨⟨item, hitem, range, h⟩, ?_⟩
        intro item hitem range h
        have hmem := (mem_ranges_iff hlen).mpr ⟨item, hitem, h⟩
        exact ⟨by simpa using hneg range hmem, fun hholds => hout ⟨range, hmem, hholds⟩⟩

/-- **One to five well-formed items** are all loaded. -/
theorem loads_portField {items : List PortItem} (hne : items ≠ [])
    (hfive : items.length ≤ MAX_PORT_RANGE_NUM) (hfield : field.bytes = portField items) :
    PortsFit field ∧ (portItems field).filterMap rangeOf = items.map (·.stored) := by
  have hranges := ranges_portField hne hfield (by omega)
  constructor
  · intro pre item post hsplit _
    have hcount := congrArg List.length hranges
    rw [hsplit] at hcount
    simp only [List.length_map, List.length_append, List.length_cons] at hcount
    have hle := List.length_filterMap_le rangeOf pre
    omega
  · have hid : ∀ l : List CStr, l.filterMap rangeOf = (l.map rangeOf).filterMap id := by
      intro l
      rw [List.filterMap_map]
      rfl
    rw [hid, hranges, List.filterMap_map, ← List.filterMap_eq_map]
    rfl

end

/-! ## 4. The feature matches as its field says -/

/-- What a port field should do, once `parse_port_info` has read it and `af_match_port` matches
destination ports: one to five well-formed items match what they mean, and without a well-formed
item some port is not matched. -/
def MatchesAsWritten (beyond : Beyond) (portStr : CArray 16) (field : CStr) : Prop :=
  (∀ items : List PortItem, items ≠ [] → items.length ≤ 5 → field.bytes = portField items →
    ∃ info, parsePortInfo beyond portStr {} = .ok info ∧ ∀ port : UInt16,
      afMatchPort info port.toNat = true ↔ MeantMatch (items.map (·.range)) port.toNat) ∧
  ((∀ piece ∈ field.bytes.splitOn 124, ¬ WellFormedItem piece) →
    ∃ info, parsePortInfo beyond portStr {} = .ok info ∧ ∃ port : UInt16,
      ¬ afMatchPort info port.toNat = true)

/-- **A port field matches as it is written** iff its numbers may be taken as `int`s, and it has
a well-formed item, or what is read of it leaves out a port. -/
theorem parsePortInfo_match_iff (beyond : Beyond) {portStr : CArray 16} {field : CStr}
    (h : ∀ b, portStr.read b = field) (hlen : field.strlen ≤ 15) :
    MatchesAsWritten beyond portStr field ↔
      (∀ items : List PortItem, items ≠ [] → items.length ≤ 5 → field.bytes = portField items →
        Unwrapped items) ∧
      ((∃ piece ∈ field.bytes.splitOn 124, WellFormedItem piece) ∨
        (¬ SixthRange field ∧ LeavesPort field)) := by
  have hlen16 : field.strlen < 16 := by omega
  obtain ⟨hfits, hfull⟩ := parsePortInfo_spec beyond h hlen16
  refine and_congr ?_ ?_
  · refine forall_congr' fun items => forall_congr' fun hne => forall_congr' fun hfive =>
      forall_congr' fun hfield => ?_
    obtain ⟨hfit, hranges⟩ := loads_portField hlen16 hne hfive hfield
    have hne' : items.map (·.stored) ≠ [] := by simpa using hne
    rw [hfits hfit, hranges]
    constructor
    · rintro ⟨info, hinfo, hmatch⟩ port
      obtain rfl := Except.ok.inj hinfo
      exact (afMatchPort_iff hne' _).symm.trans (hmatch port)
    · intro hsame
      exact ⟨_, rfl, fun port => (afMatchPort_iff hne' _).trans (hsame port)⟩
  · have hsome : (∃ piece ∈ field.bytes.splitOn 124, WellFormedItem piece) ↔
        ¬ ∀ piece ∈ field.bytes.splitOn 124, ¬ WellFormedItem piece := by
      push Not
      rfl
    rw [hsome, ← imp_iff_not_or, ← portsFit_iff hlen16, leavesPort_iff hlen16]
    refine imp_congr_right fun _ => ?_
    constructor
    · rintro ⟨info, hinfo, hport⟩
      by_cases hfit : PortsFit field
      · rw [hfits hfit] at hinfo
        obtain rfl := Except.ok.inj hinfo
        exact ⟨hfit, hport⟩
      · rw [hfull hfit] at hinfo
        cases hinfo
    · rintro ⟨hfit, hport⟩
      exact ⟨_, hfits hfit, hport⟩

/-- A `dport` array that holds a text. -/
def portArray (field : CStr) (h : field.strlen ≤ 16) : CArray 16 where
  bytes := field.bytes ++ List.replicate (16 - field.strlen) 0
  size := by
    rw [List.length_append, List.length_replicate]
    exact Nat.add_sub_of_le h

theorem portArray_read {field : CStr} (h : field.strlen < 16) (b : CStr) :
    (portArray field h.le).read b = field :=
  CArray.Holds.read ⟨h.le, rfl⟩ h b

theorem parsePortInfo_match_iff_range :
    MatchesAsWritten evil (portArray (.lit "80-90") (by decide)) (.lit "80-90") :=
  (parsePortInfo_match_iff evil (portArray_read (by decide)) (by decide)).mpr
    ⟨fun items _ _ hfield => unwrapped_of_short (by
        rw [← hfield]
        decide),
      Or.inl ⟨ascii "80-90", by decide,
        { before := 0, neg := false, gap := 0, low := ascii "80", high := some (ascii "90")
          after := 0, low_ne := by decide, low_digits := by simp [ascii, isdigit]
          high_ne := by simp [ascii], high_digits := by simp [ascii, isdigit] }, by decide⟩⟩

/-- **Blanks around the `-` make a feature match every port**: `80 - 90`. -/
theorem blanks_match_every_port :
    (CStr.lit "80 - 90").strlen ≤ 15 ∧
      ¬ MatchesAsWritten evil (portArray (.lit "80 - 90") (by decide)) (.lit "80 - 90") := by
  refine ⟨by decide, ?_⟩
  rintro ⟨-, h⟩
  have hread : ∀ b, (portArray (.lit "80 - 90") (by decide)).read b = .lit "80 - 90" :=
    portArray_read (by decide)
  have hranges : (portItems (.lit "80 - 90")).filterMap rangeOf = [] := by decide
  have hno : ∀ piece ∈ (CStr.lit "80 - 90").bytes.splitOn 124, ¬ WellFormedItem piece := by
    have hsplit : (CStr.lit "80 - 90").bytes.splitOn 124 = [(CStr.lit "80 - 90").bytes] := by decide
    rw [hsplit]
    rintro piece hpiece ⟨item, htext⟩
    rw [List.mem_singleton.mp hpiece] at htext
    have hstr : item.str = .lit "80 - 90" := CStr.ext htext
    have hrange := item.rangeOf_str (by
      rw [htext]
      decide)
    have hnone : rangeOf (.lit "80 - 90") = none := by decide
    rw [hstr, hnone] at hrange
    cases hrange
  obtain ⟨info, hinfo, port, hport⟩ := h hno
  obtain ⟨hfits, hfull⟩ := parsePortInfo_spec evil hread (by decide)
  by_cases hfit : PortsFit (.lit "80 - 90")
  · rw [hfits hfit, hranges] at hinfo
    obtain rfl := Except.ok.inj hinfo
    exact hport rfl
  · rw [hfull hfit] at hinfo
    cases hinfo

end Oaf
