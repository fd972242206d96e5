/-
# Addresses as texts

`inet_aton`, `%d.%d.%d.%d` and the masks of a prefix length.

* `leadingOnes_maskOf`: a mask says how long its prefix is.
* `inetAton_maskText`: the text of a mask is read back.
* `mem_quadText`, `quadText_length_le`: what a dotted address is made of.
-/
import Oaf.Lib.Words

namespace CLib

/-! ## 1. The functions -/

/-- A number as it is written in C. -/
def cNumber (l : List UInt8) : Option Nat :=
  match l with
  | 48 :: 120 :: rest =>
    if rest ≠ [] ∧ rest.all isxdigit then some (Kernel.ofDigits 16 rest) else none
  | 48 :: 88 :: rest =>
    if rest ≠ [] ∧ rest.all isxdigit then some (Kernel.ofDigits 16 rest) else none
  | 48 :: c :: rest =>
    if (c :: rest).all fun d => 48 ≤ d && d ≤ 55 then some (Kernel.ofDigits 8 (c :: rest)) else none
  | l => if l ≠ [] ∧ l.all isdigit then some (Kernel.ofDigits 10 l) else none

/-- `inet_aton`: up to four numbers, the last of which fills the rest of the address. -/
def inetAton (s : List UInt8) : Option UInt32 :=
  match (s.splitOn 46).mapM cNumber with
  | some [a] => if a < 2 ^ 32 then some a.toUInt32 else none
  | some [a, b] => if a < 256 ∧ b < 2 ^ 24 then some (a * 2 ^ 24 + b).toUInt32 else none
  | some [a, b, c] =>
    if a < 256 ∧ b < 256 ∧ c < 2 ^ 16 then some (a * 2 ^ 24 + b * 2 ^ 16 + c).toUInt32 else none
  | some [a, b, c, d] =>
    if a < 256 ∧ b < 256 ∧ c < 256 ∧ d < 256 then
      some (a * 2 ^ 24 + b * 2 ^ 16 + c * 2 ^ 8 + d).toUInt32
    else none
  | _ => none

/-- `%d.%d.%d.%d` of the bytes of an address. -/
def quadText (a : UInt32) : List UInt8 :=
  [46].intercalate [printNat (a.toNat / 2 ^ 24 % 256), printNat (a.toNat / 2 ^ 16 % 256),
    printNat (a.toNat / 2 ^ 8 % 256), printNat (a.toNat % 256)]

/-- The mask of a prefix length. -/
def maskOf (len : Nat) : UInt32 := if len = 0 then 0 else 0xffffffff <<< (32 - len).toUInt32

/-- How many bits are set from the top. -/
def leadingOnes (mask : UInt32) : Nat :=
  ((List.range 32).reverse.takeWhile fun i => mask.toNat.testBit i).length

/-! ## 2. What the texts are -/

theorem mem_quadText {a : UInt32} {c : UInt8} (h : c ∈ quadText a) : isdigit c = true ∨ c = 46 := by
  rcases mem_intercalate h with h | ⟨t, ht, h⟩
  · exact Or.inr h
  · simp only [List.mem_cons, List.not_mem_nil, or_false] at ht
    rcases ht with rfl | rfl | rfl | rfl <;> exact Or.inl (isdigit_of_mem_printNat h)

theorem quadText_ne_nil (a : UInt32) : quadText a ≠ [] := by
  rw [quadText, intercalate_cons_eq]
  simp

theorem quadText_length_le (a : UInt32) : (quadText a).length ≤ 15 := by
  have hbyte : ∀ n : Nat, (printNat (n % 256)).length ≤ 3 := fun n =>
    printNat_length_le (by decide) (by omega)
  have h1 := hbyte (a.toNat / 2 ^ 24)
  have h2 := hbyte (a.toNat / 2 ^ 16)
  have h3 := hbyte (a.toNat / 2 ^ 8)
  have h4 := hbyte a.toNat
  rw [quadText, intercalate_cons_eq]
  simp only [List.flatMap_cons, List.flatMap_nil, List.length_append, List.length_cons,
    List.length_nil]
  omega

/-! ## 3. Masks -/

theorem leadingOnes_maskOf : ∀ len ≤ 32, leadingOnes (maskOf len) = len := by
  decide +kernel

theorem inetAton_maskText : ∀ len ≤ 32, inetAton (quadText (maskOf len)) = some (maskOf len) := by
  decide +kernel

end CLib
