/-
# Trimming and number scanning, the kernel's way

The string functions of the Linux kernel that text parsers rest on: `isspace` (which counts the
Latin-1 no-break space 0xA0), the `simple_strto*` family (no overflow check: the value wraps in
64 bits), `kstrtol` (which checks everything), and `vsscanf` for formats of literal bytes, `%d`
and `%x`.

`vsscanf` gives the values stored, in order; their number is the C return value.
-/
import Oaf.Lib.CStr
import Mathlib.Algebra.GroupWithZero.Nat
import Mathlib.Algebra.Ring.Int.Defs
import Mathlib.Data.List.DropRight

namespace CLib

namespace Kernel

/-! ## 1. White space -/

/-- `isspace` of the kernel's `ctype` table. -/
def isspace (c : UInt8) : Bool := CLib.isspace c || c == 0xa0

/-- A text without the white space at its two ends. -/
def trim (l : List UInt8) : List UInt8 := (l.dropWhile isspace).rdropWhile isspace

theorem trim_sublist_dropWhile (l : List UInt8) : trim l <+: l.dropWhile isspace :=
  List.rdropWhile_prefix isspace _

theorem trim_length_le (l : List UInt8) : (trim l).length ≤ l.length :=
  (trim_sublist_dropWhile l).length_le.trans (List.dropWhile_suffix isspace).length_le

theorem mem_of_mem_trim {c : UInt8} {l : List UInt8} (h : c ∈ trim l) : c ∈ l :=
  (List.dropWhile_suffix isspace).subset ((trim_sublist_dropWhile l).subset h)

/-- A text that neither starts nor ends with white space is its own trim. -/
theorem trim_eq_self {l : List UInt8} (h1 : ∀ c, l.head? = some c → isspace c = false)
    (h2 : ∀ c, l.getLast? = some c → isspace c = false) : trim l = l := by
  have hd : l.dropWhile isspace = l := by
    cases l with
    | nil => rfl
    | cons c l => simp [h1 c rfl]
  rw [trim, hd]
  refine List.rdropWhile_eq_self_iff.mpr ?_
  intro hl
  have := h2 (l.getLast hl) (List.getLast?_eq_some_getLast hl)
  simp [this]

/-- White space at the ends is what is trimmed. -/
theorem trim_append {u w v : List UInt8} (hu : ∀ c ∈ u, isspace c = true)
    (hv : ∀ c ∈ v, isspace c = true) (h1 : ∀ c, w.head? = some c → isspace c = false)
    (h2 : ∀ c, w.getLast? = some c → isspace c = false) : trim (u ++ (w ++ v)) = w := by
  rw [trim, List.dropWhile_append_of_pos hu]
  cases hw : w with
  | nil => simp [List.dropWhile_eq_nil_iff.mpr hv, List.rdropWhile]
  | cons c l =>
    have hc : isspace c = false := h1 c (by rw [hw]; rfl)
    have hlast : (w.reverse).dropWhile isspace = w.reverse := by
      cases hr : w.reverse with
      | nil => rfl
      | cons d r =>
        have hd : w.getLast? = some d := by
          rw [← List.head?_reverse, hr]
          rfl
        simp [h2 d hd]
    rw [List.cons_append, List.dropWhile_cons_of_neg (by simp [hc]), ← List.cons_append, ← hw,
      List.rdropWhile, List.reverse_append,
      List.dropWhile_append_of_pos (fun d hd => hv d (List.mem_reverse.mp hd)), hlast,
      List.reverse_reverse]

/-- `trim` on C strings. -/
def trimStr (s : CStr) : CStr := ⟨trim s.bytes, fun h => s.noNul (mem_of_mem_trim h)⟩

theorem trimStr_strlen_le (s : CStr) : (trimStr s).strlen ≤ s.strlen := trim_length_le s.bytes

/-! ## 2. Numbers -/

/-- The value of a digit. -/
def digitVal (c : UInt8) : Nat :=
  if isdigit c then c.toNat - 48 else (tolower c).toNat - 87

/-- The number some digits spell. -/
def ofDigits (base : Nat) (l : List UInt8) : Nat :=
  l.foldl (fun acc c => acc * base + digitVal c) 0

/-- `simple_strtoull(.., 10)`: the value wraps in 64 bits. -/
def simpleStrtoull10 (l : List UInt8) : Nat × List UInt8 :=
  (ofDigits 10 (l.takeWhile isdigit) % 2 ^ 64, l.dropWhile isdigit)

/-- `simple_strtoul(.., 16)`, with or without `0x`. -/
def simpleStrtoul16 (l : List UInt8) : Nat × List UInt8 :=
  let l := match l with
    | 48 :: c :: rest => if tolower c = 120 then rest else l
    | _ => l
  (ofDigits 16 (l.takeWhile isxdigit) % 2 ^ 64, l.dropWhile isxdigit)

/-- `simple_strtol(.., 10)`. -/
def simpleStrtol10 : List UInt8 → Int × List UInt8
  | 45 :: rest => let (v, next) := simpleStrtoull10 rest; (-(v : Int), next)
  | l => let (v, next) := simpleStrtoull10 l; ((v : Int), next)

/-- A conversion to a 32-bit `int`. -/
def toInt32 (v : Int) : Int := Int.bmod v (2 ^ 32)

/-- `kstrtol(s, 10, ..)`: an optional sign, at least one digit, an optional newline, and nothing
that does not fit a 64-bit `long`. -/
def kstrtol10 (l : List UInt8) : Option Int :=
  let (neg, l) := match l with
    | 45 :: rest => (true, rest)
    | 43 :: rest => (false, rest)
    | l => (false, l)
  let digits := l.takeWhile isdigit
  let rest := l.dropWhile isdigit
  let rest := if rest.head? = some 10 then rest.tail else rest
  let v := ofDigits 10 digits
  if digits = [] ∨ rest ≠ [] then none
  else if neg then (if v ≤ 2 ^ 63 then some (-(v : Int)) else none)
  else if v < 2 ^ 63 then some v
  else none

/-! ## 3. `vsscanf` -/

/-- One element of a format: a byte to match, `%d` or `%x`. -/
inductive Conv where
  | lit (c : UInt8)
  | d
  | x
deriving DecidableEq, Repr

/-- What `%d` reads. -/
def scanD (l : List UInt8) : Option (Int × List UInt8) :=
  let digit := match l with
    | 45 :: rest => rest.head?
    | l => l.head?
  if (digit.map isdigit).getD false then
    let (v, next) := simpleStrtol10 l
    some (toInt32 v, next)
  else none

/-- What `%x` reads. -/
def scanX (l : List UInt8) : Option (Int × List UInt8) :=
  if (l.head?.map isxdigit).getD false then
    let (v, next) := simpleStrtoul16 l
    some (toInt32 v, next)
  else none

/-- `vsscanf`: the values stored, in order.  `space` is the white space skipped before a number. -/
def vsscanf (space : UInt8 → Bool) : List Conv → List UInt8 → List Int
  | [], _ => []
  | .lit c :: fmt, l =>
    match l with
    | [] => []
    | c' :: rest => if c = c' then vsscanf space fmt rest else []
  | .d :: fmt, l =>
    match scanD (l.dropWhile space) with
    | none => []
    | some (v, next) => v :: vsscanf space fmt next
  | .x :: fmt, l =>
    match scanX (l.dropWhile space) with
    | none => []
    | some (v, next) => v :: vsscanf space fmt next

example : vsscanf CLib.isspace [.d, .lit 58, .x] (ascii " -3:0xfg") = [-3, 15] := by decide

end Kernel

end CLib
