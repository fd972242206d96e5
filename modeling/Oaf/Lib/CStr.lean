/-
# C strings

A C string is the bytes before its terminator, so it holds no NUL; `CStr` carries that as a
field.  `CStr.ofBytes` is how one is READ from memory: everything up to the first NUL.

Character classes are those of the C locale (`isspace`, `isdigit`, `isxdigit`, `tolower`).
-/
import Mathlib.Data.List.Infix
import Mathlib.Data.List.TakeWhile

namespace CLib

/-- The bytes of an ASCII text, for writing constants the way the source does. -/
def ascii (s : String) : List UInt8 := s.toList.map (fun c => c.toNat.toUInt8)

/-- A NUL-terminated string: the bytes before the terminator. -/
structure CStr where
  bytes : List UInt8
  noNul : 0 ∉ bytes
deriving DecidableEq

namespace CStr

/-- The string that starts at `l`: the bytes up to the first NUL. -/
def ofBytes (l : List UInt8) : CStr :=
  ⟨l.takeWhile (· != 0), fun h => by simpa using List.mem_takeWhile_imp h⟩

/-- A string constant. -/
def lit (s : String) : CStr := ofBytes (ascii s)

def empty : CStr := ⟨[], by simp⟩

instance : Inhabited CStr := ⟨empty⟩

def strlen (s : CStr) : Nat := s.bytes.length

/-- The byte at an index; at `strlen` it is the terminator. -/
def get (s : CStr) (i : Nat) : UInt8 := s.bytes.getD i 0

/-- `strchr(s, c) != NULL` for a character other than NUL. -/
def strchr (s : CStr) (c : UInt8) : Bool := s.bytes.contains c

@[ext] theorem ext {s t : CStr} (h : s.bytes = t.bytes) : s = t := by
  cases s; cases t; simp_all

theorem beq_eq_decide (s t : CStr) : (s == t) = decide (s.bytes = t.bytes) := by
  rw [Bool.eq_iff_iff, beq_iff_eq, decide_eq_true_iff]
  exact ⟨fun h => h ▸ rfl, ext⟩

theorem ofBytes_of_noNul {l : List UInt8} (h : 0 ∉ l) : (ofBytes l).bytes = l := by
  refine List.takeWhile_eq_self_iff.mpr ?_
  intro c hc
  simpa using fun h0 : c = 0 => h (h0 ▸ hc)

theorem ofBytes_strlen_le (l : List UInt8) : (ofBytes l).strlen ≤ l.length :=
  (List.takeWhile_prefix _).length_le

@[simp] theorem ofBytes_bytes (s : CStr) : ofBytes s.bytes = s :=
  ext (ofBytes_of_noNul s.noNul)

/-- A terminator right after the text: what follows it in memory is not read. -/
theorem ofBytes_append_nul (s : CStr) (l : List UInt8) : ofBytes (s.bytes ++ 0 :: l) = s := by
  refine ext ?_
  have h : ∀ c ∈ s.bytes, (c != 0) = true := fun c hc => by
    simpa using fun h0 : c = 0 => s.noNul (h0 ▸ hc)
  simp [ofBytes, List.takeWhile_append_of_pos h]

@[simp] theorem empty_bytes : empty.bytes = [] := rfl

end CStr

/-! ## Character classes -/

def isdigit (c : UInt8) : Bool := 48 ≤ c && c ≤ 57

def isxdigit (c : UInt8) : Bool := isdigit c || (97 ≤ c && c ≤ 102) || (65 ≤ c && c ≤ 70)

/-- White space of the C locale: space, `\t`, `\n`, `\v`, `\f`, `\r`. -/
def isspace (c : UInt8) : Bool := c == 32 || (9 ≤ c && c ≤ 13)

def tolower (c : UInt8) : UInt8 := if 65 ≤ c && c ≤ 90 then c + 32 else c

/-- A property of bytes can be decided by going through all of them. -/
theorem forall_byte {p : UInt8 → Prop} (h : ∀ n < 256, p n.toUInt8) (c : UInt8) : p c := by
  have hc := h c.toNat c.toNat_lt
  rwa [Nat.toUInt8, UInt8.ofNat_toNat] at hc

end CLib
