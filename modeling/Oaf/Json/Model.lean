/-
# cJSON in the kernel

`cJSON_Parse` of `k_json.c`.  The parser is given no length.  It runs in a buffer, of which a position is
the bytes from there to the end, and `none` or `fault` is a read behind the end.

It is lenient: what is not a character above the blank (and `char` is signed, so all bytes from 128 on) is
white space between tokens, NULs included, and ends a string; the sign of a number is dropped; what comes
after the value is not looked at.

* `parseString`, `parseNumber`: the tokens.
* `parseValue`, with the loops of `parse_array` and `parse_object`.
-/
import Mathlib.Data.UInt
import Oaf.Lib.CText
import Oaf.Lib.KScan

namespace Oaf

open CLib

/-! ## 1. Values -/

/-- `cJSON`. -/
inductive KJson where
  | null
  | false
  | true
  | number (valueint : Int)
  | string (valuestring : CStr)
  | array (items : List KJson)
  | object (members : List (CStr × KJson))

/-- A position: the bytes from there to the end of the buffer. -/
abbrev Bytes := List UInt8

/-- What a parse function comes to: a read behind the buffer, a null, or a value and where it ends. -/
inductive Parsed (α : Type) where
  | fault
  | fail
  | ok (a : α) (rest : Bytes)

namespace Parsed

variable {α β : Type}

def andThen (x : Parsed α) (f : α → Bytes → Parsed β) : Parsed β :=
  match x with
  | .fault => .fault
  | .fail => .fail
  | .ok a rest => f a rest

def map (f : α → β) (x : Parsed α) : Parsed β := x.andThen fun a rest => .ok (f a) rest

end Parsed

/-! ## 2. White space and words -/

/-- `*in <= 32`, for a signed `char`. -/
def isBlank (c : UInt8) : Bool := c ≤ 32 || 128 ≤ c

/-- `*ptr > 31`, for a signed `char`, is false. -/
def endsText (c : UInt8) : Bool := c ≤ 31 || 128 ≤ c

/-- `skip` -/
def skip : Bytes → Option Bytes
  | [] => none
  | c :: s => if isBlank c then skip s else some (c :: s)

/-- `!strncmp(value, word, n)` for a word of `n` characters. -/
def strncmpWord : List UInt8 → Bytes → Option Bool
  | [], _ => some true
  | _ :: _, [] => none
  | w :: word, c :: s => if c = w then strncmpWord word s else some false

/-! ## 3. Numbers -/

/-- The loop over the digits of a number, which wraps. -/
def digits (n : Int) : Bytes → Option (Int × Bytes)
  | [] => none
  | c :: s => if isdigit c then digits (Kernel.toInt32 (n * 10 + (c.toNat - 48))) s else some (n, c :: s)

/-- `if (*num == c) num++` -/
def skipOne (c : UInt8) : Bytes → Option Bytes
  | [] => none
  | d :: s => if d = c then some s else some (d :: s)

/-- `parse_number` -/
def parseNumber (num : Bytes) : Option (Int × Bytes) := do
  let num ← skipOne 45 num
  let num ← skipOne 48 num
  match num with
  | [] => none
  | c :: _ => if 49 ≤ c && c ≤ 57 then digits 0 num else some (0, num)

/-! ## 4. Strings -/

/-- At most so many hexadecimal digits. -/
def hexDigits : Nat → Bytes → Option (List UInt8)
  | 0, _ => some []
  | _ + 1, [] => none
  | n + 1, c :: s => if isxdigit c then (hexDigits n s).map (c :: ·) else some []

/-- `sscanf(s, "%4x", &uc)`: what `uc` is after it, which was `uc` before.  `0x` is a prefix. -/
def sscanf4x (s : Bytes) (uc : UInt32) : Option UInt32 :=
  match s.dropWhile Kernel.isspace with
  | [] => none
  | c :: s =>
    if !isxdigit c then some uc
    else
      match s with
      | [] => none
      | d :: s' =>
        let number := if c = 48 ∧ tolower d = 120 then hexDigits 2 s' else hexDigits 4 (c :: s)
        number.map fun number => (Kernel.ofDigits 16 number).toUInt32

/-- The bytes that are written of a character, and what is left of `uc`. -/
def utf8 (uc : UInt32) : List UInt8 × UInt32 :=
  let low (uc : UInt32) : UInt8 := ((uc ||| 0x80) &&& 0xBF).toUInt8
  if uc < 0x80 then ([uc.toUInt8], uc)
  else if uc < 0x800 then ([((uc >>> 6) ||| 0xC0).toUInt8, low uc], uc >>> 6)
  else ([((uc >>> 12) ||| 0xE0).toUInt8, low (uc >>> 6), low uc], uc >>> 12)

/-- The first loop of `parse_string`: how many turns it makes. -/
def stringLen : Bytes → Option Nat
  | [] => none
  | c :: s =>
    if c = 34 || endsText c then some 0
    else if c = 92 then
      match s with
      | [] => none
      | _ :: s' => (stringLen s').map (· + 1)
    else (stringLen s).map (· + 1)

/-- What an escape of one character stands for. -/
def unescape (c : UInt8) : UInt8 :=
  if c = 98 then 8 else if c = 102 then 12 else if c = 110 then 10 else if c = 114 then 13
  else if c = 116 then 9 else c

/-- The second loop of `parse_string`: what it writes, and where it ends. -/
def stringBytes (uc : UInt32) : Bytes → Option (List UInt8 × Bytes)
  | [] => none
  | c :: s =>
    if c = 34 then some ([], s)
    else if endsText c then some ([], c :: s)
    else if c = 92 then
      match s with
      | [] => none
      | e :: s' =>
        if e = 117 then
          match sscanf4x s' uc, s' with
          | some uc', _ :: _ :: _ :: _ :: s'' =>
            (stringBytes (utf8 uc').2 s'').map fun p => ((utf8 uc').1 ++ p.1, p.2)
          | _, _ => none
        else (stringBytes uc s').map fun p => (unescape e :: p.1, p.2)
    else (stringBytes uc s).map fun p => (c :: p.1, p.2)

/-- `parse_string`, behind the quotation mark.  `uninit` is what `uc` holds before it is set, in the call
at a position. -/
def parseString (uninit : Bytes → UInt32) (s : Bytes) : Option (CStr × Bytes) := do
  let _ ← stringLen s
  let (out, rest) ← stringBytes (uninit s) s
  return (CStr.ofBytes out, rest)

/-! ## 5. Values and their parts -/

section

variable (uninit : Bytes → UInt32)

mutual

/-- `parse_value` -/
def parseValue : Nat → Bytes → Parsed KJson
  | 0, _ => .fault
  | fuel + 1, value =>
    match strncmpWord (ascii "null") value with
    | none => .fault
    | some true => .ok .null (value.drop 4)
    | some false =>
      match strncmpWord (ascii "false") value with
      | none => .fault
      | some true => .ok .false (value.drop 5)
      | some false =>
        match strncmpWord (ascii "true") value with
        | none => .fault
        | some true => .ok .true (value.drop 4)
        | some false =>
          match value with
          | [] => .fault
          | c :: s =>
            if c = 34 then
              match parseString uninit s with
              | none => .fault
              | some (str, rest) => .ok (.string str) rest
            else if c = 45 || isdigit c then
              match parseNumber (c :: s) with
              | none => .fault
              | some (n, rest) => .ok (.number n) rest
            else if c = 91 then
              -- `parse_array`
              match skip s with
              | none => .fault
              | some s' =>
                if s'.head? = some 93 then .ok (.array []) s'.tail
                else (parseItems fuel s').map .array
            else if c = 123 then
              -- `parse_object`
              match skip s with
              | none => .fault
              | some s' =>
                if s'.head? = some 125 then .ok (.object []) s'.tail
                else (parseMembers fuel s').map .object
            else .fail

/-- The items of `parse_array`, each with the comma or the bracket after it. -/
def parseItems : Nat → Bytes → Parsed (List KJson)
  | 0, _ => .fault
  | fuel + 1, value =>
    match skip value with
    | none => .fault
    | some value =>
      (parseValue fuel value).andThen fun item value =>
        match skip value with
        | none => .fault
        | some value =>
          if value.head? = some 44 then (parseItems fuel value.tail).map (item :: ·)
          else if value.head? = some 93 then .ok [item] value.tail
          else .fail

/-- The members of `parse_object`, each with the comma or the brace after it. -/
def parseMembers : Nat → Bytes → Parsed (List (CStr × KJson))
  | 0, _ => .fault
  | fuel + 1, value =>
    match skip value with
    | none => .fault
    | some value =>
      if value.head? ≠ some 34 then .fail
      else
        match parseString uninit value.tail with
        | none => .fault
        | some (key, value) =>
          match skip value with
          | none => .fault
          | some value =>
            if value.head? ≠ some 58 then .fail
            else
              match skip value.tail with
              | none => .fault
              | some value =>
                (parseValue fuel value).andThen fun item value =>
                  match skip value with
                  | none => .fault
                  | some value =>
                    if value.head? = some 44 then (parseMembers fuel value.tail).map ((key, item) :: ·)
                    else if value.head? = some 125 then .ok [(key, item)] value.tail
                    else .fail

end

/-- `cJSON_Parse` -/
def cJSONParse (value : Bytes) : Parsed KJson :=
  match skip value with
  | none => .fault
  | some value' => parseValue uninit (2 * value.length + 2) value'

end

end Oaf
