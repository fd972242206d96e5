/-
# The regular expressions of the kernel module

`regexp.c`: `compile` turns a pattern into a list of nodes, `matchhere` walks that list over a
text, `regexp_match` tries every place of the text.

Two things about memory are part of the model.  `kmalloc` does not clear what it returns, and
`compile` sets `ch` for some types only, while `MATCH_ONE` compares it for every type: what the
node at an address holds there is an argument of the match (`KmallocMem`).  And the buffer of a
class has 256 bytes, which a long class overruns at its end and an inverted range (`[z-a]`) at
its start: that is the result `wild`.  Allocations succeed; the source uses them unchecked.

The memory behind a pattern's terminator reads as NUL; `char` is unsigned; `match_longest` is 0.
-/
import Oaf.Lib.CStr

namespace Oaf

open CLib

/-! ## 1. Nodes -/

/-- `TYPE`, each with the fields of `RE` that `compile` sets for it.  A class is the bytes
written to `ccl`, whether the byte behind them is left as it was, and `nccl`. -/
inductive ReType
  | CHAR (ch : UInt8)
  | DOT
  | BEGIN
  | END
  | STAR
  | PLUS
  | QUES
  | LIST (ccl : List UInt8) (gap : Bool) (nccl : Bool)
deriving DecidableEq, Repr

/-- `RE`: a node and its address. -/
structure RE where
  type : ReType
  addr : Nat
deriving DecidableEq, Repr

/-- The field `ch`, for the types `compile` sets it for. -/
def RE.ch (reg : RE) : Option UInt8 :=
  match reg.type with
  | .CHAR c => some c
  | .BEGIN => some 94
  | .END => some 36
  | _ => none

/-- What `kmalloc` returned: the field `ch` of the node at an address, and the one byte of its
class that `\d` does not write. -/
structure KmallocMem where
  ch : Nat → Int
  cclGap : Nat → UInt8

/-- `in_list`. -/
def inList (mem : KmallocMem) (ch : UInt8) (regexp : RE) : Bool :=
  match regexp.type with
  | .LIST ccl gap nccl =>
    let str := if gap then ccl ++ [mem.cclGap regexp.addr] else ccl
    (CStr.ofBytes str).bytes.contains ch != nccl
  | _ => false

/-- `MATCH_ONE`, and what `MATCH_ONE_P` tests. -/
def matchOne (mem : KmallocMem) (reg : RE) (c : UInt8) : Bool :=
  reg.type = .DOT || inList mem c reg ||
    match reg.ch with
    | some ch => c == ch
    | none => (c.toNat : Int) = mem.ch reg.addr

/-! ## 2. `compile` -/

def CCL_SIZE : Nat := 256

/-- What a class or a pattern compiles to. -/
inductive Compiled (α : Type)
  | wild
  | failed
  | ok (result : α)
deriving DecidableEq

def Compiled.map {α β : Type} (f : α → β) : Compiled α → Compiled β
  | .wild => .wild
  | .failed => .failed
  | .ok a => .ok (f a)

/-- `creat_list` at the end of what a class holds so far.  An inverted range is a negative
count, which moves `pstr` back. -/
def creatList (ccl : List UInt8) (start stop : Int) : Compiled (List UInt8) :=
  let cnt := stop - start + 1
  if 0 ≤ cnt then
    let chars := (List.range cnt.toNat).map fun k : Nat => (start + k).toNat.toUInt8
    if CCL_SIZE < ccl.length + chars.length then .wild else .ok (ccl ++ chars)
  else if (ccl.length : Int) + cnt < 0 then .wild
  else .ok (ccl.take (ccl.length + cnt).toNat)

/-- The loop over a class from behind `[` or `[^` on: the class and the text behind its `]`.
`prev` is the byte at `regexp - 1`. -/
def classLoop : Nat → List UInt8 → UInt8 → List UInt8 → Compiled (List UInt8 × List UInt8)
  | 0, _, _, _ => .failed
  | _ + 1, ccl, _, [] => if CCL_SIZE ≤ ccl.length then .wild else .failed
  | fuel + 1, ccl, prev, c :: rest =>
    if c = 93 then
      if CCL_SIZE ≤ ccl.length then .wild else .ok (ccl, rest)
    else if c ≠ 45 then
      if CCL_SIZE ≤ ccl.length then .wild else classLoop fuel (ccl ++ [c]) c rest
    else if ccl = [] ∨ rest.headD 0 = 93 then
      if CCL_SIZE ≤ ccl.length then .wild else .failed
    else
      match creatList ccl (prev.toNat + 1) (rest.headD 0).toNat with
      | .ok ccl => classLoop fuel ccl (rest.headD 0) rest.tail
      | .failed => .failed
      | .wild => .wild

/-- The ten bytes of the class of `\d` and `\D`. -/
def digitClass : List UInt8 := ascii "0123456789"

/-- The loop of `compile`; `n` counts the nodes so far and stands for the next one's address. -/
def compileLoop : Nat → Nat → List UInt8 → Compiled (List RE)
  | 0, _, _ => .ok []
  | _ + 1, _, [] => .ok []
  | fuel + 1, n, c :: rest =>
    let next := fun (type : ReType) (rest : List UInt8) =>
      (compileLoop fuel (n + 1) rest).map (⟨type, n⟩ :: ·)
    if c = 92 then
      let d := rest.headD 0
      if d = 100 then next (.LIST digitClass true false) rest.tail
      else if d = 68 then next (.LIST digitClass true true) rest.tail
      else next (.CHAR d) rest.tail
    else if c = 46 then next .DOT rest
    else if c = 94 then next .BEGIN rest
    else if c = 36 then next .END rest
    else if c = 42 then next .STAR rest
    else if c = 43 then next .PLUS rest
    else if c = 63 then next .QUES rest
    else if c = 91 then
      let nccl := decide (rest.headD 0 = 94)
      let body := if nccl then rest.tail else rest
      match classLoop (body.length + 1) [] 0 body with
      | .ok (ccl, rest) => next (.LIST ccl false nccl) rest
      | .failed => .failed
      | .wild => .wild
    else next (.CHAR c) rest

/-- `compile`.  The empty pattern has no nodes, which is NULL as well. -/
def compile (regexp : CStr) : Compiled (List RE) :=
  match compileLoop regexp.strlen 0 regexp.bytes with
  | .ok [] => .failed
  | r => r

/-! ## 3. Matching -/

/-- `matchstar`: the rest is tried first, then one more repetition. -/
def matchstar (one : UInt8 → Bool) (rest : List UInt8 → Bool) : List UInt8 → Bool
  | [] => rest []
  | c :: text => rest (c :: text) || (one c && matchstar one rest text)

/-- `matchplus`. -/
def matchplus (one : UInt8 → Bool) (rest : List UInt8 → Bool) : List UInt8 → Bool
  | [] => false
  | c :: text => one c && (rest text || matchplus one rest text)

/-- `matchques`: one is tried before none. -/
def matchques (one : UInt8 → Bool) (rest : List UInt8 → Bool) : List UInt8 → Bool
  | [] => rest []
  | c :: text => if one c then rest text || rest (c :: text) else rest (c :: text)

/-- `matchhere`. -/
def matchhere (mem : KmallocMem) : List RE → List UInt8 → Bool
  | [], _ => true
  | [r], text =>
    if r.type = .END then text.isEmpty
    else
      match text with
      | [] => false
      | c :: _ => matchOne mem r c
  | r :: q :: rest, text =>
    if q.type = .STAR then matchstar (matchOne mem r) (fun t => matchhere mem rest t) text
    else if q.type = .PLUS then matchplus (matchOne mem r) (fun t => matchhere mem rest t) text
    else if q.type = .QUES then matchques (matchOne mem r) (fun t => matchhere mem rest t) text
    else
      match text with
      | [] => false
      | c :: text => matchOne mem r c && matchhere mem (q :: rest) text

/-- The loop of `regexp_match` over the places of the text, the terminator included. -/
def matchSomewhere (mem : KmallocMem) (regexp : List RE) : List UInt8 → Bool
  | [] => matchhere mem regexp []
  | c :: text => matchhere mem regexp (c :: text) || matchSomewhere mem regexp text

/-- `regexp_match`: `-1`, 0 or 1, or `none` when `compile` wrote outside its class buffer. -/
def regexpMatch (mem : KmallocMem) (reg text : CStr) : Option Int :=
  match compile reg with
  | .wild => none
  | .failed => some (-1)
  | .ok [] => some (-1)
  | .ok (r :: rest) =>
    if r.type = .BEGIN then some (if matchhere mem rest text.bytes then 1 else 0)
    else some (if matchSomewhere mem (r :: rest) text.bytes then 1 else 0)

end Oaf
