/-
# The language of a regular expression

`regexp.c` is asked to match patterns of a small syntax: `^`, then characters, escaped characters and `.`, each of
them alone or with `*`, `+` or `?` behind it, then `$`.  Classes are left out here.

* `compile_pattern`: the nodes that such a pattern compiles to.
* `matchhere_items`: they take the words of its language.
* `regexp_match_iff`: **`regexp_match` decides whether the text has such a word**, at its start under `^` and at
  its end under `$`.  The pattern without any byte is the one error.
-/
import Oaf.Lib.Recognize
import Oaf.Regexp.Parts

namespace Oaf

open CLib Recognize Computability

/-! ## 1. The syntax -/

/-- What a pattern asks for in one place: a character, an escaped one, or any. -/
inductive Atom
  | char (c : UInt8) (h : c ≠ 0 ∧ isSpecial c = false)
  | escaped (c : UInt8) (h : c ≠ 0 ∧ c ≠ 100 ∧ c ≠ 68)
  | any

/-- How often. -/
inductive Often
  | once
  | star
  | plus
  | ques

structure Item where
  atom : Atom
  often : Often

/-- A pattern: `^`, the items, `$`. -/
structure Pattern where
  start : Bool
  items : List Item
  eol : Bool

def Atom.bytes : Atom → List UInt8
  | .char c _ => [c]
  | .escaped c _ => [92, c]
  | .any => [46]

def Often.bytes : Often → List UInt8
  | .once => []
  | .star => [42]
  | .plus => [43]
  | .ques => [63]

def Item.bytes (item : Item) : List UInt8 := item.atom.bytes ++ item.often.bytes

def Pattern.bytes (p : Pattern) : List UInt8 :=
  (if p.start then [94] else []) ++ p.items.flatMap Item.bytes ++ if p.eol then [36] else []

theorem Item.noNul {item : Item} : (0 : UInt8) ∉ item.bytes := by
  intro h
  obtain h | h := List.mem_append.mp h
  · cases hatom : item.atom with
    | char c hc => exact hc.1 (by simpa [hatom, Atom.bytes, eq_comm] using h)
    | escaped c hc => exact hc.1 (by simpa [hatom, Atom.bytes, eq_comm] using h)
    | any => simp [hatom, Atom.bytes] at h
  · cases hoften : item.often <;> simp [hoften, Often.bytes] at h

/-- The pattern as a string. -/
def Pattern.text (p : Pattern) : CStr where
  bytes := p.bytes
  noNul := by
    intro h
    obtain h | h := List.mem_append.mp h
    · obtain h | h := List.mem_append.mp h
      · split at h <;> simp at h
      · obtain ⟨item, -, h⟩ := List.mem_flatMap.mp h
        exact item.noNul h
    · split at h <;> simp at h

/-! ## 2. The language -/

/-- The bytes that an atom stands for. -/
def Atom.takes : Atom → UInt8 → Bool
  | .char c _ | .escaped c _ => (· == c)
  | .any => fun _ => true

def Item.language (item : Item) : Language UInt8 :=
  match item.often with
  | .once => letter item.atom.takes
  | .star => (letter item.atom.takes)∗
  | .plus => letter item.atom.takes * (letter item.atom.takes)∗
  | .ques => 1 + letter item.atom.takes

/-- The words that a pattern denotes. -/
def Pattern.language (p : Pattern) : Language UInt8 := (p.items.map Item.language).prod

/-- A text has a word of the pattern, in a place that its anchors allow. -/
def Pattern.OccursIn (p : Pattern) (text : List UInt8) : Prop :=
  ∃ before word after, before ++ word ++ after = text ∧ word ∈ p.language ∧
    (p.start → before = []) ∧ (p.eol → after = [])

/-! ## 3. The nodes -/

def Atom.type : Atom → ReType
  | .char c _ | .escaped c _ => .CHAR c
  | .any => .DOT

def Often.type : Often → Option ReType
  | .once => none
  | .star => some .STAR
  | .plus => some .PLUS
  | .ques => some .QUES

/-- The nodes of items, and of the `$` behind them. -/
def itemNodes (eol : Bool) : Nat → List Item → List RE
  | n, [] => if eol then [⟨.END, n⟩] else []
  | n, item :: items =>
    match item.often.type with
    | none => ⟨item.atom.type, n⟩ :: itemNodes eol (n + 1) items
    | some type => ⟨item.atom.type, n⟩ :: ⟨type, n + 1⟩ :: itemNodes eol (n + 2) items

def Pattern.nodes (p : Pattern) : List RE :=
  if p.start then ⟨.BEGIN, 0⟩ :: itemNodes p.eol 1 p.items else itemNodes p.eol 0 p.items

variable {eol : Bool} {mem : KmallocMem} {fuel n : Nat} {rest : List UInt8}

/-- The bytes of items and of the `$` behind them. -/
def itemBytes (eol : Bool) (items : List Item) : List UInt8 :=
  items.flatMap Item.bytes ++ if eol then [36] else []

theorem compileLoop_atom (atom : Atom) :
    compileLoop (fuel + 1) n (atom.bytes ++ rest) =
      (compileLoop fuel (n + 1) rest).map (⟨atom.type, n⟩ :: ·) := by
  cases atom with
  | char c h =>
    obtain ⟨⟨⟨⟨⟨⟨⟨h92, h46⟩, h94⟩, h36⟩, h42⟩, h43⟩, h63⟩, h91⟩ := by
      simpa only [isSpecial, Bool.or_eq_false_iff, beq_eq_false_iff_ne] using h.2
    simp [Atom.bytes, Atom.type, compileLoop, h92, h46, h94, h36, h42, h43, h63, h91]
  | escaped c h => simp [Atom.bytes, Atom.type, compileLoop, h.2.1, h.2.2]
  | any => simp [Atom.bytes, Atom.type, compileLoop]

theorem compileLoop_often {often : Often} {type : ReType} (htype : often.type = some type) :
    compileLoop (fuel + 1) n (often.bytes ++ rest) =
      (compileLoop fuel (n + 1) rest).map (⟨type, n⟩ :: ·) := by
  cases often with
  | once => cases htype
  | star | plus | ques =>
    obtain rfl : _ = type := by simpa [Often.type] using htype
    simp [Often.bytes, compileLoop]

theorem compileLoop_items (items : List Item) (hfuel : (itemBytes eol items).length ≤ fuel) :
    compileLoop fuel n (itemBytes eol items) = .ok (itemNodes eol n items) := by
  induction items generalizing fuel n with
  | nil =>
    cases eol with
    | false => cases fuel <;> rfl
    | true =>
      obtain ⟨fuel, rfl⟩ : ∃ k, fuel = k + 1 := Nat.exists_eq_succ_of_ne_zero (by
        simp [itemBytes] at hfuel
        omega)
      cases fuel <;> rfl
  | cons item items ih =>
    have hbytes : itemBytes eol (item :: items) =
        item.atom.bytes ++ (item.often.bytes ++ itemBytes eol items) := by
      simp [itemBytes, Item.bytes]
    have hatom : 1 ≤ item.atom.bytes.length := by cases item.atom <;> simp [Atom.bytes]
    rw [hbytes, List.length_append, List.length_append] at hfuel
    obtain ⟨fuel, rfl⟩ : ∃ k, fuel = k + 1 := Nat.exists_eq_succ_of_ne_zero (by omega)
    rw [hbytes, compileLoop_atom, itemNodes]
    cases htype : item.often.type with
    | none =>
      have hnone : item.often.bytes = [] := by
        cases hoften : item.often <;> simp_all [Often.type, Often.bytes]
      rw [hnone, List.nil_append, ih (by omega)]
      rfl
    | some type =>
      have hsome : item.often.bytes.length = 1 := by
        cases hoften : item.often <;> simp_all [Often.type, Often.bytes]
      obtain ⟨fuel, rfl⟩ : ∃ k, fuel = k + 1 := Nat.exists_eq_succ_of_ne_zero (by omega)
      rw [compileLoop_often htype, ih (by omega)]
      rfl

theorem itemNodes_nil {items : List Item} : itemNodes eol n items = [] ↔ itemBytes eol items = [] := by
  cases items with
  | nil => cases eol <;> simp [itemNodes, itemBytes]
  | cons item items =>
    have hatom : item.atom.bytes ≠ [] := by cases item.atom <;> simp [Atom.bytes]
    rw [itemNodes]
    cases item.often.type <;> simp [itemBytes, Item.bytes, hatom]

/-- **The nodes of a pattern.** -/
theorem compile_pattern {p : Pattern} (hp : p.bytes ≠ []) : compile p.text = .ok p.nodes := by
  have hitems : p.bytes = (if p.start then [94] else []) ++ itemBytes p.eol p.items := by
    rw [Pattern.bytes, itemBytes, List.append_assoc]
  have hne : p.nodes ≠ [] := by
    cases hstart : p.start with
    | true => simp [Pattern.nodes, hstart]
    | false =>
      rw [Pattern.nodes, hstart, if_neg Bool.false_ne_true, ne_eq, itemNodes_nil]
      simpa [hitems, hstart] using hp
  have hloop : compileLoop p.bytes.length 0 p.bytes = .ok p.nodes := by
    rw [hitems, Pattern.nodes]
    cases p.start with
    | true =>
      rw [if_pos rfl, if_pos rfl, List.singleton_append, List.length_cons, compileLoop]
      simp [compileLoop_items p.items le_rfl, Compiled.map]
    | false => exact compileLoop_items p.items le_rfl
  rw [compile, show p.text.strlen = p.bytes.length from rfl, show p.text.bytes = p.bytes from rfl, hloop]
  cases hnodes : p.nodes with
  | nil => exact absurd hnodes hne
  | cons r rest => rfl

/-! ## 4. What the nodes take -/

@[simp] theorem matchOne_atom {atom : Atom} {c : UInt8} :
    matchOne mem ⟨atom.type, n⟩ c = atom.takes c := by
  cases atom <;> simp [matchOne, inList, RE.ch, Atom.type, Atom.takes]

/-- The part that an item is. -/
def Item.part (item : Item) (n : Nat) : Part :=
  match item.often with
  | .once => .one ⟨item.atom.type, n⟩
  | .star => .star ⟨item.atom.type, n⟩
  | .plus => .plus ⟨item.atom.type, n⟩
  | .ques => .ques ⟨item.atom.type, n⟩

/-- How a part is walked, from the walk over the parts behind it. -/
def Part.matcher (mem : KmallocMem) : Part → Matcher UInt8
  | .one r => fun rest text =>
    match text with
    | [] => false
    | c :: text => matchOne mem r c && rest text
  | .star r => matchstar (matchOne mem r)
  | .plus r => matchplus (matchOne mem r)
  | .ques r => matchques (matchOne mem r)

theorem matchParts_cons {part : Part} {ps : List Part} {text : List UInt8} :
    matchParts mem eol (part :: ps) text = part.matcher mem (matchParts mem eol ps) text := by
  cases part with
  | one r => cases text <;> rfl
  | star r | plus r | ques r => rw [matchParts, Part.matcher]

theorem matchplus_cons {one : UInt8 → Bool} {rest : List UInt8 → Bool} {c : UInt8} {text : List UInt8} :
    matchplus one rest (c :: text) = (one c && matchstar one rest text) := by
  induction text generalizing c with
  | nil => simp [matchplus, matchstar]
  | cons d text ih => rw [matchplus, ih, matchstar]

/-- **A part takes the words of its item.** -/
theorem recognizes_item (item : Item) : Recognizes ((item.part n).matcher mem) item.language := by
  obtain ⟨atom, often⟩ := item
  have hone : ∀ {m : Nat}, matchOne mem ⟨atom.type, m⟩ = atom.takes := funext fun c => matchOne_atom
  have hstar : Recognizes (matchstar atom.takes) (letter atom.takes)∗ :=
    recognizes_star (fun rest => rfl) fun rest c text => rfl
  cases often with
  | once =>
    refine recognizes_letter (fun rest => rfl) fun rest c text => ?_
    simp [Item.part, Part.matcher]
  | star =>
    simp only [Item.part, Part.matcher, hone]
    exact hstar
  | plus =>
    simp only [Item.part, Part.matcher, hone]
    exact recognizes_plus hstar (fun rest => rfl) fun rest c text => matchplus_cons
  | ques =>
    simp only [Item.part, Part.matcher, hone]
    refine recognizes_optional (fun rest => rfl) fun rest c text => ?_
    rw [matchques]
    cases atom.takes c <;> simp [Bool.or_comm]

/-- Items start with no repetition, and with no `^`. -/
theorem itemNodes_head {items : List Item} {q : RE} {rest : List RE} (h : itemNodes eol n items = q :: rest) :
    q.type ≠ .STAR ∧ q.type ≠ .PLUS ∧ q.type ≠ .QUES ∧ q.type ≠ .BEGIN := by
  cases items with
  | nil =>
    cases eol with
    | false => cases h
    | true =>
      obtain ⟨rfl, -⟩ := List.cons.inj h
      simp
  | cons item items =>
    have hq : q = ⟨item.atom.type, n⟩ := by
      rw [itemNodes] at h
      cases htype : item.often.type <;> rw [htype] at h <;> exact (List.cons.inj h).1.symm
    rw [hq]
    cases item.atom <;> simp [Atom.type]

/-- The part of an item, in front of those of the other ones. -/
theorem parts_item (item : Item) (items : List Item) :
    ∃ m, parts (itemNodes eol n (item :: items)) = (parts (itemNodes eol m items)).map (item.part n :: ·) id := by
  obtain ⟨atom, often⟩ := item
  cases often with
  | star | plus | ques =>
    refine ⟨n + 2, ?_⟩
    simp [itemNodes, Often.type, parts, Item.part]
  | once =>
    refine ⟨n + 1, ?_⟩
    have hend : atom.type ≠ .END := by cases atom <;> simp [Atom.type]
    simp only [itemNodes, Often.type, Item.part]
    cases hrest : itemNodes eol (n + 1) items with
    | nil => simp [parts, hend]
    | cons q rest =>
      obtain ⟨hstar, hplus, hques, -⟩ := itemNodes_head hrest
      rw [parts, if_neg hstar, if_neg hplus, if_neg hques]

/-- **The nodes of items take a word of their languages**, and nothing may follow it in front of a `$`. -/
theorem matchhere_items {items : List Item} {text : List UInt8} :
    matchhere mem (itemNodes eol n items) text = true ↔
      ∃ u v, u ++ v = text ∧ u ∈ (items.map Item.language).prod ∧ (eol → v = []) := by
  induction items generalizing n text with
  | nil =>
    have hparts : parts (itemNodes eol n []) = ([], eol) := by cases eol <;> simp [itemNodes, parts]
    rw [matchhere_eq_parts, hparts, matchParts]
    constructor
    · intro h
      exact ⟨[], text, rfl, rfl, fun heol => by simpa [heol] using h⟩
    · rintro ⟨u, v, rfl, hu, hv⟩
      obtain rfl := (Language.mem_one u).mp hu
      cases eol with
      | false => rfl
      | true => simp [hv]
  | cons item items ih =>
    obtain ⟨m, hm⟩ := @parts_item eol n item items
    have hrest : ∀ v, matchParts mem (parts (itemNodes eol m items)).2 (parts (itemNodes eol m items)).1 v = true ↔
        ∃ u w, u ++ w = v ∧ u ∈ (items.map Item.language).prod ∧ (eol → w = []) := by
      intro v
      rw [← matchhere_eq_parts]
      exact ih
    rw [matchhere_eq_parts, hm, Prod.map_fst, Prod.map_snd, id, matchParts_cons, recognizes_item item]
    constructor
    · rintro ⟨u, v, rfl, hu, hv⟩
      obtain ⟨u', w, rfl, hu', hw⟩ := (hrest v).mp hv
      exact ⟨u ++ u', w, List.append_assoc u u' w, Language.append_mem_mul hu hu', hw⟩
    · rintro ⟨word, w, rfl, hword, hw⟩
      obtain ⟨u, hu, u', hu', rfl⟩ := Language.mem_mul.mp hword
      exact ⟨u, u' ++ w, (List.append_assoc u u' w).symm, hu, (hrest _).mpr ⟨u', w, rfl, hu', hw⟩⟩

/-! ## 5. `regexp_match` -/

/-- The walk of `regexp_match` finds a word in a place that the anchors allow. -/
theorem walk_iff {p : Pattern} {r : RE} {rest : List RE} {text : List UInt8} (h : p.nodes = r :: rest) :
    (if r.type = .BEGIN then matchhere mem rest text else matchSomewhere mem (r :: rest) text) = true ↔
      p.OccursIn text := by
  cases hstart : p.start with
  | true =>
    rw [Pattern.nodes, hstart, if_pos rfl] at h
    obtain ⟨rfl, rfl⟩ := List.cons.inj h
    rw [if_pos rfl, matchhere_items]
    constructor
    · rintro ⟨u, v, rfl, hu, hv⟩
      exact ⟨[], u, v, rfl, hu, fun _ => rfl, hv⟩
    · rintro ⟨before, u, v, rfl, hu, hbefore, hv⟩
      obtain rfl := hbefore hstart
      exact ⟨u, v, rfl, hu, hv⟩
  | false =>
    rw [Pattern.nodes, hstart, if_neg Bool.false_ne_true] at h
    rw [if_neg (itemNodes_head h).2.2.2, matchSomewhere_suffix, ← h]
    constructor
    · rintro ⟨t, ⟨before, rfl⟩, hhere⟩
      obtain ⟨u, v, rfl, hu, hv⟩ := matchhere_items.mp hhere
      exact ⟨before, u, v, List.append_assoc before u v, hu, fun hs => by simp [hstart] at hs, hv⟩
    · rintro ⟨before, u, v, rfl, hu, -, hv⟩
      exact ⟨u ++ v, ⟨before, (List.append_assoc before u v).symm⟩, matchhere_items.mpr ⟨u, v, rfl, hu, hv⟩⟩

theorem regexpMatch_empty {reg text : CStr} (h : reg.bytes = []) : regexpMatch mem reg text = some (-1) := by
  have hcompile : compile reg = .failed := by
    rw [compile, CStr.strlen, h]
    rfl
  rw [regexpMatch, hcompile]

/-- **What `regexp_match` says of such a pattern**: 1 where the text has one of its words, 0 where it has none, and
`-1` for the pattern that asks for nothing. -/
theorem regexp_match_iff (mem : KmallocMem) (p : Pattern) (text : CStr) :
    if p.bytes = [] then regexpMatch mem p.text text = some (-1)
    else (p.OccursIn text.bytes → regexpMatch mem p.text text = some 1) ∧
      (¬ p.OccursIn text.bytes → regexpMatch mem p.text text = some 0) := by
  split
  · rename_i hp
    exact regexpMatch_empty hp
  · rename_i hp
    obtain ⟨r, rest, hnodes, hmatch⟩ := regexpMatch_ok (compile_pattern hp) mem text
    rw [hmatch]
    constructor
    · intro hoccurs
      rw [if_pos ((walk_iff hnodes).mpr hoccurs)]
    · intro hoccurs
      rw [if_neg (mt (walk_iff hnodes).mp hoccurs)]

/-- The pattern without any byte denotes the empty word, which every text has, and is an error. -/
theorem empty_pattern_is_an_error :
    (⟨false, [], false⟩ : Pattern).OccursIn [] ∧
      regexpMatch ⟨fun _ => 0, fun _ => 0⟩ (⟨false, [], false⟩ : Pattern).text CStr.empty = some (-1) :=
  ⟨⟨[], [], [], rfl, rfl, fun _ => rfl, fun _ => rfl⟩, regexpMatch_empty rfl⟩

end Oaf
