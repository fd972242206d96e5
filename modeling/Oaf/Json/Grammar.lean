/-
# What the parser reads

`Reads` is the language of the parser, and `Cut` the texts that it runs out of: where nothing but white
space follows up to the end of the buffer at a place where white space may be, or where a word, a number
or a string goes on to the end.

* `parse_of_reads`, `parse_of_cut`: what the parser does on a text that reads so, and on one that is cut.
* `judged`: no value but these, and no other read behind the buffer.
-/
import Oaf.Json.Tokens

namespace Oaf

open CLib

/-! ## 1. The language -/

/-- A value, or the items or members of one up to the bracket or brace. -/
inductive JsonNode where
  | value (v : KJson)
  | items (vs : List KJson)
  | members (ms : List (CStr × KJson))

section

variable (uninit : Bytes → UInt32)

/-- The text reads as this, and ends there. -/
inductive Reads : Bytes → JsonNode → Bytes → Prop
  | null {rest} : Reads (ascii "null" ++ rest) (.value .null) rest
  | false {rest} : Reads (ascii "false" ++ rest) (.value .false) rest
  | true {rest} : Reads (ascii "true" ++ rest) (.value .true) rest
  | string {s str rest} : parseString uninit s = some (str, rest) →
      Reads (34 :: s) (.value (.string str)) rest
  | number {c s n rest} : (c = 45 ∨ isdigit c = true) → parseNumber (c :: s) = some (n, rest) →
      Reads (c :: s) (.value (.number n)) rest
  | emptyArray {s rest} : skip s = some (93 :: rest) → Reads (91 :: s) (.value (.array [])) rest
  | array {s v vs rest} : skip s = some v → v.head? ≠ some 93 → Reads v (.items vs) rest →
      Reads (91 :: s) (.value (.array vs)) rest
  | emptyObject {s rest} : skip s = some (125 :: rest) → Reads (123 :: s) (.value (.object [])) rest
  | object {s v ms rest} : skip s = some v → v.head? ≠ some 125 → Reads v (.members ms) rest →
      Reads (123 :: s) (.value (.object ms)) rest
  | lastItem {s v x t rest} : skip s = some v → Reads v (.value x) t → skip t = some (93 :: rest) →
      Reads s (.items [x]) rest
  | nextItem {s v x t u xs rest} : skip s = some v → Reads v (.value x) t → skip t = some (44 :: u) →
      Reads u (.items xs) rest → Reads s (.items (x :: xs)) rest
  | lastMember {s k key t u v x w rest} : skip s = some (34 :: k) → parseString uninit k = some (key, t) →
      skip t = some (58 :: u) → skip u = some v → Reads v (.value x) w → skip w = some (125 :: rest) →
      Reads s (.members [(key, x)]) rest
  | nextMember {s k key t u v x w y ms rest} : skip s = some (34 :: k) →
      parseString uninit k = some (key, t) → skip t = some (58 :: u) → skip u = some v →
      Reads v (.value x) w → skip w = some (44 :: y) → Reads y (.members ms) rest →
      Reads s (.members ((key, x) :: ms)) rest

/-- What is being read. -/
inductive JsonPart where
  | value
  | items
  | members

/-- The text is a beginning of a word. -/
def CutWord (s : Bytes) : Prop :=
  ∃ word ∈ [ascii "null", ascii "false", ascii "true"], s <+: word ∧ s ≠ word

/-- The buffer ends before the text does, or before what may be white space does. -/
inductive Cut : JsonPart → Bytes → Prop
  | word {s} : CutWord s → Cut .value s
  | string {s} : CutString s → Cut .value (34 :: s)
  | number {c s} : (c = 45 ∨ isdigit c = true) → CutNumber (c :: s) → Cut .value (c :: s)
  | openArray {s} : s.all isBlank = true → Cut .value (91 :: s)
  | array {s v} : skip s = some v → v.head? ≠ some 93 → Cut .items v → Cut .value (91 :: s)
  | openObject {s} : s.all isBlank = true → Cut .value (123 :: s)
  | object {s v} : skip s = some v → v.head? ≠ some 125 → Cut .members v → Cut .value (123 :: s)
  | beforeItem {s} : s.all isBlank = true → Cut .items s
  | item {s v} : skip s = some v → Cut .value v → Cut .items s
  | afterItem {s v x t} : skip s = some v → Reads uninit v (.value x) t → t.all isBlank = true → Cut .items s
  | nextItem {s v x t u} : skip s = some v → Reads uninit v (.value x) t → skip t = some (44 :: u) →
      Cut .items u → Cut .items s
  | beforeKey {s} : s.all isBlank = true → Cut .members s
  | key {s k} : skip s = some (34 :: k) → CutString k → Cut .members s
  | afterKey {s k key t} : skip s = some (34 :: k) → parseString uninit k = some (key, t) →
      t.all isBlank = true → Cut .members s
  | beforeMember {s k key t u} : skip s = some (34 :: k) → parseString uninit k = some (key, t) →
      skip t = some (58 :: u) → u.all isBlank = true → Cut .members s
  | member {s k key t u v} : skip s = some (34 :: k) → parseString uninit k = some (key, t) →
      skip t = some (58 :: u) → skip u = some v → Cut .value v → Cut .members s
  | afterMember {s k key t u v x w} : skip s = some (34 :: k) → parseString uninit k = some (key, t) →
      skip t = some (58 :: u) → skip u = some v → Reads uninit v (.value x) w →
      w.all isBlank = true → Cut .members s
  | nextMember {s k key t u v x w y} : skip s = some (34 :: k) → parseString uninit k = some (key, t) →
      skip t = some (58 :: u) → skip u = some v → Reads uninit v (.value x) w → skip w = some (44 :: y) →
      Cut .members y → Cut .members s

end

/-! ## 2. What has been read -/

variable {uninit : Bytes → UInt32}

theorem suffix_of_cons {c : UInt8} {s t : Bytes} (h : c :: s <:+ t) : s <:+ t := (List.suffix_cons c s).trans h

section Member

variable {s k t u v : Bytes} {key : CStr}

/-- The value of a member, behind its key and the colon. -/
theorem value_suffix (hs : skip s = some (34 :: k)) (hk : parseString uninit k = some (key, t))
    (ht : skip t = some (58 :: u)) (hu : skip u = some v) : v <:+ s := by
  have hkey : t <:+ s := (parseString_suffix hk).trans (suffix_of_cons (skip_suffix hs))
  exact (skip_suffix hu).trans ((suffix_of_cons (skip_suffix ht)).trans hkey)

theorem value_length (hs : skip s = some (34 :: k)) (hk : parseString uninit k = some (key, t))
    (ht : skip t = some (58 :: u)) (hu : skip u = some v) : v.length + 2 ≤ s.length := by
  have hquote := skip_length hs
  have hkey := parseString_length hk
  have hcolon := skip_length ht
  have hvalue := skip_length hu
  simp only [List.length_cons] at hquote hcolon
  omega

end Member

/-- What has been read is the beginning of the text. -/
theorem reads_suffix {s rest : Bytes} {n : JsonNode} (h : Reads uninit s n rest) : rest <:+ s := by
  induction h with
  | null | false | true => exact List.suffix_append _ _
  | string hs => exact (parseString_suffix hs).trans (List.suffix_cons _ _)
  | number _ hn => exact parseNumber_suffix hn
  | emptyArray hskip | emptyObject hskip =>
    exact (suffix_of_cons (skip_suffix hskip)).trans (List.suffix_cons _ _)
  | array hskip _ _ ih | object hskip _ _ ih =>
    exact (ih.trans (skip_suffix hskip)).trans (List.suffix_cons _ _)
  | lastItem hs _ ht ih => exact (suffix_of_cons (skip_suffix ht)).trans (ih.trans (skip_suffix hs))
  | nextItem hs _ ht _ ih ih' =>
    exact ih'.trans ((suffix_of_cons (skip_suffix ht)).trans (ih.trans (skip_suffix hs)))
  | lastMember hs hk ht hu _ hw ih =>
    have hvalue := value_suffix hs hk ht hu
    exact (suffix_of_cons (skip_suffix hw)).trans (ih.trans hvalue)
  | nextMember hs hk ht hu _ hw _ ih ih' =>
    have hvalue := value_suffix hs hk ht hu
    exact ih'.trans ((suffix_of_cons (skip_suffix hw)).trans (ih.trans hvalue))

theorem reads_length {s rest : Bytes} {n : JsonNode} (h : Reads uninit s n rest) :
    rest.length ≤ s.length := (reads_suffix h).length_le

/-! ## 3. What the parser gives -/

/-- `parse_value` at a character that begins no word. -/
theorem parseValue_cons (fuel : Nat) {c : UInt8} (s : Bytes) (hn : c ≠ 110) (hf : c ≠ 102) (ht : c ≠ 116) :
    parseValue uninit (fuel + 1) (c :: s) =
      if c = 34 then
        match parseString uninit s with
        | none => .fault
        | some (str, rest) => .ok (.string str) rest
      else if c = 45 || isdigit c then
        match parseNumber (c :: s) with
        | none => .fault
        | some (n, rest) => .ok (.number n) rest
      else if c = 91 then
        match skip s with
        | none => .fault
        | some s' =>
          if s'.head? = some 93 then .ok (.array []) s'.tail
          else (parseItems uninit fuel s').map .array
      else if c = 123 then
        match skip s with
        | none => .fault
        | some s' =>
          if s'.head? = some 125 then .ok (.object []) s'.tail
          else (parseMembers uninit fuel s').map .object
      else .fail := by
  have hnull : strncmpWord (ascii "null") (c :: s) = some false := if_neg hn
  have hfalse : strncmpWord (ascii "false") (c :: s) = some false := if_neg hf
  have htrue : strncmpWord (ascii "true") (c :: s) = some false := if_neg ht
  rw [parseValue]
  generalize strncmpWord (ascii "null") (c :: s) = isNull at hnull ⊢
  generalize strncmpWord (ascii "false") (c :: s) = isFalse at hfalse ⊢
  generalize strncmpWord (ascii "true") (c :: s) = isTrue at htrue ⊢
  subst hnull hfalse htrue
  rfl

/-- The parser gives this, with so much fuel. -/
def Gives (uninit : Bytes → UInt32) (fuel : Nat) (s : Bytes) : JsonNode → Bytes → Prop
  | .value v, rest => parseValue uninit fuel s = .ok v rest
  | .items vs, rest => parseItems uninit fuel s = .ok vs rest
  | .members ms, rest => parseMembers uninit fuel s = .ok ms rest

/-- What the text takes of fuel. -/
def fuelFor (s : Bytes) : JsonNode → Nat
  | .value _ => 2 * s.length + 1
  | _ => 2 * s.length + 2

theorem fuelFor_succ {s : Bytes} {n : JsonNode} {fuel : Nat} (h : fuelFor s n ≤ fuel) :
    ∃ f, fuel = f + 1 ∧ fuelFor s n ≤ f + 1 := by
  cases fuel with
  | zero => cases n <;> cases h
  | succ f => exact ⟨f, rfl, h⟩

/-- What begins a number begins nothing else. -/
theorem number_start {c : UInt8} (h : c = 45 ∨ isdigit c = true) : c ≠ 110 ∧ c ≠ 102 ∧ c ≠ 116 ∧ c ≠ 34 := by
  refine ⟨?_, ?_, ?_, ?_⟩ <;> rintro rfl <;> revert h <;> decide

theorem parseValue_number (fuel : Nat) {c : UInt8} (s : Bytes) (h : c = 45 ∨ isdigit c = true) :
    parseValue uninit (fuel + 1) (c :: s) =
      match parseNumber (c :: s) with
      | none => .fault
      | some (n, rest) => .ok (.number n) rest := by
  obtain ⟨hn, hf, ht, hquote⟩ := number_start h
  rw [parseValue_cons fuel s hn hf ht, if_neg hquote, if_pos (by simpa using h)]

theorem parseValue_string (fuel : Nat) (s : Bytes) :
    parseValue uninit (fuel + 1) (34 :: s) =
      match parseString uninit s with
      | none => .fault
      | some (str, rest) => .ok (.string str) rest :=
  parseValue_cons fuel s (by decide) (by decide) (by decide)

theorem parseValue_array (fuel : Nat) (s : Bytes) :
    parseValue uninit (fuel + 1) (91 :: s) =
      match skip s with
      | none => .fault
      | some s' =>
        if s'.head? = some 93 then .ok (.array []) s'.tail else (parseItems uninit fuel s').map .array :=
  parseValue_cons fuel s (by decide) (by decide) (by decide)

theorem parseValue_object (fuel : Nat) (s : Bytes) :
    parseValue uninit (fuel + 1) (123 :: s) =
      match skip s with
      | none => .fault
      | some s' =>
        if s'.head? = some 125 then .ok (.object []) s'.tail else (parseMembers uninit fuel s').map .object :=
  parseValue_cons fuel s (by decide) (by decide) (by decide)

/-- An item, and what is made of what stands behind it. -/
theorem parseItems_item (fuel : Nat) {s v : Bytes} (hs : skip s = some v) :
    parseItems uninit (fuel + 1) s =
      (parseValue uninit fuel v).andThen fun item t =>
        match skip t with
        | none => .fault
        | some t =>
          if t.head? = some 44 then (parseItems uninit fuel t.tail).map (item :: ·)
          else if t.head? = some 93 then .ok [item] t.tail
          else .fail := by
  rw [parseItems]
  generalize skip s = start at hs ⊢
  subst hs
  rfl

/-- The same for a member. -/
theorem parseMembers_member (fuel : Nat) {s k t u v : Bytes} {key : CStr} (hs : skip s = some (34 :: k))
    (hk : parseString uninit k = some (key, t)) (ht : skip t = some (58 :: u)) (hu : skip u = some v) :
    parseMembers uninit (fuel + 1) s =
      (parseValue uninit fuel v).andThen fun item w =>
        match skip w with
        | none => .fault
        | some w =>
          if w.head? = some 44 then (parseMembers uninit fuel w.tail).map ((key, item) :: ·)
          else if w.head? = some 125 then .ok [(key, item)] w.tail
          else .fail := by
  rw [parseMembers]
  split
  · rename_i hnone
    cases hs.symm.trans hnone
  · rename_i hsome
    cases hs.symm.trans hsome
    -- the quote is there
    rw [if_neg (fun h => h List.head?_cons), List.tail_cons, hk]
    dsimp only
    split
    · rename_i hnone
      cases ht.symm.trans hnone
    · rename_i hsome
      cases ht.symm.trans hsome
      rw [if_neg (fun h => h List.head?_cons), List.tail_cons]
      generalize skip u = start at hu ⊢
      subst hu
      rfl

/-- **What the text reads as, the parser gives.** -/
theorem parse_of_reads {s rest : Bytes} {n : JsonNode} (h : Reads uninit s n rest) :
    ∀ fuel, fuelFor s n ≤ fuel → Gives uninit fuel s n rest := by
  induction h with
  | null | false | true =>
    intro fuel hfuel
    obtain ⟨fuel, rfl, -⟩ := fuelFor_succ hfuel
    rfl
  | string hs =>
    intro fuel hfuel
    obtain ⟨fuel, rfl, -⟩ := fuelFor_succ hfuel
    rw [Gives, parseValue_string, hs]
  | number hc hn =>
    intro fuel hfuel
    obtain ⟨fuel, rfl, -⟩ := fuelFor_succ hfuel
    rw [Gives, parseValue_number fuel _ hc, hn]
  | emptyArray hskip =>
    intro fuel hfuel
    obtain ⟨fuel, rfl, -⟩ := fuelFor_succ hfuel
    rw [Gives, parseValue_array, hskip]
    rfl
  | emptyObject hskip =>
    intro fuel hfuel
    obtain ⟨fuel, rfl, -⟩ := fuelFor_succ hfuel
    rw [Gives, parseValue_object, hskip]
    rfl
  | array hskip hhead _ ih =>
    intro fuel hfuel
    obtain ⟨fuel, rfl, hfuel⟩ := fuelFor_succ hfuel
    have hlen := skip_length hskip
    have hitems := ih fuel (by simp only [fuelFor, List.length_cons] at hfuel ⊢; omega)
    rw [Gives] at hitems
    rw [Gives, parseValue_array, hskip]
    simp only
    rw [if_neg hhead, hitems]
    rfl
  | object hskip hhead _ ih =>
    intro fuel hfuel
    obtain ⟨fuel, rfl, hfuel⟩ := fuelFor_succ hfuel
    have hlen := skip_length hskip
    have hmembers := ih fuel (by simp only [fuelFor, List.length_cons] at hfuel ⊢; omega)
    rw [Gives] at hmembers
    rw [Gives, parseValue_object, hskip]
    simp only
    rw [if_neg hhead, hmembers]
    rfl
  | lastItem hs _ ht ih =>
    intro fuel hfuel
    obtain ⟨fuel, rfl, hfuel⟩ := fuelFor_succ hfuel
    have hlen := skip_length hs
    have hvalue := ih fuel (by simp only [fuelFor] at hfuel ⊢; omega)
    rw [Gives] at hvalue
    rw [Gives, parseItems_item fuel hs, hvalue]
    simp [Parsed.andThen, ht]
  | nextItem hs hx ht _ ih ih' =>
    intro fuel hfuel
    obtain ⟨fuel, rfl, hfuel⟩ := fuelFor_succ hfuel
    have hlen := skip_length hs
    have hread := reads_length hx
    have hcomma := skip_length ht
    simp only [fuelFor, List.length_cons] at hfuel hcomma
    have hvalue := ih fuel (by simp only [fuelFor]; omega)
    have hitems := ih' fuel (by simp only [fuelFor]; omega)
    rw [Gives] at hvalue
    rw [Gives] at hitems
    rw [Gives, parseItems_item fuel hs, hvalue]
    simp [Parsed.andThen, Parsed.map, ht, hitems]
  | lastMember hs hk ht hu _ hw ih =>
    intro fuel hfuel
    obtain ⟨fuel, rfl, hfuel⟩ := fuelFor_succ hfuel
    have h₁ := value_length hs hk ht hu
    simp only [fuelFor] at hfuel
    have hvalue := ih fuel (by simp only [fuelFor]; omega)
    rw [Gives] at hvalue
    rw [Gives, parseMembers_member fuel hs hk ht hu, hvalue]
    simp [Parsed.andThen, hw]
  | nextMember hs hk ht hu hx hw _ ih ih' =>
    intro fuel hfuel
    obtain ⟨fuel, rfl, hfuel⟩ := fuelFor_succ hfuel
    have h₁ := value_length hs hk ht hu
    have h₅ := reads_length hx
    have h₆ := skip_length hw
    simp only [fuelFor, List.length_cons] at hfuel h₆
    have hvalue := ih fuel (by simp only [fuelFor]; omega)
    have hmembers := ih' fuel (by simp only [fuelFor]; omega)
    rw [Gives] at hvalue
    rw [Gives] at hmembers
    rw [Gives, parseMembers_member fuel hs hk ht hu, hvalue]
    simp [Parsed.andThen, Parsed.map, hw, hmembers]

/-! ## 4. What the text reads as -/

theorem strncmpWord_none {word s : Bytes} (h : strncmpWord word s = none) : s <+: word ∧ s ≠ word := by
  induction word generalizing s with
  | nil => cases h
  | cons w word ih =>
    cases s with
    | nil => exact ⟨List.nil_prefix, (List.cons_ne_nil w word).symm⟩
    | cons c s =>
      rw [strncmpWord] at h
      split at h
      · rename_i hc
        subst hc
        obtain ⟨hbegin, hne⟩ := ih h
        exact ⟨(List.prefix_cons_inj c).mpr hbegin, fun heq => hne (List.tail_eq_of_cons_eq heq)⟩
      · cases h

theorem strncmpWord_true {word s : Bytes} (h : strncmpWord word s = some true) : ∃ rest, s = word ++ rest := by
  induction word generalizing s with
  | nil => exact ⟨s, rfl⟩
  | cons w word ih =>
    cases s with
    | nil => cases h
    | cons c s =>
      rw [strncmpWord] at h
      split at h
      · rename_i hc
        subst hc
        obtain ⟨rest, rfl⟩ := ih h
        exact ⟨rest, rfl⟩
      · cases h

theorem eq_cons_of_head? {c : UInt8} {s : Bytes} (h : s.head? = some c) : s = c :: s.tail :=
  (List.head?_eq_some_iff.mp h).elim fun _ hs => by rw [hs, List.tail_cons]

/-- What a result says about the text. -/
def Judged (uninit : Bytes → UInt32) {α : Type} (part : JsonPart) (node : α → JsonNode) (s : Bytes) :
    Parsed α → Prop
  | .fault => Cut uninit part s
  | .fail => True
  | .ok a rest => Reads uninit s (node a) rest

theorem judged_value {fuel : Nat} {s : Bytes} (hfuel : 2 * s.length + 1 ≤ fuel + 1)
    (hitems : ∀ s, 2 * s.length + 2 ≤ fuel → Judged uninit .items .items s (parseItems uninit fuel s))
    (hmembers : ∀ s, 2 * s.length + 2 ≤ fuel →
      Judged uninit .members .members s (parseMembers uninit fuel s)) :
    Judged uninit .value .value s (parseValue uninit (fuel + 1) s) := by
  cases s with
  | nil => exact .word ⟨ascii "null", by simp, List.nil_prefix, by decide⟩
  | cons c s =>
    rw [parseValue]
    split
    · rename_i hnull
      exact .word ⟨ascii "null", by simp, strncmpWord_none hnull⟩
    · rename_i hnull
      obtain ⟨rest, hrest⟩ := strncmpWord_true hnull
      rw [hrest]
      exact .null
    split
    · rename_i hfalse
      exact .word ⟨ascii "false", by simp, strncmpWord_none hfalse⟩
    · rename_i hfalse
      obtain ⟨rest, hrest⟩ := strncmpWord_true hfalse
      rw [hrest]
      exact .false
    split
    · rename_i htrue
      exact .word ⟨ascii "true", by simp, strncmpWord_none htrue⟩
    · rename_i htrue
      obtain ⟨rest, hrest⟩ := strncmpWord_true htrue
      rw [hrest]
      exact .true
    simp only [List.length_cons] at hfuel
    split
    · rename_i hc
      subst hc
      cases hstr : parseString uninit s with
      | none => exact .string (parseString_eq_none_iff.mp hstr)
      | some p => exact .string hstr
    split
    · rename_i hc
      have hstart : c = 45 ∨ isdigit c = true := by simpa using hc
      cases hnum : parseNumber (c :: s) with
      | none => exact .number hstart (parseNumber_eq_none_iff.mp hnum)
      | some p => exact .number hstart hnum
    split
    · rename_i hc
      subst hc
      cases hskip : skip s with
      | none => exact .openArray (skip_eq_none_iff.mp hskip)
      | some v =>
        have hlen := skip_length hskip
        simp only
        split
        · rename_i hhead
          refine .emptyArray ?_
          rw [hskip, ← eq_cons_of_head? hhead]
        · rename_i hhead
          have hjudged := hitems v (by omega)
          cases hparse : parseItems uninit fuel v with
          | fault =>
            rw [hparse] at hjudged
            exact .array hskip hhead hjudged
          | fail => trivial
          | ok vs rest =>
            rw [hparse] at hjudged
            exact .array hskip hhead hjudged
    split
    · rename_i hc
      subst hc
      cases hskip : skip s with
      | none => exact .openObject (skip_eq_none_iff.mp hskip)
      | some v =>
        have hlen := skip_length hskip
        simp only
        split
        · rename_i hhead
          refine .emptyObject ?_
          rw [hskip, ← eq_cons_of_head? hhead]
        · rename_i hhead
          have hjudged := hmembers v (by omega)
          cases hparse : parseMembers uninit fuel v with
          | fault =>
            rw [hparse] at hjudged
            exact .object hskip hhead hjudged
          | fail => trivial
          | ok vs rest =>
            rw [hparse] at hjudged
            exact .object hskip hhead hjudged
    · trivial

theorem judged_items {fuel : Nat} {s : Bytes} (hfuel : 2 * s.length + 2 ≤ fuel + 1)
    (hvalue : ∀ s, 2 * s.length + 1 ≤ fuel → Judged uninit .value .value s (parseValue uninit fuel s))
    (hitems : ∀ s, 2 * s.length + 2 ≤ fuel → Judged uninit .items .items s (parseItems uninit fuel s)) :
    Judged uninit .items .items s (parseItems uninit (fuel + 1) s) := by
  rw [parseItems]
  cases hs : skip s with
  | none => exact .beforeItem (skip_eq_none_iff.mp hs)
  | some v =>
    have hlen := skip_length hs
    have hjudged := hvalue v (by omega)
    simp only
    cases hparse : parseValue uninit fuel v with
    | fault =>
      rw [hparse] at hjudged
      exact .item hs hjudged
    | fail => trivial
    | ok x t =>
      rw [hparse] at hjudged
      have hread := reads_length hjudged
      rw [Parsed.andThen]
      cases ht : skip t with
      | none => exact .afterItem hs hjudged (skip_eq_none_iff.mp ht)
      | some w =>
        have hcomma := skip_length ht
        simp only
        split
        · rename_i hhead
          have hw := eq_cons_of_head? hhead
          rw [hw, List.length_cons] at hcomma
          have hrest := hitems w.tail (by omega)
          cases hparse : parseItems uninit fuel w.tail with
          | fault =>
            rw [hparse] at hrest
            exact .nextItem hs hjudged (hw ▸ ht) hrest
          | fail => trivial
          | ok xs rest =>
            rw [hparse] at hrest
            exact .nextItem hs hjudged (hw ▸ ht) hrest
        split
        · rename_i hhead
          have hw := eq_cons_of_head? hhead
          exact .lastItem hs hjudged (hw ▸ ht)
        · trivial

theorem judged_members {fuel : Nat} {s : Bytes} (hfuel : 2 * s.length + 2 ≤ fuel + 1)
    (hvalue : ∀ s, 2 * s.length + 1 ≤ fuel → Judged uninit .value .value s (parseValue uninit fuel s))
    (hmembers : ∀ s, 2 * s.length + 2 ≤ fuel →
      Judged uninit .members .members s (parseMembers uninit fuel s)) :
    Judged uninit .members .members s (parseMembers uninit (fuel + 1) s) := by
  rw [parseMembers]
  cases hs : skip s with
  | none => exact .beforeKey (skip_eq_none_iff.mp hs)
  | some q =>
    have h₁ := skip_length hs
    simp only
    split
    · trivial
    rename_i hquote
    have hq := eq_cons_of_head? (Decidable.not_not.mp hquote)
    rw [hq, List.length_cons] at h₁
    cases hk : parseString uninit q.tail with
    | none => exact .key (hq ▸ hs) (parseString_eq_none_iff.mp hk)
    | some p =>
      obtain ⟨key, t⟩ := p
      have h₂ := parseString_length hk
      simp only
      cases ht : skip t with
      | none => exact .afterKey (hq ▸ hs) hk (skip_eq_none_iff.mp ht)
      | some colon =>
        have h₃ := skip_length ht
        simp only
        split
        · trivial
        rename_i hcolon
        have hc := eq_cons_of_head? (Decidable.not_not.mp hcolon)
        rw [hc, List.length_cons] at h₃
        cases hu : skip colon.tail with
        | none => exact .beforeMember (hq ▸ hs) hk (hc ▸ ht) (skip_eq_none_iff.mp hu)
        | some v =>
          have h₄ := skip_length hu
          have hjudged := hvalue v (by omega)
          simp only
          cases hparse : parseValue uninit fuel v with
          | fault =>
            rw [hparse] at hjudged
            exact .member (hq ▸ hs) hk (hc ▸ ht) hu hjudged
          | fail => trivial
          | ok x w =>
            rw [hparse] at hjudged
            have h₅ := reads_length hjudged
            rw [Parsed.andThen]
            cases hw : skip w with
            | none => exact .afterMember (hq ▸ hs) hk (hc ▸ ht) hu hjudged (skip_eq_none_iff.mp hw)
            | some z =>
              have h₆ := skip_length hw
              simp only
              split
              · rename_i hhead
                have hz := eq_cons_of_head? hhead
                rw [hz, List.length_cons] at h₆
                have hrest := hmembers z.tail (by omega)
                cases hparse : parseMembers uninit fuel z.tail with
                | fault =>
                  rw [hparse] at hrest
                  exact .nextMember (hq ▸ hs) hk (hc ▸ ht) hu hjudged (hz ▸ hw) hrest
                | fail => trivial
                | ok ms rest =>
                  rw [hparse] at hrest
                  exact .nextMember (hq ▸ hs) hk (hc ▸ ht) hu hjudged (hz ▸ hw) hrest
              split
              · rename_i hhead
                have hz := eq_cons_of_head? hhead
                exact .lastMember (hq ▸ hs) hk (hc ▸ ht) hu hjudged (hz ▸ hw)
              · trivial

/-- **What the parser gives, the text reads as**, and where it reads behind the buffer, the text is cut. -/
theorem judged (uninit : Bytes → UInt32) (fuel : Nat) :
    (∀ s, 2 * s.length + 1 ≤ fuel → Judged uninit .value .value s (parseValue uninit fuel s)) ∧
      (∀ s, 2 * s.length + 2 ≤ fuel → Judged uninit .items .items s (parseItems uninit fuel s)) ∧
        ∀ s, 2 * s.length + 2 ≤ fuel → Judged uninit .members .members s (parseMembers uninit fuel s) := by
  induction fuel with
  | zero => exact ⟨fun _ h => absurd h (by omega), fun _ h => absurd h (by omega),
      fun _ h => absurd h (by omega)⟩
  | succ fuel ih =>
    obtain ⟨hvalue, hitems, hmembers⟩ := ih
    exact ⟨fun s h => judged_value h hitems hmembers, fun s h => judged_items h hvalue hitems,
      fun s h => judged_members h hvalue hmembers⟩

/-- A text reads as one value. -/
theorem reads_unique {s rest rest' : Bytes} {v v' : KJson} (h : Reads uninit s (.value v) rest)
    (h' : Reads uninit s (.value v') rest') : v = v' ∧ rest = rest' := by
  have hgives := parse_of_reads h _ (Nat.le_refl _)
  have hgives' := parse_of_reads h' _ (Nat.le_refl _)
  rw [Gives, fuelFor] at hgives
  rw [Gives, fuelFor, hgives] at hgives'
  exact Parsed.ok.inj hgives'

/-! ## 5. Where the parser reads behind the buffer -/

/-- The parser reads behind the buffer, with so much fuel. -/
def Faults (uninit : Bytes → UInt32) (fuel : Nat) (s : Bytes) : JsonPart → Prop
  | .value => parseValue uninit fuel s = .fault
  | .items => parseItems uninit fuel s = .fault
  | .members => parseMembers uninit fuel s = .fault

theorem strncmpWord_cut {word s : Bytes} (h : s <+: word) (hne : s ≠ word) : strncmpWord word s = none := by
  induction word generalizing s with
  | nil => exact absurd (List.prefix_nil.mp h) hne
  | cons w word ih =>
    cases s with
    | nil => rfl
    | cons c s =>
      obtain ⟨hc, hs⟩ := List.cons_prefix_cons.mp h
      subst hc
      rw [strncmpWord, if_pos rfl]
      exact ih hs fun heq => hne (by rw [heq])

/-- The beginning of a word reads behind the buffer. -/
theorem parseValue_cutWord (fuel : Nat) {s : Bytes} (h : CutWord s) :
    parseValue uninit (fuel + 1) s = .fault := by
  obtain ⟨word, hword, hbegin, hne⟩ := h
  have hcut := strncmpWord_cut hbegin hne
  cases s with
  | nil => rfl
  | cons c s =>
    simp only [List.mem_cons, List.not_mem_nil, or_false] at hword
    obtain rfl | rfl | rfl := hword
    · rw [parseValue, hcut]
    · have hc := (List.cons_prefix_cons.mp hbegin).1
      have hnull : strncmpWord (ascii "null") (c :: s) = some false := if_neg (by rw [hc]; decide)
      rw [parseValue, hnull, hcut]
    · have hc := (List.cons_prefix_cons.mp hbegin).1
      have hnull : strncmpWord (ascii "null") (c :: s) = some false := if_neg (by rw [hc]; decide)
      have hfalse : strncmpWord (ascii "false") (c :: s) = some false := if_neg (by rw [hc]; decide)
      rw [parseValue, hnull, hfalse, hcut]

/-- What the part takes of fuel. -/
def partFuel (s : Bytes) : JsonPart → Nat
  | .value => 2 * s.length + 1
  | _ => 2 * s.length + 2

theorem partFuel_succ {s : Bytes} {part : JsonPart} {fuel : Nat} (h : partFuel s part ≤ fuel) :
    ∃ f, fuel = f + 1 ∧ partFuel s part ≤ f + 1 := by
  cases fuel with
  | zero => cases part <;> cases h
  | succ f => exact ⟨f, rfl, h⟩

/-- **On a text that is cut, the parser reads behind the buffer.** -/
theorem parse_of_cut {s : Bytes} {part : JsonPart} (h : Cut uninit part s) :
    ∀ fuel, partFuel s part ≤ fuel → Faults uninit fuel s part := by
  induction h with
  | word hword =>
    intro fuel hfuel
    obtain ⟨fuel, rfl, -⟩ := partFuel_succ hfuel
    exact parseValue_cutWord fuel hword
  | string hs =>
    intro fuel hfuel
    obtain ⟨fuel, rfl, -⟩ := partFuel_succ hfuel
    rw [Faults, parseValue_string, parseString_eq_none_iff.mpr hs]
  | number hc hn =>
    intro fuel hfuel
    obtain ⟨fuel, rfl, -⟩ := partFuel_succ hfuel
    rw [Faults, parseValue_number fuel _ hc, parseNumber_eq_none_iff.mpr hn]
  | openArray hskip =>
    intro fuel hfuel
    obtain ⟨fuel, rfl, -⟩ := partFuel_succ hfuel
    rw [Faults, parseValue_array, skip_eq_none_iff.mpr hskip]
  | openObject hskip =>
    intro fuel hfuel
    obtain ⟨fuel, rfl, -⟩ := partFuel_succ hfuel
    rw [Faults, parseValue_object, skip_eq_none_iff.mpr hskip]
  | array hskip hhead _ ih =>
    intro fuel hfuel
    obtain ⟨fuel, rfl, hfuel⟩ := partFuel_succ hfuel
    have hlen := skip_length hskip
    have hitems := ih fuel (by simp only [partFuel, List.length_cons] at hfuel ⊢; omega)
    rw [Faults] at hitems
    rw [Faults, parseValue_array, hskip]
    simp only
    rw [if_neg hhead, hitems]
    rfl
  | object hskip hhead _ ih =>
    intro fuel hfuel
    obtain ⟨fuel, rfl, hfuel⟩ := partFuel_succ hfuel
    have hlen := skip_length hskip
    have hmembers := ih fuel (by simp only [partFuel, List.length_cons] at hfuel ⊢; omega)
    rw [Faults] at hmembers
    rw [Faults, parseValue_object, hskip]
    simp only
    rw [if_neg hhead, hmembers]
    rfl
  | beforeItem hs =>
    intro fuel hfuel
    obtain ⟨fuel, rfl, -⟩ := partFuel_succ hfuel
    rw [Faults, parseItems, skip_eq_none_iff.mpr hs]
  | item hs _ ih =>
    intro fuel hfuel
    obtain ⟨fuel, rfl, hfuel⟩ := partFuel_succ hfuel
    have hlen := skip_length hs
    have hvalue := ih fuel (by simp only [partFuel] at hfuel ⊢; omega)
    rw [Faults] at hvalue
    rw [Faults, parseItems_item fuel hs, hvalue, Parsed.andThen]
  | afterItem hs hx ht =>
    intro fuel hfuel
    obtain ⟨fuel, rfl, hfuel⟩ := partFuel_succ hfuel
    have hlen := skip_length hs
    have hvalue := parse_of_reads hx fuel (by simp only [fuelFor, partFuel] at hfuel ⊢; omega)
    rw [Gives] at hvalue
    rw [Faults, parseItems_item fuel hs, hvalue]
    simp [Parsed.andThen, skip_eq_none_iff.mpr ht]
  | nextItem hs hx ht _ ih =>
    intro fuel hfuel
    obtain ⟨fuel, rfl, hfuel⟩ := partFuel_succ hfuel
    have hlen := skip_length hs
    have hread := reads_length hx
    have hcomma := skip_length ht
    simp only [partFuel, List.length_cons] at hfuel hcomma
    have hvalue := parse_of_reads hx fuel (by simp only [fuelFor]; omega)
    have hitems := ih fuel (by simp only [partFuel]; omega)
    rw [Gives] at hvalue
    rw [Faults] at hitems
    rw [Faults, parseItems_item fuel hs, hvalue]
    simp [Parsed.andThen, Parsed.map, ht, hitems]
  | beforeKey hs =>
    intro fuel hfuel
    obtain ⟨fuel, rfl, -⟩ := partFuel_succ hfuel
    rw [Faults, parseMembers, skip_eq_none_iff.mpr hs]
  | key hs hk =>
    intro fuel hfuel
    obtain ⟨fuel, rfl, -⟩ := partFuel_succ hfuel
    rw [Faults, parseMembers, hs]
    simp [parseString_eq_none_iff.mpr hk]
  | afterKey hs hk ht =>
    intro fuel hfuel
    obtain ⟨fuel, rfl, -⟩ := partFuel_succ hfuel
    rw [Faults, parseMembers, hs]
    simp [hk, skip_eq_none_iff.mpr ht]
  | beforeMember hs hk ht hu =>
    intro fuel hfuel
    obtain ⟨fuel, rfl, -⟩ := partFuel_succ hfuel
    rw [Faults, parseMembers, hs]
    simp [hk, ht, skip_eq_none_iff.mpr hu]
  | member hs hk ht hu _ ih =>
    intro fuel hfuel
    obtain ⟨fuel, rfl, hfuel⟩ := partFuel_succ hfuel
    have h₁ := value_length hs hk ht hu
    simp only [partFuel] at hfuel
    have hvalue := ih fuel (by simp only [partFuel]; omega)
    rw [Faults] at hvalue
    rw [Faults, parseMembers_member fuel hs hk ht hu, hvalue, Parsed.andThen]
  | afterMember hs hk ht hu hx hw =>
    intro fuel hfuel
    obtain ⟨fuel, rfl, hfuel⟩ := partFuel_succ hfuel
    have h₁ := value_length hs hk ht hu
    simp only [partFuel] at hfuel
    have hvalue := parse_of_reads hx fuel (by simp only [fuelFor]; omega)
    rw [Gives] at hvalue
    rw [Faults, parseMembers_member fuel hs hk ht hu, hvalue]
    simp [Parsed.andThen, skip_eq_none_iff.mpr hw]
  | nextMember hs hk ht hu hx hw _ ih =>
    intro fuel hfuel
    obtain ⟨fuel, rfl, hfuel⟩ := partFuel_succ hfuel
    have h₁ := value_length hs hk ht hu
    have h₅ := reads_length hx
    have h₆ := skip_length hw
    simp only [partFuel, List.length_cons] at hfuel h₆
    have hvalue := parse_of_reads hx fuel (by simp only [fuelFor]; omega)
    have hmembers := ih fuel (by simp only [partFuel]; omega)
    rw [Gives] at hvalue
    rw [Faults] at hmembers
    rw [Faults, parseMembers_member fuel hs hk ht hu, hvalue]
    simp [Parsed.andThen, Parsed.map, hw, hmembers]

/-! ## 6. `cJSON_Parse` -/

/-- The buffer ends before the text does. -/
def CutText (uninit : Bytes → UInt32) (value : Bytes) : Prop :=
  value.all isBlank = true ∨ ∃ s, skip value = some s ∧ Cut uninit .value s

/-- The text reads as this, which ends there. -/
def ReadsText (uninit : Bytes → UInt32) (value : Bytes) (v : KJson) (rest : Bytes) : Prop :=
  ∃ s, skip value = some s ∧ Reads uninit s (.value v) rest

/-- `cJSON_Parse` reads behind the buffer if and only if the text is cut. -/
theorem cJSONParse_fault_iff {value : Bytes} : cJSONParse uninit value = .fault ↔ CutText uninit value := by
  rw [cJSONParse, CutText, ← skip_eq_none_iff]
  cases hskip : skip value with
  | none => simp
  | some s =>
    have hlen := skip_length hskip
    simp only [reduceCtorEq, false_or, Option.some.injEq, exists_eq_left']
    constructor
    · intro hfault
      have hjudged := (judged uninit (2 * value.length + 2)).1 s (by omega)
      rw [hfault] at hjudged
      exact hjudged
    · intro hcut
      exact parse_of_cut hcut _ (by simp only [partFuel]; omega)

/-- `cJSON_Parse` gives a value if and only if the text reads as it. -/
theorem cJSONParse_ok_iff {value rest : Bytes} {v : KJson} :
    cJSONParse uninit value = .ok v rest ↔ ReadsText uninit value v rest := by
  rw [cJSONParse, ReadsText]
  cases hskip : skip value with
  | none => simp
  | some s =>
    have hlen := skip_length hskip
    simp only [Option.some.injEq, exists_eq_left']
    constructor
    · intro hok
      have hjudged := (judged uninit (2 * value.length + 2)).1 s (by omega)
      rw [hok] at hjudged
      exact hjudged
    · intro hread
      exact parse_of_reads hread _ (by simp only [fuelFor]; omega)

end Oaf
