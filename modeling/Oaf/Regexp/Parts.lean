/-
# What a pattern asks of a text

A node followed by `*`, `+` or `?` is one part with it (`parts`); every other node is a part by
itself, and a `$` at the very end is a mark rather than a part.  A part that is not optional has
to be met by a byte of the text.

* `matchhere_eq_parts`: `matchhere` walks the parts.
* `matchParts_needs`: a text that matches has a byte for every needed part.
* `matchParts_word`: a text made of one byte for each needed part matches.
-/
import Oaf.Regexp.Model
import Mathlib.Data.List.Basic

namespace Oaf

open CLib

/-! ## 1. Parts -/

/-- A byte that `compile` does not take for itself. -/
def isSpecial (c : UInt8) : Bool :=
  c == 92 || c == 46 || c == 94 || c == 36 || c == 42 || c == 43 || c == 63 || c == 91

/-- A node with its repetition. -/
inductive Part
  | one (r : RE)
  | star (r : RE)
  | plus (r : RE)
  | ques (r : RE)
deriving DecidableEq, Repr

def Part.node : Part → RE
  | .one r | .star r | .plus r | .ques r => r

/-- The part can be left out. -/
def Part.optional : Part → Bool
  | .star _ | .ques _ => true
  | .one _ | .plus _ => false

/-- The node a text has to hold a byte for. -/
def Part.need (p : Part) : Option RE := if p.optional then none else some p.node

/-- The parts of a compiled pattern, and whether it ends in `$`. -/
def parts : List RE → List Part × Bool
  | [] => ([], false)
  | [r] => if r.type = .END then ([], true) else ([.one r], false)
  | r :: q :: rest =>
    if q.type = .STAR then ((parts rest).map (.star r :: ·) id)
    else if q.type = .PLUS then ((parts rest).map (.plus r :: ·) id)
    else if q.type = .QUES then ((parts rest).map (.ques r :: ·) id)
    else ((parts (q :: rest)).map (.one r :: ·) id)

/-- The walk over the parts; `eol` is the `$` behind them. -/
def matchParts (mem : KmallocMem) (eol : Bool) : List Part → List UInt8 → Bool
  | [], text => !eol || text.isEmpty
  | .one _ :: _, [] => false
  | .one r :: ps, c :: text => matchOne mem r c && matchParts mem eol ps text
  | .star r :: ps, text => matchstar (matchOne mem r) (fun t => matchParts mem eol ps t) text
  | .plus r :: ps, text => matchplus (matchOne mem r) (fun t => matchParts mem eol ps t) text
  | .ques r :: ps, text => matchques (matchOne mem r) (fun t => matchParts mem eol ps t) text

/-- The needed nodes, in order. -/
def needs (ps : List Part) : List RE := ps.filterMap Part.need

variable {mem : KmallocMem} {eol : Bool}

theorem matchhere_cons_cons (mem : KmallocMem) (r q : RE) (rest : List RE) (text : List UInt8) :
    matchhere mem (r :: q :: rest) text =
      if q.type = .STAR then matchstar (matchOne mem r) (fun t => matchhere mem rest t) text
      else if q.type = .PLUS then matchplus (matchOne mem r) (fun t => matchhere mem rest t) text
      else if q.type = .QUES then matchques (matchOne mem r) (fun t => matchhere mem rest t) text
      else
        match text with
        | [] => false
        | c :: text => matchOne mem r c && matchhere mem (q :: rest) text := by
  cases text <;> rfl

/-- **`matchhere` walks the parts.** -/
theorem matchhere_eq_parts (mem : KmallocMem) : ∀ (nodes : List RE) (text : List UInt8),
    matchhere mem nodes text = matchParts mem (parts nodes).2 (parts nodes).1 text
  | [], text => by simp [matchhere, parts, matchParts]
  | [r], text => by
    unfold matchhere parts
    split
    · simp [matchParts]
    · cases text <;> simp [matchParts]
  | r :: q :: rest, text => by
    have hrest : (fun t => matchhere mem rest t)
        = fun t => matchParts mem (parts rest).2 (parts rest).1 t :=
      funext fun t => matchhere_eq_parts mem rest t
    rw [matchhere_cons_cons, parts, hrest]
    split
    · rfl
    · split
      · rfl
      · split
        · rfl
        · cases text with
          | nil => rfl
          | cons c text =>
            exact congrArg (matchOne mem r c && ·) (matchhere_eq_parts mem (q :: rest) text)

/-! ## 2. The loops -/

theorem matchSomewhere_suffix {mem : KmallocMem} {nodes : List RE} {text : List UInt8} :
    matchSomewhere mem nodes text = true ↔ ∃ t, t <:+ text ∧ matchhere mem nodes t = true := by
  induction text with
  | nil => simp [matchSomewhere]
  | cons c text ih =>
    rw [matchSomewhere, Bool.or_eq_true, ih]
    constructor
    · rintro (h | ⟨t, ht, h⟩)
      · exact ⟨c :: text, List.suffix_rfl, h⟩
      · exact ⟨t, ht.trans (List.suffix_cons c text), h⟩
    · rintro ⟨t, ht, h⟩
      rcases List.suffix_cons_iff.mp ht with rfl | ht
      · exact .inl h
      · exact .inr ⟨t, ht, h⟩

theorem matchstar_of_rest {one : UInt8 → Bool} {rest : List UInt8 → Bool} {text : List UInt8}
    (h : rest text = true) : matchstar one rest text = true := by
  cases text with
  | nil => exact h
  | cons c text => rw [matchstar, h, Bool.true_or]

theorem matchques_of_rest {one : UInt8 → Bool} {rest : List UInt8 → Bool} {text : List UInt8}
    (h : rest text = true) : matchques one rest text = true := by
  cases text with
  | nil => exact h
  | cons c text => rw [matchques, h, Bool.or_true, ite_self]

/-- What a repetition leaves to the rest is a later part of the text. -/
theorem matchstar_suffix {one : UInt8 → Bool} {rest : List UInt8 → Bool} {text : List UInt8}
    (h : matchstar one rest text = true) : ∃ t, t <:+ text ∧ rest t = true := by
  induction text with
  | nil => exact ⟨[], List.suffix_rfl, h⟩
  | cons c text ih =>
    rw [matchstar, Bool.or_eq_true, Bool.and_eq_true] at h
    rcases h with h | ⟨-, h⟩
    · exact ⟨c :: text, List.suffix_rfl, h⟩
    · obtain ⟨t, ht, hrest⟩ := ih h
      exact ⟨t, ht.trans (List.suffix_cons c text), hrest⟩

theorem matchques_suffix {one : UInt8 → Bool} {rest : List UInt8 → Bool} {text : List UInt8}
    (h : matchques one rest text = true) : ∃ t, t <:+ text ∧ rest t = true := by
  cases text with
  | nil => exact ⟨[], List.suffix_rfl, h⟩
  | cons c text =>
    rw [matchques] at h
    split at h
    · rw [Bool.or_eq_true] at h
      rcases h with h | h
      · exact ⟨text, List.suffix_cons c text, h⟩
      · exact ⟨c :: text, List.suffix_rfl, h⟩
    · exact ⟨c :: text, List.suffix_rfl, h⟩

theorem matchplus_suffix {one : UInt8 → Bool} {rest : List UInt8 → Bool} {text : List UInt8}
    (h : matchplus one rest text = true) :
    ∃ c t, one c = true ∧ c :: t <:+ text ∧ rest t = true := by
  induction text with
  | nil => exact absurd h (by simp [matchplus])
  | cons c text ih =>
    rw [matchplus, Bool.and_eq_true, Bool.or_eq_true] at h
    rcases h with ⟨hc, h | h⟩
    · exact ⟨c, text, hc, List.suffix_rfl, h⟩
    · obtain ⟨d, t, hd, ht, hrest⟩ := ih h
      exact ⟨d, t, hd, ht.trans (List.suffix_cons c text), hrest⟩

/-- Nothing to repeat: the rest has to match right here. -/
theorem matchstar_eq_rest {one : UInt8 → Bool} {rest : List UInt8 → Bool} {text : List UInt8}
    (h : ∀ c ∈ text, one c = false) : matchstar one rest text = rest text := by
  cases text with
  | nil => rfl
  | cons c text => rw [matchstar, h c List.mem_cons_self, Bool.false_and, Bool.or_false]

theorem matchques_eq_rest {one : UInt8 → Bool} {rest : List UInt8 → Bool} {text : List UInt8}
    (h : ∀ c ∈ text, one c = false) : matchques one rest text = rest text := by
  cases text with
  | nil => rfl
  | cons c text => rw [matchques, h c List.mem_cons_self, if_neg Bool.false_ne_true]

/-! ## 3. What a match needs -/

/-- **A text that matches has a byte for every needed part**, and as many bytes as there are
such parts.  Induction on the parts; a repetition hands a later part of the text on. -/
theorem matchParts_needs {ps : List Part} {text : List UInt8}
    (h : matchParts mem eol ps text = true) :
    (needs ps).length ≤ text.length ∧ ∀ r ∈ needs ps, ∃ c ∈ text, matchOne mem r c = true := by
  induction ps generalizing text with
  | nil => exact ⟨Nat.zero_le _, fun r hr => absurd hr (List.not_mem_nil)⟩
  | cons p ps ih =>
    -- a part that takes no byte leaves the bound to the parts behind it
    have hskip : p.optional = true → ∀ t, t <:+ text → matchParts mem eol ps t = true →
        (needs (p :: ps)).length ≤ text.length ∧
          ∀ r ∈ needs (p :: ps), ∃ c ∈ text, matchOne mem r c = true := by
      intro hopt t ht hrest
      have hneeds : needs (p :: ps) = needs ps := by simp [needs, Part.need, hopt]
      obtain ⟨hlen, hall⟩ := ih hrest
      rw [hneeds]
      refine ⟨hlen.trans ht.length_le, fun r hr => ?_⟩
      obtain ⟨c, hc, hone⟩ := hall r hr
      exact ⟨c, ht.subset hc, hone⟩
    -- one that does takes its byte in front of them
    have htake : p.optional = false → ∀ c t, matchOne mem p.node c = true → c :: t <:+ text →
        matchParts mem eol ps t = true → (needs (p :: ps)).length ≤ text.length ∧
          ∀ r ∈ needs (p :: ps), ∃ c ∈ text, matchOne mem r c = true := by
      intro hopt c t hone ht hrest
      have hneeds : needs (p :: ps) = p.node :: needs ps := by simp [needs, Part.need, hopt]
      obtain ⟨hlen, hall⟩ := ih hrest
      rw [hneeds]
      refine ⟨(Nat.succ_le_succ hlen).trans ht.length_le, fun r hr => ?_⟩
      rcases List.mem_cons.mp hr with rfl | hr
      · exact ⟨c, ht.subset List.mem_cons_self, hone⟩
      · obtain ⟨d, hd, hone⟩ := hall r hr
        exact ⟨d, ht.subset (List.mem_cons_of_mem c hd), hone⟩
    cases p with
    | one r =>
      cases text with
      | nil => exact absurd h (by simp [matchParts])
      | cons c text =>
        rw [matchParts, Bool.and_eq_true] at h
        exact htake rfl c text h.1 List.suffix_rfl h.2
    | star r =>
      obtain ⟨t, ht, hrest⟩ := matchstar_suffix (by simpa only [matchParts] using h)
      exact hskip rfl t ht hrest
    | plus r =>
      obtain ⟨c, t, hone, ht, hrest⟩ := matchplus_suffix (by simpa only [matchParts] using h)
      exact htake rfl c t hone ht hrest
    | ques r =>
      obtain ⟨t, ht, hrest⟩ := matchques_suffix (by simpa only [matchParts] using h)
      exact hskip rfl t ht hrest

/-- Optional parts none of which takes a byte of the text: only the `$` is left. -/
theorem matchParts_optional {ps : List Part} {text : List UInt8}
    (h : ∀ p ∈ ps, p.optional = true ∧ ∀ c ∈ text, matchOne mem p.node c = false) :
    matchParts mem eol ps text = (!eol || text.isEmpty) := by
  induction ps with
  | nil => simp [matchParts]
  | cons p ps ih =>
    have hrest := ih fun q hq => h q (List.mem_cons_of_mem p hq)
    obtain ⟨hopt, hno⟩ := h p List.mem_cons_self
    cases p with
    | one r => exact absurd hopt Bool.false_ne_true
    | plus r => exact absurd hopt Bool.false_ne_true
    | star r =>
      rw [← hrest, matchParts]
      exact matchstar_eq_rest hno
    | ques r =>
      rw [← hrest, matchParts]
      exact matchques_eq_rest hno

/-! ## 4. What matches -/

/-- **One byte for each needed part is enough**: the loops try to take nothing before they take
more.  In front of a `$` nothing may follow. -/
theorem matchParts_word {ps : List Part} {pick : RE → UInt8} {tail : List UInt8}
    (h : ∀ r ∈ needs ps, matchOne mem r (pick r) = true) (htail : eol = true → tail = []) :
    matchParts mem eol ps ((needs ps).map pick ++ tail) = true := by
  induction ps with
  | nil =>
    cases eol with
    | false => simp [matchParts]
    | true => simp [matchParts, needs, htail rfl]
  | cons p ps ih =>
    have hrest := ih fun r hr => h r (by
      rw [needs, List.filterMap_cons]
      split
      · exact hr
      · exact List.mem_cons_of_mem _ hr)
    cases p with
    | one r =>
      have hr : matchOne mem r (pick r) = true := h r List.mem_cons_self
      have hneeds : needs (.one r :: ps) = r :: needs ps := rfl
      rw [hneeds, List.map_cons, List.cons_append, matchParts, hr, hrest, Bool.and_self]
    | star r =>
      have hneeds : needs (.star r :: ps) = needs ps := rfl
      rw [hneeds, matchParts]
      exact matchstar_of_rest hrest
    | ques r =>
      have hneeds : needs (.ques r :: ps) = needs ps := rfl
      rw [hneeds, matchParts]
      exact matchques_of_rest hrest
    | plus r =>
      have hr : matchOne mem r (pick r) = true := h r List.mem_cons_self
      have hneeds : needs (.plus r :: ps) = r :: needs ps := rfl
      rw [hneeds, List.map_cons, List.cons_append, matchParts, matchplus, hr, hrest,
        Bool.true_or, Bool.and_self]

/-- Where all parts are optional, one byte that one of them takes is a match, also before a
`$`. -/
theorem matchParts_single {ps : List Part} {p : Part} {c : UInt8}
    (hopt : ∀ q ∈ ps, q.optional = true) (hp : p ∈ ps) (hc : matchOne mem p.node c = true) :
    matchParts mem eol ps [c] = true := by
  induction ps with
  | nil => exact absurd hp List.not_mem_nil
  | cons q ps ih =>
    have hopt' : ∀ q ∈ ps, q.optional = true := fun q hq => hopt q (List.mem_cons_of_mem _ hq)
    have hnil : matchParts mem eol ps [] = true := by
      rw [matchParts_optional fun q hq => ⟨hopt' q hq, fun c hc => absurd hc List.not_mem_nil⟩]
      simp
    have hlater : p ∈ ps → matchParts mem eol ps [c] = true := fun hmem => ih hopt' hmem
    cases q with
    | one r => exact absurd (hopt _ List.mem_cons_self) Bool.false_ne_true
    | plus r => exact absurd (hopt _ List.mem_cons_self) Bool.false_ne_true
    | star r =>
      rw [matchParts, matchstar, matchstar, hnil]
      rcases List.mem_cons.mp hp with rfl | hmem
      · have hr : matchOne mem r c = true := hc
        rw [hr, Bool.and_self, Bool.or_true]
      · rw [hlater hmem, Bool.true_or]
    | ques r =>
      rw [matchParts, matchques, hnil]
      rcases List.mem_cons.mp hp with rfl | hmem
      · have hr : matchOne mem r c = true := hc
        rw [if_pos hr, Bool.true_or]
      · rw [hlater hmem, Bool.or_true, ite_self]

/-! ## 5. The walk over the text -/

theorem compile_ne_nil {hostUrl : CStr} : compile hostUrl ≠ .ok [] := by
  rw [compile]
  split
  · simp
  · rename_i h
    exact fun hnil => h hnil

/-- The walk `regexp_match` makes over the nodes of a pattern that compiled. -/
theorem regexpMatch_ok {hostUrl : CStr} {nodes : List RE} (hok : compile hostUrl = .ok nodes)
    (mem : KmallocMem) (text : CStr) :
    ∃ r rest, nodes = r :: rest ∧ regexpMatch mem hostUrl text = some
      (if (if r.type = .BEGIN then matchhere mem rest text.bytes
        else matchSomewhere mem (r :: rest) text.bytes) then 1 else 0) := by
  cases nodes with
  | nil => exact absurd hok compile_ne_nil
  | cons r rest =>
    refine ⟨r, rest, rfl, ?_⟩
    rw [regexpMatch, hok]
    simp only
    split <;> rfl

end Oaf
