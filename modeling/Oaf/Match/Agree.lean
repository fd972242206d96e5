/-
# The two readings of a host pattern

A `host_url` is a literal text for the automaton and a regular expression for
`af_match_by_url`.  `af_is_regex_host_pattern`, which keeps the regular expressions out of the
automaton, is not asked on the other path.

* `paths_agree_iff`: the two paths accept the same host names iff the pattern has none of the
  eight bytes `compile` treats specially, or asks for something no host name has.
* `paths_disagree_dot`: `a.c` is matched in `abc` on one path only.
-/
import Oaf.Match.Paths
import Oaf.Regexp.Parts
import Oaf.UrlAc.Match

namespace Oaf

open CLib

/-! ## 1. Host names and the two paths -/

/-- Letters, digits, `.` and `-`. -/
def isNameByte (c : UInt8) : Bool :=
  (97 ≤ c && c ≤ 122) || (65 ≤ c && c ≤ 90) || (48 ≤ c && c ≤ 57) || c == 46 || c == 45

/-- A host name: one to 63 name bytes. -/
structure HostName where
  text : CStr
  nonempty : text.bytes ≠ []
  short : text.strlen ≤ 63
  isName : ∀ c ∈ text.bytes, isNameByte c = true

/-- What the automaton path says of a feature and a text: the automaton of this feature alone,
without the basic condition. -/
def acAccepts (node : AfFeatureNode) (text : CStr) : Option Bool := do
  let r ← afRebuildUrlAcLocked {} ⟨fun _ => true, 0⟩ [node]
  let (res, _) ← afMatchUrlTextAc r.g {} {} text.bytes text.strlen false
  return res.isSome

/-- What the plain path says: `regexp_match` is not zero. -/
def plainAccepts (mem : KmallocMem) (node : AfFeatureNode) (text : CStr) : Option Bool :=
  (regexpMatch mem node.hostUrl text).map fun ret => decide (ret ≠ 0)

/-- The paths agree on the features with this `host_url`: on every host name, and whatever the
memory of the nodes held. -/
def PathsAgree (hostUrl : CStr) : Prop :=
  ∀ node : AfFeatureNode, node.hostUrl = hostUrl → ∀ (mem : KmallocMem) (host : HostName),
    ∃ b, acAccepts node host.text = some b ∧ plainAccepts mem node host.text = some b

/-- The automaton path accepts the texts a literal host occurs in. -/
theorem acAccepts_eq {node : AfFeatureNode} (hlit : node.literalHost = true) (text : CStr) :
    acAccepts node text = some (decide (node.hostUrl.bytes <:+: text.bytes)) := by
  obtain ⟨r, hr, -, -, hcases⟩ := rebuild_cases {} ⟨fun _ => true, 0⟩ [node]
  rcases hcases with ⟨-, -, -, hno⟩ | ⟨-, -, hready, -, word, items, hl, -, hitems⟩
  · exact absurd (fun _ _ _ => rfl) hno
  · rw [hitems (.inl fun _ _ _ => rfl)] at hl
    obtain ⟨res, stat', hres, hmatch, -⟩ := linked_match hl hready {} {} text.bytes false
    have hiff : res.isSome = true ↔ node.hostUrl.bytes <:+: text.bytes := by
      rw [hmatch]
      simp [eligible, passesCond, hlit]
    rw [acAccepts, hr]
    have hlen : (text.strlen : Int) = text.bytes.length := rfl
    simp only [Option.bind_eq_bind, Option.bind_some, hlen, hres]
    refine congrArg some ?_
    rw [Bool.eq_iff_iff, hiff, decide_eq_true_iff]

/-! ## 2. What a pattern must not ask for -/

/-- The one special byte a name can have. -/
theorem special_name_byte {c : UInt8} (hname : isNameByte c = true) (hs : isSpecial c = true) :
    c = 46 := by
  simp only [isSpecial, Bool.or_eq_true, beq_iff_eq] at hs
  rcases hs with ((((((rfl | rfl) | rfl) | rfl) | rfl) | rfl) | rfl) | rfl
  all_goals first | rfl | exact absurd hname (by decide)

/-- Every byte of the pattern stands for itself. -/
def Plain (hostUrl : CStr) : Prop := ∀ c ∈ hostUrl.bytes, isSpecial c = false

/-- Some name byte can meet the node: the character it asks for is one, or it asks for none. -/
def RE.nameable (r : RE) : Bool :=
  match r.ch with
  | some c => isNameByte c
  | none => true

/-- No host name can match the nodes.  They need a character that names do not have, or more
than 63 bytes; or they are optional parts between `^` and `$` that no name byte can meet. -/
def Unmatchable (nodes : List RE) : Prop :=
  let anchored := nodes.head?.any fun r => decide (r.type = .BEGIN)
  let ps := parts (if anchored then nodes.tail else nodes)
  (∃ r ∈ needs ps.1, r.nameable = false) ∨ 63 < (needs ps.1).length ∨
    (anchored = true ∧ ps.2 = true ∧ ∀ p ∈ ps.1, p.optional = true ∧ p.node.nameable = false)

/-- The pattern compiles, to nodes that no host name can match. -/
def ExcludesNames (hostUrl : CStr) : Prop :=
  ∃ nodes, compile hostUrl = .ok nodes ∧ Unmatchable nodes

theorem matchOne_of_not_nameable {mem : KmallocMem} {r : RE} {c : UInt8}
    (hr : r.nameable = false) (hc : isNameByte c = true) : matchOne mem r c = false := by
  obtain ⟨type, addr⟩ := r
  have hne : ∀ ch, isNameByte ch = false → (c == ch) = false := fun ch hch => by
    rw [beq_eq_false_iff_ne]
    rintro rfl
    exact absurd hc (by simp [hch])
  cases type with
  | CHAR ch => simpa [matchOne, inList, RE.ch] using hne ch hr
  | BEGIN => simpa [matchOne, inList, RE.ch] using hne 94 (by decide)
  | END => simpa [matchOne, inList, RE.ch] using hne 36 (by decide)
  | DOT => exact absurd hr (by simp [RE.nameable, RE.ch])
  | STAR => exact absurd hr (by simp [RE.nameable, RE.ch])
  | PLUS => exact absurd hr (by simp [RE.nameable, RE.ch])
  | QUES => exact absurd hr (by simp [RE.nameable, RE.ch])
  | LIST ccl gap nccl => exact absurd hr (by simp [RE.nameable, RE.ch])

/-- Memory in which every node holds an `a`. -/
def aMem : KmallocMem := ⟨fun _ => 97, fun _ => 0⟩

/-- A byte that meets the node in that memory. -/
def RE.pick (r : RE) : UInt8 := r.ch.getD 97

theorem matchOne_pick (r : RE) : matchOne aMem r r.pick = true := by
  rw [matchOne, RE.pick]
  cases r.ch with
  | some c => simp
  | none => simp [aMem]

theorem pick_isName {r : RE} (h : r.nameable = true) : isNameByte r.pick = true := by
  rw [RE.nameable] at h
  rw [RE.pick]
  cases hch : r.ch with
  | some c =>
    rw [hch] at h
    exact h
  | none => decide

/-- **Nodes that exclude names match none.** -/
theorem Unmatchable.regexpMatch_eq {hostUrl : CStr} {nodes : List RE}
    (hok : compile hostUrl = .ok nodes) (h : Unmatchable nodes) (mem : KmallocMem)
    (host : HostName) : regexpMatch mem hostUrl host.text = some 0 := by
  obtain ⟨r, rest, rfl, hmatch⟩ := regexpMatch_ok hok mem host.text
  -- a match of the parts anywhere in the host meets every need within 63 bytes
  have hneeds : ∀ {ps : List Part} {eol : Bool} {t : List UInt8}, t <:+ host.text.bytes →
      (∃ r ∈ needs ps, r.nameable = false) ∨ 63 < (needs ps).length →
        matchParts mem eol ps t = false := by
    intro ps eol t ht hno
    rw [Bool.eq_false_iff]
    intro hmatch
    obtain ⟨hlen, hall⟩ := matchParts_needs hmatch
    rcases hno with ⟨r, hr, hname⟩ | hlong
    · obtain ⟨c, hc, hone⟩ := hall r hr
      rw [matchOne_of_not_nameable hname (host.isName c (ht.subset hc))] at hone
      exact absurd hone Bool.false_ne_true
    · have := ht.length_le
      have := host.short
      simp only [CStr.strlen] at this
      omega
  rw [hmatch]
  simp only [Unmatchable, List.head?_cons, Option.any_some, List.tail_cons,
    decide_eq_true_eq] at h
  by_cases hbegin : r.type = .BEGIN
  · simp only [hbegin, ↓reduceIte, true_and] at h ⊢
    have hfalse : matchhere mem rest host.text.bytes = false := by
      rw [matchhere_eq_parts]
      rcases h with h | h | ⟨heol, hopt⟩
      · exact hneeds List.suffix_rfl (.inl h)
      · exact hneeds List.suffix_rfl (.inr h)
      · rw [matchParts_optional fun p hp => ⟨(hopt p hp).1, fun c hc =>
          matchOne_of_not_nameable (hopt p hp).2 (host.isName c hc)⟩, heol]
        simpa using host.nonempty
    simp [hfalse]
  · simp only [hbegin, ↓reduceIte, false_and, or_false] at h ⊢
    have hfalse : matchSomewhere mem (r :: rest) host.text.bytes = false := by
      rw [Bool.eq_false_iff]
      intro hsome
      obtain ⟨t, ht, hhere⟩ := matchSomewhere_suffix.mp hsome
      rw [matchhere_eq_parts, hneeds ht h] at hhere
      exact absurd hhere Bool.false_ne_true
    simp [hfalse]

/-! ## 3. Patterns of name bytes -/

/-- The nodes of a pattern whose only special byte is `.`. -/
def dotNodes : Nat → List UInt8 → List RE
  | _, [] => []
  | n, c :: rest => ⟨if c = 46 then .DOT else .CHAR c, n⟩ :: dotNodes (n + 1) rest

theorem compileLoop_dotNodes {l : List UInt8} {fuel n : Nat} (hfuel : l.length ≤ fuel)
    (h : ∀ c ∈ l, isSpecial c = true → c = 46) : compileLoop fuel n l = .ok (dotNodes n l) := by
  induction l generalizing fuel n with
  | nil => cases fuel <;> rfl
  | cons c rest ih =>
    cases fuel with
    | zero => exact absurd hfuel (by simp)
    | succ fuel =>
      have hrest := ih (n := n + 1) (by simpa using hfuel) fun d hd => h d (List.mem_cons_of_mem c hd)
      have hc := h c List.mem_cons_self
      rw [compileLoop, dotNodes]
      by_cases hdot : c = 46
      · simp [hdot, hrest, Compiled.map]
      · have hno : ∀ s, isSpecial s = true → c ≠ s := by
          rintro s hs rfl
          exact hdot (hc hs)
        simp [hdot, hrest, Compiled.map, hno 92 rfl, hno 94 rfl, hno 36 rfl, hno 42 rfl, hno 43 rfl,
          hno 63 rfl, hno 91 rfl]

theorem compile_dotNodes {hostUrl : CStr} (hne : hostUrl.bytes ≠ [])
    (h : ∀ c ∈ hostUrl.bytes, isSpecial c = true → c = 46) :
    compile hostUrl = .ok (dotNodes 0 hostUrl.bytes) := by
  rw [compile, CStr.strlen, compileLoop_dotNodes le_rfl h]
  cases hb : hostUrl.bytes with
  | nil => exact absurd hb hne
  | cons c rest => rfl

/-- Every node is a part of its own. -/
theorem parts_dotNodes (n : Nat) (l : List UInt8) :
    parts (dotNodes n l) = ((dotNodes n l).map .one, false) := by
  have htype : ∀ c : UInt8, ∀ t : ReType, (∀ d, t ≠ .CHAR d) → t ≠ .DOT →
      (if c = 46 then ReType.DOT else .CHAR c) ≠ t := by
    intro c t hchar hdot
    split
    · exact fun h => hdot h.symm
    · exact fun h => hchar c h.symm
  induction l generalizing n with
  | nil => rfl
  | cons c rest ih =>
    cases rest with
    | nil =>
      rw [dotNodes, dotNodes, parts, if_neg (htype c .END (by simp) (by simp))]
      rfl
    | cons d rest =>
      have hrest := ih (n + 1)
      rw [dotNodes, dotNodes, parts, if_neg (htype d .STAR (by simp) (by simp)),
        if_neg (htype d .PLUS (by simp) (by simp)), if_neg (htype d .QUES (by simp) (by simp))]
      rw [dotNodes] at hrest
      rw [hrest]
      rfl

theorem needs_dotNodes (n : Nat) (l : List UInt8) :
    needs (parts (dotNodes n l)).1 = dotNodes n l := by
  rw [parts_dotNodes, needs, List.filterMap_map]
  exact List.filterMap_some

theorem dotNodes_length (n : Nat) (l : List UInt8) : (dotNodes n l).length = l.length := by
  induction l generalizing n with
  | nil => rfl
  | cons c rest ih => rw [dotNodes, List.length_cons, List.length_cons, ih]

theorem mem_dotNodes {n : Nat} {l : List UInt8} {r : RE} (h : r ∈ dotNodes n l) :
    r.type = .DOT ∨ ∃ c ∈ l, c ≠ 46 ∧ r.type = .CHAR c := by
  induction l generalizing n with
  | nil => exact absurd h List.not_mem_nil
  | cons c rest ih =>
    rcases List.mem_cons.mp h with rfl | h
    · by_cases hdot : c = 46
      · exact .inl (if_pos hdot)
      · exact .inr ⟨c, List.mem_cons_self, hdot, if_neg hdot⟩
    · rcases ih h with h | ⟨d, hd, hd46, h⟩
      · exact .inl h
      · exact .inr ⟨d, List.mem_cons_of_mem c hd, hd46, h⟩

theorem dotNodes_not_anchored (n : Nat) (l : List UInt8) :
    ((dotNodes n l).head?.any fun r => decide (r.type = .BEGIN)) = false := by
  cases l with
  | nil => rfl
  | cons c rest =>
    rw [dotNodes, List.head?_cons, Option.any_some, decide_eq_false_iff_not]
    split <;> simp

/-- Without a `.` the nodes match the text itself. -/
theorem matchParts_dotNodes {mem : KmallocMem} {n : Nat} {l text : List UInt8} (h : 46 ∉ l) :
    matchParts mem false ((dotNodes n l).map .one) text = true ↔ l <+: text := by
  induction l generalizing n text with
  | nil => simp [dotNodes, matchParts]
  | cons c rest ih =>
    have hc : c ≠ 46 := fun hc => h (hc ▸ List.mem_cons_self)
    have hrest := fun t => @ih (n + 1) t fun hm => h (List.mem_cons_of_mem c hm)
    rw [dotNodes, List.map_cons, if_neg hc]
    cases text with
    | nil => simp [matchParts]
    | cons d text =>
      have hone : matchOne mem ⟨.CHAR c, n⟩ d = (d == c) := by
        simp [matchOne, inList, RE.ch]
      rw [matchParts, Bool.and_eq_true, hrest, List.cons_prefix_cons, hone, beq_iff_eq]
      exact and_congr_left' eq_comm

/-- **A plain pattern is matched where it occurs.** -/
theorem Plain.regexpMatch_iff {hostUrl : CStr} (h : Plain hostUrl) (hne : hostUrl.bytes ≠ [])
    (mem : KmallocMem) (text : CStr) :
    ∃ v, regexpMatch mem hostUrl text = some v ∧ (v ≠ 0 ↔ hostUrl.bytes <:+: text.bytes) := by
  have hspecial : ∀ c ∈ hostUrl.bytes, isSpecial c = true → c = 46 := fun c hc hs =>
    absurd hs (by simp [h c hc])
  have hdot : (46 : UInt8) ∉ hostUrl.bytes := fun hm => absurd (h 46 hm) (by decide)
  have hok := compile_dotNodes hne hspecial
  obtain ⟨r, rest, hnodes, hmatch⟩ := regexpMatch_ok hok mem text
  have hbegin : r.type ≠ .BEGIN := by
    have hno := dotNodes_not_anchored 0 hostUrl.bytes
    rwa [hnodes, List.head?_cons, Option.any_some, decide_eq_false_iff_not] at hno
  refine ⟨_, hmatch, ?_⟩
  rw [if_neg hbegin, ← hnodes]
  have hiff : matchSomewhere mem (dotNodes 0 hostUrl.bytes) text.bytes = true ↔
      hostUrl.bytes <:+: text.bytes := by
    rw [matchSomewhere_suffix, List.infix_iff_prefix_suffix]
    simp only [matchhere_eq_parts, parts_dotNodes, matchParts_dotNodes hdot]
    exact ⟨fun ⟨t, ht, hp⟩ => ⟨t, hp, ht⟩, fun ⟨t, hp, ht⟩ => ⟨t, ht, hp⟩⟩
  rw [← hiff]
  split <;> simp_all

/-! ## 4. The paths -/

/-- A pattern that occurs in a host name does not exclude names: it needs its own bytes. -/
theorem not_excludesNames_of_infix {hostUrl : CStr} (hne : hostUrl.bytes ≠ []) {host : HostName}
    (hocc : hostUrl.bytes <:+: host.text.bytes) : ¬ ExcludesNames hostUrl := by
  have hname : ∀ c ∈ hostUrl.bytes, isNameByte c = true := fun c hc =>
    host.isName c (hocc.subset hc)
  have hspecial : ∀ c ∈ hostUrl.bytes, isSpecial c = true → c = 46 := by
    intro c hc hs
    exact special_name_byte (hname c hc) hs
  rintro ⟨nodes, hok, hno⟩
  rw [compile_dotNodes hne hspecial] at hok
  injection hok with hok
  subst hok
  simp only [Unmatchable, dotNodes_not_anchored, Bool.false_eq_true, ↓reduceIte, false_and, or_false,
    needs_dotNodes, dotNodes_length] at hno
  rcases hno with ⟨r, hr, hr'⟩ | hlong
  · rcases mem_dotNodes hr with h | ⟨c, hc, -, h⟩
    · exact absurd hr' (by simp [RE.nameable, RE.ch, h])
    · exact absurd hr' (by simp [RE.nameable, RE.ch, h, hname c hc])
  · have hlen := hocc.length_le
    have := host.short
    simp only [CStr.strlen] at this
    omega

theorem acAccepts_of_hostUrl {node : AfFeatureNode} {hostUrl : CStr} (hurl : node.hostUrl = hostUrl)
    (hne : hostUrl.bytes ≠ []) (hlit : afIsRegexHostPattern hostUrl = false) (text : CStr) :
    acAccepts node text = some (decide (hostUrl.bytes <:+: text.bytes)) := by
  have hnode : node.literalHost = true := by
    simp [AfFeatureNode.literalHost, CStr.strlen, hurl, hlit, hne]
  rw [acAccepts_eq hnode, hurl]

/-- A text of picked bytes and `a`s that such a pattern does not occur in: the pattern has a
special byte, and of those only `.` is a name byte, which is never picked for its own node. -/
theorem not_infix_picks {hostUrl : CStr} {nodes : List RE} (hok : compile hostUrl = .ok nodes)
    (hplain : ¬ Plain hostUrl) {host : HostName}
    (hpick : ∀ c ∈ host.text.bytes, c = 97 ∨ ∃ r ∈ nodes, c = r.pick) :
    ¬ hostUrl.bytes <:+: host.text.bytes := by
  intro hocc
  have hspecial : ∀ c ∈ hostUrl.bytes, isSpecial c = true → c = 46 := fun c hc =>
    special_name_byte (host.isName c (hocc.subset hc))
  obtain ⟨s, hs, hspec⟩ : ∃ s ∈ hostUrl.bytes, isSpecial s = true := by
    by_contra hno
    exact hplain fun c hc => Bool.eq_false_iff.mpr fun h => hno ⟨c, hc, h⟩
  rw [compile_dotNodes (List.ne_nil_of_mem hs) hspecial] at hok
  injection hok with hok
  rw [hspecial s hs hspec] at hs
  rcases hpick 46 (hocc.subset hs) with h | ⟨r, hr, h⟩
  · exact absurd h (by decide)
  · rw [← hok] at hr
    rcases mem_dotNodes hr with htype | ⟨c, -, hc, htype⟩
    · rw [RE.pick, RE.ch, htype] at h
      exact absurd h (by decide)
    · rw [RE.pick, RE.ch, htype] at h
      exact hc h.symm

/-- A list of name bytes as a host name. -/
def HostName.ofList (w : List UInt8) (hne : w ≠ []) (hlen : w.length ≤ 63)
    (hname : ∀ c ∈ w, isNameByte c = true) : HostName where
  text := ⟨w, fun h0 => absurd (hname 0 h0) (by decide)⟩
  nonempty := hne
  short := hlen
  isName := hname

theorem mem_of_mem_needs {ps : List Part} {r : RE} (h : r ∈ needs ps) :
    ∃ p ∈ ps, p.node = r := by
  obtain ⟨p, hp, hneed⟩ := List.mem_filterMap.mp h
  refine ⟨p, hp, ?_⟩
  rw [Part.need] at hneed
  split at hneed
  · exact absurd hneed (by simp)
  · exact Option.some.inj hneed

theorem node_mem_of_parts : ∀ {nodes : List RE} {p : Part}, p ∈ (parts nodes).1 → p.node ∈ nodes
  | [], p, h => absurd h List.not_mem_nil
  | [r], p, h => by
    rw [parts] at h
    split at h
    · exact absurd h List.not_mem_nil
    · rw [List.mem_singleton.mp h]
      exact List.mem_singleton.mpr rfl
  | r :: q :: rest, p, h => by
    have hrep : ∀ {m : RE → Part}, (m r).node = r →
        p ∈ ((parts rest).map (m r :: ·) id).1 → p.node ∈ r :: q :: rest := by
      intro m hm hp
      rcases List.mem_cons.mp hp with rfl | hp
      · rw [hm]
        exact List.mem_cons_self
      · exact List.mem_cons_of_mem r (List.mem_cons_of_mem q (node_mem_of_parts hp))
    rw [parts] at h
    split at h
    · exact hrep (m := .star) rfl h
    · split at h
      · exact hrep (m := .plus) rfl h
      · split at h
        · exact hrep (m := .ques) rfl h
        · rcases List.mem_cons.mp h with rfl | hp
          · exact List.mem_cons_self
          · exact List.mem_cons_of_mem r (node_mem_of_parts hp)

/-- Without needed parts every part is optional. -/
theorem optional_of_needs {ps : List Part} (h : needs ps = []) : ∀ p ∈ ps, p.optional = true := by
  intro p hp
  by_contra hno
  have hmem : p.node ∈ needs ps := List.mem_filterMap.mpr ⟨p, hp, by rw [Part.need, if_neg hno]⟩
  rw [h] at hmem
  exact absurd hmem List.not_mem_nil

/-- A text that the walk matches at its start is matched. -/
theorem regexpMatch_of_matchhere {hostUrl text : CStr} {r : RE} {rest : List RE}
    (hok : compile hostUrl = .ok (r :: rest))
    (hmatch : matchhere aMem (if r.type = .BEGIN then rest else r :: rest) text.bytes = true) :
    regexpMatch aMem hostUrl text = some 1 := by
  obtain ⟨r', rest', hcons, hres⟩ := regexpMatch_ok hok aMem text
  obtain ⟨rfl, rfl⟩ := List.cons.inj hcons
  rw [hres]
  split at hmatch
  · rename_i hbegin
    rw [if_pos hbegin, if_pos hmatch]
  · rename_i hbegin
    rw [if_neg hbegin, if_pos (matchSomewhere_suffix.mpr ⟨_, List.suffix_rfl, hmatch⟩)]

/-- **Nodes that do not exclude names match one**, in the memory of `a`s: the picked bytes of
the needed parts, or a single byte when no part is needed. -/
theorem exists_picked_match {hostUrl : CStr} {nodes : List RE} (hok : compile hostUrl = .ok nodes)
    (hno : ¬ Unmatchable nodes) :
    ∃ host : HostName, (∀ c ∈ host.text.bytes, c = 97 ∨ ∃ r ∈ nodes, c = r.pick) ∧
      regexpMatch aMem hostUrl host.text = some 1 := by
  obtain ⟨r, rest, rfl, -⟩ := regexpMatch_ok hok aMem .empty
  -- what is walked: the nodes behind a leading `^`, or all of them
  obtain ⟨body, hbody, hsub⟩ : ∃ body, body = (if r.type = .BEGIN then rest else r :: rest) ∧
      ∀ q ∈ body, q ∈ r :: rest := by
    refine ⟨_, rfl, fun q hq => ?_⟩
    split at hq
    · exact List.mem_cons_of_mem r hq
    · exact hq
  simp only [Unmatchable, List.head?_cons, Option.any_some, List.tail_cons, decide_eq_true_eq,
    ← hbody, not_or, not_exists, not_and, Bool.not_eq_false, Nat.not_lt] at hno
  obtain ⟨hname, hlen, hrest⟩ := hno
  have hnode : ∀ p ∈ (parts body).1, p.node ∈ r :: rest := fun p hp => hsub _ (node_mem_of_parts hp)
  have hneed : ∀ q ∈ needs (parts body).1, q ∈ r :: rest := by
    intro q hq
    obtain ⟨p, hp, rfl⟩ := mem_of_mem_needs hq
    exact hnode p hp
  have hstart : ∀ host : HostName,
      matchParts aMem (parts body).2 (parts body).1 host.text.bytes = true →
        regexpMatch aMem hostUrl host.text = some 1 := by
    intro host hmatch
    rw [← matchhere_eq_parts, hbody] at hmatch
    exact regexpMatch_of_matchhere hok hmatch
  have hpicks : ∀ c ∈ (needs (parts body).1).map RE.pick, isNameByte c = true ∧
      ∃ r' ∈ r :: rest, c = r'.pick := by
    intro c hc
    obtain ⟨q, hq, rfl⟩ := List.mem_map.mp hc
    exact ⟨pick_isName (hname q hq), q, hneed q hq, rfl⟩
  have hword : ∀ tail : List UInt8, ((parts body).2 = true → tail = []) →
      matchParts aMem (parts body).2 (parts body).1
        ((needs (parts body).1).map RE.pick ++ tail) = true :=
    fun tail htail => matchParts_word (fun q _ => matchOne_pick q) htail
  by_cases hnil : needs (parts body).1 = []
  · have hopt : ∀ p ∈ (parts body).1, p.optional = true := optional_of_needs hnil
    have ha : ∀ c ∈ [(97 : UInt8)], isNameByte c = true := List.all_eq_true.mp (by decide)
    rw [hnil] at hword
    cases heol : (parts body).2 with
    | false =>
      refine ⟨.ofList [97] (by simp) (by simp) ha, fun c hc => .inl (List.mem_singleton.mp hc), ?_⟩
      exact hstart _ (hword [97] fun h => absurd h (by simp [heol]))
    | true =>
      by_cases hbegin : r.type = .BEGIN
      · obtain ⟨p, hp, hpname⟩ : ∃ p ∈ (parts body).1, p.node.nameable = true := by
          by_contra hno
          refine hrest hbegin heol fun p hp => ⟨hopt p hp, Bool.eq_false_iff.mpr fun h => ?_⟩
          exact hno ⟨p, hp, h⟩
        have hc : ∀ c ∈ [p.node.pick], isNameByte c = true := by
          intro c hc
          rw [List.mem_singleton.mp hc]
          exact pick_isName hpname
        refine ⟨.ofList [p.node.pick] (by simp) (by simp) hc, fun c hc => ?_, ?_⟩
        · exact .inr ⟨p.node, hnode p hp, List.mem_singleton.mp hc⟩
        · exact hstart _ (matchParts_single hopt hp (matchOne_pick p.node))
      · -- not anchored: the `$` is met behind the last byte
        refine ⟨.ofList [97] (by simp) (by simp) ha,
          fun c hc => .inl (List.mem_singleton.mp hc), ?_⟩
        have hend := hword [] fun _ => rfl
        rw [List.map_nil, List.append_nil, ← matchhere_eq_parts, hbody, if_neg hbegin] at hend
        obtain ⟨r', rest', hcons, hres⟩ := regexpMatch_ok hok aMem
          (HostName.ofList [97] (by simp) (by simp) ha).text
        obtain ⟨rfl, rfl⟩ := List.cons.inj hcons
        rw [hres, if_neg hbegin, if_pos (matchSomewhere_suffix.mpr ⟨[], List.nil_suffix, hend⟩)]
  · have hw : (needs (parts body).1).map RE.pick ≠ [] := fun h => hnil (List.map_eq_nil_iff.mp h)
    refine ⟨.ofList _ hw (by rwa [List.length_map]) fun c hc => (hpicks c hc).1,
      fun c hc => .inr (hpicks c hc).2, hstart _ ?_⟩
    have hmatch := hword [] fun _ => rfl
    rwa [List.append_nil] at hmatch

/-- **Where the two paths agree.**  For every `host_url` the automaton indexes: the automaton
and `regexp_match` accept the same host names iff every byte of the pattern stands for itself,
or the pattern compiles to something no host name can match. -/
theorem paths_agree_iff (hostUrl : CStr) (hne : hostUrl.bytes ≠ [])
    (hlit : afIsRegexHostPattern hostUrl = false) :
    PathsAgree hostUrl ↔ Plain hostUrl ∨ ExcludesNames hostUrl := by
  constructor
  · intro hagree
    by_cases hplain : Plain hostUrl
    · exact .inl hplain
    · refine .inr ?_
      have hhost := fun (mem : KmallocMem) (host : HostName) =>
        hagree { addr := 0, appId := 1, hostUrl := hostUrl } rfl mem host
      -- some host name that the pattern does not occur in, and what the plain path says of it
      have hplainPath : ∀ (host : HostName) (v : Option Int), regexpMatch aMem hostUrl host.text = v →
          ¬ hostUrl.bytes <:+: host.text.bytes → v = some 0 := by
        intro host v hv hocc
        obtain ⟨b, hac, hp⟩ := hhost aMem host
        rw [acAccepts_of_hostUrl rfl hne hlit] at hac
        simp only [hocc, decide_false, Option.some.injEq] at hac
        subst hac
        rw [plainAccepts, hv] at hp
        cases v with
        | none => exact absurd hp (by simp)
        | some ret =>
          simp only [Option.map_some, Option.some.injEq, decide_eq_false_iff_not, not_not] at hp
          rw [hp]
      have ha : ∀ c ∈ [(97 : UInt8)], isNameByte c = true := List.all_eq_true.mp (by decide)
      have hocca : ¬ hostUrl.bytes <:+: (HostName.ofList [97] (by simp) (by simp) ha).text.bytes := by
        intro hocc
        refine hplain fun c hc => ?_
        rw [List.mem_singleton.mp (hocc.subset hc)]
        decide
      cases hok : compile hostUrl with
      | wild =>
        have h := hplainPath _ none (by rw [regexpMatch, hok]) hocca
        exact absurd h (by simp)
      | failed =>
        have h := hplainPath _ (some (-1)) (by rw [regexpMatch, hok]) hocca
        exact absurd h (by simp)
      | ok nodes =>
        by_contra hno
        obtain ⟨host, hpick, hmatch⟩ := exists_picked_match hok fun h => hno ⟨nodes, hok, h⟩
        have h := hplainPath host (some 1) hmatch (not_infix_picks hok hplain hpick)
        exact absurd h (by simp)
  · intro h node hurl mem host
    refine ⟨_, acAccepts_of_hostUrl hurl hne hlit host.text, ?_⟩
    rw [plainAccepts, hurl]
    rcases h with hplain | hexcl
    · obtain ⟨v, hv, hiff⟩ := hplain.regexpMatch_iff hne mem host.text
      rw [hv, Option.map_some, decide_eq_decide.mpr hiff]
    · obtain ⟨nodes, hok, hno⟩ := id hexcl
      have hocc : ¬ hostUrl.bytes <:+: host.text.bytes := fun hocc =>
        not_excludesNames_of_infix hne hocc hexcl
      rw [hno.regexpMatch_eq hok mem host]
      simp [hocc]

/-- A host without special bytes is read the same way twice. -/
theorem paths_agree_iff_plain : PathsAgree (.lit "ads-example") := by
  have hall : ((CStr.lit "ads-example").bytes.all fun c => !isSpecial c) = true := by decide
  have hplain : Plain (.lit "ads-example") := fun c hc => by
    simpa using List.all_eq_true.mp hall c hc
  exact (paths_agree_iff (.lit "ads-example") (by decide) (by decide)).mpr (.inl hplain)

/-- **`a.c` is accepted in `abc` by `regexp_match` only.** -/
theorem paths_disagree_dot :
    afIsRegexHostPattern (.lit "a.c") = false ∧ ¬ PathsAgree (.lit "a.c") := by
  refine ⟨by decide, fun h => ?_⟩
  obtain ⟨b, hac, hplain⟩ := h { addr := 0, appId := 1, hostUrl := .lit "a.c" } rfl aMem
    (.ofList (ascii "abc") (by decide) (by decide) (List.all_eq_true.mp (by decide)))
  rw [acAccepts_of_hostUrl rfl (by decide) (by decide)] at hac
  have hfalse : b = false := by
    rw [← Option.some.inj hac]
    decide
  subst hfalse
  exact absurd hplain (by decide)

end Oaf
