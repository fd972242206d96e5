/-
# The automaton finds the right feature

`af_match_url_text_ac` on a freshly rebuilt automaton, for every feature list and every text.

* `rebuild_cases`: what `af_rebuild_url_ac_locked` can leave.  It always returns.
* `scan_spec`: after each byte the state is the longest suffix of the text so far that the trie
  holds, so an item ends the text iff it is on the state's fail chain (`outputChain_spec`).
* `match_url_text_ac_spec`: the answer is the eligible feature that ends earliest, the longest of
  those that end there, the first in list order of those with the same `host_url`.
-/
import Oaf.UrlAc.FailLinks

namespace Oaf

open CLib LongestSuffix

/-! ## 1. What a rebuild leaves -/

theorem Linked.setReady {g : AfUrlAc} {word : Nat → List UInt8} {items : List AfFeatureNode}
    (h : Linked g word items) (b : Bool) : Linked { g with ready := b } word items :=
  ⟨⟨h.spells, h.rootIs, h.count, h.outputs, h.held⟩, h.failOk⟩

/-- Every allocation the insertions of a rebuild ask for is granted.  The one before them is the
root's. -/
def InsertsGranted (m : Kmem) (head : List AfFeatureNode) : Prop :=
  ∀ k, m.used < k → k ≤ m.used + insertRequests [] head → m.outcome k = true

/-- **Every rebuild returns**, and leaves one of two things: an automaton that is not ready,
with the dirty flag set, when the root or the queue could not be allocated; or a ready one with
its links right.  Then the items are the literal-host features, in list order, less those whose
insertion lost an allocation. -/
theorem rebuild_cases (g : AfUrlAc) (m : Kmem) (head : List AfFeatureNode) :
    ∃ r, afRebuildUrlAcLocked g m head = some r ∧ m.Later r.m ∧
      (∀ i, ∀ f ∈ outputsAt r.g i, f ∈ head) ∧
      ((r.ret = -1 ∧ r.dirty = true ∧ r.g.ready = false ∧ ¬ m.OkUntil r.m) ∨
        (r.ret = 0 ∧ r.dirty = false ∧ r.g.ready = true ∧ m.outcome m.used = true ∧
          ∃ word items, Linked r.g word items ∧
            List.Sublist items (head.filter (·.literalHost)) ∧
            (m.OkUntil r.m ∨ InsertsGranted m head → items = head.filter (·.literalHost)))) := by
  have hl1 : m.Later m.kzalloc.2 := m.kzalloc_later
  cases hm : m.outcome m.used with
  | false =>
    refine ⟨⟨-1, { root := none, ready := false }, true, m.kzalloc.2⟩, ?_, hl1,
      by simp [outputsAt], Or.inl ⟨rfl, rfl, rfl, ?_⟩⟩
    · simp [afRebuildUrlAcLocked, afAcResetLocked, afAcAllocNode, hm]
    · intro hok
      rw [hok.fst (.refl _)] at hm
      simp at hm
  | true =>
    have hroot := trieOf_root { root := some 0, nodeList := [{}], nodeCount := 1 } rfl rfl rfl
    obtain ⟨word, g1, m1, items, hins, hl2, ht, hsub, hall⟩ := insertAll_spec head hroot m.kzalloc.2
    rw [List.nil_append] at ht
    have hgranted : InsertsGranted m head → m.kzalloc.2.OkUntil m1 := by
      intro h k hk hk'
      have hheld : ∀ w, Held 1 (fun _ => []) w ↔ PrefixOfSome [] w := by
        intro w
        simp [Held, PrefixOfSome, eq_comm]
      have hle := insertAll_granted head hroot hheld m.kzalloc.2 (fun k hk hk' => h k hk (by
        have hu : m.kzalloc.2.used = m.used + 1 := rfl
        omega))
      rw [hins] at hle
      have hu : m.kzalloc.2.used = m.used + 1 := rfl
      exact h k (by omega) (by dsimp only at hle; omega)
    have hl3 : m1.Later m1.kzalloc.2 := m1.kzalloc_later
    have hlive : ∀ {g' : AfUrlAc}, TrieOf g' word items → ∀ i, ∀ f ∈ outputsAt g' i, f ∈ head :=
      fun ht' i f hf => (List.mem_filter.mp (hsub.subset (ht'.mem_items hf))).1
    rcases buildFailLinks_spec ht m1 with ⟨hm1, hb⟩ | ⟨hm1, g2, hb, hlinked⟩
    · refine ⟨⟨-1, { g1 with ready := false }, true, m1.kzalloc.2⟩, ?_, (hl1.trans hl2).trans hl3,
        fun i f hf => hlive ht i f hf, Or.inl ⟨rfl, rfl, rfl, ?_⟩⟩
      · simp [afRebuildUrlAcLocked, afAcResetLocked, afAcAllocNode, hm, hins, hb]
      · intro hok
        rw [(hok.right (hl1.trans hl2)).fst (.refl _)] at hm1
        simp at hm1
    · refine ⟨⟨0, { g2 with ready := true }, false, m1.kzalloc.2⟩, ?_, (hl1.trans hl2).trans hl3,
        fun i f hf => hlive hlinked.toTrieOf i f hf, Or.inr ⟨rfl, rfl, rfl, rfl, word, items, hlinked.setReady true, hsub, ?_⟩⟩
      · simp [afRebuildUrlAcLocked, afAcResetLocked, afAcAllocNode, hm, hins, hb]
      · rintro (hok | hgrant)
        · exact hall ((hok.right hl1).left hl3)
        · exact hall (hgranted hgrant)

/-! ## 2. The walk of the fail chain -/

/-- `check_basic_cond` lets the feature through. -/
def passesCond (flow : FlowInfo) (checkBasicCond : Bool) (f : AfFeatureNode) : Bool :=
  !checkBasicCond || afMatchBasicCond flow f

theorem acOutputs_fst (flow : FlowInfo) (check : Bool) : ∀ (outs : List AfFeatureNode)
    (stat : AfAcMatchStat), (acOutputs flow check stat outs).1 = outs.find? (passesCond flow check)
  | [], _ => rfl
  | f :: rest, stat => by
    have ih := fun stat => acOutputs_fst flow check rest stat
    have hcond : (check && !afMatchBasicCond flow f) = !passesCond flow check f := by
      simp [passesCond]
    unfold acOutputs
    rw [hcond]
    cases hp : passesCond flow check f <;> simp [hp, ih]

section Walk

variable {g : AfUrlAc} {word : Nat → List UInt8} {items : List AfFeatureNode}

/-- **The next state** is the longest suffix of the old one and the byte. -/
theorem nextState_spec (h : Linked g word items) (c : UInt8) :
    ∀ (fuel i jumps : Nat), i < g.nodeList.length → (word i).length ≤ fuel →
    ∃ j jumps', acNextState g 0 c fuel i jumps = some (j, jumps') ∧ j < g.nodeList.length ∧
      word j = longest (Held g.nodeList.length word) (word i ++ [c]) := by
  have hs := h.spells
  have hfound : ∀ {i k : Nat}, afAcFindNext g i c = some k → k < g.nodeList.length ∧
      word k = longest (Held g.nodeList.length word) (word i ++ [c]) := by
    intro i k hf
    obtain ⟨_, hk, hw⟩ := hs.findNext_iff.mp hf
    exact ⟨hk, hw.trans (longest_eq_self (hw ▸ Spells.held_word hk)).symm⟩
  have hroot : ∀ {i : Nat}, afAcFindNext g i c = none → i = 0 → (0 : Nat) < g.nodeList.length ∧
      word 0 = longest (Held g.nodeList.length word) (word i ++ [c]) := by
    rintro i hf rfl
    obtain ⟨h1, h2⟩ := findNext_root hs c
    rw [hf] at h1 h2
    exact ⟨h1, h2⟩
  intro fuel
  induction fuel with
  | zero =>
    intro i jumps hi hlen
    have h0 : i = 0 := (hs.word_eq_nil_iff hi).mp (List.length_eq_zero_iff.mp (by omega))
    unfold acNextState
    cases hf : afAcFindNext g i c with
    | some k => exact ⟨k, jumps, rfl, hfound hf⟩
    | none => exact ⟨0, jumps, by simp [h0], hroot hf h0⟩
  | succ fuel ih =>
    intro i jumps hi hlen
    unfold acNextState
    cases hf : afAcFindNext g i c with
    | some k => exact ⟨k, jumps, rfl, hfound hf⟩
    | none =>
      by_cases h0 : i = 0
      · exact ⟨0, jumps, by simp [h0], hroot hf h0⟩
      · have hne : word i ≠ [] := fun hw => h0 ((hs.word_eq_nil_iff hi).mp hw)
        have hno := (hs.findNext_eq_none_iff hi).mp hf
        obtain ⟨k, hk, hfail, hw⟩ := h.failOk i hi
        obtain ⟨n, hn, hnf⟩ := getElem?_of_failAt hfail
        have hlt : (word k).length < (word i).length := hw ▸ failOf_length_lt hne
        obtain ⟨j, jumps', hj, hj1, hj2⟩ := ih k (jumps + 1) hk (by omega)
        refine ⟨j, jumps', ?_, hj1, ?_⟩
        · simp only [if_neg h0, hn]
          rw [← hj]
          cases n with
          | mk edges outputList fail =>
            simp only at hnf
            subst hnf
            rfl
        · rw [hj2, hw, longest_step_fail hs.prefixClosed hno hne]

/-- The items to report at a state that spells `u`: the longest passing item that ends `u`, the
first in insertion order among equal ones. -/
def ChainPick (p : AfFeatureNode → Bool) (items : List AfFeatureNode) (u : List UInt8) :
    Option AfFeatureNode → Prop
  | none => ∀ f ∈ items, p f = true → ¬ f.hostUrl.bytes <:+ u
  | some f => f.hostUrl.bytes <:+ u ∧
      (∀ f' ∈ items, p f' = true → f'.hostUrl.bytes <:+ u → f'.hostUrl.strlen ≤ f.hostUrl.strlen) ∧
      items.find? (fun f' => p f' && f'.hostUrl == f.hostUrl) = some f

/-- What a pick says depends only on which passing items end the word. -/
theorem ChainPick.congr {p : AfFeatureNode → Bool} {u w : List UInt8}
    (huw : ∀ f ∈ items, p f = true → (f.hostUrl.bytes <:+ u ↔ f.hostUrl.bytes <:+ w)) :
    ∀ {res : Option AfFeatureNode}, ChainPick p items u res → ChainPick p items w res
  | none, h => fun f hf hp hsuf => h f hf hp ((huw f hf hp).mpr hsuf)
  | some f, ⟨h1, h2, h3⟩ => by
    have hmem := List.mem_of_find?_eq_some h3
    have hp := List.find?_some h3
    simp only [beq_self_eq_true, Bool.and_true] at hp
    exact ⟨(huw f hmem hp).mp h1,
      fun f' hf' hp' hsuf => h2 f' hf' hp' ((huw f' hf' hp').mpr hsuf), h3⟩

/-- The first passing item that spells the whole word is the one to report. -/
theorem ChainPick.of_find {p : AfFeatureNode → Bool} {w : List UInt8} {f : AfFeatureNode}
    (h : items.find? (fun f => f.hostUrl.bytes = w ∧ p f) = some f) :
    ChainPick p items w (some f) := by
  have hf := List.find?_some h
  simp only [decide_eq_true_eq] at hf
  refine ⟨hf.1 ▸ List.suffix_rfl, ?_, ?_⟩
  · intro f' _ _ hsuf
    have hle := hsuf.length_le
    rw [← hf.1] at hle
    exact hle
  · rw [← h]
    congr 1
    funext f'
    rw [CStr.beq_eq_decide, hf.1, Bool.eq_iff_iff]
    simp [and_comm]

/-- **The output walk** looks at exactly the items that end the state's word, longest first. -/
theorem outputChain_spec (h : Linked g word items) (hne : ∀ f ∈ items, f.hostUrl.bytes ≠ [])
    (flow : FlowInfo) (check : Bool) :
    ∀ (fuel i : Nat) (stat : AfAcMatchStat), i < g.nodeList.length → (word i).length ≤ fuel →
    ∃ res stat', acOutputChain g 0 flow check fuel (some i) stat = some (res, stat') ∧
      ChainPick (passesCond flow check) items (word i) res := by
  have hs := h.spells
  -- at the root there is nothing to report
  have hroot : ChainPick (passesCond flow check) items (word 0) none := by
    intro f hf _ hsuf
    rw [hs.root] at hsuf
    exact hne f hf (List.suffix_nil.mp hsuf)
  intro fuel
  induction fuel with
  | zero =>
    intro i stat hi hlen
    have h0 : i = 0 := (hs.word_eq_nil_iff hi).mp (List.length_eq_zero_iff.mp (by omega))
    subst h0
    exact ⟨none, stat, by simp [acOutputChain], hroot⟩
  | succ fuel ih =>
    intro i stat hi hlen
    by_cases h0 : i = 0
    · subst h0
      exact ⟨none, stat, by simp [acOutputChain], hroot⟩
    · have hwne : word i ≠ [] := fun hw => h0 ((hs.word_eq_nil_iff hi).mp hw)
      obtain ⟨k, hk, hfail, hw⟩ := h.failOk i hi
      obtain ⟨n, hn, hnf⟩ := getElem?_of_failAt hfail
      have hlt : (word k).length < (word i).length := hw ▸ failOf_length_lt hwne
      have hout : n.outputList = items.filter (fun f => f.hostUrl.bytes = word i) := by
        rw [← h.outputs i hi, outputsAt, hn]
        rfl
      have hfst := acOutputs_fst flow check n.outputList stat
      unfold acOutputChain
      simp only [if_neg h0, hn]
      cases hres : acOutputs flow check stat n.outputList with
      | mk r stat1 =>
        rw [hres, hout, List.find?_filter] at hfst
        have hr : r = items.find? (fun f => f.hostUrl.bytes = word i ∧ passesCond flow check f) := by
          simpa using hfst
        cases r with
        | some f =>
          exact ⟨some f, stat1, rfl, ChainPick.of_find hr.symm⟩
        | none =>
          obtain ⟨res, stat', hres', hpick⟩ := ih k stat1 hk (by omega)
          refine ⟨res, stat', by rw [← hres', hnf], ?_⟩
          -- no passing item spells the whole word, so only those of the fail word are left
          have hnot : ∀ f ∈ items, passesCond flow check f = true → f.hostUrl.bytes ≠ word i := by
            intro f hf hp hfw
            have := List.find?_eq_none.mp hr.symm f hf
            simp [hfw, hp] at this
          refine hpick.congr (fun f hf hp => Iff.symm ?_)
          rw [suffix_iff_failOf (h.held f hf), ← hw]
          exact or_iff_right (hnot f hf hp)

/-- The pick of a whole text, of which the first `lo` bytes are already done: no passing item
ends in between, and the pick ends at the first place where one does. -/
def ScanPick (p : AfFeatureNode → Bool) (items : List AfFeatureNode) (text : List UInt8)
    (lo : Nat) (res : Option AfFeatureNode) : Prop :=
  ∃ k, lo < k ∧ (res ≠ none ∧ k ≤ text.length ∨ res = none ∧ k = text.length + 1) ∧
    (∀ f ∈ items, p f = true → ∀ k', lo < k' → k' < k → ¬ f.hostUrl.bytes <:+ text.take k') ∧
    (res ≠ none → ChainPick p items (text.take k) res)

/-- **The scan.**  The state after `pre` is the longest suffix of `pre` the trie holds. -/
theorem scan_spec (h : Linked g word items) (hne : ∀ f ∈ items, f.hostUrl.bytes ≠ [])
    (flow : FlowInfo) (check : Bool) :
    ∀ (rest pre : List UInt8) (state : Nat) (stat : AfAcMatchStat), state < g.nodeList.length →
    word state = longest (Held g.nodeList.length word) pre →
    ∃ res stat', acScan g 0 flow check state stat rest = some (res, stat') ∧
      ScanPick (passesCond flow check) items (pre ++ rest) pre.length res
  | [], pre, state, stat, _, _ => by
    refine ⟨none, stat, rfl, pre.length + 1, Nat.lt_succ_self _, Or.inr ⟨rfl, by simp⟩, ?_, by simp⟩
    intro f _ _ k' h1 h2
    omega
  | c :: rest, pre, state, stat, hstate, hw => by
    obtain ⟨j, jumps, hj, hjlt, hjw⟩ := nextState_spec h c g.nodeList.length state 0 hstate
      ((h.spells.depth state hstate).trans (Nat.le_of_lt hstate))
    rw [hw, ← longest_concat h.spells.prefixClosed] at hjw
    obtain ⟨r, stat1, hr, hpick⟩ := outputChain_spec h hne flow check g.nodeList.length j
      { stat with acStateSteps := stat.acStateSteps + 1, acFailJumps := stat.acFailJumps + jumps }
      hjlt ((h.spells.depth j hjlt).trans (Nat.le_of_lt hjlt))
    have hpick' : ChainPick (passesCond flow check) items (pre ++ [c]) r :=
      hpick.congr (fun f hf _ => by rw [hjw]; exact suffix_longest_iff (h.held f hf))
    have htake : (pre ++ c :: rest).take (pre.length + 1) = pre ++ [c] := by
      simp [List.take_append]
    cases r with
    | some f =>
      refine ⟨some f, stat1, by simp [acScan, hj, hr], pre.length + 1, Nat.lt_succ_self _,
        Or.inl ⟨by simp, by simp⟩, ?_, fun _ => htake ▸ hpick'⟩
      intro f _ _ k' h1 h2
      omega
    | none =>
      obtain ⟨res, stat', hres, k, hk, hklen, hbefore, hkpick⟩ :=
        scan_spec h hne flow check rest (pre ++ [c]) j stat1 hjlt hjw
      rw [List.append_assoc, List.singleton_append] at hklen hbefore hkpick
      rw [List.length_append, List.length_singleton] at hk hbefore
      refine ⟨res, stat', by simp [acScan, hj, hr, hres], k, by omega, hklen, ?_, hkpick⟩
      intro f hf hp k' h1 h2
      rcases Nat.eq_or_lt_of_le h1 with h1 | h1
      · rw [← h1, htake]
        exact hpick' f hf hp
      · exact hbefore f hf hp k' h1 h2

end Walk

/-! ## 3. The whole match -/

/-- A feature the automaton may report for this flow. -/
def eligible (flow : FlowInfo) (checkBasicCond : Bool) (f : AfFeatureNode) : Bool :=
  f.literalHost && passesCond flow checkBasicCond f

/-- The feature's `host_url` occurs in `text`, its last byte being the `k`-th. -/
def EndsAt (text : List UInt8) (f : AfFeatureNode) (k : Nat) : Prop :=
  k ≤ text.length ∧ f.hostUrl.bytes <:+ text.take k

/-- **What the matcher is for.**  Among the eligible features it takes the one that ends
earliest, of those that end there the longest, and of the equal ones the first in list order. -/
structure Chosen (head : List AfFeatureNode) (flow : FlowInfo) (checkBasicCond : Bool)
    (text : List UInt8) (f : AfFeatureNode) : Prop where
  place : ∃ k, EndsAt text f k ∧
    (∀ f' ∈ head, eligible flow checkBasicCond f' = true → ∀ k', EndsAt text f' k' → k ≤ k') ∧
    (∀ f' ∈ head, eligible flow checkBasicCond f' = true → EndsAt text f' k →
      f'.hostUrl.strlen ≤ f.hostUrl.strlen)
  first : head.find? (fun f' => eligible flow checkBasicCond f' && f'.hostUrl == f.hostUrl) = some f

/-- The answer `res` is right: it is NULL iff no eligible feature occurs, else the chosen one. -/
def UrlMatch (head : List AfFeatureNode) (flow : FlowInfo) (checkBasicCond : Bool)
    (text : List UInt8) (res : Option AfFeatureNode) : Prop :=
  (res.isSome = true ↔
    ∃ f ∈ head, eligible flow checkBasicCond f = true ∧ f.hostUrl.bytes <:+: text) ∧
  ∀ f, res = some f → Chosen head flow checkBasicCond text f

theorem infix_iff_endsAt {text : List UInt8} {f : AfFeatureNode} :
    f.hostUrl.bytes <:+: text ↔ ∃ k, EndsAt text f k := by
  constructor
  · rintro ⟨a, b, hab⟩
    refine ⟨(a ++ f.hostUrl.bytes).length, ?_, a, ?_⟩
    · rw [← hab]
      simp
    · rw [← hab, List.take_left']
      rfl
  · rintro ⟨k, _, hsuf⟩
    exact hsuf.isInfix.trans (List.take_prefix k text).isInfix

theorem endsAt_pos {text : List UInt8} {f : AfFeatureNode} {k : Nat}
    (hf : f.hostUrl.bytes ≠ []) (h : EndsAt text f k) : 0 < k := by
  rcases Nat.eq_zero_or_pos k with rfl | hk
  · exact absurd (List.suffix_nil.mp (by simpa using h.2)) hf
  · exact hk

theorem find?_filter_eligible (head : List AfFeatureNode) (flow : FlowInfo) (check : Bool)
    (s : CStr) :
    (head.filter (·.literalHost)).find? (fun f => passesCond flow check f && f.hostUrl == s) =
      head.find? (fun f => eligible flow check f && f.hostUrl == s) := by
  rw [List.find?_filter]
  congr 1
  funext f
  rw [Bool.eq_iff_iff]
  simp [eligible, and_assoc]

/-- From the pick over the items to the choice over the list. -/
theorem ScanPick.urlMatch {head : List AfFeatureNode} {flow : FlowInfo} {check : Bool}
    {text : List UInt8} {res : Option AfFeatureNode}
    (h : ScanPick (passesCond flow check) (head.filter (·.literalHost)) text 0 res) :
    UrlMatch head flow check text res := by
  obtain ⟨k, hk0, hk, hbefore, hpick⟩ := h
  have hmem : ∀ f ∈ head, eligible flow check f = true →
      f ∈ head.filter (·.literalHost) ∧ passesCond flow check f = true ∧ f.hostUrl.bytes ≠ [] := by
    intro f hf he
    simp only [eligible, Bool.and_eq_true] at he
    exact ⟨List.mem_filter.mpr ⟨hf, he.1⟩, he.2, AfFeatureNode.literalHost_ne_nil he.1⟩
  have hafter : ∀ f ∈ head, eligible flow check f = true → ∀ k', EndsAt text f k' → k ≤ k' := by
    intro f hf he k' hend
    obtain ⟨h1, h2, h3⟩ := hmem f hf he
    by_contra hlt
    exact hbefore f h1 h2 k' (endsAt_pos h3 hend) (by omega) hend.2
  rcases hk with ⟨hres, hklen⟩ | ⟨rfl, rfl⟩
  · obtain ⟨f, rfl⟩ := Option.ne_none_iff_exists'.mp hres
    obtain ⟨h1, h2, h3⟩ := hpick hres
    rw [find?_filter_eligible] at h3
    have hf := List.find?_some h3
    simp only [beq_self_eq_true, Bool.and_true] at hf
    have hfmem := List.mem_of_find?_eq_some h3
    refine ⟨⟨fun _ => ⟨f, hfmem, hf, infix_iff_endsAt.mpr ⟨k, hklen, h1⟩⟩, fun _ => rfl⟩, ?_⟩
    rintro f' ⟨⟩
    refine ⟨⟨k, ⟨hklen, h1⟩, hafter, ?_⟩, h3⟩
    intro f' hf' he hend
    obtain ⟨h4, h5, _⟩ := hmem f' hf' he
    exact h2 f' h4 h5 hend.2
  · refine ⟨⟨fun hsome => absurd hsome (by simp), ?_⟩, by simp⟩
    rintro ⟨f, hf, he, hocc⟩
    obtain ⟨k', hend⟩ := infix_iff_endsAt.mp hocc
    have := hafter f hf he k' hend
    have := hend.1
    omega

/-- **A linked automaton matches right**, whatever text it is given. -/
theorem linked_match {g : AfUrlAc} {word : Nat → List UInt8} {head : List AfFeatureNode}
    (h : Linked g word (head.filter (·.literalHost))) (hready : g.ready = true)
    (flow : FlowInfo) (stat : AfAcMatchStat) (text : List UInt8) (check : Bool) :
    ∃ res stat', afMatchUrlTextAc g flow stat text text.length check = some (res, stat') ∧
      UrlMatch head flow check text res := by
  have hne : ∀ f ∈ head.filter (·.literalHost), f.hostUrl.bytes ≠ [] := fun f hf =>
    AfFeatureNode.literalHost_ne_nil (List.mem_filter.mp hf).2
  obtain ⟨res, stat', hres, hpick⟩ :=
    scan_spec h hne flow check text [] 0 stat h.spells.pos h.spells.root
  refine ⟨res, stat', ?_, hpick.urlMatch⟩
  rw [← hres]
  cases text with
  | nil => simp [afMatchUrlTextAc, acScan]
  | cons c text => simp [afMatchUrlTextAc, hready, h.rootIs]

/-- `af_match_url_text_ac` after a rebuild all of whose allocations succeeded. -/
theorem match_url_text_ac_spec (g : AfUrlAc) (m : Kmem) (head : List AfFeatureNode) :
    ∃ r, afRebuildUrlAcLocked g m head = some r ∧ (m.OkUntil r.m → r.ret = 0 ∧
      ∀ (flow : FlowInfo) (stat : AfAcMatchStat) (text : List UInt8) (check : Bool),
        ∃ res stat', afMatchUrlTextAc r.g flow stat text text.length check = some (res, stat') ∧
          UrlMatch head flow check text res) := by
  obtain ⟨r, hr, _, _, hcases⟩ := rebuild_cases g m head
  refine ⟨r, hr, fun hok => ?_⟩
  rcases hcases with ⟨_, _, _, hno⟩ | ⟨hret, _, hready, _, word, items, hl, _, hitems⟩
  · exact absurd hok hno
  · rw [hitems (Or.inl hok)] at hl
    exact ⟨hret, linked_match hl hready⟩

/-- On two features, one inside the other: `roads.example` is matched. -/
theorem match_url_text_ac_spec_nested :
    ∃ r, afRebuildUrlAcLocked {} ⟨fun _ => true, 0⟩
        [{ addr := 1, appId := 1001, hostUrl := .lit "ads.example" },
          { addr := 2, appId := 1002, hostUrl := .lit "ads" }] = some r ∧ r.ret = 0 ∧
      ∃ res stat', afMatchUrlTextAc r.g {} {} (ascii "roads.example") (ascii "roads.example").length
          false = some (res, stat') ∧ res.isSome = true := by
  obtain ⟨r, hr, hall⟩ := match_url_text_ac_spec {} ⟨fun _ => true, 0⟩
    [{ addr := 1, appId := 1001, hostUrl := .lit "ads.example" },
      { addr := 2, appId := 1002, hostUrl := .lit "ads" }]
  obtain ⟨hret, hmatch⟩ := hall (fun _ _ _ => rfl)
  obtain ⟨res, stat', hres, hsome, _⟩ := hmatch {} {} (ascii "roads.example") false
  refine ⟨r, hr, hret, res, stat', hres, hsome.mpr ⟨{ addr := 2, appId := 1002, hostUrl := .lit "ads" },
    by simp, by decide, ⟨ascii "ro", ascii ".example", by decide⟩⟩⟩

end Oaf
