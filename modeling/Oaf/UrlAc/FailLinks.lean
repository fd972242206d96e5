/-
# Fail links

`af_ac_build_fail_links_locked` walks the trie breadth first.  What it stores at a node is the
node of the longest PROPER suffix of the node's word that the trie holds (`FailOk`), and it
finds it by going down the fail chain of the parent, whose nodes are all shallower.

* `failFallback_spec`: the chain walk ends and finds the longest suffix.
* `BfsInv`: the queue is the frontier.  A node without its link has an ancestor in the queue,
  and the queue spans two depths; so when a node is taken, every node no deeper has its link.
* `buildFailLinks_spec`: the walk ends, with every link right.
-/
import Oaf.UrlAc.Trie
import Mathlib.Data.Fintype.Card
import Mathlib.Data.List.Perm.Subperm

namespace Oaf

open CLib LongestSuffix

/-! ## 1. The link of one node -/

/-- The `fail` pointer of a node (none for no node). -/
def failAt (g : AfUrlAc) (i : Nat) : Option Nat := g.nodeList[i]?.bind AfAcNode.fail

/-- The node's link is there and right. -/
def FailOk (N : Nat) (word : Nat → List UInt8) (g : AfUrlAc) (i : Nat) : Prop :=
  ∃ k, k < N ∧ failAt g i = some k ∧ word k = failOf (Held N word) (word i)

/-- The automaton with its links: what the matcher walks. -/
structure Linked (g : AfUrlAc) (word : Nat → List UInt8) (items : List AfFeatureNode) : Prop
    extends TrieOf g word items where
  failOk : ∀ i, i < g.nodeList.length → FailOk g.nodeList.length word g i

section SetFail

variable {g : AfUrlAc} {word : Nat → List UInt8} {items : List AfFeatureNode}

/-- Storing a link leaves the trie alone. -/
theorem TrieOf.setFail (h : TrieOf g word items) (i : Nat) (v : Option Nat) :
    TrieOf (g.modifyNode i (fun n => { n with fail := v })) word items where
  spells := modifyNode_spells h.spells (fun _ => rfl)
  rootIs := h.rootIs
  count := h.count.trans (modifyNode_length g i _).symm
  outputs := by
    intro j hj
    rw [modifyNode_length] at hj
    rw [outputsAt_modifyNode_of_same g i (fun n => { n with fail := v }) (fun _ => rfl)]
    exact h.outputs j hj
  held := by
    rw [modifyNode_length]
    exact h.held

theorem failAt_setFail {i : Nat} (hi : i < g.nodeList.length) (v : Option Nat) (j : Nat) :
    failAt (g.modifyNode i (fun n => { n with fail := v })) j = if i = j then v else failAt g j := by
  unfold failAt
  rw [modifyNode_getElem?]
  split
  · rename_i hij
    subst hij
    simp [List.getElem?_eq_getElem hi]
  · rfl

/-- Storing a right link never spoils another one. -/
theorem FailOk.setFail {N i k : Nat} (hi : i < g.nodeList.length) (hk : k < N)
    (hw : word k = failOf (Held N word) (word i)) {j : Nat} (h : i = j ∨ FailOk N word g j) :
    FailOk N word (g.modifyNode i (fun n => { n with fail := some k })) j := by
  by_cases hij : i = j
  · subst hij
    exact ⟨k, hk, by rw [failAt_setFail hi, if_pos rfl], hw⟩
  · obtain ⟨k', hk', hf, hw'⟩ := h.resolve_left hij
    exact ⟨k', hk', by rw [failAt_setFail hi, if_neg hij, hf], hw'⟩

end SetFail

/-! ## 2. Down the fail chain -/

section Chain

variable {g : AfUrlAc} {word : Nat → List UInt8}

theorem getElem?_of_failAt {i k : Nat} (h : failAt g i = some k) :
    ∃ n, g.nodeList[i]? = some n ∧ n.fail = some k := by
  obtain ⟨n, hn, hf⟩ := Option.bind_eq_some_iff.mp h
  exact ⟨n, hn, hf⟩

/-- At the root the lookup is the answer. -/
theorem findNext_root (h : Spells g.nodeList word) (c : UInt8) :
    (afAcFindNext g 0 c).getD 0 < g.nodeList.length ∧
      word ((afAcFindNext g 0 c).getD 0) =
        longest (Held g.nodeList.length word) (word 0 ++ [c]) := by
  rw [h.root, List.nil_append]
  cases hf : afAcFindNext g 0 c with
  | some k =>
    obtain ⟨_, hk, hw⟩ := h.findNext_iff.mp hf
    rw [h.root, List.nil_append] at hw
    exact ⟨hk, hw.trans (longest_eq_self (hw ▸ Spells.held_word hk)).symm⟩
  | none =>
    have hno := (h.findNext_eq_none_iff h.pos).mp hf
    rw [h.root, List.nil_append] at hno
    exact ⟨h.pos, h.root.trans (longest_step_nil hno).symm⟩

/-- **The chain walk.**  Started at the node of `u`, with the links right along its chain, it
comes back with the node of the longest suffix of `u c`, NULL standing for the root. -/
theorem failFallback_spec (h : Spells g.nodeList word) (c : UInt8) :
    ∀ (fuel i : Nat), i < g.nodeList.length → (word i).length ≤ fuel →
    (∀ j, j < g.nodeList.length → (word j).length ≤ (word i).length →
      FailOk g.nodeList.length word g j) →
    ∃ r, failFallback g 0 c fuel i = some r ∧ r.getD 0 < g.nodeList.length ∧
      word (r.getD 0) = longest (Held g.nodeList.length word) (word i ++ [c]) := by
  intro fuel
  induction fuel with
  | zero =>
    intro i hi hlen _
    have h0 : i = 0 := (h.word_eq_nil_iff hi).mp (List.length_eq_zero_iff.mp (by omega))
    subst h0
    exact ⟨afAcFindNext g 0 c, by simp [failFallback], findNext_root h c⟩
  | succ fuel ih =>
    intro i hi hlen hok
    rcases Nat.eq_zero_or_pos i with rfl | hpos
    · exact ⟨afAcFindNext g 0 c, by simp [failFallback], findNext_root h c⟩
    · have hne : word i ≠ [] := fun hw => by
        have := (h.word_eq_nil_iff hi).mp hw
        omega
      unfold failFallback
      rw [if_neg (by omega)]
      cases hf : afAcFindNext g i c with
      | some k =>
        obtain ⟨_, hk, hw⟩ := h.findNext_iff.mp hf
        exact ⟨some k, rfl, hk, hw.trans (longest_eq_self (hw ▸ Spells.held_word hk)).symm⟩
      | none =>
        have hno := (h.findNext_eq_none_iff hi).mp hf
        obtain ⟨k, hk, hfail, hw⟩ := hok i hi (Nat.le_refl _)
        obtain ⟨n, hn, hnf⟩ := getElem?_of_failAt hfail
        have hlt : (word k).length < (word i).length := hw ▸ failOf_length_lt hne
        obtain ⟨r, hr, hr1, hr2⟩ := ih k hk (by omega)
          (fun j hj hjk => hok j hj (by omega))
        refine ⟨r, ?_, hr1, ?_⟩
        · simp only [hn]
          rw [← hr]
          cases n with
          | mk edges outputList fail =>
            simp only at hnf
            subst hnf
            rfl
        · rw [hr2, hw, longest_step_fail h.prefixClosed hno hne]

end Chain

/-! ## 3. The children of one node -/

/-- What one round of the queue leaves: the same trie, no link spoiled, the children linked. -/
structure EdgesDone (g : AfUrlAc) (word : Nat → List UInt8) (items : List AfFeatureNode)
    (edges : List AfAcEdge) (g' : AfUrlAc) : Prop where
  trie : TrieOf g' word items
  len : g'.nodeList.length = g.nodeList.length
  edgesAt : ∀ i : Nat, g'.nodeList[i]?.map AfAcNode.edges = g.nodeList[i]?.map AfAcNode.edges
  keeps : ∀ i, FailOk g.nodeList.length word g i → FailOk g.nodeList.length word g' i
  linked : ∀ e ∈ edges, FailOk g.nodeList.length word g' e.next

theorem edgesAt_setFail (g : AfUrlAc) (i : Nat) (v : Option Nat) (j : Nat) :
    (g.modifyNode i (fun n => { n with fail := v })).nodeList[j]?.map AfAcNode.edges =
      g.nodeList[j]?.map AfAcNode.edges := by
  rw [modifyNode_getElem?]
  split
  · cases g.nodeList[j]? <;> rfl
  · rfl

/-- Every child of node `cur` gets its link from the chain of `cur`'s link. -/
theorem failEdges_spec {word : Nat → List UInt8} {items : List AfFeatureNode} {cur curFail : Nat}
    (hne : word cur ≠ []) :
    ∀ (edges : List AfAcEdge) (g : AfUrlAc), TrieOf g word items →
    cur < g.nodeList.length → curFail < g.nodeList.length →
    word curFail = failOf (Held g.nodeList.length word) (word cur) →
    (∀ j, j < g.nodeList.length → (word j).length ≤ (word cur).length →
      FailOk g.nodeList.length word g j) →
    (∀ e ∈ edges, e.next < g.nodeList.length ∧ word e.next = word cur ++ [e.ch]) →
    ∃ g', failEdges 0 curFail g edges = some (g', edges.map AfAcEdge.next) ∧
      EdgesDone g word items edges g'
  | [], g, ht, _, _, _, _, _ =>
    ⟨g, rfl, ht, rfl, fun _ => rfl, fun _ h => h, by simp⟩
  | e :: rest, g, ht, hcur, hcf, hw, hok, hedges => by
    obtain ⟨hnext, hnw⟩ := hedges e (List.mem_cons_self ..)
    have hshort : (word curFail).length < (word cur).length := hw ▸ failOf_length_lt hne
    have hfuel : (word curFail).length ≤ g.nodeList.length := by
      have := ht.spells.depth curFail hcf
      omega
    obtain ⟨r, hr, hr1, hr2⟩ := failFallback_spec ht.spells e.ch g.nodeList.length curFail hcf hfuel
      (fun j hj hjc => hok j hj (by omega))
    have hlink : word (r.getD 0) = failOf (Held g.nodeList.length word) (word e.next) := by
      rw [hr2, hw, hnw, failOf_concat ht.spells.prefixClosed hne]
    have hkeep : ∀ j, e.next = j ∨ FailOk g.nodeList.length word g j →
        FailOk g.nodeList.length word
          (g.modifyNode e.next (fun n => { n with fail := some (r.getD 0) })) j :=
      fun j => FailOk.setFail hnext hr1 hlink
    have hlen := modifyNode_length g e.next (fun n => { n with fail := some (r.getD 0) })
    obtain ⟨g', hg', hd⟩ := failEdges_spec hne rest _ (ht.setFail e.next (some (r.getD 0)))
      (by rw [hlen]; exact hcur) (by rw [hlen]; exact hcf) (by rw [hlen]; exact hw)
      (by rw [hlen]; exact fun j hj hjc => hkeep j (Or.inr (hok j hj hjc)))
      (by rw [hlen]; exact fun e' he' => hedges e' (List.mem_cons_of_mem _ he'))
    have hkeeps := hd.keeps
    have hlinked := hd.linked
    rw [hlen] at hkeeps hlinked
    refine ⟨g', ?_, hd.trie, hd.len.trans hlen, ?_, ?_, ?_⟩
    · simp [failEdges, hr, hg']
    · intro i
      rw [hd.edgesAt i, edgesAt_setFail]
    · exact fun i hi => hkeeps i (hkeep i (Or.inr hi))
    · intro e' he'
      rcases List.mem_cons.mp he' with rfl | he'
      · exact hkeeps _ (hkeep _ (Or.inl rfl))
      · exact hlinked e' he'

/-- The root's children fail to the root. -/
theorem failRootEdges_spec {word : Nat → List UInt8} {items : List AfFeatureNode} :
    ∀ (edges : List AfAcEdge) (g : AfUrlAc), TrieOf g word items →
    (∀ e ∈ edges, e.next < g.nodeList.length ∧ word e.next = [e.ch]) →
    EdgesDone g word items edges (failRootEdges 0 g edges).1
  | [], g, ht, _ => ⟨ht, rfl, fun _ => rfl, fun _ h => h, by simp⟩
  | e :: rest, g, ht, hedges => by
    obtain ⟨hnext, hnw⟩ := hedges e (List.mem_cons_self ..)
    have hlink : word 0 = failOf (Held g.nodeList.length word) (word e.next) := by
      rw [hnw, failOf_singleton, ht.spells.root]
    have hkeep : ∀ j, e.next = j ∨ FailOk g.nodeList.length word g j →
        FailOk g.nodeList.length word
          (g.modifyNode e.next (fun n => { n with fail := some 0 })) j :=
      fun j => FailOk.setFail hnext ht.spells.pos hlink
    have hlen := modifyNode_length g e.next (fun n => { n with fail := some 0 })
    have hd := failRootEdges_spec rest _ (ht.setFail e.next (some 0))
      (by rw [hlen]; exact fun e' he' => hedges e' (List.mem_cons_of_mem _ he'))
    have hkeeps := hd.keeps
    have hlinked := hd.linked
    rw [hlen] at hkeeps hlinked
    refine ⟨hd.trie, hd.len.trans hlen, ?_, ?_, ?_⟩
    · intro i
      exact (hd.edgesAt i).trans (edgesAt_setFail g e.next (some 0) i)
    · exact fun i hi => hkeeps i (hkeep i (Or.inr hi))
    · intro e' he'
      rcases List.mem_cons.mp he' with rfl | he'
      · exact hkeeps _ (hkeep _ (Or.inl rfl))
      · exact hlinked e' he'

/-! ## 4. The queue -/

/-- A node whose word starts with `w` and goes on. -/
def Below (word : Nat → List UInt8) (q i : Nat) : Prop :=
  ∃ c rest, word i = word q ++ c :: rest

/-- **The queue is the frontier.**  `popped` are the nodes taken so far. -/
structure BfsInv (g : AfUrlAc) (word : Nat → List UInt8) (items : List AfFeatureNode)
    (popped queue : List Nat) : Prop where
  trie : TrieOf g word items
  nodup : (popped ++ queue).Nodup
  node : ∀ i ∈ popped ++ queue, 0 < i ∧ i < g.nodeList.length
  linked : ∀ i ∈ queue, FailOk g.nodeList.length word g i
  root : FailOk g.nodeList.length word g 0
  parentPopped : ∀ j ∈ popped ++ queue, ∀ i c, i < g.nodeList.length → 0 < i →
    word j = word i ++ [c] → i ∈ popped
  sorted : queue.Pairwise (fun i j => (word i).length ≤ (word j).length)
  span : ∀ i ∈ queue, ∀ j ∈ queue, (word j).length ≤ (word i).length + 1
  frontier : ∀ i, i < g.nodeList.length → ¬ FailOk g.nodeList.length word g i →
    ∃ q ∈ queue, Below word q i

namespace BfsInv

variable {g : AfUrlAc} {word : Nat → List UInt8} {items : List AfFeatureNode}
  {popped queue : List Nat} {cur : Nat}

/-- Every node no deeper than the head of the queue has its link. -/
theorem shallow (h : BfsInv g word items popped (cur :: queue)) {j : Nat}
    (hj : j < g.nodeList.length) (hle : (word j).length ≤ (word cur).length) :
    FailOk g.nodeList.length word g j := by
  by_contra hno
  obtain ⟨q, hq, c, rest, hw⟩ := h.frontier j hj hno
  have hlen : (word j).length = (word q).length + (rest.length + 1) := by simp [hw]
  have hcq : (word cur).length ≤ (word q).length := by
    rcases List.mem_cons.mp hq with rfl | hq
    · exact Nat.le_refl _
    · exact List.rel_of_pairwise_cons h.sorted hq
  omega

/-- Each round takes one node more, and there are only so many. -/
theorem popped_length_lt (h : BfsInv g word items popped (cur :: queue)) :
    popped.length < g.nodeList.length := by
  have hsub : (popped ++ cur :: queue) ⊆ List.range g.nodeList.length := by
    intro i hi
    exact List.mem_range.mpr (h.node i hi).2
  have hle := (h.nodup.subperm hsub).length_le
  simp only [List.length_append, List.length_cons, List.length_range] at hle
  omega

section Children

variable {n : AfAcNode} {j : Nat}

/-- A child of the head of the queue. -/
theorem child (h : BfsInv g word items popped (cur :: queue)) (hn : g.nodeList[cur]? = some n)
    (hj : j ∈ n.edges.map AfAcEdge.next) : j < g.nodeList.length ∧ ∃ c, word j = word cur ++ [c] := by
  obtain ⟨e, he, rfl⟩ := List.mem_map.mp hj
  obtain ⟨hlt, hw⟩ := h.trie.spells.edge cur n hn e he
  exact ⟨hlt, e.ch, hw⟩

theorem child_length (h : BfsInv g word items popped (cur :: queue)) (hn : g.nodeList[cur]? = some n)
    (hj : j ∈ n.edges.map AfAcEdge.next) : (word j).length = (word cur).length + 1 := by
  obtain ⟨_, c, hw⟩ := h.child hn hj
  simp [hw]

theorem queue_length (h : BfsInv g word items popped (cur :: queue)) (hj : j ∈ queue) :
    (word cur).length ≤ (word j).length ∧ (word j).length ≤ (word cur).length + 1 :=
  ⟨List.rel_of_pairwise_cons h.sorted hj,
    h.span cur (List.mem_cons_self ..) j (List.mem_cons_of_mem _ hj)⟩

/-- With the children the queue still spans two levels, in order. -/
theorem queue_sorted (h : BfsInv g word items popped (cur :: queue)) (hn : g.nodeList[cur]? = some n) :
    (queue ++ n.edges.map AfAcEdge.next).Pairwise (fun i j => (word i).length ≤ (word j).length) := by
  refine List.pairwise_append.mpr ⟨(List.pairwise_cons.mp h.sorted).2, ?_, ?_⟩
  · refine List.pairwise_of_forall_mem_list ?_
    intro i hi j hj
    rw [h.child_length hn hi, h.child_length hn hj]
  · intro i hi j hj
    rw [h.child_length hn hj]
    exact (h.queue_length hi).2

theorem queue_span (h : BfsInv g word items popped (cur :: queue)) (hn : g.nodeList[cur]? = some n) :
    ∀ i ∈ queue ++ n.edges.map AfAcEdge.next, ∀ j ∈ queue ++ n.edges.map AfAcEdge.next,
      (word j).length ≤ (word i).length + 1 := by
  have hbounds : ∀ j ∈ queue ++ n.edges.map AfAcEdge.next,
      (word cur).length ≤ (word j).length ∧ (word j).length ≤ (word cur).length + 1 := by
    intro j hj
    rcases List.mem_append.mp hj with hj | hj
    · exact h.queue_length hj
    · have := h.child_length hn hj
      omega
  intro i hi j hj
  have := hbounds i hi
  have := hbounds j hj
  omega

/-- No child has been in the queue before: its parent is not among the taken nodes. -/
theorem queue_nodup (h : BfsInv g word items popped (cur :: queue)) (hn : g.nodeList[cur]? = some n) :
    (popped ++ [cur] ++ (queue ++ n.edges.map AfAcEdge.next)).Nodup := by
  have hassoc : popped ++ [cur] ++ (queue ++ n.edges.map AfAcEdge.next) =
      (popped ++ cur :: queue) ++ n.edges.map AfAcEdge.next := by simp
  rw [hassoc]
  refine h.nodup.append (h.trie.spells.siblings cur n hn) ?_
  intro j hj hjc
  obtain ⟨_, c, hw⟩ := h.child hn hjc
  obtain ⟨hcur0, hcur⟩ := h.node cur (by simp)
  exact List.disjoint_of_nodup_append h.nodup (h.parentPopped j hj cur c hcur hcur0 hw)
    (List.mem_cons_self ..)

end Children

end BfsInv

/-- A node below `cur` without its link is below a child of `cur`, once these are linked. -/
theorem below_child {g g' : AfUrlAc} {word : Nat → List UInt8} {items : List AfFeatureNode}
    {cur i : Nat} {n : AfAcNode} (ht : TrieOf g word items) (hn : g.nodeList[cur]? = some n)
    (hd : EdgesDone g word items n.edges g') (hi : i < g.nodeList.length)
    (hno : ¬ FailOk g.nodeList.length word g' i) (hb : Below word cur i) :
    ∃ q ∈ n.edges.map AfAcEdge.next, Below word q i := by
  obtain ⟨c, rest, hw⟩ := hb
  have hheld : Held g.nodeList.length word (word cur ++ [c]) := by
    refine ht.spells.prefixClosed.append rest ?_
    rw [List.append_assoc, List.singleton_append, ← hw]
    exact Spells.held_word hi
  obtain ⟨e, he, hew⟩ := ht.spells.child_mem hn hheld
  have hlinked := hd.linked e he
  refine ⟨e.next, List.mem_map_of_mem he, ?_⟩
  cases rest with
  | nil =>
    have hie : i = e.next :=
      ht.spells.inj i e.next hi (ht.spells.edge cur n hn e he).1 (hw.trans hew.symm)
    exact absurd (hie ▸ hlinked) hno
  | cons d rest => exact ⟨d, rest, by rw [hw, hew]; simp⟩

/-- **One round of the queue** keeps the invariant: `cur` moves to the taken nodes and its
children join the queue. -/
theorem BfsInv.step {g g' : AfUrlAc} {word : Nat → List UInt8} {items : List AfFeatureNode}
    {popped queue : List Nat} {cur : Nat} {n : AfAcNode}
    (h : BfsInv g word items popped (cur :: queue)) (hn : g.nodeList[cur]? = some n)
    (hd : EdgesDone g word items n.edges g') :
    BfsInv g' word items (popped ++ [cur]) (queue ++ n.edges.map AfAcEdge.next) := by
  have ht := h.trie
  -- the members of the new lists: the old ones, and the children
  have hold : ∀ j, j ∈ popped ++ [cur] ++ (queue ++ n.edges.map AfAcEdge.next) ↔
      j ∈ popped ++ cur :: queue ∨ j ∈ n.edges.map AfAcEdge.next := by
    intro j
    simp only [List.mem_append, List.mem_cons, List.not_mem_nil, or_false]
    tauto
  refine ⟨hd.trie, h.queue_nodup hn, ?_, ?_, ?_, ?_, h.queue_sorted hn, h.queue_span hn, ?_⟩
  · intro j hj
    rw [hd.len]
    rcases (hold j).mp hj with hj | hj
    · exact h.node j hj
    · obtain ⟨hlt, c, hw⟩ := h.child hn hj
      refine ⟨Nat.pos_of_ne_zero ?_, hlt⟩
      rintro rfl
      rw [ht.spells.root] at hw
      exact absurd hw.symm (by simp)
  · intro j hj
    rw [hd.len]
    rcases List.mem_append.mp hj with hj | hj
    · exact hd.keeps j (h.linked j (List.mem_cons_of_mem _ hj))
    · obtain ⟨e, he, rfl⟩ := List.mem_map.mp hj
      exact hd.linked e he
  · rw [hd.len]
    exact hd.keeps 0 h.root
  · intro j hj i c hi hi0 hw
    rw [hd.len] at hi
    rcases (hold j).mp hj with hj | hj
    · exact List.mem_append_left _ (h.parentPopped j hj i c hi hi0 hw)
    · obtain ⟨_, c', hw'⟩ := h.child hn hj
      have hwi : word i = word cur := List.append_inj_left' (hw.symm.trans hw') rfl
      rw [ht.spells.inj i cur hi (h.node cur (by simp)).2 hwi]
      simp
  · intro i hi hno
    rw [hd.len] at hi hno
    obtain ⟨q, hq, hb⟩ := h.frontier i hi (fun hok => hno (hd.keeps i hok))
    rcases List.mem_cons.mp hq with rfl | hq
    · obtain ⟨q', hq', hb'⟩ := below_child ht hn hd hi hno hb
      exact ⟨q', List.mem_append_right _ hq', hb'⟩
    · exact ⟨q, List.mem_append_left _ hq, hb⟩

/-- The queue right after the first loop: the root's children. -/
theorem BfsInv.start {g g' : AfUrlAc} {word : Nat → List UInt8} {items : List AfFeatureNode}
    {n : AfAcNode} (ht : TrieOf g word items) (hn : g.nodeList[0]? = some n)
    (hd : EdgesDone g word items n.edges g') (hroot : FailOk g.nodeList.length word g 0) :
    BfsInv g' word items [] (n.edges.map AfAcEdge.next) := by
  have hchild : ∀ j ∈ n.edges.map AfAcEdge.next,
      j < g.nodeList.length ∧ (word j).length = 1 ∧ FailOk g.nodeList.length word g' j := by
    intro j hj
    obtain ⟨e, he, rfl⟩ := List.mem_map.mp hj
    obtain ⟨h1, h2⟩ := ht.spells.edge 0 n hn e he
    exact ⟨h1, by rw [h2, ht.spells.root]; rfl, hd.linked e he⟩
  have hroot' := hd.keeps 0 hroot
  have hlen := hd.len
  refine ⟨hd.trie, ?_, ?_, ?_, hlen ▸ hroot', ?_, ?_, ?_, ?_⟩
  · simpa using ht.spells.siblings 0 n hn
  · intro j hj
    rw [List.nil_append] at hj
    obtain ⟨h1, h2, _⟩ := hchild j hj
    refine ⟨Nat.pos_of_ne_zero ?_, hlen ▸ h1⟩
    rintro rfl
    rw [ht.spells.root] at h2
    simp at h2
  · intro j hj
    rw [hlen]
    exact (hchild j hj).2.2
  · intro j hj i c hi hi0 hw
    rw [List.nil_append] at hj
    obtain ⟨_, h2, _⟩ := hchild j hj
    rw [hw, List.length_append, List.length_singleton] at h2
    have h0 := (ht.spells.word_eq_nil_iff (hlen ▸ hi)).mp (List.length_eq_zero_iff.mp (by omega))
    omega
  · refine List.pairwise_of_forall_mem_list ?_
    intro i hi j hj
    rw [(hchild i hi).2.1, (hchild j hj).2.1]
  · intro i hi j hj
    have h1 := (hchild i hi).2.1
    have h2 := (hchild j hj).2.1
    omega
  · intro i hi hno
    rw [hlen] at hi hno
    refine below_child ht hn hd hi hno ?_
    cases hw : word i with
    | nil =>
      have h0 := (ht.spells.word_eq_nil_iff hi).mp hw
      exact absurd (h0 ▸ hroot') hno
    | cons c rest => exact ⟨c, rest, by rw [hw, ht.spells.root, List.nil_append]⟩

/-- An empty queue leaves no node without its link. -/
theorem BfsInv.allLinked {g : AfUrlAc} {word : Nat → List UInt8} {items : List AfFeatureNode}
    {popped : List Nat} (h : BfsInv g word items popped []) :
    ∀ i, i < g.nodeList.length → FailOk g.nodeList.length word g i := by
  intro i hi
  by_contra hno
  obtain ⟨q, hq, _⟩ := h.frontier i hi hno
  simp at hq

/-- The whole queue: it runs dry, and every node has its link. -/
theorem failQueue_spec {word : Nat → List UInt8} {items : List AfFeatureNode} :
    ∀ (fuel : Nat) (g : AfUrlAc) (popped queue : List Nat),
    BfsInv g word items popped queue → g.nodeList.length ≤ popped.length + fuel →
    ∃ g', failQueue 0 fuel g queue = some g' ∧ Linked g' word items := by
  intro fuel
  induction fuel with
  | zero =>
    intro g popped queue h hfuel
    cases queue with
    | nil => exact ⟨g, by simp [failQueue], h.trie, h.allLinked⟩
    | cons cur queue =>
      have := h.popped_length_lt
      omega
  | succ fuel ih =>
    intro g popped queue h hfuel
    cases queue with
    | nil => exact ⟨g, by simp [failQueue], h.trie, h.allLinked⟩
    | cons cur queue =>
      obtain ⟨hcur0, hcur⟩ := h.node cur (by simp)
      obtain ⟨curFail, hcf, hfail, hw⟩ := h.linked cur (List.mem_cons_self ..)
      obtain ⟨n, hn, hnf⟩ := getElem?_of_failAt hfail
      have hne : word cur ≠ [] := fun hw0 => by
        have := (h.trie.spells.word_eq_nil_iff hcur).mp hw0
        omega
      obtain ⟨g', hg', hd⟩ := failEdges_spec hne n.edges g h.trie hcur hcf hw
        (fun j hj hle => h.shallow hj hle) (fun e he => h.trie.spells.edge cur n hn e he)
      obtain ⟨g'', hg'', hl⟩ := ih g' _ _ (h.step hn hd) (by
        rw [hd.len, List.length_append, List.length_singleton]
        omega)
      refine ⟨g'', ?_, hl⟩
      cases n with
      | mk edges outputList fail =>
        simp only at hnf
        subst hnf
        simp only [failQueue, hn]
        simp [hg', hg'']

/-! ## 5. The whole function -/

/-- `af_ac_build_fail_links_locked` on a filled trie: it returns, and fails only with its one
allocation. -/
theorem buildFailLinks_spec {g : AfUrlAc} {word : Nat → List UInt8} {items : List AfFeatureNode}
    (h : TrieOf g word items) (m : Kmem) :
    (m.outcome m.used = false ∧ afAcBuildFailLinksLocked g m = some (-1, g, m.kzalloc.2)) ∨
      (m.outcome m.used = true ∧
        ∃ g', afAcBuildFailLinksLocked g m = some (0, g', m.kzalloc.2) ∧ Linked g' word items) := by
  have hcount : g.nodeCount ≠ 0 := by
    have := h.spells.pos
    rw [h.count]
    omega
  cases hm : m.outcome m.used with
  | false => exact Or.inl ⟨rfl, by simp [afAcBuildFailLinksLocked, h.rootIs, hcount, hm]⟩
  | true =>
    refine Or.inr ⟨rfl, ?_⟩
    -- the root fails to itself, its children to the root, and they start the queue
    have hpos := h.spells.pos
    have ht := h.setFail 0 (some 0)
    have hlen := modifyNode_length g 0 (fun n => { n with fail := some 0 })
    have hroot : FailOk g.nodeList.length word
        (g.modifyNode 0 (fun n => { n with fail := some 0 })) 0 :=
      FailOk.setFail hpos hpos (by rw [h.spells.root]; rfl) (Or.inl rfl)
    have hpos' : 0 < (g.modifyNode 0 (fun n => { n with fail := some 0 })).nodeList.length := by
      rw [hlen]
      exact hpos
    obtain ⟨n, hn⟩ : ∃ n, (g.modifyNode 0 (fun n => { n with fail := some 0 })).nodeList[0]? =
        some n := ⟨_, List.getElem?_eq_getElem hpos'⟩
    have hedges : ∀ e ∈ n.edges,
        e.next < (g.modifyNode 0 (fun n => { n with fail := some 0 })).nodeList.length ∧
          word e.next = [e.ch] := by
      intro e he
      obtain ⟨h1, h2⟩ := ht.spells.edge 0 n hn e he
      exact ⟨h1, by rw [h2, h.spells.root, List.nil_append]⟩
    have hd := failRootEdges_spec n.edges _ ht hedges
    have hinv := BfsInv.start ht hn hd (hlen ▸ hroot)
    obtain ⟨g', hg', hl⟩ := failQueue_spec g.nodeList.length _ [] _ hinv (by
      rw [hd.len, hlen, List.length_nil, Nat.zero_add])
    refine ⟨g', ?_, hl⟩
    have hqlen : (g.modifyNode 0 (fun n => { n with fail := some 0 })).nodeList.length =
        g.nodeList.length := hlen
    have hqueue : (failRootEdges 0 (g.modifyNode 0 (fun n => { n with fail := some 0 }))
        n.edges).2 = n.edges.map AfAcEdge.next := rfl
    have hlen' := hd.len
    rw [hlen] at hlen'
    simp only [afAcBuildFailLinksLocked, h.rootIs, if_neg hcount, Kmem.kzalloc_fst, hm,
      Bool.not_true, Bool.false_eq_true, if_false, hn, Option.map_some, Option.getD_some, hqueue,
      hlen', hg', Option.bind_eq_bind, Option.bind_some]
    rfl

end Oaf
