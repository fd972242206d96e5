/-
# The automaton's nodes spell a trie

`Spells nodes word` labels the nodes with the words they stand for: the root is the empty word,
an edge appends its byte, no two nodes spell one word, and every node but the root hangs on some
edge.  It is what insertion keeps (`getOrCreateNext_cases`, `insertWalk_spec`), and all the
later proofs ask of the edges: under it `af_ac_find_next` goes from the node of `w` to the node
of `w c` exactly when there is one (`Spells.findNext_iff`).

`TrieOf g word items` adds the output lists: `items` are the features whose insertion
succeeded, in insertion order, and a node's outputs are the items whose `host_url` it spells.
A failed allocation only ever loses the item being inserted (`insertAll_spec`).
`insertRequests` counts, on the texts alone, the allocations the insertions ask for
(`insertAll_granted`).
-/
import Oaf.UrlAc.Model
import Oaf.Lib.LongestSuffix
import Mathlib.Logic.Function.Basic

namespace Oaf

open CLib LongestSuffix

/-! ## 1. The labelling -/

/-- `word i` is what the path from the root to node `i` spells. -/
structure Spells (nodes : List AfAcNode) (word : Nat → List UInt8) : Prop where
  pos : 0 < nodes.length
  root : word 0 = []
  edge : ∀ (i : Nat) (n : AfAcNode), nodes[i]? = some n → ∀ e ∈ n.edges,
    e.next < nodes.length ∧ word e.next = word i ++ [e.ch]
  siblings : ∀ (i : Nat) (n : AfAcNode), nodes[i]? = some n → (n.edges.map AfAcEdge.next).Nodup
  depth : ∀ i, i < nodes.length → (word i).length ≤ i
  inj : ∀ i j, i < nodes.length → j < nodes.length → word i = word j → i = j
  parent : ∀ j, 0 < j → j < nodes.length →
    ∃ (i : Nat) (n : AfAcNode), nodes[i]? = some n ∧ ∃ e ∈ n.edges, e.next = j

/-- The words the first `n` nodes spell: the words of the trie. -/
def Held (n : Nat) (word : Nat → List UInt8) (w : List UInt8) : Prop :=
  ∃ i, i < n ∧ word i = w

instance (n : Nat) (word : Nat → List UInt8) : DecidablePred (Held n word) :=
  fun w => inferInstanceAs (Decidable (∃ i, i < n ∧ word i = w))

namespace Spells

variable {g : AfUrlAc} {nodes : List AfAcNode} {word : Nat → List UInt8}

theorem held_word {n i : Nat} (hi : i < n) : Held n word (word i) := ⟨i, hi, rfl⟩

/-- A node other than the root spells its parent's word and one more byte. -/
theorem word_of_pos (h : Spells nodes word) {j : Nat} (h0 : 0 < j) (hj : j < nodes.length) :
    ∃ i c, i < nodes.length ∧ word j = word i ++ [c] := by
  obtain ⟨i, n, hn, e, he, rfl⟩ := h.parent j h0 hj
  exact ⟨i, e.ch, (List.getElem?_eq_some_iff.mp hn).1, (h.edge i n hn e he).2⟩

theorem word_eq_nil_iff (h : Spells nodes word) {i : Nat} (hi : i < nodes.length) :
    word i = [] ↔ i = 0 := by
  constructor
  · intro hw
    exact h.inj i 0 hi h.pos (hw.trans h.root.symm)
  · rintro rfl
    exact h.root

theorem prefixClosed (h : Spells nodes word) : PrefixClosed (Held nodes.length word) where
  nil := ⟨0, h.pos, h.root⟩
  init := by
    rintro w c ⟨j, hj, hw⟩
    rcases Nat.eq_zero_or_pos j with rfl | h0
    · rw [h.root] at hw
      exact absurd hw (by simp)
    · obtain ⟨i, d, hi, hji⟩ := h.word_of_pos h0 hj
      have h1 : word i = w := List.append_inj_left' (hji.symm.trans hw) rfl
      exact ⟨i, hi, h1⟩

/-- **One spec for `af_ac_find_next`**: it follows the edge from `w` to `w c`. -/
theorem findNext_iff (h : Spells g.nodeList word) {i j : Nat} {c : UInt8} :
    afAcFindNext g i c = some j ↔
      i < g.nodeList.length ∧ j < g.nodeList.length ∧ word j = word i ++ [c] := by
  unfold afAcFindNext
  constructor
  · intro hf
    cases hn : g.nodeList[i]? with
    | none => simp [hn] at hf
    | some n =>
      simp only [hn, Option.map_eq_some_iff] at hf
      obtain ⟨e, he, rfl⟩ := hf
      have hmem : e ∈ n.edges := List.mem_of_find?_eq_some he
      have hch : e.ch = c := by simpa using List.find?_some he
      obtain ⟨h1, h2⟩ := h.edge i n hn e hmem
      exact ⟨(List.getElem?_eq_some_iff.mp hn).1, h1, hch ▸ h2⟩
  · rintro ⟨hi, hj, hw⟩
    have h0 : 0 < j := by
      rcases Nat.eq_zero_or_pos j with rfl | h0
      · rw [h.root] at hw
        exact absurd hw.symm (by simp)
      · exact h0
    obtain ⟨i', n, hn, e, he, rfl⟩ := h.parent j h0 hj
    obtain ⟨_, hew⟩ := h.edge i' n hn e he
    have hword : word i' = word i := List.append_inj_left' (hew.symm.trans hw) rfl
    have hch : e.ch = c := by simpa using List.append_inj_right' (hew.symm.trans hw) rfl
    have hii : i' = i := h.inj i' i (List.getElem?_eq_some_iff.mp hn).1 hi hword
    subst hii hch
    simp only [hn, Option.map_eq_some_iff]
    have hsome : (n.edges.find? (fun edge => edge.ch == e.ch)).isSome = true :=
      List.find?_isSome.mpr ⟨e, he, by simp⟩
    obtain ⟨e', he'⟩ := Option.isSome_iff_exists.mp hsome
    refine ⟨e', he', ?_⟩
    have hch' : e'.ch = e.ch := by simpa using List.find?_some he'
    obtain ⟨h1, h2⟩ := h.edge i' n hn e' (List.mem_of_find?_eq_some he')
    exact h.inj _ _ h1 hj (by rw [h2, hch', hew])

theorem findNext_eq_none_iff (h : Spells g.nodeList word) {i : Nat} {c : UInt8}
    (hi : i < g.nodeList.length) :
    afAcFindNext g i c = none ↔ ¬ Held g.nodeList.length word (word i ++ [c]) := by
  constructor
  · rintro hf ⟨j, hj, hw⟩
    rw [h.findNext_iff.mpr ⟨hi, hj, hw⟩] at hf
    exact absurd hf (by simp)
  · intro hno
    cases hf : afAcFindNext g i c with
    | none => rfl
    | some j =>
      obtain ⟨_, hj, hw⟩ := h.findNext_iff.mp hf
      exact absurd ⟨j, hj, hw⟩ hno

/-- The children of a node are the words one byte longer. -/
theorem child_mem (h : Spells nodes word) {i : Nat} {n : AfAcNode} {c : UInt8}
    (hn : nodes[i]? = some n) (hc : Held nodes.length word (word i ++ [c])) :
    ∃ e ∈ n.edges, word e.next = word i ++ [c] := by
  obtain ⟨j, hj, hw⟩ := hc
  have h0 : j ≠ 0 := by
    rintro rfl
    rw [h.root] at hw
    exact absurd hw.symm (by simp)
  obtain ⟨i', n', hn', e, he, rfl⟩ := h.parent j (Nat.pos_of_ne_zero h0) hj
  have hword : word i' = word i :=
    List.append_inj_left' ((h.edge i' n' hn' e he).2.symm.trans hw) rfl
  have hii : i' = i := h.inj i' i (List.getElem?_eq_some_iff.mp hn').1
    (List.getElem?_eq_some_iff.mp hn).1 hword
  subst hii
  rw [hn] at hn'
  cases hn'
  exact ⟨e, he, hw⟩

/-- Only the edges matter. -/
theorem congr {nodes' : List AfAcNode} (h : Spells nodes word)
    (hlen : nodes'.length = nodes.length)
    (hedges : ∀ i : Nat, nodes'[i]?.map AfAcNode.edges = nodes[i]?.map AfAcNode.edges) :
    Spells nodes' word where
  pos := hlen ▸ h.pos
  root := h.root
  edge := by
    intro i n hn e he
    have h1 := hedges i
    rw [hn, Option.map_some] at h1
    obtain ⟨n', hn', hne⟩ := Option.map_eq_some_iff.mp h1.symm
    rw [hlen]
    exact h.edge i n' hn' e (hne ▸ he)
  siblings := by
    intro i n hn
    have h1 := hedges i
    rw [hn, Option.map_some] at h1
    obtain ⟨n', hn', hne⟩ := Option.map_eq_some_iff.mp h1.symm
    exact hne ▸ h.siblings i n' hn'
  depth := fun i hi => h.depth i (hlen ▸ hi)
  inj := fun i j hi hj => h.inj i j (hlen ▸ hi) (hlen ▸ hj)
  parent := by
    intro j h0 hj
    obtain ⟨i, n, hn, e, he, hej⟩ := h.parent j h0 (hlen ▸ hj)
    have h1 := hedges i
    rw [hn, Option.map_some] at h1
    obtain ⟨n', hn', hne⟩ := Option.map_eq_some_iff.mp h1
    exact ⟨i, n', hn', e, hne ▸ he, hej⟩

end Spells

/-! ## 2. Changing one node -/

section Modify

variable (g : AfUrlAc) (i : Nat) (f : AfAcNode → AfAcNode)

@[simp] theorem modifyNode_length : (g.modifyNode i f).nodeList.length = g.nodeList.length := by
  simp [AfUrlAc.modifyNode]

@[simp] theorem modifyNode_root : (g.modifyNode i f).root = g.root := rfl

@[simp] theorem modifyNode_nodeCount : (g.modifyNode i f).nodeCount = g.nodeCount := rfl

@[simp] theorem modifyNode_ready : (g.modifyNode i f).ready = g.ready := rfl

theorem modifyNode_getElem? (j : Nat) :
    (g.modifyNode i f).nodeList[j]? = if i = j then g.nodeList[j]?.map f else g.nodeList[j]? := by
  simp only [AfUrlAc.modifyNode, List.getElem?_modify]
  split <;> simp_all

/-- A change that keeps the edges keeps the labelling. -/
theorem modifyNode_spells {g : AfUrlAc} {i : Nat} {f : AfAcNode → AfAcNode}
    {word : Nat → List UInt8} (h : Spells g.nodeList word) (hf : ∀ n, (f n).edges = n.edges) :
    Spells (g.modifyNode i f).nodeList word := by
  refine h.congr (modifyNode_length g i f) ?_
  intro j
  rw [modifyNode_getElem?]
  split
  · cases g.nodeList[j]? <;> simp [hf]
  · rfl

end Modify

/-- The output list of a node (empty for no node). -/
def outputsAt (g : AfUrlAc) (i : Nat) : List AfFeatureNode :=
  (g.nodeList[i]?.map (·.outputList)).getD []

theorem outputsAt_modifyNode_of_same (g : AfUrlAc) (i : Nat) (f : AfAcNode → AfAcNode)
    (hf : ∀ n, (f n).outputList = n.outputList) (j : Nat) :
    outputsAt (g.modifyNode i f) j = outputsAt g j := by
  unfold outputsAt
  rw [modifyNode_getElem?]
  split
  · cases g.nodeList[j]? <;> simp [hf]
  · rfl

/-! ## 3. One node down -/

/-- A node of the list with a new leaf, the last one, below node `i`. -/
theorem getElem?_addLeaf {nodes : List AfAcNode} {i : Nat} (hi : i < nodes.length) (c : UInt8)
    {j : Nat} {n : AfAcNode}
    (hn : ((nodes ++ [({} : AfAcNode)]).modify i
      (fun n => { n with edges := ⟨c, nodes.length⟩ :: n.edges }))[j]? = some n) :
    (∃ n', nodes[j]? = some n' ∧ n.outputList = n'.outputList ∧
        n.edges = (if i = j then [⟨c, nodes.length⟩] else []) ++ n'.edges) ∨
      (j = nodes.length ∧ n.outputList = [] ∧ n.edges = []) := by
  rw [List.getElem?_modify] at hn
  rcases Nat.lt_trichotomy j nodes.length with hj | rfl | hj
  · left
    rw [List.getElem?_append_left hj] at hn
    obtain ⟨n', hn', rfl⟩ := Option.map_eq_some_iff.mp hn
    refine ⟨n', hn', ?_, ?_⟩ <;> split <;> simp
  · right
    have hne : ¬ i = nodes.length := Nat.ne_of_lt hi
    simp only [List.getElem?_concat_length, hne, if_false] at hn
    have hn' : ({} : AfAcNode) = n := by simpa using hn
    subst hn'
    exact ⟨rfl, rfl, rfl⟩
  · rw [List.getElem?_eq_none (by simp; omega)] at hn
    simp at hn

/-- A new leaf below node `i` keeps the labelling, with the new word added. -/
theorem Spells.addLeaf {nodes : List AfAcNode} {word : Nat → List UInt8} (h : Spells nodes word)
    {i : Nat} {c : UInt8} (hi : i < nodes.length) (hnew : ¬ Held nodes.length word (word i ++ [c])) :
    Spells ((nodes ++ [({} : AfAcNode)]).modify i
        (fun n => { n with edges := ⟨c, nodes.length⟩ :: n.edges }))
      (Function.update word nodes.length (word i ++ [c])) := by
  have hold : ∀ j, j < nodes.length →
      Function.update word nodes.length (word i ++ [c]) j = word j :=
    fun j hj => Function.update_of_ne (Nat.ne_of_lt hj) _ _
  refine ⟨by simp, ?_, ?_, ?_, ?_, ?_, ?_⟩
  · rw [hold 0 h.pos, h.root]
  · intro j n hn e he
    rcases getElem?_addLeaf hi c hn with ⟨n', hn', _, hedges⟩ | ⟨_, _, hnil⟩
    · have hj : j < nodes.length := (List.getElem?_eq_some_iff.mp hn').1
      rw [hedges] at he
      rcases List.mem_append.mp he with hleaf | hprev
      · by_cases hij : i = j
        · subst hij
          rw [if_pos rfl] at hleaf
          rw [List.mem_singleton.mp hleaf]
          exact ⟨by simp, by rw [hold i hi]; simp⟩
        · simp [hij] at hleaf
      · obtain ⟨h1, h2⟩ := h.edge j n' hn' e hprev
        exact ⟨by simp; omega, by rw [hold _ h1, hold _ hj, h2]⟩
    · rw [hnil] at he
      simp at he
  · intro j n hn
    rcases getElem?_addLeaf hi c hn with ⟨n', hn', _, hedges⟩ | ⟨_, _, hnil⟩
    · have hnodup := h.siblings j n' hn'
      rw [hedges]
      split
      · simp only [List.singleton_append, List.map_cons, List.nodup_cons]
        refine ⟨?_, hnodup⟩
        intro hmem
        obtain ⟨e, he, hej⟩ := List.mem_map.mp hmem
        have h1 := (h.edge j n' hn' e he).1
        omega
      · simpa using hnodup
    · simp [hnil]
  · intro j hj
    simp only [List.length_modify, List.length_append, List.length_singleton] at hj
    rcases Nat.lt_or_eq_of_le (Nat.lt_succ_iff.mp hj) with hj' | rfl
    · rw [hold j hj']
      exact h.depth j hj'
    · have h1 := h.depth i hi
      rw [Function.update_self, List.length_append, List.length_singleton]
      omega
  · intro j k hj hk hjk
    simp only [List.length_modify, List.length_append, List.length_singleton] at hj hk
    rcases Nat.lt_or_eq_of_le (Nat.lt_succ_iff.mp hj) with hj' | rfl <;>
      rcases Nat.lt_or_eq_of_le (Nat.lt_succ_iff.mp hk) with hk' | rfl
    · rw [hold j hj', hold k hk'] at hjk
      exact h.inj j k hj' hk' hjk
    · rw [hold j hj', Function.update_self] at hjk
      exact absurd ⟨j, hj', hjk⟩ hnew
    · rw [hold k hk', Function.update_self] at hjk
      exact absurd ⟨k, hk', hjk.symm⟩ hnew
    · rfl
  · intro j h0 hj
    simp only [List.length_modify, List.length_append, List.length_singleton] at hj
    rcases Nat.lt_or_eq_of_le (Nat.lt_succ_iff.mp hj) with hj' | rfl
    · obtain ⟨k, n, hn, e, he, hej⟩ := h.parent j h0 hj'
      have hk : k < nodes.length := (List.getElem?_eq_some_iff.mp hn).1
      refine ⟨k, _, by rw [List.getElem?_modify, List.getElem?_append_left hk, hn]; rfl, e, ?_, hej⟩
      dsimp only
      split
      · exact List.mem_cons_of_mem _ he
      · exact he
    · refine ⟨i, _, by
        rw [List.getElem?_modify, List.getElem?_append_left hi, List.getElem?_eq_getElem hi]; rfl,
        ⟨c, nodes.length⟩, ?_, rfl⟩
      simp

/-! ## 4. What an insertion keeps -/

/-- The automaton while `af_rebuild_url_ac_locked` fills it: a trie rooted at node 0 whose node
for `w` lists the inserted items with `host_url` equal to `w`, in insertion order. -/
structure TrieOf (g : AfUrlAc) (word : Nat → List UInt8) (items : List AfFeatureNode) :
    Prop where
  spells : Spells g.nodeList word
  rootIs : g.root = some 0
  count : g.nodeCount = g.nodeList.length
  outputs : ∀ i, i < g.nodeList.length →
    outputsAt g i = items.filter (fun f => f.hostUrl.bytes = word i)
  held : ∀ f ∈ items, Held g.nodeList.length word f.hostUrl.bytes

theorem outputsAt_of_le {g : AfUrlAc} {i : Nat} (h : g.nodeList.length ≤ i) :
    outputsAt g i = [] := by
  rw [outputsAt, List.getElem?_eq_none h]
  rfl

/-- Nothing but the items is listed. -/
theorem TrieOf.mem_items {g : AfUrlAc} {word : Nat → List UInt8} {items : List AfFeatureNode}
    (h : TrieOf g word items) {i : Nat} {f : AfFeatureNode} (hf : f ∈ outputsAt g i) :
    f ∈ items := by
  rcases Nat.lt_or_ge i g.nodeList.length with hlt | hge
  · rw [h.outputs i hlt] at hf
    exact (List.mem_filter.mp hf).1
  · rw [outputsAt_of_le hge] at hf
    simp at hf

/-- The words of `word` among `nodes` are still there, at the same nodes. -/
def Extends (nodes : List AfAcNode) (word : Nat → List UInt8) (nodes' : List AfAcNode)
    (word' : Nat → List UInt8) : Prop :=
  nodes.length ≤ nodes'.length ∧ ∀ i, i < nodes.length → word' i = word i

theorem Extends.refl (nodes : List AfAcNode) (word : Nat → List UInt8) :
    Extends nodes word nodes word := ⟨Nat.le_refl _, fun _ _ => rfl⟩

theorem Extends.trans {a b c : List AfAcNode} {u v w : Nat → List UInt8} (h1 : Extends a u b v)
    (h2 : Extends b v c w) : Extends a u c w :=
  ⟨h1.1.trans h2.1, fun i hi => (h2.2 i (Nat.lt_of_lt_of_le hi h1.1)).trans (h1.2 i hi)⟩

theorem Extends.held {a b : List AfAcNode} {u v : Nat → List UInt8} (h : Extends a u b v)
    {w : List UInt8} : Held a.length u w → Held b.length v w
  | ⟨i, hi, hw⟩ => ⟨i, Nat.lt_of_lt_of_le hi h.1, (h.2 i hi).trans hw⟩

/-- The automaton with a new leaf. -/
theorem TrieOf.addLeaf {g : AfUrlAc} {word : Nat → List UInt8} {items : List AfFeatureNode}
    (h : TrieOf g word items) {i : Nat} {c : UInt8} (hi : i < g.nodeList.length)
    (hnew : ¬ Held g.nodeList.length word (word i ++ [c])) {g' : AfUrlAc}
    (hlist : g'.nodeList = (g.nodeList ++ [({} : AfAcNode)]).modify i
      (fun n => { n with edges := ⟨c, g.nodeList.length⟩ :: n.edges }))
    (hroot : g'.root = g.root) (hcount : g'.nodeCount = g.nodeCount + 1) :
    TrieOf g' (Function.update word g.nodeList.length (word i ++ [c])) items ∧
      Extends g.nodeList word g'.nodeList
        (Function.update word g.nodeList.length (word i ++ [c])) := by
  have hold : ∀ j, j < g.nodeList.length →
      Function.update word g.nodeList.length (word i ++ [c]) j = word j :=
    fun j hj => Function.update_of_ne (Nat.ne_of_lt hj) _ _
  have hlen : g'.nodeList.length = g.nodeList.length + 1 := by simp [hlist]
  have hext : Extends g.nodeList word g'.nodeList
      (Function.update word g.nodeList.length (word i ++ [c])) := ⟨by omega, hold⟩
  refine ⟨⟨hlist ▸ h.spells.addLeaf hi hnew, hroot.trans h.rootIs, ?_, ?_, ?_⟩, hext⟩
  · rw [hcount, h.count, hlen]
  · intro j hj
    obtain ⟨n, hn⟩ : ∃ n, g'.nodeList[j]? = some n := ⟨_, List.getElem?_eq_getElem hj⟩
    have hout : outputsAt g' j = n.outputList := by simp [outputsAt, hn]
    rw [hlist] at hn
    rcases getElem?_addLeaf hi c hn with ⟨n', hn', ho, _⟩ | ⟨rfl, ho, _⟩
    · have hj' : j < g.nodeList.length := (List.getElem?_eq_some_iff.mp hn').1
      rw [hout, ho, hold j hj', ← h.outputs j hj']
      simp [outputsAt, hn']
    · rw [hout, ho, Function.update_self]
      symm
      refine List.filter_eq_nil_iff.mpr ?_
      intro f hf hfw
      have hfw' : f.hostUrl.bytes = word i ++ [c] := by simpa using hfw
      exact hnew (hfw' ▸ h.held f hf)
  · exact fun f hf => hext.held (h.held f hf)

/-- The allocations the walk of `l` below the word `u` asks for, when the words of `T` are there: a
node and an edge for each word that is not. -/
def walkCost (T : List UInt8 → Prop) [DecidablePred T] : List UInt8 → List UInt8 → Nat
  | _, [] => 0
  | u, c :: l => (if T (u ++ [c]) then 0 else 2) + walkCost T (u ++ [c]) l

/-- Only longer words matter. -/
theorem walkCost_congr {T S : List UInt8 → Prop} [DecidablePred T] [DecidablePred S] :
    ∀ (l u : List UInt8), (∀ w : List UInt8, u.length < w.length → (T w ↔ S w)) →
    walkCost T u l = walkCost S u l
  | [], _, _ => rfl
  | c :: l, u, h => by
    have hc : T (u ++ [c]) ↔ S (u ++ [c]) := h _ (by simp)
    have hl := walkCost_congr l (u ++ [c]) (fun w hw => h w (by simp at hw; omega))
    rw [walkCost, walkCost, hl]
    simp only [hc]

/-- What one insertion step may do to the trie: extend it, with at most `cost` requests to the
allocator, all of them granted if the step succeeds. -/
structure Inserts (g : AfUrlAc) (word : Nat → List UInt8) (m : Kmem) (cost : Nat) (g' : AfUrlAc)
    (word' : Nat → List UInt8) (m' : Kmem) (items : List AfFeatureNode) : Prop where
  trie : TrieOf g' word' items
  later : m.Later m'
  extension : Extends g.nodeList word g'.nodeList word'
  cost : m'.used ≤ m.used + cost

/-- **One node down.**  Either the child is there afterwards, with the trie extended by at most
that one word, or an allocation failed and the trie is as before. -/
theorem getOrCreateNext_cases {g : AfUrlAc} {word : Nat → List UInt8}
    {items : List AfFeatureNode} (h : TrieOf g word items) (m : Kmem) {i : Nat}
    (hi : i < g.nodeList.length) (c : UInt8) :
    ∃ word' g' m' r, afAcGetOrCreateNext g m i c = (r, g', m') ∧
      Inserts g word m (if Held g.nodeList.length word (word i ++ [c]) then 0 else 2) g' word' m'
        items ∧
      (m.OkUntil m' → r ≠ none) ∧
      ∀ j, r = some j → j < g'.nodeList.length ∧ word' j = word i ++ [c] ∧
        ∀ w, Held g'.nodeList.length word' w ↔
          Held g.nodeList.length word w ∨ w = word i ++ [c] := by
  unfold afAcGetOrCreateNext
  cases hf : afAcFindNext g i c with
  | some child =>
    obtain ⟨_, hj, hw⟩ := h.spells.findNext_iff.mp hf
    refine ⟨word, g, m, some child, rfl, ⟨h, .refl m, .refl _ _, by omega⟩, fun _ => by simp, ?_⟩
    rintro j ⟨⟩
    refine ⟨hj, hw, fun w => ⟨Or.inl, ?_⟩⟩
    rintro (hw' | rfl)
    · exact hw'
    · exact ⟨_, hj, hw⟩
  | none =>
    have hnew := (h.spells.findNext_eq_none_iff hi).mp hf
    have hl1 : m.Later m.kzalloc.2 := m.kzalloc_later
    have hl2 : m.kzalloc.2.Later m.kzalloc.2.kzalloc.2 := m.kzalloc.2.kzalloc_later
    have hu1 : m.kzalloc.2.used ≤ m.used + 2 := Nat.le_succ _
    have hu2 : m.kzalloc.2.kzalloc.2.used ≤ m.used + 2 := Nat.le_refl _
    rw [if_neg hnew]
    cases h1 : m.outcome m.used with
    | false =>
      refine ⟨word, g, m.kzalloc.2, none, by simp [afAcAllocNode, h1], ⟨h, hl1, .refl _ _, hu1⟩, ?_,
        by simp⟩
      intro hok
      rw [hok.fst (.refl _)] at h1
      simp at h1
    | true =>
      cases h2 : m.kzalloc.2.outcome m.kzalloc.2.used with
      | false =>
        refine ⟨word, g, m.kzalloc.2.kzalloc.2, none, ?_, ⟨h, hl1.trans hl2, .refl _ _, hu2⟩, ?_,
          by simp⟩
        · simp [afAcAllocNode, h1, h2, List.eraseIdx_append_of_length_le]
        · intro hok
          rw [(hok.right hl1).fst (.refl _)] at h2
          simp at h2
      | true =>
        let g' : AfUrlAc := { g with
          nodeList := (g.nodeList ++ [({} : AfAcNode)]).modify i
            (fun n => { n with edges := ⟨c, g.nodeList.length⟩ :: n.edges })
          nodeCount := g.nodeCount + 1
          edgeCount := g.edgeCount + 1 }
        obtain ⟨ht, hext⟩ : _ ∧ Extends g.nodeList word g'.nodeList _ := h.addLeaf hi hnew rfl rfl rfl
        have hlen : g'.nodeList.length = g.nodeList.length + 1 := by simp [g']
        refine ⟨_, g', m.kzalloc.2.kzalloc.2, some g.nodeList.length, ?_,
          ⟨ht, hl1.trans hl2, hext, hu2⟩, fun _ => by simp, ?_⟩
        · simp [afAcAllocNode, h1, h2, AfUrlAc.modifyNode, g']
        · rintro j ⟨⟩
          refine ⟨by omega, Function.update_self _ _ _, fun w => ⟨?_, ?_⟩⟩
          · rintro ⟨k, hk, rfl⟩
            rcases Nat.lt_or_eq_of_le (Nat.lt_succ_iff.mp (hlen ▸ hk)) with hk' | rfl
            · exact Or.inl ⟨k, hk', (hext.2 k hk').symm⟩
            · exact Or.inr (Function.update_self _ _ _)
          · rintro (hw | rfl)
            · exact hext.held hw
            · exact ⟨_, by omega, Function.update_self _ _ _⟩

/-- A word between `u` and `u c ..` is `u` or goes on with `c`. -/
theorem eq_or_prefix_of_between {u w l : List UInt8} {c : UInt8} (h1 : u <+: w)
    (h2 : w <+: u ++ c :: l) : w = u ∨ u ++ [c] <+: w := by
  obtain ⟨t, rfl⟩ := h1
  cases t with
  | nil => exact Or.inl (List.append_nil u)
  | cons d t =>
    have h3 : d :: t <+: c :: l := (List.prefix_append_right_inj u).mp h2
    have hdc : d = c := (List.cons_prefix_cons.mp h3).1
    subst hdc
    exact Or.inr ⟨t, by simp⟩

/-- The walk of one `host_url`. -/
theorem insertWalk_spec : ∀ (bytes : List UInt8) {g : AfUrlAc} {word : Nat → List UInt8}
    {items : List AfFeatureNode}, TrieOf g word items → ∀ (m : Kmem) {cur : Nat},
    cur < g.nodeList.length →
    ∃ word' g' m' r, insertWalk g m cur bytes = (r, g', m') ∧
      Inserts g word m (walkCost (Held g.nodeList.length word) (word cur) bytes) g' word' m' items ∧
      (m.OkUntil m' → r ≠ none) ∧
      ∀ j, r = some j → j < g'.nodeList.length ∧ word' j = word cur ++ bytes ∧
        ∀ w, Held g'.nodeList.length word' w ↔
          Held g.nodeList.length word w ∨ (word cur <+: w ∧ w <+: word cur ++ bytes)
  | [], g, word, _, h, m, cur, hcur => by
    refine ⟨word, g, m, some cur, rfl, ⟨h, .refl m, .refl _ _, by omega⟩, fun _ => by simp, ?_⟩
    rintro j ⟨⟩
    refine ⟨hcur, (List.append_nil _).symm, fun w => ⟨Or.inl, ?_⟩⟩
    rintro (hw | ⟨h1, h2⟩)
    · exact hw
    · rw [List.append_nil] at h2
      exact ⟨cur, hcur, h1.eq_of_length (Nat.le_antisymm h1.length_le h2.length_le)⟩
  | c :: rest, g, word, items, h, m, cur, hcur => by
    obtain ⟨word1, g1, m1, r1, he1, hi1, hok1, hr1⟩ := getOrCreateNext_cases h m hcur c
    cases r1 with
    | none =>
      refine ⟨word1, g1, m1, none, by simp [insertWalk, he1],
        ⟨hi1.trie, hi1.later, hi1.extension, ?_⟩, hok1, by simp⟩
      exact Nat.le_trans hi1.cost (Nat.add_le_add_left (Nat.le_add_right _ _) _)
    | some child =>
      obtain ⟨hchild, hw1, hheld1⟩ := hr1 child rfl
      obtain ⟨word2, g2, m2, r2, he2, hi2, hok2, hr2⟩ := insertWalk_spec rest hi1.trie m1 hchild
      have hcost : walkCost (Held g1.nodeList.length word1) (word1 child) rest =
          walkCost (Held g.nodeList.length word) (word cur ++ [c]) rest := by
        rw [hw1]
        refine walkCost_congr rest _ (fun w hw => ?_)
        rw [hheld1]
        refine or_iff_left ?_
        rintro rfl
        exact Nat.lt_irrefl _ hw
      refine ⟨word2, g2, m2, r2, by simp [insertWalk, he1, he2],
        ⟨hi2.trie, hi1.later.trans hi2.later, hi1.extension.trans hi2.extension, ?_⟩,
        fun hok => hok2 (hok.right hi1.later), ?_⟩
      · have h1 := hi1.cost
        have h2 := hi2.cost
        rw [hcost] at h2
        rw [walkCost]
        omega
      · intro j hj
        obtain ⟨hj1, hj2, hheld2⟩ := hr2 j hj
        have happ : word cur ++ c :: rest = word cur ++ [c] ++ rest := by simp
        rw [hw1] at hheld2 hj2
        refine ⟨hj1, by rw [hj2, happ], fun w => ?_⟩
        rw [hheld2, hheld1]
        constructor
        · rintro ((hw | rfl) | ⟨h1, h2⟩)
          · exact Or.inl hw
          · exact Or.inr ⟨List.prefix_append _ _, by rw [happ]; exact List.prefix_append _ _⟩
          · exact Or.inr ⟨(List.prefix_append _ _).trans h1, by rw [happ]; exact h2⟩
        · rintro (hw | ⟨h1, h2⟩)
          · exact Or.inl (Or.inl hw)
          · rcases eq_or_prefix_of_between h1 h2 with rfl | h3
            · exact Or.inl (Or.inl ⟨cur, hcur, rfl⟩)
            · exact Or.inr ⟨h3, by rw [← happ]; exact h2⟩

/-- Listing one more item at its node. -/
theorem TrieOf.addOutput {g : AfUrlAc} {word : Nat → List UInt8} {items : List AfFeatureNode}
    (h : TrieOf g word items) {cur : Nat} (hcur : cur < g.nodeList.length) {f : AfFeatureNode}
    (hf : word cur = f.hostUrl.bytes) (n : Nat) :
    TrieOf { g.modifyNode cur (fun n => { n with outputList := n.outputList ++ [f] }) with
      outputCount := n } word (items ++ [f]) := by
  have hlen := modifyNode_length g cur (fun n => { n with outputList := n.outputList ++ [f] })
  refine ⟨modifyNode_spells h.spells (fun _ => rfl), h.rootIs, h.count.trans hlen.symm, ?_, ?_⟩
  · intro i hi
    have hi' : i < g.nodeList.length := hlen ▸ hi
    have hget := modifyNode_getElem? g cur (fun n => { n with outputList := n.outputList ++ [f] }) i
    have hout := h.outputs i hi'
    simp only [outputsAt, List.getElem?_eq_getElem hi', Option.map_some, Option.getD_some] at hout
    simp only [outputsAt, hget, List.getElem?_eq_getElem hi', List.filter_append]
    by_cases hic : cur = i
    · subst hic
      simp [hout, hf]
    · have hne : f.hostUrl.bytes ≠ word i := fun hw =>
        hic (h.spells.inj cur i hcur hi' (hf.trans hw))
      simp [hic, hout, hne]
  · intro f' hf'
    unfold Held
    rw [hlen]
    rcases List.mem_append.mp hf' with hf' | hf'
    · exact h.held f' hf'
    · rw [List.mem_singleton.mp hf', ← hf]
      exact ⟨cur, hcur, rfl⟩

/-- One feature: it is listed, or an allocation failed and it is not. -/
theorem insertPattern_cases {g : AfUrlAc} {word : Nat → List UInt8} {items : List AfFeatureNode}
    (h : TrieOf g word items) (m : Kmem) {f : AfFeatureNode} (hf : f.literalHost = true) :
    ∃ word' g' m' ret added, afAcInsertPattern g m f = (ret, g', m') ∧
      Inserts g word m (walkCost (Held g.nodeList.length word) [] f.hostUrl.bytes + 1) g' word' m'
        (items ++ added) ∧ List.Sublist added [f] ∧
      (m.OkUntil m' → added = [f] ∧ ∀ w, Held g'.nodeList.length word' w ↔
        Held g.nodeList.length word w ∨ w <+: f.hostUrl.bytes) := by
  have hne : f.hostUrl.strlen ≠ 0 := by
    simpa [CStr.strlen] using AfFeatureNode.literalHost_ne_nil hf
  obtain ⟨word1, g1, m1, r, he, hi, hok, hr⟩ :=
    insertWalk_spec f.hostUrl.bytes h m h.spells.pos
  have ht := hi.trie
  have hl := hi.later
  have hcost := hi.cost
  rw [h.spells.root] at hcost
  cases r with
  | none =>
    exact ⟨word1, g1, m1, -1, [], by simp [afAcInsertPattern, h.rootIs, hne, he],
      ⟨by simpa using ht, hl, hi.extension, by omega⟩, by simp, fun h1 => absurd rfl (hok h1)⟩
  | some cur =>
    obtain ⟨hcur, hw, hheld⟩ := hr cur rfl
    rw [h.spells.root, List.nil_append] at hw hheld
    cases h1 : m1.outcome m1.used with
    | false =>
      refine ⟨word1, g1, m1.kzalloc.2, -1, [], ?_, ⟨by simpa using ht, hl.trans m1.kzalloc_later,
        hi.extension, Nat.add_le_add_right hcost 1⟩, by simp, ?_⟩
      · simp [afAcInsertPattern, h.rootIs, hne, he, afAcAddOutput, h1]
      · intro hok'
        rw [(hok'.right hl).fst (.refl _)] at h1
        simp at h1
    | true =>
      have hout := ht.addOutput hcur hw (g1.outputCount + 1)
      have hlen := modifyNode_length g1 cur
        (fun n => { n with outputList := n.outputList ++ [f] })
      refine ⟨word1, _, m1.kzalloc.2, 0, [f], ?_, ⟨hout, hl.trans m1.kzalloc_later,
        ⟨hlen ▸ hi.extension.1, hi.extension.2⟩, Nat.add_le_add_right hcost 1⟩, List.Sublist.refl _,
        fun _ => ⟨rfl, fun w => ?_⟩⟩
      · simp [afAcInsertPattern, h.rootIs, hne, he, afAcAddOutput, h1, AfUrlAc.modifyNode]
      · show Held (g1.modifyNode cur _).nodeList.length word1 w ↔ _
        rw [hlen, hheld w]
        simp

theorem insertAll_cons_literal {f : AfFeatureNode} (hf : f.literalHost = true) {g : AfUrlAc}
    {m : Kmem} {rest : List AfFeatureNode} :
    insertAll g m (f :: rest) =
      insertAll (afAcInsertPattern g m f).2.1 (afAcInsertPattern g m f).2.2 rest := by
  have hne : f.hostUrl.strlen ≠ 0 := by
    simpa [CStr.strlen] using AfFeatureNode.literalHost_ne_nil hf
  have hre : afIsRegexHostPattern f.hostUrl = false := by
    simp only [AfFeatureNode.literalHost, Bool.and_eq_true, Bool.not_eq_true'] at hf
    exact hf.2
  simp [insertAll, hne, hre]

theorem insertAll_cons_other {f : AfFeatureNode} (hf : ¬ f.literalHost = true) {g : AfUrlAc}
    {m : Kmem} {rest : List AfFeatureNode} : insertAll g m (f :: rest) = insertAll g m rest := by
  simp only [AfFeatureNode.literalHost, Bool.and_eq_true, not_and, bne_iff_ne, ne_eq,
    Bool.not_eq_true', Bool.not_eq_false] at hf
  by_cases hne : f.hostUrl.strlen = 0
  · simp [insertAll, hne]
  · simp [insertAll, hne, hf hne]

/-- **The whole list.**  The items are the literal-host features in list order, except those
whose insertion lost an allocation. -/
theorem insertAll_spec : ∀ (head : List AfFeatureNode) {g : AfUrlAc} {word : Nat → List UInt8}
    {items : List AfFeatureNode}, TrieOf g word items → ∀ m : Kmem,
    ∃ word' g' m' added, insertAll g m head = (g', m') ∧ m.Later m' ∧
      TrieOf g' word' (items ++ added) ∧
      List.Sublist added (head.filter (·.literalHost)) ∧
      (m.OkUntil m' → added = head.filter (·.literalHost))
  | [], g, word, items, h, m =>
    ⟨word, g, m, [], rfl, .refl m, by simpa using h, by simp, fun _ => rfl⟩
  | f :: rest, g, word, items, h, m => by
    by_cases hf : f.literalHost = true
    · obtain ⟨word1, g1, m1, ret, a1, he1, hi1, hs1, hok1⟩ := insertPattern_cases h m hf
      obtain ⟨word2, g2, m2, a2, he2, hl2, ht2, hs2, hok2⟩ := insertAll_spec rest hi1.trie m1
      refine ⟨word2, g2, m2, a1 ++ a2, by rw [insertAll_cons_literal hf, he1, he2],
        hi1.later.trans hl2, by rw [← List.append_assoc]; exact ht2, ?_, ?_⟩
      · rw [List.filter_cons_of_pos hf]
        exact hs1.append hs2
      · intro hok
        rw [List.filter_cons_of_pos hf, (hok1 (hok.left hl2)).1, hok2 (hok.right hi1.later)]
        rfl
    · obtain ⟨word2, g2, m2, a2, he2, hrest⟩ := insertAll_spec rest h m
      exact ⟨word2, g2, m2, a2, by rw [insertAll_cons_other hf, he2],
        by rw [List.filter_cons_of_neg hf]; exact hrest⟩

/-! ## 5. How many allocations the insertions ask for -/

/-- The words a trie of the texts `seen` holds. -/
def PrefixOfSome (seen : List (List UInt8)) (w : List UInt8) : Prop :=
  w = [] ∨ ∃ s ∈ seen, w <+: s

instance (seen : List (List UInt8)) : DecidablePred (PrefixOfSome seen) :=
  fun w => inferInstanceAs (Decidable (w = [] ∨ ∃ s ∈ seen, w <+: s))

/-- The allocations a rebuild asks for to index a feature list, once the texts `seen` are in: two
for each new word, and one for each feature. -/
def insertRequests : List (List UInt8) → List AfFeatureNode → Nat
  | _, [] => 0
  | seen, f :: rest =>
    if f.literalHost then
      walkCost (PrefixOfSome seen) [] f.hostUrl.bytes + 1 +
        insertRequests (f.hostUrl.bytes :: seen) rest
    else insertRequests seen rest

/-- **When those are granted, no other request is made** before the list is done. -/
theorem insertAll_granted : ∀ (head : List AfFeatureNode) {g : AfUrlAc} {word : Nat → List UInt8}
    {items : List AfFeatureNode} {seen : List (List UInt8)}, TrieOf g word items →
    (∀ w, Held g.nodeList.length word w ↔ PrefixOfSome seen w) → ∀ m : Kmem,
    (∀ k, m.used ≤ k → k < m.used + insertRequests seen head → m.outcome k = true) →
    (insertAll g m head).2.used ≤ m.used + insertRequests seen head
  | [], _, _, _, _, _, _, m, _ => Nat.le_refl _
  | f :: rest, g, word, items, seen, h, hseen, m, hgrant => by
    by_cases hf : f.literalHost = true
    · rw [insertRequests, if_pos hf] at hgrant ⊢
      obtain ⟨word1, g1, m1, ret, a1, he1, hi1, _, hok1⟩ := insertPattern_cases h m hf
      have hcost := hi1.cost
      rw [walkCost_congr (S := PrefixOfSome seen) _ _ (fun w _ => hseen w)] at hcost
      have hok : m.OkUntil m1 := fun k hk hk' => hgrant k hk (by omega)
      have hseen' : ∀ w, Held g1.nodeList.length word1 w ↔
          PrefixOfSome (f.hostUrl.bytes :: seen) w := by
        intro w
        rw [(hok1 hok).2, hseen]
        simp only [PrefixOfSome, List.mem_cons, exists_eq_or_imp]
        rw [or_assoc]
        exact or_congr_right or_comm
      rw [insertAll_cons_literal hf, he1]
      have hrest := insertAll_granted rest hi1.trie hseen' m1 (fun k hk hk' => by
        have hle := hi1.later.2
        rw [hi1.later.1]
        exact hgrant k (by omega) (by omega))
      dsimp only
      omega
    · rw [insertRequests, if_neg hf] at hgrant ⊢
      rw [insertAll_cons_other hf]
      exact insertAll_granted rest h hseen m hgrant

/-- The automaton right after its root was allocated. -/
theorem trieOf_root (g : AfUrlAc) (hl : g.nodeList = [{}]) (hr : g.root = some 0)
    (hc : g.nodeCount = 1) : TrieOf g (fun _ => []) [] where
  spells := by
    rw [hl]
    refine ⟨by simp, rfl, ?_, ?_, by simp, ?_, ?_⟩
    · intro i n hn e he
      cases i <;> simp at hn
      subst hn
      simp at he
    · intro i n hn
      cases i <;> simp at hn
      subst hn
      simp
    · intro i j hi hj _
      simp at hi hj
      omega
    · intro j h0 hj
      simp at hj
      omega
  rootIs := hr
  count := by rw [hc, hl]; rfl
  outputs := by
    intro i hi
    rw [hl] at hi
    have h0 : i = 0 := by simpa using hi
    simp [outputsAt, hl, h0]
  held := by simp

end Oaf
