/-
# The automaton and the feature list, over whole runs

Three messages change the feature list or the automaton (`ADD_FEATURE`, `CLEAN_FEATURE`,
`FEATURE_LOAD_DONE`).  `Coherent` is what the matcher relies on in between: no output item points
at a freed feature, and when the dirty flag is clear the automaton is ready and lists every
literal-host feature exactly once, at the node its `host_url` spells.

`af_rebuild_url_ac_locked` gives up, and keeps the dirty flag, when it cannot allocate the root or
the queue.  When it cannot allocate a node, an edge or an item it logs the feature and goes on,
and clears the flag in the end: that feature is in no index any more, and nothing rebuilds it.

* `Grows`: what an `ADD_FEATURE` can do to the state, whatever its text.
* `insertAll_granted`: how many allocations the insertions ask for, counted on the texts.
* `url_ac_coherent`: every run in which those are granted, or the root is not, stays coherent.
* `url_ac_incoherent`: one that is refused spoils it.
-/
import Oaf.UrlAc.Match
import Oaf.Loader.Model
import Oaf.Lib.Runs

namespace Oaf

open CLib Runs

/-! ## 1. Messages -/

/-- The feature messages.  `beyond` is the memory behind the loader's arrays while the message is
handled. -/
inductive FeatureMsg where
  | addFeature (beyond : Beyond) (data : List UInt8)
  | cleanFeature
  | featureLoadDone

/-- `fwx_user_msg_handle`.  There is no next state behind an overrun. -/
def fwxUserMsgHandle (st : KernelState) : FeatureMsg → Option KernelState
  | .addFeature beyond data => (afAddFeatureMsgHandle beyond st data data.length).toOption
  | .cleanFeature => some (afCleanFeatureList st)
  | .featureLoadDone => afFeatureLoadDoneMsgHandle st

def featureStep (st : KernelState) (msg : FeatureMsg) (st' : KernelState) : Prop :=
  fwxUserMsgHandle st msg = some st'

/-- The state after the module was loaded. -/
def initialState (outcome : Nat → Bool) : KernelState := { kmem := ⟨outcome, 0⟩ }

/-! ## 2. What an added text can do -/

/-- Nodes were put at the head of the list, each at an address of its own, and the flag was set if
one of them is indexed. -/
structure Grows (st st' : KernelState) : Prop where
  ac : st'.gUrlAc = st.gUrlAc
  kmem : st.kmem.Later st'.kmem
  nodes : ∃ nodes, st'.afFeatureHead = nodes ++ st.afFeatureHead ∧
    (∀ f ∈ nodes, st.kmem.used < f.addr ∧ f.addr ≤ st'.kmem.used) ∧
    nodes.Pairwise (fun f f' => f.addr ≠ f'.addr) ∧
    st'.gUrlAcDirty = (nodes.any (·.literalHost) || st.gUrlAcDirty)

theorem Grows.refl (st : KernelState) : Grows st st :=
  ⟨rfl, .refl _, [], rfl, by simp, List.Pairwise.nil, by simp⟩

theorem Grows.trans {a b c : KernelState} (h1 : Grows a b) (h2 : Grows b c) : Grows a c := by
  obtain ⟨n1, hl1, ha1, hp1, hd1⟩ := h1.nodes
  obtain ⟨n2, hl2, ha2, hp2, hd2⟩ := h2.nodes
  have hu1 := h1.kmem.2
  have hu2 := h2.kmem.2
  refine ⟨h2.ac.trans h1.ac, h1.kmem.trans h2.kmem, n2 ++ n1, ?_, ?_, ?_, ?_⟩
  · rw [hl2, hl1, List.append_assoc]
  · intro f hf
    rcases List.mem_append.mp hf with hf | hf
    · have := ha2 f hf
      omega
    · have := ha1 f hf
      omega
  · refine List.pairwise_append.mpr ⟨hp2, hp1, fun f hf f' hf' => ?_⟩
    have := ha2 f hf
    have := ha1 f' hf'
    omega
  · rw [hd2, hd1, List.any_append, Bool.or_assoc]

/-- Asking the allocator changes nothing else. -/
theorem Grows.kzalloc (st : KernelState) : Grows st { st with kmem := st.kmem.kzalloc.2 } :=
  ⟨rfl, st.kmem.kzalloc_later, [], rfl, by simp, List.Pairwise.nil, by simp⟩

theorem addAppFeatureNode_grows {beyond : Beyond} {st st' : KernelState} {feature : CStr}
    {appid : UInt32} {name : CStr} {proto srcPort : UInt32} {dportInfo : PortInfo}
    {hostUrl requestUrl dict searchStr : CStr} {ignore : Int}
    (h : addAppFeatureNode beyond st feature appid name proto srcPort dportInfo hostUrl requestUrl
      dict searchStr ignore = .ok st') : Grows st st' := by
  unfold addAppFeatureNode at h
  cases hm : st.kmem.outcome st.kmem.used with
  | false =>
    simp only [Kmem.kzalloc_fst, hm, Bool.not_false, if_true] at h
    cases h
    exact Grows.kzalloc st
  | true =>
    simp only [Kmem.kzalloc_fst, hm, Bool.not_true, Bool.false_eq_true, if_false] at h
    obtain ⟨_, _, h⟩ := bind_eq_ok.mp h
    obtain ⟨_, _, h⟩ := bind_eq_ok.mp h
    obtain ⟨_, _, h⟩ := bind_eq_ok.mp h
    obtain ⟨_, _, h⟩ := bind_eq_ok.mp h
    obtain ⟨posInfo, _, h⟩ := bind_eq_ok.mp h
    cases h
    refine ⟨rfl, st.kmem.kzalloc_later, [_], rfl, ?_, List.pairwise_singleton _ _, ?_⟩
    · intro f hf
      rw [List.mem_singleton.mp hf]
      exact ⟨Nat.lt_succ_self _, Nat.le_refl _⟩
    · by_cases h0 : hostUrl.strlen = 0
      · simp [AfFeatureNode.literalHost, h0]
      · have hpos : 0 < hostUrl.strlen := Nat.pos_of_ne_zero h0
        cases hre : afIsRegexHostPattern hostUrl <;> simp [AfFeatureNode.literalHost, h0, hpos, hre]

theorem addAppFeature_grows {beyond : Beyond} {st st' : KernelState} {appid : UInt32}
    {name text : CStr} (h : addAppFeature beyond st appid name text = .ok st') : Grows st st' := by
  unfold addAppFeature at h
  split at h
  · cases h
    exact .refl st
  · obtain ⟨_, _, h⟩ := bind_eq_ok.mp h
    obtain ⟨_, _, h⟩ := bind_eq_ok.mp h
    split at h
    · cases h
      exact .refl st
    · obtain ⟨_, _, h⟩ := bind_eq_ok.mp h
      exact addAppFeatureNode_grows h

theorem addFeatureText_grows {beyond : Beyond} {appid : UInt32} {name : CStr}
    {st st' : KernelState × CArray 128} {text : CStr} {k : Nat}
    (h : addFeatureText beyond appid name st text k = .ok st') : Grows st.1 st'.1 := by
  obtain ⟨_, _, h⟩ := bind_eq_ok.mp h
  obtain ⟨_, _, h⟩ := bind_eq_ok.mp h
  obtain ⟨st1, h1, h⟩ := bind_eq_ok.mp h
  cases h
  exact addAppFeature_grows h1

theorem addFeatureTexts_grows {beyond : Beyond} {appid : UInt32} {name : CStr} :
    ∀ (texts : List CStr) (last : CStr) {st st' : KernelState × CArray 128},
    addFeatureTexts beyond appid name st texts last = .ok st' → Grows st.1 st'.1
  | [], last, st, st', h => by
    unfold addFeatureTexts at h
    split at h
    · cases h
      exact .refl _
    · exact addFeatureText_grows h
  | text :: rest, last, st, st', h => by
    unfold addFeatureTexts at h
    split at h
    · cases h
      exact .refl _
    · obtain ⟨st1, h1, h2⟩ := bind_eq_ok.mp h
      exact (addFeatureText_grows h1).trans (addFeatureTexts_grows rest last h2)

/-- **An `ADD_FEATURE` only adds nodes.** -/
theorem addFeatureMsg_grows {beyond : Beyond} {st st' : KernelState} {data : List UInt8} {len : Int}
    (h : afAddFeatureMsgHandle beyond st data len = .ok st') : Grows st st' := by
  unfold afAddFeatureMsgHandle afInitFeature at h
  dsimp only at h
  repeat' split at h
  · cases h
    exact .refl st
  · cases h
    exact .kzalloc st
  · cases h
    exact .kzalloc st
  · cases h
    exact .kzalloc st
  · obtain ⟨st1, h1, h⟩ := bind_eq_ok.mp h
    cases h
    have hg := (Grows.kzalloc st).trans (addFeatureTexts_grows _ _ h1)
    exact ⟨hg.ac, hg.kmem, hg.nodes⟩

theorem featureStep_add_grows {beyond : Beyond} {st st' : KernelState} {data : List UInt8}
    (h : featureStep st (.addFeature beyond data) st') : Grows st st' := by
  simp only [featureStep, fwxUserMsgHandle] at h
  cases hrun : afAddFeatureMsgHandle beyond st data data.length with
  | ok st1 =>
    rw [hrun] at h
    cases h
    exact addFeatureMsg_grows hrun
  | error e =>
    rw [hrun] at h
    cases h

/-! ## 3. Coherence -/

/-- The node that `w` spells: from the root along the edges. -/
def nodeAt (g : AfUrlAc) (w : List UInt8) : Option Nat :=
  match g.root with
  | none => none
  | some root => w.foldlM (afAcFindNext g) root

/-- The automaton lists the feature exactly once, at the node its `host_url` spells. -/
def ListedOnce (g : AfUrlAc) (f : AfFeatureNode) : Prop :=
  ∃ i, nodeAt g f.hostUrl.bytes = some i ∧ (outputsAt g i).count f = 1 ∧
    ∀ j, j ≠ i → f ∉ outputsAt g j

/-- **What the matcher relies on** between two messages. -/
structure Coherent (st : KernelState) : Prop where
  live : ∀ i, ∀ f ∈ outputsAt st.gUrlAc i, f ∈ st.afFeatureHead
  listed : st.gUrlAcDirty = false → st.gUrlAc.ready = true ∧
    ∀ f ∈ st.afFeatureHead, f.literalHost = true → ListedOnce st.gUrlAc f

/-- In a trie the node of a word it holds is found. -/
theorem nodeAt_held {g : AfUrlAc} {word : Nat → List UInt8} {items : List AfFeatureNode}
    (h : TrieOf g word items) {w : List UInt8} (hw : Held g.nodeList.length word w) :
    ∃ i, i < g.nodeList.length ∧ nodeAt g w = some i ∧ word i = w := by
  have hwalk : ∀ w, Held g.nodeList.length word w → ∃ i, i < g.nodeList.length ∧
      w.foldlM (afAcFindNext g) 0 = some i ∧ word i = w := by
    intro w
    induction w using List.reverseRecOn with
    | nil => exact fun _ => ⟨0, h.spells.pos, rfl, h.spells.root⟩
    | append_singleton w c ih =>
      rintro ⟨j, hj, hjw⟩
      obtain ⟨i, hi, hfold, hiw⟩ := ih (h.spells.prefixClosed.init ⟨j, hj, hjw⟩)
      have hnext : afAcFindNext g i c = some j :=
        h.spells.findNext_iff.mpr ⟨hi, hj, by rw [hjw, hiw]⟩
      refine ⟨j, hj, ?_, hjw⟩
      rw [List.foldlM_append, hfold]
      simp [hnext]
  obtain ⟨i, hi, hfold, hiw⟩ := hwalk w hw
  exact ⟨i, hi, by rw [nodeAt, h.rootIs]; exact hfold, hiw⟩

/-- A complete trie lists each of its items once, when no item is twice in the list. -/
theorem listedOnce_of_trieOf {g : AfUrlAc} {word : Nat → List UInt8} {items : List AfFeatureNode}
    (h : TrieOf g word items) (hnodup : items.Nodup) {f : AfFeatureNode} (hf : f ∈ items) :
    ListedOnce g f := by
  obtain ⟨i, hi, hnode, hiw⟩ := nodeAt_held h (h.held f hf)
  refine ⟨i, hnode, ?_, fun j hj hmem => ?_⟩
  · rw [h.outputs i hi, List.count_filter (by simp [hiw])]
    exact List.count_eq_one_of_mem hnodup hf
  · rcases Nat.lt_or_ge j g.nodeList.length with hlt | hge
    · rw [h.outputs j hlt, List.mem_filter] at hmem
      have hjw : f.hostUrl.bytes = word j := by simpa using hmem.2
      exact hj (h.spells.inj j i hlt hi (hjw.symm.trans hiw.symm))
    · rw [outputsAt_of_le hge] at hmem
      simp at hmem

/-! ## 4. Every run -/

/-- When a rebuild may be run: the insertions get what they ask for, or there is no root. -/
def RebuildGranted (st : KernelState) : FeatureMsg → Prop
  | .featureLoadDone => st.gUrlAcDirty = true →
      st.kmem.outcome st.kmem.used = false ∨ InsertsGranted st.kmem st.afFeatureHead
  | _ => True

/-- The invariant of a run: addresses are not reused while their nodes are in the list. -/
structure KernelInv (st : KernelState) : Prop extends Coherent st where
  addrs : st.afFeatureHead.Pairwise (fun f f' => f.addr ≠ f'.addr)
  addrLe : ∀ f ∈ st.afFeatureHead, f.addr ≤ st.kmem.used

theorem kernelInv_initial (outcome : Nat → Bool) : KernelInv (initialState outcome) where
  live := by simp [initialState, outputsAt]
  listed := by simp [initialState]
  addrs := List.Pairwise.nil
  addrLe := by simp [initialState]

theorem KernelInv.grows {st st' : KernelState} (h : KernelInv st) (hg : Grows st st') :
    KernelInv st' := by
  obtain ⟨nodes, hhead, haddr, hpair, hdirty⟩ := hg.nodes
  have hle := hg.kmem.2
  refine ⟨⟨?_, ?_⟩, ?_, ?_⟩
  · intro i f hf
    rw [hg.ac] at hf
    rw [hhead]
    exact List.mem_append_right _ (h.live i f hf)
  · intro hclean
    rw [hdirty, Bool.or_eq_false_iff] at hclean
    obtain ⟨hready, hlisted⟩ := h.listed hclean.2
    rw [hg.ac]
    refine ⟨hready, fun f hf hlit => ?_⟩
    rw [hhead] at hf
    rcases List.mem_append.mp hf with hf | hf
    · have := List.any_eq_false.mp hclean.1 f hf
      exact absurd hlit this
    · exact hlisted f hf hlit
  · rw [hhead]
    refine List.pairwise_append.mpr ⟨hpair, h.addrs, fun f hf f' hf' => ?_⟩
    have h1 := haddr f hf
    have h2 := h.addrLe f' hf'
    omega
  · intro f hf
    rw [hhead] at hf
    rcases List.mem_append.mp hf with hf | hf
    · exact (haddr f hf).2
    · exact (h.addrLe f hf).trans hle

theorem KernelInv.nodup {st : KernelState} (h : KernelInv st) : st.afFeatureHead.Nodup :=
  h.addrs.imp (fun hne heq => hne (congrArg AfFeatureNode.addr heq))

/-- A rebuild that meets the condition. -/
theorem KernelInv.rebuild {st : KernelState} (h : KernelInv st)
    (hgrant : st.kmem.outcome st.kmem.used = false ∨ InsertsGranted st.kmem st.afFeatureHead)
    {r : RebuildResult} (hr : afRebuildUrlAcLocked st.gUrlAc st.kmem st.afFeatureHead = some r) :
    KernelInv { st with gUrlAc := r.g, gUrlAcDirty := r.dirty, kmem := r.m } := by
  obtain ⟨r', hr', hlater, hlive, hcases⟩ := rebuild_cases st.gUrlAc st.kmem st.afFeatureHead
  rw [hr] at hr'
  cases hr'
  refine ⟨⟨hlive, fun hclean => ?_⟩, h.addrs, fun f hf => (h.addrLe f hf).trans hlater.2⟩
  rcases hcases with ⟨_, hdirty, _⟩ | ⟨_, _, hready, hroot, word, items, hl, _, hitems⟩
  · rw [show r.dirty = true from hdirty] at hclean
    cases hclean
  · have hgrant' : InsertsGranted st.kmem st.afFeatureHead := by
      rcases hgrant with hno | hgrant
      · rw [hroot] at hno
        cases hno
      · exact hgrant
    rw [hitems (Or.inr hgrant')] at hl
    exact ⟨hready, fun f hf hlit => listedOnce_of_trieOf hl.toTrieOf (h.nodup.filter _)
      (List.mem_filter.mpr ⟨hf, hlit⟩)⟩

/-- **One message** keeps the invariant. -/
theorem kernelInv_step (st : KernelState) (msg : FeatureMsg) (st' : KernelState)
    (h : KernelInv st) (hgrant : RebuildGranted st msg) (hstep : featureStep st msg st') :
    KernelInv st' := by
  cases msg with
  | addFeature beyond data =>
    exact h.grows (featureStep_add_grows hstep)
  | cleanFeature =>
    cases hstep
    exact ⟨⟨by simp [afCleanFeatureList, afAcResetLocked, outputsAt], by simp [afCleanFeatureList]⟩,
      List.Pairwise.nil, by simp [afCleanFeatureList]⟩
  | featureLoadDone =>
    simp only [featureStep, fwxUserMsgHandle, afFeatureLoadDoneMsgHandle] at hstep
    split at hstep
    · rename_i hdirty
      cases hr : afRebuildUrlAcLocked st.gUrlAc st.kmem st.afFeatureHead with
      | none =>
        rw [hr] at hstep
        cases hstep
      | some r =>
        rw [hr] at hstep
        cases hstep
        exact h.rebuild (hgrant hdirty) hr
    · cases hstep
      exact h

/-- **Every run whose rebuilds get the insertions they ask for is coherent throughout**, for every
order of the messages, every text and every other failure of the allocator. -/
theorem url_ac_coherent (outcome : Nat → Bool) (st : KernelState)
    (h : Reaches featureStep RebuildGranted (initialState outcome) st) : Coherent st :=
  (h.invariant kernelInv_step (kernelInv_initial outcome)).toCoherent

/-- Loading one line and building the automaton. -/
def loadOne (outcome : Nat → Bool) (line : List UInt8) : Option KernelState :=
  (fwxUserMsgHandle (initialState outcome) (.addFeature (fun _ => .empty) line)).bind
    (fun st => fwxUserMsgHandle st .featureLoadDone)

theorem loadOne_reaches {outcome : Nat → Bool} {line : List UInt8} {st : KernelState}
    {cond : KernelState → FeatureMsg → Prop} (h : loadOne outcome line = some st)
    (hadd : ∀ st beyond data, cond st (.addFeature beyond data))
    (hdone : ∀ st1, st1.kmem.outcome = outcome → cond st1 .featureLoadDone) :
    Reaches featureStep cond (initialState outcome) st := by
  obtain ⟨st1, h1, h2⟩ := Option.bind_eq_some_iff.mp h
  have hg : Grows (initialState outcome) st1 := featureStep_add_grows h1
  exact (Reaches.refl.tail (hadd _ _ _) h1).tail (hdone st1 hg.kmem.1) h2

theorem url_ac_coherent_loaded :
    ∃ st, loadOne (fun _ => true) (ascii "1001~web:[tcp;;;example.com;;]") = some st ∧
      Coherent st := by
  have hrun : (loadOne (fun _ => true) (ascii "1001~web:[tcp;;;example.com;;]")).isSome = true := by
    decide +kernel
  obtain ⟨st, hst⟩ := Option.isSome_iff_exists.mp hrun
  exact ⟨st, hst, url_ac_coherent (fun _ => true) st (loadOne_reaches hst (fun _ _ _ => trivial)
    (fun st1 h1 _ => Or.inr (fun k _ _ => by rw [h1])))⟩

/-- When the node for the only byte of a `host_url` cannot be allocated, and the queue can, the
feature is in the list, the dirty flag is clear, and no output list has the feature. -/
theorem url_ac_incoherent :
    ¬ ∀ (outcome : Nat → Bool) (st : KernelState),
      Reaches featureStep Always (initialState outcome) st → Coherent st := by
  intro hall
  have hrun : (loadOne (· != 3) (ascii "1001~web:[tcp;;;x;;;]")).map (fun st =>
      (st.gUrlAcDirty, st.afFeatureHead.map (·.literalHost),
        st.gUrlAc.nodeList.map (·.outputList.length))) = some (false, [true], [0]) := by
    decide +kernel
  obtain ⟨st, hst, hsum⟩ := Option.map_eq_some_iff.mp hrun
  have hcoh := hall (· != 3) st (loadOne_reaches hst (fun _ _ _ => trivial) (fun _ _ => trivial))
  obtain ⟨hclean, hhead, houts⟩ : st.gUrlAcDirty = false ∧
      st.afFeatureHead.map (·.literalHost) = [true] ∧
      st.gUrlAc.nodeList.map (·.outputList.length) = [0] := by simpa using hsum
  obtain ⟨f, hf⟩ := List.length_eq_one_iff.mp (by simpa using congrArg List.length hhead)
  have hlit : f.literalHost = true := by
    rw [hf] at hhead
    simpa using hhead
  obtain ⟨i, _, hcount, _⟩ := (hcoh.listed hclean).2 f (by rw [hf]; exact List.mem_singleton_self f) hlit
  have hempty : outputsAt st.gUrlAc i = [] := by
    cases hn : st.gUrlAc.nodeList[i]? with
    | none => simp [outputsAt, hn]
    | some n =>
      have hmem : n.outputList.length ∈ st.gUrlAc.nodeList.map (·.outputList.length) :=
        List.mem_map_of_mem (List.mem_of_getElem? hn)
      rw [houts, List.mem_singleton] at hmem
      simp [outputsAt, hn, List.length_eq_zero_iff.mp hmem]
  rw [hempty] at hcount
  simp at hcount

end Oaf
