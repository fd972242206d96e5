/-
# The fields of a feature

A feature is a text `f0;f1;..;fk`.  `add_app_feature` stores a field when it meets the `;`
behind it; the text behind the last `;` it looks at for two fields only, `dict` and `ignore`.
So with seven fields the last one, the search string, is dropped.

* `addAppFeature_fields_iff`: the feature is added with the fields as they are written iff the
  search string is not the last field (or is empty), the ports and the positions fit their
  tables, and there is memory.
-/
import Oaf.Loader.Bounds
import Oaf.Lib.Words
import Mathlib.Data.List.GetD

namespace Oaf

open CLib

/-! ## 1. The text -/

/-- The fields of a feature: six to eight of them, the last three optional. -/
structure FeatureText where
  fields : List CStr
  count : 6 ≤ fields.length ∧ fields.length ≤ 8
  noSemicolon : ∀ f ∈ fields, 59 ∉ f.bytes
  proto : UInt32
  proto_eq : featureProto (fields.getD 0 .empty) = some proto

/-- The name of a protocol has three letters. -/
theorem length_of_featureProto {f : CStr} {proto : UInt32} (h : featureProto f = some proto) :
    f.bytes.length = 3 := by
  rw [featureProto] at h
  split at h
  · rename_i hf
    rw [hf]
    decide
  · split at h
    · rename_i hf
      rw [hf]
      decide
    · cases h

namespace FeatureText

variable (t : FeatureText)

/-- A field, empty when it is absent. -/
def field (i : AfFeatureParam) : CStr := t.fields.getD i .empty

def text : CStr where
  bytes := [59].intercalate (t.fields.map (·.bytes))
  noNul := by
    intro h
    rcases mem_intercalate h with h | ⟨l, hl, h⟩
    · exact absurd h (by decide)
    · obtain ⟨f, -, rfl⟩ := List.mem_map.mp hl
      exact f.noNul h

/-- The fields fit their buffers, those of the node among them, and the items of `dict` fit the
buffer they are copied to. -/
structure Fits : Prop where
  sport : (t.field AF_SRC_PORT_PARAM_INDEX).strlen < 16
  dport : (t.field AF_DST_PORT_PARAM_INDEX).strlen < 16
  host : (t.field AF_HOST_URL_PARAM_INDEX).strlen < 32
  search : (t.field AF_STR_PARAM_INDEX).strlen < MAX_SEARCH_STR_LEN
  items : ∀ item ∈ (tokens 124 (t.field AF_DICT_PARAM_INDEX)).1, item.strlen < 64
  last : (tokens 124 (t.field AF_DICT_PARAM_INDEX)).2.strlen < 64

theorem text_bytes_of {init : List CStr} {last : CStr} (h : t.fields = init ++ [last]) :
    tokens 59 t.text = (init, last) := by
  have hsemi := t.noSemicolon
  rw [h] at hsemi
  refine tokens_intercalate (fun f hf => hsemi f (List.mem_append_left _ hf))
    (hsemi last (by simp)) ?_ ?_
  · simp [text, h]
  · intro f hf hempty
    -- the first field names a protocol
    have hthree := length_of_featureProto t.proto_eq
    rw [h, List.getD_eq_getElem?_getD, ← List.head?_eq_getElem?, hf, Option.getD_some, hempty]
      at hthree
    cases hthree

/-- **The fields as the code sees them**: all of them, but for a search string that comes last. -/
theorem fieldTexts_eq :
    fieldTexts t.text = if t.fields.length = 7 then t.fields.take 6 else t.fields := by
  obtain ⟨hlo, hhi⟩ := t.count
  rcases List.eq_nil_or_concat t.fields with hnil | ⟨init, last, hfields⟩
  · rw [hnil, List.length_nil] at hlo
    omega
  · rw [List.concat_eq_append] at hfields
    rw [hfields, List.length_append, List.length_singleton] at hlo hhi ⊢
    have hfive : (AF_DICT_PARAM_INDEX : Nat) = 5 := rfl
    have hseven : (AF_IGNORE_PARAM_INDEX : Nat) = 7 := rfl
    rw [fieldTexts, t.text_bytes_of hfields]
    simp only [hfive, hseven]
    by_cases h6 : init.length = 6
    · rw [if_neg (by omega), if_pos (by omega), ← h6, List.take_left]
    · rw [if_pos (by omega), if_neg (by omega)]

/-- Every field is seen, but for a search string that comes last. -/
theorem fieldText_eq (i : AfFeatureParam) :
    fieldText t.text i =
      if t.fields.length = 7 ∧ i = AF_STR_PARAM_INDEX then .empty else t.field i := by
  obtain ⟨hlo, hhi⟩ := t.count
  rw [fieldText, fieldTexts_eq, field]
  by_cases h7 : t.fields.length = 7
  · rw [if_pos h7]
    have hsix : (AF_STR_PARAM_INDEX : Nat) = 6 := rfl
    by_cases hi : i = AF_STR_PARAM_INDEX
    · rw [if_pos ⟨h7, hi⟩, hi, hsix, List.getD_eq_default]
      rw [List.length_take]
      omega
    · have hne : (i : Nat) ≠ 6 := fun h => hi (Fin.ext h)
      rw [if_neg fun h => hi h.2]
      rcases Nat.lt_or_ge (i : Nat) 6 with hlt | hge
      · rw [List.getD_eq_getElem?_getD, List.getD_eq_getElem?_getD, List.getElem?_take_of_lt hlt]
      · rw [List.getD_eq_default, List.getD_eq_default]
        · omega
        · rw [List.length_take]
          omega
  · rw [if_neg h7, if_neg fun h => h7 h.1]

end FeatureText

/-! ## 2. `add_app_feature` -/

/-- The node has what the fields say. -/
structure GivenBy (node : AfFeatureNode) (t : FeatureText) : Prop where
  proto : node.proto = t.proto
  sport : node.sport = scanSrcPort (t.field AF_SRC_PORT_PARAM_INDEX)
  dport : node.dportInfo = ⟨(portItems (t.field AF_DST_PORT_PARAM_INDEX)).filterMap rangeOf⟩
  host : node.hostUrl = t.field AF_HOST_URL_PARAM_INDEX
  request : node.requestUrl = t.field AF_REQUEST_URL_PARAM_INDEX
  dict : node.posInfo = dictPositions (t.field AF_DICT_PARAM_INDEX)
  search : node.searchStr = t.field AF_STR_PARAM_INDEX
  ignore : node.ignore = kAtoi (t.field AF_IGNORE_PARAM_INDEX)

/-- One feature is added, with the fields as they are written, whatever lies behind the arrays. -/
def AddsFields (st : KernelState) (appid : UInt32) (name : CStr) (t : FeatureText) : Prop :=
  ∀ beyond, ∃ st' node, addAppFeature beyond st appid name t.text = .ok st' ∧
    st'.afFeatureHead = node :: st.afFeatureHead ∧ GivenBy node t

/-- What it takes: memory, a search string that is not the last field or is empty, and room for
the ports and the positions. -/
structure FieldsKept (st : KernelState) (t : FeatureText) : Prop where
  memory : st.kmem.outcome st.kmem.used = true
  search : t.fields.length = 7 → t.field AF_STR_PARAM_INDEX = .empty
  ports : PortsFit (t.field AF_DST_PORT_PARAM_INDEX)
  positions : (tokens 124 (t.field AF_DICT_PARAM_INDEX)).1.length < MAX_POS_INFO_PER_FEATURE - 1

section

variable {st : KernelState} {appid : UInt32} {name : CStr} {t : FeatureText}

/-- What the code sees of a field other than the search string is the field. -/
theorem fieldText_other {i : AfFeatureParam} (hi : i ≠ AF_STR_PARAM_INDEX) :
    fieldText t.text i = t.field i := by
  rw [t.fieldText_eq, if_neg fun h => hi h.2]

/-- Without memory no feature is added. -/
theorem addAppFeature_noMemory {beyond : Beyond} {text : CStr} {st' : KernelState}
    (hm : st.kmem.outcome st.kmem.used = false)
    (h : addAppFeature beyond st appid name text = .ok st') :
    st'.afFeatureHead = st.afFeatureHead := by
  rw [addAppFeature] at h
  split at h
  · cases h
    rfl
  · obtain ⟨fs, -, h⟩ := bind_eq_ok.mp h
    obtain ⟨fs', -, h⟩ := bind_eq_ok.mp h
    split at h
    · cases h
      rfl
    · obtain ⟨info, -, h⟩ := bind_eq_ok.mp h
      rw [addAppFeatureNode] at h
      simp only [Kmem.kzalloc_fst, hm, Bool.not_false, if_true] at h
      cases h
      rfl

/-- The shortest feature is `tcp;;;;;`. -/
theorem min_le_text (t : FeatureText) : MIN_FEATURE_STR_LEN ≤ t.text.strlen := by
  obtain ⟨hlo, -⟩ := t.count
  obtain ⟨f, rest, hfields⟩ := List.exists_cons_of_length_pos (show 0 < t.fields.length by omega)
  have hthree := length_of_featureProto t.proto_eq
  rw [hfields, List.getD_cons_zero] at hthree
  have hrest : rest.length ≤ (rest.flatMap (59 :: ·.bytes)).length := by
    clear hfields
    induction rest with
    | nil => exact le_refl _
    | cons g rest ih =>
      rw [List.flatMap_cons, List.length_append, List.length_cons, List.length_cons]
      omega
  rw [hfields, List.length_cons] at hlo
  have hbytes : t.text.bytes = f.bytes ++ rest.flatMap (59 :: ·.bytes) := by
    simp only [FeatureText.text, hfields, List.map_cons, intercalate_cons_eq, List.flatMap_map]
  rw [CStr.strlen, hbytes, List.length_append, hthree, MIN_FEATURE_STR_LEN]
  omega

/-- What a load does when there is memory. -/
theorem addFeature_text (hm : st.kmem.outcome st.kmem.used = true) (sport : UInt32)
    (posInfo : List AfPosInfo) :
    st.addFeature appid name t.text sport posInfo =
      ({ st with kmem := st.kmem.kzalloc.2 } : KernelState).addNode
        (featureNode st.kmem.kzalloc.2.used appid name t.text t.proto sport posInfo) := by
  have hmin := min_le_text t
  have hproto : featureProto (fieldText t.text AF_PROTO_PARAM_INDEX) = some t.proto := by
    rw [fieldText_other (by decide)]
    exact t.proto_eq
  rw [KernelState.addFeature, if_neg (by omega), hproto]
  simp only [hm, if_true]

/-- What the added feature shows. -/
theorem AddsFields.kept (hlen : t.text.strlen < 128) (h : AddsFields st appid name t) :
    FieldsKept st t := by
  obtain ⟨st', node, hload, hhead, hnode⟩ := h evil
  have hm : st.kmem.outcome st.kmem.used = true := by
    by_contra hno
    rw [Bool.not_eq_true] at hno
    rw [addAppFeature_noMemory hno hload] at hhead
    exact List.cons_ne_self node st.afFeatureHead hhead.symm
  have hproto : featureProto (fieldText t.text AF_PROTO_PARAM_INDEX) = some t.proto := by
    rw [fieldText_other (by decide)]
    exact t.proto_eq
  have hfeature := addAppFeature_fits hlen hm ⟨st', hload⟩ (min_le_text t)
  obtain ⟨-, hports, -, -, hpositions⟩ := hfeature.node t.proto hproto
  rw [fieldText_other (by decide)] at hports hpositions
  refine ⟨hm, fun hseven => ?_, hports, hpositions.count⟩
  obtain ⟨sport, posInfo, -, -, hval⟩ := addAppFeature_ok evil st appid name hlen fun _ => hfeature
  rw [hload, addFeature_text hm] at hval
  obtain rfl := Except.ok.inj hval
  obtain rfl := (List.cons.inj hhead).1
  have hsearch : fieldText t.text AF_STR_PARAM_INDEX = t.field AF_STR_PARAM_INDEX := hnode.search
  rw [← hsearch, t.fieldText_eq, if_pos ⟨hseven, rfl⟩]

/-- **The fields are kept as they are written iff the search string is not the last of them (or is
empty)** and memory, `range_list` and `pos_info` have room. -/
theorem addAppFeature_fields_iff (st : KernelState) (appid : UInt32) (name : CStr) (t : FeatureText)
    (hlen : t.text.strlen < 128) (hfits : t.Fits) :
    AddsFields st appid name t ↔ FieldsKept st t := by
  constructor
  · intro h
    exact h.kept hlen
  · intro h beyond
    have hdict : fieldText t.text AF_DICT_PARAM_INDEX = t.field AF_DICT_PARAM_INDEX :=
      fieldText_other (by decide)
    have hport : fieldText t.text AF_DST_PORT_PARAM_INDEX = t.field AF_DST_PORT_PARAM_INDEX :=
      fieldText_other (by decide)
    have hsearch : fieldText t.text AF_STR_PARAM_INDEX = t.field AF_STR_PARAM_INDEX := by
      rw [t.fieldText_eq]
      split
      · rename_i hlast
        exact (h.search hlast.1).symm
      · rfl
    have hother : ∀ i, fieldText t.text i = t.field i := by
      intro i
      by_cases hi : i = AF_STR_PARAM_INDEX
      · rw [hi, hsearch]
      · exact fieldText_other hi
    have hproto3 : (t.field AF_PROTO_PARAM_INDEX).strlen = 3 := length_of_featureProto t.proto_eq
    have hfields : FieldsFit (fieldTexts t.text) := by
      intro i
      have hle := fieldText_strlen_le t.text i
      have heq : ((fieldTexts t.text).getD i .empty).strlen = (t.field i).strlen :=
        congrArg CStr.strlen (hother i)
      rw [hother] at hle
      rw [heq]
      have hcases : ∀ j : AfFeatureParam, j = AF_PROTO_PARAM_INDEX ∨ j = AF_SRC_PORT_PARAM_INDEX ∨
          j = AF_DST_PORT_PARAM_INDEX ∨ j = AF_HOST_URL_PARAM_INDEX ∨ fieldSize j = 128 := by
        decide
      rcases hcases i with rfl | rfl | rfl | rfl | hsize
      · rw [hproto3]
        decide
      · exact hfits.sport.le
      · exact hfits.dport.le
      · exact hfits.host.le
      · omega
    have hfeature : FeatureFits t.text := by
      refine ⟨hfields, fun proto _ => ?_⟩
      rw [hport, hdict, hother, hother]
      exact ⟨hfits.dport, h.ports, hfits.host, hfits.search,
        ⟨h.positions, fun item hitem => (hfits.items item hitem).le, hfits.last⟩⟩
    obtain ⟨sport, posInfo, hsport, hpositions, hval⟩ :=
      addAppFeature_ok beyond st appid name hlen fun _ => hfeature
    rw [addFeature_text h.memory] at hval
    refine ⟨_, _, hval, rfl, ?_⟩
    rw [hdict] at hpositions
    rw [hother] at hsport
    exact {
      proto := rfl
      sport := hsport hfits.sport
      dport := by simp only [featureNode, hport]
      host := hother _
      request := hother _
      dict := hpositions hfits.items
      search := hsearch
      ignore := by simp only [featureNode, hother] }

end

/-- `tcp;;;;;`, with a search string behind it or without. -/
def searchFeature (rest : List CStr) (h : rest.length ≤ 2) (hrest : ∀ f ∈ rest, 59 ∉ f.bytes) :
    FeatureText where
  fields := [.lit "tcp", .empty, .empty, .empty, .empty, .empty] ++ rest
  count := by
    rw [List.length_append]
    exact ⟨Nat.le_add_right _ _, Nat.add_le_add_left h 6⟩
  noSemicolon := by
    intro f hf
    rcases List.mem_append.mp hf with hf | hf
    · simp only [List.mem_cons, List.not_mem_nil, or_false] at hf
      rcases hf with rfl | rfl | rfl | rfl | rfl | rfl <;> decide
    · exact hrest f hf
  proto := IPPROTO_TCP
  proto_eq := by
    rw [List.cons_append, List.getD_cons_zero]
    decide

/-- Memory is always granted. -/
def roomyState : KernelState := { kmem := { outcome := fun _ => true, used := 0 } }

/-- As many ports as `range_list` has fit. -/
theorem portsFit_of_length {portStr : CStr} (h : (portItems portStr).length ≤ MAX_PORT_RANGE_NUM) :
    PortsFit portStr := by
  intro pre item post hitems _
  have hle := List.length_filterMap_le rangeOf pre
  rw [hitems, List.length_append, List.length_cons] at h
  omega

/-- `tcp;1000;80|8000-8080;video.example;GET /watch;0:47|-1:3d;stream;1`. -/
def videoFeature : FeatureText where
  fields := [.lit "tcp", .lit "1000", .lit "80|8000-8080", .lit "video.example", .lit "GET /watch",
    .lit "0:47|-1:3d", .lit "stream", .lit "1"]
  count := by decide
  noSemicolon := by decide
  proto := IPPROTO_TCP
  proto_eq := by decide

theorem addAppFeature_fields_iff_video : AddsFields roomyState 1001 (.lit "video") videoFeature :=
  (addAppFeature_fields_iff roomyState 1001 (.lit "video") videoFeature (by decide +kernel)
    { sport := by decide, dport := by decide, host := by decide, search := by decide,
      items := by decide +kernel, last := by decide +kernel }).mpr
    { memory := rfl
      search := fun h => absurd h (by decide)
      ports := portsFit_of_length (by decide +kernel)
      positions := by decide +kernel }

/-- **A search string that comes last is dropped**: `tcp;;;;;;abc`. -/
theorem last_search_dropped :
    (searchFeature [.lit "abc"] (by simp) (by decide)).text.strlen < 128 ∧
      (searchFeature [.lit "abc"] (by simp) (by decide)).Fits ∧
      roomyState.kmem.AllOk ∧
      ¬ AddsFields roomyState 1 (.lit "app") (searchFeature [.lit "abc"] (by simp) (by decide)) := by
  have hlen : (searchFeature [.lit "abc"] (by simp) (by decide)).text.strlen < 128 := by
    decide +kernel
  refine ⟨hlen, ?_, fun _ => rfl, fun h => ?_⟩
  · exact { sport := by decide, dport := by decide, host := by decide, search := by decide,
            items := by decide, last := by decide }
  · have hempty := (h.kept hlen).search rfl
    exact absurd hempty (by decide)

end Oaf
