/-
# Exactly which messages stay inside the loader's arrays

`TextsFit` reads off a line what the array sizes ask of it; `add_feature_msg_fits_iff` says that
it is exactly the condition under which loading the line overruns nothing, whatever the memory
behind the arrays holds and whichever allocations fail.

Four tests in the source are off by one or missing.  A feature of 128 bytes passes
`p - begin > MAX_FEATURE_STR_LEN` and its terminator lands behind `feature[128]`; no field is
measured against its buffer; a field that fills its buffer is read on behind it; and the `break`
of the position loop leaves `begin` one past `p`, so that `p - begin` is -1.

* `addAppFeature_fits`, `addFeatureTexts_fits`: a run without overrun, with `evil` behind every
  array and every allocation granted, had a text that fits.
* `addFeatureTexts_ok`: a text that fits overruns nothing.
-/
import Oaf.Loader.Spec

namespace Oaf

open CLib

/-! ## 1. Memory that shows every missing terminator -/

/-- A long word without white space or a `|`. -/
def evilWord : CStr :=
  ⟨List.replicate 200 97, fun h => absurd (List.eq_of_mem_replicate h) (by decide)⟩

/-- That word behind every array. -/
def evil : Beyond := fun _ => evilWord

theorem evilWord_length : evilWord.bytes.length = 200 := List.length_replicate

theorem evilWord_mem {c : UInt8} (h : c ∈ evilWord.bytes) : c = 97 := List.eq_of_mem_replicate h

theorem dropWhile_append_word {w : List UInt8} (hne : w ≠ [])
    (hw : ∀ c ∈ w, Kernel.isspace c = false) : ∀ l : List UInt8,
    ∃ l', (l ++ w).dropWhile Kernel.isspace = l' ++ w
  | [] => by
    cases w with
    | nil => exact absurd rfl hne
    | cons c w => exact ⟨[], by simp [hw c (List.mem_cons_self ..)]⟩
  | c :: l => by
    rw [List.cons_append, List.dropWhile_cons]
    split
    · exact dropWhile_append_word hne hw l
    · exact ⟨c :: l, rfl⟩

theorem trim_append_word (l : List UInt8) {w : List UInt8} (hne : w ≠ [])
    (hw : ∀ c ∈ w, Kernel.isspace c = false) : w.length ≤ (Kernel.trim (l ++ w)).length := by
  obtain ⟨l', hl'⟩ := dropWhile_append_word hne hw l
  have hself : (l' ++ w).rdropWhile Kernel.isspace = l' ++ w := by
    refine List.rdropWhile_eq_self_iff.mpr ?_
    intro hl
    have hlast : (l' ++ w).getLast hl ∈ w := by
      rw [List.getLast_append_of_ne_nil hl hne]
      exact List.getLast_mem hne
    simp [hw _ hlast]
  rw [Kernel.trim, hl', hself, List.length_append]
  omega

theorem tokensFrom_append_word {d : UInt8} {w : List UInt8} (hw : d ∉ w) : ∀ (l cur : List UInt8),
    (tokensFrom d cur (l ++ w)).2 = (tokensFrom d cur l).2 ++ w
  | [], cur => by rw [List.nil_append, tokensFrom_last hw, tokensFrom]
  | c :: l, cur => by
    rw [List.cons_append, tokensFrom, tokensFrom]
    split
    · exact tokensFrom_append_word hw l []
    · exact tokensFrom_append_word hw l (cur ++ [c])

/-- A string that goes on into the word has a last token at least as long as the word. -/
theorem tokens_last_append_word {d : UInt8} {s : CStr} {l w : List UInt8} (hw : d ∉ w)
    (hs : s.bytes = l ++ w) (hl : l ≠ []) : w.length ≤ (tokens d s).2.strlen := by
  obtain ⟨c, rest, rfl⟩ := List.exists_cons_of_ne_nil hl
  rw [CStr.strlen, (tokens_cons (d := d) (hs.trans (List.cons_append ..))).2,
    tokensFrom_append_word hw, List.length_append]
  omega

/-- A port field that fills its buffer runs on into the word behind it. -/
theorem parsePortInfo_full {a : CArray 16} {s : CStr} (h : a.Holds s) (hs : s.strlen = 16) :
    ¬ IsOk (parsePortInfo evil a {}) := by
  intro hok
  have hread : (a.read (evil .dstPortStr)).bytes = s.bytes ++ evilWord.bytes := h.read_full hs _
  unfold parsePortInfo at hok
  obtain ⟨a', h1, h2⟩ := isOk_bind.mp hok
  have hlong : 200 ≤ (Kernel.trim (a.read (evil .dstPortStr)).bytes).length := by
    rw [hread, ← evilWord_length]
    refine trim_append_word s.bytes ?_ ?_
    · exact fun h0 => absurd (congrArg List.length h0) (by rw [evilWord_length]; decide)
    · intro c hc
      rw [evilWord_mem hc]
      decide
  have ha : a' = a := by
    unfold kTrim at h1
    dsimp only at h1
    split at h1
    · cases h1
      rfl
    · rw [CArray.write_eq_error (by omega), error_bind] at h1
      cases h1
  subst ha
  have hne : ¬ (a'.read (evil .dstPortStr)).strlen = 0 := by
    rw [CStr.strlen, hread, List.length_append, evilWord_length]
    omega
  rw [if_neg hne] at h2
  obtain ⟨info, _, h3⟩ := isOk_bind.mp h2
  have hlast : evilWord.bytes.length ≤ (tokens 124 (a'.read (evil .dstPortStr))).2.strlen := by
    refine tokens_last_append_word ?_ hread ?_
    · exact fun h0 => absurd (evilWord_mem h0) (by decide)
    · intro h0
      rw [CStr.strlen, h0] at hs
      exact absurd hs (by decide)
  rw [evilWord_length] at hlast
  rw [portItem, CArray.strncpy_eq_error (Or.inr (by omega))] at h3
  exact not_isOk_error _ h3

/-! ## 2. One feature -/

theorem addAppFeatureNode_fits {st : KernelState} {feature : CStr} {appid : UInt32}
    {name : CStr} {proto srcPort : UInt32} {dportInfo : PortInfo}
    {hostUrl requestUrl dict searchStr : CStr} {ignore : Int}
    (hm : st.kmem.outcome st.kmem.used = true)
    (h : IsOk (addAppFeatureNode evil st feature appid name proto srcPort dportInfo hostUrl requestUrl
      dict searchStr ignore)) :
    hostUrl.strlen < 128 ∧ searchStr.strlen < MAX_SEARCH_STR_LEN ∧ DictFits dict := by
  unfold addAppFeatureNode at h
  simp only [Kmem.kzalloc_fst, hm, Bool.not_true, Bool.false_eq_true, if_false] at h
  obtain ⟨a1, h1, h⟩ := isOk_bind.mp h
  obtain ⟨a2, _, h⟩ := isOk_bind.mp h
  obtain ⟨a3, h3, h⟩ := isOk_bind.mp h
  obtain ⟨a4, _, h⟩ := isOk_bind.mp h
  obtain ⟨l, h5, _⟩ := isOk_bind.mp h
  refine ⟨?_, ?_, (parsePosInfo_spec evil dict).2 ⟨l, h5⟩⟩
  · by_contra hlong
    rw [CArray.strcpy_eq_error (by omega)] at h1
    cases h1
  · by_contra hlong
    rw [CArray.strcpy_eq_error (by omega)] at h3
    cases h3

/-- **A feature that overruns nothing fits**, with the word behind every array and the node
allocated. -/
theorem addAppFeature_fits {st : KernelState} {appid : UInt32} {name text : CStr}
    (hlen : text.strlen < 128) (hm : st.kmem.outcome st.kmem.used = true)
    (h : IsOk (addAppFeature evil st appid name text)) (hmin : MIN_FEATURE_STR_LEN ≤ text.strlen) :
    FeatureFits text := by
  unfold addAppFeature at h
  rw [if_neg (by omega)] at h
  obtain ⟨fs, h1, h⟩ := isOk_bind.mp h
  obtain ⟨fs', h2, h⟩ := isOk_bind.mp h
  have hfields := (splitFields_spec evil hlen).2 ⟨fs, h1⟩
  obtain ⟨fs0, fs0', h3, h4, hbuf, _⟩ := (splitFields_spec evil hlen).1 hfields
  rw [h1] at h3
  cases h3
  rw [h2] at h4
  cases h4
  refine ⟨hfields, fun proto hp => ?_⟩
  have hproto : featureProto (fs'.str evil AF_PROTO_PARAM_INDEX) = some proto :=
    (featureProto_read (hbuf AF_PROTO_PARAM_INDEX) _).trans hp
  rw [hproto] at h
  obtain ⟨info, h5, h⟩ := isOk_bind.mp h
  obtain ⟨h6, h7, h8⟩ := addAppFeatureNode_fits hm h
  have hread : ∀ i, fieldSize i = 128 → fs'.str evil i = fieldText text i := fun i hi =>
    (hbuf i).read (by rw [hi]; exact Nat.lt_of_le_of_lt (fieldText_strlen_le text i) hlen) _
  have hport : (fieldText text AF_DST_PORT_PARAM_INDEX).strlen < 16 := by
    have hle : (fieldText text AF_DST_PORT_PARAM_INDEX).strlen ≤ 16 :=
      (hbuf AF_DST_PORT_PARAM_INDEX).fits
    rcases Nat.lt_or_eq_of_le hle with hlt | heq
    · exact hlt
    · exact absurd ⟨info, h5⟩ (parsePortInfo_full (hbuf AF_DST_PORT_PARAM_INDEX) heq)
  refine ⟨hport, ?_, ?_, ?_, ?_⟩
  · by_contra hno
    have hport' := (parsePortInfo_spec evil
      (fun b => (hbuf AF_DST_PORT_PARAM_INDEX).read (hport : _ < 16) b) hport).2 hno
    rw [hport'] at h5
    cases h5
  · have hle : (fieldText text AF_HOST_URL_PARAM_INDEX).strlen ≤ 32 :=
      (hbuf AF_HOST_URL_PARAM_INDEX).fits
    rcases Nat.lt_or_eq_of_le hle with hlt | heq
    · exact hlt
    · have hfull : (fs'.str evil AF_HOST_URL_PARAM_INDEX).bytes =
          (fieldText text AF_HOST_URL_PARAM_INDEX).bytes ++ evilWord.bytes :=
        (hbuf AF_HOST_URL_PARAM_INDEX).read_full heq _
      rw [CStr.strlen, hfull, List.length_append, evilWord_length] at h6
      omega
  · rwa [hread AF_STR_PARAM_INDEX rfl] at h7
  · rwa [hread AF_DICT_PARAM_INDEX rfl] at h8

/-! ## 3. The features of one line -/

/-- The copy of one feature into `feature`, and its terminator. -/
theorem featureCopy_ok (a : CArray 128) {text : CStr} {k : Nat}
    (hk : k = text.strlen ∨ k = text.strlen + 1) (hlt : k < 128) :
    ∃ a' a'', a.write LoaderArray.feature (CArray.padded text.bytes k) = .ok a' ∧
      a'.store LoaderArray.feature k 0 = .ok a'' ∧ ∀ b, a''.read b = text := by
  rcases hk with rfl | rfl
  · have hpad : CArray.padded text.bytes text.strlen = text.bytes := by
      simp [CArray.padded, CStr.strlen]
    rw [hpad]
    exact CArray.write_store_read hlt
  · obtain ⟨a', h1, h2⟩ := CArray.write_eq_ok (a := a) (e := LoaderArray.feature)
      (l := CArray.padded text.bytes (text.strlen + 1)) (by rw [CArray.padded_length]; omega)
    refine ⟨a', _, h1, if_pos hlt, ?_⟩
    have hpad : CArray.padded text.bytes (text.strlen + 1) = text.bytes ++ [0] := by
      simp [CArray.padded, CStr.strlen]
    rw [hpad] at h2
    refine CArray.read_of_nul (r := (a.bytes.drop (text.strlen + 1)).set 0 0) ?_
    show a'.bytes.set (text.strlen + 1) 0 = _
    have hlen : (text.bytes ++ [0]).length = text.strlen + 1 := by simp [CStr.strlen]
    rw [h2, hlen, List.set_append_right _ _ (Nat.le_of_eq hlen), hlen, Nat.sub_self,
      List.append_assoc]
    rfl

/-- A feature of 128 bytes leaves no room for the terminator stored behind it. -/
theorem featureCopy_error (a : CArray 128) (l : List UInt8) :
    ¬ IsOk (do
      let a ← a.write LoaderArray.feature (CArray.padded l 128)
      a.store LoaderArray.feature 128 0) := by
  intro h
  obtain ⟨a', _, h⟩ := isOk_bind.mp h
  rw [CArray.store, if_neg (by decide)] at h
  exact not_isOk_error _ h

/-- What the array sizes ask of the features of a line, in the order they are loaded: a feature
longer than 128 bytes ends the load. -/
def TextsFit : List CStr → CStr → Prop
  | [], last => last.strlen < MAX_FEATURE_STR_LEN →
      last.strlen + 1 < MAX_FEATURE_STR_LEN ∧
        (MIN_FEATURE_STR_LEN ≤ last.strlen → FeatureFits last)
  | text :: rest, last => text.strlen ≤ MAX_FEATURE_STR_LEN →
      text.strlen < MAX_FEATURE_STR_LEN ∧
        (MIN_FEATURE_STR_LEN ≤ text.strlen → FeatureFits text) ∧ TextsFit rest last

/-- The state after the features of a line, given what was read of each. -/
theorem addFeatureText_ok (beyond : Beyond) (appid : UInt32) (name : CStr) (st : KernelState)
    (a : CArray 128) {text : CStr} {k : Nat} (hk : k = text.strlen ∨ k = text.strlen + 1)
    (hlt : k < 128) (h : MIN_FEATURE_STR_LEN ≤ text.strlen → FeatureFits text) :
    ∃ sport posInfo a',
      ((fieldText text AF_SRC_PORT_PARAM_INDEX).strlen < 16 →
        sport = scanSrcPort (fieldText text AF_SRC_PORT_PARAM_INDEX)) ∧
      ((∀ t ∈ (tokens 124 (fieldText text AF_DICT_PARAM_INDEX)).1, t.strlen < 64) →
        posInfo = dictPositions (fieldText text AF_DICT_PARAM_INDEX)) ∧
      addFeatureText beyond appid name (st, a) text k =
        .ok (st.addFeature appid name text sport posInfo, a') := by
  obtain ⟨a', a'', h1, h2, h3⟩ := featureCopy_ok a hk hlt
  obtain ⟨sport, posInfo, h4, h5, h6⟩ := addAppFeature_ok beyond st appid name (by omega) h
  refine ⟨sport, posInfo, a'', h4, h5, ?_⟩
  simp only [addFeatureText, h1, ok_bind, h2, h3, h6]
  rfl

theorem addFeature_later (st : KernelState) (appid : UInt32) (name text : CStr) (sport : UInt32)
    (posInfo : List AfPosInfo) :
    st.kmem.Later (st.addFeature appid name text sport posInfo).kmem := by
  unfold KernelState.addFeature
  split
  · exact .refl _
  · split
    · exact .refl _
    · dsimp only
      split <;> exact st.kmem.kzalloc_later

theorem addFeatureTexts_ok (beyond : Beyond) (appid : UInt32) (name : CStr) :
    ∀ (texts : List CStr) (last : CStr) (st : KernelState × CArray 128), TextsFit texts last →
    IsOk (addFeatureTexts beyond appid name st texts last)
  | [], last, (st, a), h => by
    unfold addFeatureTexts
    split
    · exact isOk_ok _
    · rename_i hlen
      rw [MAX_FEATURE_STR_LEN] at hlen
      obtain ⟨h1, h2⟩ := h (by rw [MAX_FEATURE_STR_LEN]; omega)
      obtain ⟨_, _, _, _, _, h3⟩ :=
        addFeatureText_ok beyond appid name st a (Or.inr rfl) h1 h2
      exact ⟨_, h3⟩
  | text :: rest, last, (st, a), h => by
    unfold addFeatureTexts
    split
    · exact isOk_ok _
    · rename_i hlen
      obtain ⟨h1, h2, h3⟩ := h (by omega)
      obtain ⟨_, _, a', _, _, h4⟩ :=
        addFeatureText_ok beyond appid name st a (Or.inl rfl) h1 h2
      exact isOk_bind.mpr ⟨_, h4, addFeatureTexts_ok beyond appid name rest last _ h3⟩

theorem addFeatureText_fits {appid : UInt32} {name : CStr} {st : KernelState × CArray 128}
    {text : CStr} {k : Nat} (hk : k = text.strlen ∨ k = text.strlen + 1) (hle : k ≤ 128)
    (hm : st.1.kmem.AllOk) (h : IsOk (addFeatureText evil appid name st text k)) :
    k < 128 ∧ (MIN_FEATURE_STR_LEN ≤ text.strlen → FeatureFits text) := by
  obtain ⟨a1, h1, h⟩ := isOk_bind.mp h
  obtain ⟨a2, h2, h⟩ := isOk_bind.mp h
  obtain ⟨st', h3, _⟩ := isOk_bind.mp h
  have hlt : k < 128 := by
    rcases Nat.lt_or_eq_of_le hle with hlt | rfl
    · exact hlt
    · exact absurd (isOk_bind.mpr ⟨a1, h1, a2, h2⟩) (featureCopy_error st.2 text.bytes)
  refine ⟨hlt, fun hmin => ?_⟩
  obtain ⟨b1, b2, h4, h5, h6⟩ := featureCopy_ok st.2 hk hlt
  rw [h1] at h4
  cases h4
  rw [h2] at h5
  cases h5
  rw [h6] at h3
  exact addAppFeature_fits (by omega) (hm _) ⟨st', h3⟩ hmin

theorem addFeatureTexts_fits {appid : UInt32} {name : CStr} :
    ∀ (texts : List CStr) (last : CStr) (st : KernelState × CArray 128), st.1.kmem.AllOk →
    IsOk (addFeatureTexts evil appid name st texts last) → TextsFit texts last
  | [], last, st, hm, h => by
    intro hlen
    rw [MAX_FEATURE_STR_LEN] at hlen
    rw [addFeatureTexts, if_neg (by rw [MAX_FEATURE_STR_LEN]; omega)] at h
    exact addFeatureText_fits (Or.inr rfl) (by omega) hm h
  | text :: rest, last, (st, a), hm, h => by
    intro hlen
    rw [addFeatureTexts, if_neg (by omega)] at h
    obtain ⟨st', h1, h2⟩ := isOk_bind.mp h
    obtain ⟨hlt, hfits⟩ := addFeatureText_fits (Or.inl rfl) hlen hm ⟨st', h1⟩
    obtain ⟨sport, posInfo, a', _, _, h3⟩ :=
      addFeatureText_ok evil appid name st a (Or.inl rfl) hlt hfits
    rw [h1] at h3
    cases h3
    refine ⟨hlt, hfits, addFeatureTexts_fits rest last _ ?_ h2⟩
    intro k
    rw [(addFeature_later st appid name text sport posInfo).1]
    exact hm k

/-! ## 4. One message -/

/-- What the array sizes ask of a message: nothing when the line is turned away before its features
are looked at. -/
def MessageFits (data : List UInt8) : Prop :=
  let line := CStr.ofBytes data
  line.strchr 35 = false → (afParseFeatureAppHeader line).isSome = true →
    TextsFit (tokens 44 (featureBufOf line)).1 (tokens 44 (featureBufOf line)).2

theorem afInitFeature_ok {beyond : Beyond} {st : KernelState} {data : List UInt8}
    (h : MessageFits data) : IsOk (afInitFeature beyond st (.ofBytes data)) := by
  unfold afInitFeature
  dsimp only
  split
  · exact isOk_ok _
  · split
    · exact isOk_ok _
    · rename_i hhash
      split
      · exact isOk_ok _
      · rename_i appId appName hheader
        have hfit := h (by simpa using hhash) (by rw [hheader]; rfl)
        obtain ⟨st', h1⟩ := addFeatureTexts_ok beyond appId appName _ _
          (({ st with kmem := st.kmem.kzalloc.2 } : KernelState), .zeros 128) hfit
        exact isOk_bind.mpr ⟨st', h1, isOk_ok _⟩

theorem afInitFeature_fits {st : KernelState} {data : List UInt8} (hm : st.kmem.AllOk)
    (h : IsOk (afInitFeature evil st (.ofBytes data))) : MessageFits data := by
  intro hhash hheader
  obtain ⟨⟨appId, appName⟩, hheader⟩ := Option.isSome_iff_exists.mp hheader
  unfold afInitFeature at h
  simp only [Kmem.kzalloc_fst, hm _, Bool.not_true, Bool.false_eq_true, if_false, hhash,
    hheader] at h
  obtain ⟨st', h1, _⟩ := isOk_bind.mp h
  exact addFeatureTexts_fits (tokens 44 (featureBufOf (.ofBytes data))).1 _
    (({ st with kmem := st.kmem.kzalloc.2 } : KernelState), .zeros 128) hm ⟨st', h1⟩

/-- **Exactly the messages that fit overrun nothing**, whatever lies behind the arrays, whatever
the state and whichever allocations fail. -/
theorem add_feature_msg_fits_iff (data : List UInt8) (h0 : 0 < data.length)
    (h : data.length < MAX_FEATURE_LINE_LEN) :
    (∀ beyond st, IsOk (afAddFeatureMsgHandle beyond st data data.length)) ↔ MessageFits data := by
  have hrun : ∀ beyond st, afAddFeatureMsgHandle beyond st data data.length =
      afInitFeature beyond st (.ofBytes data) := by
    intro beyond st
    have h1 : ¬ ((data.length : Int) ≤ 0 ∨ (MAX_FEATURE_LINE_LEN : Int) ≤ data.length) := by omega
    simp only [afAddFeatureMsgHandle, Bool.or_eq_true, decide_eq_true_eq, if_neg h1,
      Int.toNat_natCast, List.take_length]
  simp only [hrun]
  constructor
  · intro hall
    exact afInitFeature_fits (fun _ => rfl) (hall evil { kmem := ⟨fun _ => true, 0⟩ })
  · exact fun hfit beyond st => afInitFeature_ok hfit

/-- An ordinary line. -/
theorem add_feature_msg_fits_iff_tcp :
    (∀ beyond st, IsOk (afAddFeatureMsgHandle beyond st (ascii "1001~web:[tcp;;443;example.com;;]")
      (ascii "1001~web:[tcp;;443;example.com;;]").length)) ↔
    MessageFits (ascii "1001~web:[tcp;;443;example.com;;]") :=
  add_feature_msg_fits_iff (ascii "1001~web:[tcp;;443;example.com;;]") (by decide) (by decide)

/-- A `host_url` field of 42 bytes leaves the 32 bytes of its buffer. -/
theorem add_feature_msg_overrun :
    ¬ ∀ data : List UInt8, 0 < data.length → data.length < MAX_FEATURE_LINE_LEN →
      ∀ beyond st, IsOk (afAddFeatureMsgHandle beyond st data data.length) := by
  intro hall
  have hok := hall (ascii "1001~web:[tcp;;443;a123456789b123456789c123456789.example.com;;]")
    (by decide) (by decide) (fun _ => .empty) { kmem := ⟨fun _ => true, 0⟩ }
  have hrun : overrunOf (afAddFeatureMsgHandle (fun _ => .empty) { kmem := ⟨fun _ => true, 0⟩ }
      (ascii "1001~web:[tcp;;443;a123456789b123456789c123456789.example.com;;]")
      (ascii "1001~web:[tcp;;443;a123456789b123456789c123456789.example.com;;]").length) =
      some .hostUrl := by decide +kernel
  rw [isOk_iff, hrun] at hok
  cases hok

end Oaf
