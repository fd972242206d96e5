/-
# A library on its way to the kernel

`fwx_load_feature_to_kernel` (`main.c`) goes through the text of the library, line by line, and sends a message for
each line that is long enough and has no `#` in it; before them the kernel is told to drop what it has, and behind
them come the lines of the custom applications and the message that the load is done.

A line is a text here, `lineFeatures` what it says: its features, apart from the places of their nodes in memory.

* `afInitFeature_line_features`: the kernel's loader makes these features of a line.
* `reload_replaces_library`: **behind a reload the kernel has the features of the lines that were sent and nothing
  else**, whatever it had before, and finds the names they are for.

A line that leaves one of the loader's arrays is excluded (`LineFits`), and all allocations are granted.
-/
import Oaf.Custom.Delivery
import Oaf.Hook.NameBlock
import Oaf.Update.FeatureLines

namespace Oaf

open CLib FeatureText

/-! ## 1. What is sent -/

/-- `str_trim`. -/
def strTrim (line : CStr) : CStr := trimSpace line

/-- The line that is sent for a line of the text: none if it is short, has a `#`, or is too long. -/
def libraryLine (line : CStr) : Option CStr :=
  let line := strTrim line
  if line.strlen < 8 ∨ line.strchr 35 = true ∨ MAX_FEATURE_LINE_LEN - 1 ≤ line.strlen then none
  else some line

/-- The loop over the calls of `fwx_feature_next_line`: one that returns -1 is passed over. -/
def libraryLines (calls : List (Int × CArray MAX_FEATURE_LINE_LEN)) : List CStr :=
  calls.filterMap fun call => if call.1 < 0 then none else libraryLine (call.2.read .empty)

/-- What `fwx_load_feature_to_kernel` sends, and what it returns. -/
structure LoadResult where
  messages : List FeatureMsg
  ret : Int

/-- The messages of some lines and of the custom applications. -/
def loadMessages (beyond : Beyond) (lines : List CStr) (config : CustomConfig) : LoadResult :=
  let added := lines.map fun line => FeatureMsg.addFeature beyond (fwxNlAddFeature line)
  let custom := fwxCustomFeatureSendToKernel config
  let messages := .cleanFeature :: (added ++ custom.1.map (FeatureMsg.addFeature beyond))
  if custom.2 then ⟨messages ++ [.featureLoadDone], 0⟩ else ⟨messages, -1⟩

/-- `fwx_load_feature_to_kernel`, when every message can be sent.  `buffers` is what `line_buf` holds before a call. -/
def fwxLoadFeatureToKernel (beyond : Beyond) (data : List UInt8) (buffers : Nat → CArray MAX_FEATURE_LINE_LEN)
    (config : CustomConfig) : Except Unit (Option LoadResult) :=
  if data = [] then .ok (some ⟨[], -1⟩)
  else (nextLines data buffers (data.length + 1) 0).map
    (·.map fun calls => loadMessages beyond (libraryLines calls) config)

/-- The kernel behind these messages. -/
def receiveMessages (st : KernelState) (messages : List FeatureMsg) : Option KernelState :=
  messages.foldlM fwxNetlinkMsgRcv st

/-! ## 2. What a line says -/

/-- A node apart from its place in memory. -/
def AfFeatureNode.content (node : AfFeatureNode) : AfFeatureNode := { node with addr := 0 }

/-- The feature of a text, if it is long enough and its protocol is known. -/
def textFeature (appid : UInt32) (name text : CStr) : Option AfFeatureNode :=
  if text.strlen < MIN_FEATURE_STR_LEN then none
  else (featureProto (fieldText text AF_PROTO_PARAM_INDEX)).map fun proto =>
    featureNode 0 appid name text proto (scanSrcPort (fieldText text AF_SRC_PORT_PARAM_INDEX))
      (dictPositions (fieldText text AF_DICT_PARAM_INDEX))

/-- The texts that are looked at: those in front of one that is too long. -/
def seenTexts : List CStr → CStr → List CStr
  | [], last => if MAX_FEATURE_STR_LEN < last.strlen + 1 then [] else [last]
  | text :: rest, last => if MAX_FEATURE_STR_LEN < text.strlen then [] else text :: seenTexts rest last

/-- The texts of a line. -/
def lineTexts (line : CStr) : List CStr :=
  seenTexts (tokens 44 (featureBufOf line)).1 (tokens 44 (featureBufOf line)).2

/-- **The features of a line.** -/
def lineFeatures (line : CStr) : List AfFeatureNode :=
  if line.strchr 35 = true ∨ 799 ≤ line.strlen then []
  else
    match afParseFeatureAppHeader line with
    | none => []
    | some (appId, appName) => (lineTexts line).filterMap (textFeature appId appName)

/-- The source port and the items of the position list do not fill their buffers to the last byte, where the NUL
is missing. -/
def FieldsRead (text : CStr) : Prop :=
  (fieldText text AF_SRC_PORT_PARAM_INDEX).strlen < 16 ∧
    ∀ item ∈ (tokens 124 (fieldText text AF_DICT_PARAM_INDEX)).1, item.strlen < 64

/-- The line stays inside the loader's arrays, and so does what is read of them. -/
structure LineFits (line : CStr) : Prop where
  message : MessageFits line.bytes
  fields : ∀ text ∈ lineTexts line, FieldsRead text

/-- The lines of the custom applications, up to one that cannot be printed. -/
def customLines (config : CustomConfig) : List CStr :=
  (config.map appToLine).takeWhile Option.isSome |>.filterMap fun line => line.map CStr.ofBytes

/-- The lines that are sent for a library and a configuration. -/
def sentLines (data : List UInt8) (config : CustomConfig) : List CStr :=
  ((textLines data).filterMap fun line =>
    if (dropCr line).length < MAX_FEATURE_LINE_LEN then libraryLine (.ofBytes (dropCr line)) else none) ++
  customLines config

/-- The kernel has these features and no others, and its automaton is ready for their hosts. -/
structure LibraryLoaded (st : KernelState) (library : List AfFeatureNode) : Prop where
  features : st.afFeatureHead.map AfFeatureNode.content = library.reverse
  clean : st.gUrlAcDirty = false
  upToDate : st.gUrlAc.ready = true ∧ ∃ word, Linked st.gUrlAc word (st.afFeatureHead.filter (·.literalHost))
  found : ∀ (lib : KernelLib) (flow : FlowInfo) (stat : AfAcMatchStat),
    ∃ res, afMatchUrlFeatureAc lib st.gUrlAc flow stat = some res ∧
      (res.node.isSome = true ↔ ∃ f ∈ library, Speaks lib flow f)

/-! ## 3. The lines of the text -/

theorem read_returned {raw : List UInt8} {call : Int × CArray MAX_FEATURE_LINE_LEN} (h : ReturnsLine raw call) :
    (if call.1 < 0 then none else libraryLine (call.2.read .empty)) =
      if (dropCr raw).length < MAX_FEATURE_LINE_LEN then libraryLine (.ofBytes (dropCr raw)) else none := by
  rw [ReturnsLine] at h
  split at h
  · rename_i hfits
    rw [h.1, if_neg (by decide), if_pos hfits, read_line h.2]
  · rename_i hlong
    rw [h.1, if_pos (by decide), if_neg hlong]

/-- **The lines that are sent** do not depend on what was in the buffer. -/
theorem libraryLines_eq {data : List UInt8} {calls : List (Int × CArray MAX_FEATURE_LINE_LEN)}
    (h : List.Forall₂ ReturnsLine (textLines data) calls) (config : CustomConfig) :
    libraryLines calls ++ customLines config = sentLines data config := by
  rw [sentLines, libraryLines]
  congr 1
  generalize textLines data = lines at h
  induction h with
  | nil => rfl
  | cons hcall _ ih => rw [List.filterMap_cons, List.filterMap_cons, read_returned hcall, ih]

theorem libraryLine_lt {raw line : CStr} (h : libraryLine raw = some line) : line.strlen < 799 := by
  rw [libraryLine, MAX_FEATURE_LINE_LEN] at h
  split at h
  · cases h
  · rename_i hkept
    obtain rfl := Option.some.inj h
    omega

/-- What is sent for the custom applications. -/
theorem customMessages_eq (config : CustomConfig) :
    (fwxCustomFeatureSendToKernel config).1 = (customLines config).map fwxNlAddFeature := by
  induction config with
  | nil => rfl
  | cons app rest ih =>
    rw [fwxCustomFeatureSendToKernel, customLines]
    cases hline : appToLine app with
    | none => simp [hline]
    | some line =>
      rw [customLines] at ih
      simp [hline, ih]

theorem customLine_le {config : CustomConfig} {line : CStr} (h : line ∈ customLines config) :
    line.strlen ≤ CUSTOM_MAX_APP_LINE := by
  rw [customLines] at h
  obtain ⟨text, htext, hline⟩ := List.mem_filterMap.mp h
  obtain ⟨app, -, rfl⟩ := List.mem_map.mp ((List.takeWhile_prefix _).subset htext)
  obtain ⟨text, htext, rfl⟩ := Option.map_eq_some_iff.mp hline
  obtain ⟨hfits, rfl⟩ := appToLine_eq_some.mp htext
  exact (CStr.ofBytes_strlen_le _).trans hfits.line

/-! ## 4. One line in the kernel -/

section Line

variable (beyond : Beyond) {st : KernelState}

/-- **One text**: its feature goes to the head of the list. -/
theorem addFeatureText_content (appid : UInt32) (name : CStr) (a : CArray 128) {text : CStr} {k : Nat}
    (hk : k = text.strlen ∨ k = text.strlen + 1) (hlt : k < 128) (hmem : st.kmem.AllOk)
    (hfits : MIN_FEATURE_STR_LEN ≤ text.strlen → FeatureFits text)
    (hsport : (fieldText text AF_SRC_PORT_PARAM_INDEX).strlen < 16)
    (hdict : ∀ item ∈ (tokens 124 (fieldText text AF_DICT_PARAM_INDEX)).1, item.strlen < 64) :
    ∃ st' a', addFeatureText beyond appid name (st, a) text k = .ok (st', a') ∧ st'.kmem.AllOk ∧
      st'.afFeatureHead.map AfFeatureNode.content =
        (textFeature appid name text).toList ++ st.afFeatureHead.map AfFeatureNode.content := by
  obtain ⟨sport, posInfo, a', hsport', hdict', hrun⟩ :=
    addFeatureText_ok beyond appid name st a hk hlt hfits
  refine ⟨_, a', hrun, ?_, ?_⟩
  · intro n
    rw [(addFeature_later st appid name text sport posInfo).1]
    exact hmem n
  · rw [KernelState.addFeature, textFeature, hsport' hsport, hdict' hdict]
    split
    · rfl
    · cases featureProto (fieldText text AF_PROTO_PARAM_INDEX) with
      | none => rfl
      | some proto =>
        simp only [hmem _, if_true, KernelState.addNode, List.map_cons, Option.map_some, Option.toList_some,
          List.singleton_append, AfFeatureNode.content, featureNode]

/-- **The texts of a line**, in their order: the feature of the last one is at the head. -/
theorem addFeatureTexts_content (appid : UInt32) (name : CStr) :
    ∀ (texts : List CStr) (last : CStr) (st : KernelState) (a : CArray 128), TextsFit texts last →
      (∀ text ∈ seenTexts texts last, FieldsRead text) → st.kmem.AllOk →
      ∃ st' a', addFeatureTexts beyond appid name (st, a) texts last = .ok (st', a') ∧ st'.kmem.AllOk ∧
        st'.afFeatureHead.map AfFeatureNode.content =
          ((seenTexts texts last).filterMap (textFeature appid name)).reverse ++
            st.afFeatureHead.map AfFeatureNode.content
  | [], last, st, a, hfit, hread, hmem => by
    rw [addFeatureTexts, seenTexts]
    rw [seenTexts] at hread
    split
    · exact ⟨st, a, rfl, hmem, rfl⟩
    · rename_i hlen
      rw [if_neg hlen] at hread
      rw [MAX_FEATURE_STR_LEN] at hlen
      obtain ⟨hlt, hfeature⟩ := hfit (by rw [MAX_FEATURE_STR_LEN]; omega)
      obtain ⟨hsport, hdict⟩ := hread last (List.mem_singleton_self last)
      obtain ⟨st', a', hrun, hmem', hhead⟩ := addFeatureText_content beyond appid name a (Or.inr rfl) hlt
        hmem hfeature hsport hdict
      refine ⟨st', a', hrun, hmem', ?_⟩
      rw [hhead]
      cases htext : textFeature appid name last <;> simp [htext]
  | text :: rest, last, st, a, hfit, hread, hmem => by
    rw [addFeatureTexts, seenTexts]
    rw [seenTexts] at hread
    split
    · exact ⟨st, a, rfl, hmem, rfl⟩
    · rename_i hlen
      rw [if_neg hlen] at hread
      obtain ⟨hlt, hfeature, hrest⟩ := hfit (Nat.le_of_not_lt hlen)
      obtain ⟨hsport, hdict⟩ := hread text (List.mem_cons_self ..)
      obtain ⟨st1, a1, hrun, hmem1, hhead⟩ := addFeatureText_content beyond appid name a (Or.inl rfl) hlt
        hmem hfeature hsport hdict
      obtain ⟨st', a', hrun', hmem', hhead'⟩ := addFeatureTexts_content appid name rest last st1 a1 hrest
        (fun t ht => hread t (List.mem_cons_of_mem _ ht)) hmem1
      refine ⟨st', a', ?_, hmem', ?_⟩
      · rw [hrun]
        exact hrun'
      · rw [hhead', hhead]
        cases htext : textFeature appid name text <;> simp [htext]

/-- **`af_init_feature` on a line** that fits: the line's features are in front of what was there. -/
theorem afInitFeature_line_features {line : CStr} (hfits : LineFits line) (hshort : line.strlen < 799)
    (hmem : st.kmem.AllOk) :
    ∃ st', afInitFeature beyond st line = .ok st' ∧ st'.kmem.AllOk ∧
      st'.afFeatureHead.map AfFeatureNode.content =
        (lineFeatures line).reverse ++ st.afFeatureHead.map AfFeatureNode.content := by
  rw [afInitFeature, lineFeatures]
  simp only [Kmem.kzalloc_fst, hmem _, Bool.not_true, Bool.false_eq_true, if_false, Nat.not_le.mpr hshort, or_false]
  by_cases hhash : line.strchr 35 = true
  · rw [if_pos hhash, if_pos hhash]
    exact ⟨_, rfl, hmem.kzalloc, rfl⟩
  · rw [if_neg hhash, if_neg hhash]
    cases hheader : afParseFeatureAppHeader line with
    | none => exact ⟨_, rfl, hmem.kzalloc, rfl⟩
    | some header =>
      obtain ⟨appId, appName⟩ := header
      have hwhole : CStr.ofBytes line.bytes = line := CStr.ofBytes_bytes line
      have hfit : TextsFit (tokens 44 (featureBufOf line)).1 (tokens 44 (featureBufOf line)).2 := by
        have h := hfits.message
        rw [MessageFits, hwhole] at h
        exact h (by simpa using hhash) (by rw [hheader]; rfl)
      obtain ⟨st1, a1, hrun, hmem1, hhead⟩ := addFeatureTexts_content beyond appId appName
        (tokens 44 (featureBufOf line)).1 (tokens 44 (featureBufOf line)).2
        ({ st with kmem := st.kmem.kzalloc.2 } : KernelState) (.zeros 128) hfit hfits.fields hmem.kzalloc
      refine ⟨{ st1 with gFeatureCount := st1.gFeatureCount + 1 }, ?_, hmem1, hhead⟩
      simp only [hrun]
      rfl

/-- **The message of a line.** -/
theorem receive_line {line : CStr} (hfits : LineFits line) (hlen : line.strlen ≤ CUSTOM_MAX_APP_LINE)
    (hmem : st.kmem.AllOk) :
    ∃ st', fwxNetlinkMsgRcv st (.addFeature beyond (fwxNlAddFeature line)) = some st' ∧ st'.kmem.AllOk ∧
      Grows st st' ∧
      st'.afFeatureHead.map AfFeatureNode.content =
        (lineFeatures line).reverse ++ st.afFeatureHead.map AfFeatureNode.content := by
  by_cases hshort : line.strlen < 799
  · obtain ⟨st', hrun, hmem', hhead⟩ := afInitFeature_line_features beyond hfits hshort hmem
    have hrcv : fwxNetlinkMsgRcv st (.addFeature beyond (fwxNlAddFeature line)) = some st' := by
      rw [fwxNetlinkMsgRcv_line beyond st hlen, if_pos hshort, hrun]
      rfl
    refine ⟨st', hrcv, hmem', ?_, hhead⟩
    rw [fwxNetlinkMsgRcv] at hrcv
    split at hrcv
    · cases hrcv
      exact .refl st
    · exact featureStep_add_grows hrcv
  · refine ⟨st, ?_, hmem, .refl st, ?_⟩
    · rw [fwxNetlinkMsgRcv_line beyond st hlen, if_neg hshort]
    · rw [lineFeatures, if_pos (Or.inr (Nat.le_of_not_lt hshort))]
      rfl

/-- **The lines**, by induction on them. -/
theorem receive_lines : ∀ (lines : List CStr) (st : KernelState), st.kmem.AllOk →
    (∀ line ∈ lines, LineFits line ∧ line.strlen ≤ CUSTOM_MAX_APP_LINE) →
    ∃ st', receiveMessages st (lines.map fun line => .addFeature beyond (fwxNlAddFeature line)) = some st' ∧
      st'.kmem.AllOk ∧ Grows st st' ∧
      st'.afFeatureHead.map AfFeatureNode.content =
        (lines.flatMap lineFeatures).reverse ++ st.afFeatureHead.map AfFeatureNode.content
  | [], st, hmem, _ => ⟨st, rfl, hmem, .refl st, rfl⟩
  | line :: rest, st, hmem, hall => by
    obtain ⟨hfits, hlen⟩ := hall line (List.mem_cons_self ..)
    obtain ⟨st1, hrcv, hmem1, hgrows, hhead⟩ := receive_line beyond hfits hlen hmem
    obtain ⟨st', hrest, hmem', hgrows', hhead'⟩ := receive_lines rest st1 hmem1
      fun l hl => hall l (List.mem_cons_of_mem _ hl)
    refine ⟨st', ?_, hmem', hgrows.trans hgrows', ?_⟩
    · rw [List.map_cons, receiveMessages, List.foldlM_cons, hrcv]
      exact hrest
    · rw [hhead', hhead, List.flatMap_cons, List.reverse_append, List.append_assoc]

end Line

/-! ## 5. The whole reload -/

/-- What is asked of a packet's names does not depend on where a node is. -/
theorem speaks_content (lib : KernelLib) (flow : FlowInfo) (f : AfFeatureNode) :
    Speaks lib flow f.content ↔ Speaks lib flow f := Iff.rfl

/-- A feature of the kernel speaks for a packet iff one of the library does. -/
theorem exists_speaks_iff {head library : List AfFeatureNode} (h : head.map AfFeatureNode.content = library.reverse)
    (lib : KernelLib) (flow : FlowInfo) :
    (∃ f ∈ head, Speaks lib flow f) ↔ ∃ f ∈ library, Speaks lib flow f := by
  constructor
  · rintro ⟨f, hf, hspeaks⟩
    have hmem : f.content ∈ head.map AfFeatureNode.content := List.mem_map_of_mem hf
    rw [h, List.mem_reverse] at hmem
    exact ⟨f.content, hmem, (speaks_content lib flow f).mpr hspeaks⟩
  · rintro ⟨f, hf, hspeaks⟩
    have hmem : f ∈ head.map AfFeatureNode.content := by rw [h]; exact List.mem_reverse.mpr hf
    obtain ⟨node, hnode, rfl⟩ := List.mem_map.mp hmem
    exact ⟨node, hnode, (speaks_content lib flow node).mp hspeaks⟩

/-- A ready automaton for the features in the list. -/
theorem libraryLoaded_of_linked {st : KernelState} {library : List AfFeatureNode} {word : Nat → List UInt8}
    (hhead : st.afFeatureHead.map AfFeatureNode.content = library.reverse) (hclean : st.gUrlAcDirty = false)
    (hready : st.gUrlAc.ready = true) (hlinked : Linked st.gUrlAc word (st.afFeatureHead.filter (·.literalHost))) :
    LibraryLoaded st library where
  features := hhead
  clean := hclean
  upToDate := ⟨hready, word, hlinked⟩
  found := by
    intro lib flow stat
    obtain ⟨res, hres, hfound⟩ := linked_url_feature hlinked hready lib flow stat
    refine ⟨res, hres, hfound.trans ?_⟩
    rw [← exists_speaks_iff hhead lib flow]
    constructor
    · rintro (⟨name, hname, hip, f, hf, hnamed, hcond⟩ | ⟨name, hname, f, hf, hnamed⟩)
      · exact ⟨f, hf, .inl ⟨name, hname, hip, hnamed, hcond⟩⟩
      · exact ⟨f, hf, .inr ⟨name, hname, hnamed⟩⟩
    · rintro ⟨f, hf, ⟨name, hname, hip, hnamed, hcond⟩ | ⟨name, hname, hnamed⟩⟩
      · exact .inl ⟨name, hname, hip, f, hf, hnamed, hcond⟩
      · exact .inr ⟨name, hname, f, hf, hnamed⟩

/-- The second number of the custom part says whether every application could be printed. -/
theorem customSent_iff (config : CustomConfig) :
    (fwxCustomFeatureSendToKernel config).2 = true ↔ ∀ app ∈ config, (appToLine app).isSome = true := by
  induction config with
  | nil => simp [fwxCustomFeatureSendToKernel]
  | cons app rest ih =>
    rw [fwxCustomFeatureSendToKernel]
    cases hline : appToLine app with
    | none => simp [hline]
    | some line => simp [hline, ih]

/-- **What is sent**: the clean message, one message for each line, and the done message if all applications could
be printed. -/
theorem loadMessages_eq (beyond : Beyond) {lines : List CStr} {config : CustomConfig} {sent : List CStr}
    (h : lines ++ customLines config = sent) :
    (loadMessages beyond lines config).messages =
      .cleanFeature :: (sent.map fun line => .addFeature beyond (fwxNlAddFeature line)) ++
        (if (fwxCustomFeatureSendToKernel config).2 then [.featureLoadDone] else []) := by
  rw [loadMessages, customMessages_eq, ← h, List.map_append, List.map_map]
  split
  · rfl
  · rw [List.append_nil]
    rfl

/-- **Behind a reload** the kernel has the features of the lines that were sent, in their order, and nothing of what
it had before.  If all custom applications could be printed its automaton is ready and finds the names that the
features are for; else it stays as the clean message left it, and finds none. -/
theorem reload_replaces_library (beyond : Beyond) {data : List UInt8} (hdata : data ≠ [])
    (buffers : Nat → CArray MAX_FEATURE_LINE_LEN) (config : CustomConfig)
    (hfits : ∀ line ∈ sentLines data config, LineFits line) {st : KernelState} (hmem : st.kmem.AllOk) :
    ∃ r st', fwxLoadFeatureToKernel beyond data buffers config = .ok (some r) ∧
      receiveMessages st r.messages = some st' ∧
      st'.afFeatureHead.map AfFeatureNode.content = ((sentLines data config).flatMap lineFeatures).reverse ∧
      (r.ret = 0 ↔ ∀ app ∈ config, (appToLine app).isSome = true) ∧
      (r.ret = 0 → LibraryLoaded st' ((sentLines data config).flatMap lineFeatures)) ∧
      (r.ret ≠ 0 → st'.gUrlAc.ready = false) := by
  have hfuel : (textLines (data.drop 0)).length < data.length + 1 := Nat.lt_succ_of_le (textLines_length_le data)
  obtain ⟨calls, hcalls, hreturns⟩ := nextLines_from (by decide) buffers hfuel
  have hsent : libraryLines calls ++ customLines config = sentLines data config := libraryLines_eq hreturns config
  have hlens : ∀ line ∈ sentLines data config, LineFits line ∧ line.strlen ≤ CUSTOM_MAX_APP_LINE := by
    intro line hline
    refine ⟨hfits line hline, ?_⟩
    rw [sentLines] at hline
    rcases List.mem_append.mp hline with hline | hline
    · obtain ⟨raw, -, hraw⟩ := List.mem_filterMap.mp hline
      split at hraw
      · exact (libraryLine_lt hraw).le
      · cases hraw
    · exact customLine_le hline
  -- the kernel drops what it has, and takes the lines in
  obtain ⟨st1, hlines, hmem1, hgrows, hhead⟩ := receive_lines beyond (sentLines data config)
    (afCleanFeatureList st) hmem hlens
  rw [afCleanFeatureList, List.map_nil, List.append_nil] at hhead
  have hdirty : st1.gUrlAcDirty = true := by
    obtain ⟨nodes, -, -, -, hdirty⟩ := hgrows.nodes
    rw [hdirty, afCleanFeatureList, Bool.or_true]
  have hload : fwxLoadFeatureToKernel beyond data buffers config =
      .ok (some (loadMessages beyond (libraryLines calls) config)) := by
    rw [fwxLoadFeatureToKernel, if_neg hdata, hcalls]
    rfl
  have hrun : ∀ tail, receiveMessages st
      (.cleanFeature :: ((sentLines data config).map fun line => .addFeature beyond (fwxNlAddFeature line)) ++ tail) =
        receiveMessages st1 tail := by
    intro tail
    have hclean : fwxNetlinkMsgRcv st .cleanFeature = some (afCleanFeatureList st) := rfl
    rw [receiveMessages] at hlines
    rw [receiveMessages, List.cons_append, List.foldlM_cons, hclean, Option.bind_eq_bind, Option.bind_some,
      List.foldlM_append, hlines]
    rfl
  have hmessages := loadMessages_eq beyond hsent
  cases hall : (fwxCustomFeatureSendToKernel config).2 with
  | false =>
    rw [hall, if_neg (by decide)] at hmessages
    have hret : (loadMessages beyond (libraryLines calls) config).ret = -1 := by
      rw [loadMessages, hall]
      rfl
    refine ⟨_, st1, hload, by rw [hmessages, hrun]; rfl, hhead, ?_, ?_, ?_⟩
    · rw [← customSent_iff, hret, hall]
      decide
    · rw [hret]
      exact fun h => absurd h (by decide)
    · intro _
      rw [hgrows.ac]
      rfl
  | true =>
    rw [hall, if_pos rfl] at hmessages
    have hret : (loadMessages beyond (libraryLines calls) config).ret = 0 := by
      rw [loadMessages, hall]
      rfl
    obtain ⟨r, hr, hlater, -, hcases⟩ := rebuild_cases st1.gUrlAc st1.kmem st1.afFeatureHead
    have hgranted : st1.kmem.OkUntil r.m := fun k _ _ => hmem1 k
    obtain ⟨-, -, -, hno⟩ | ⟨-, hclean, hready, -, word, items, hlinked, -, hitems⟩ := hcases
    · exact absurd hgranted hno
    · have hdone : receiveMessages st1 [.featureLoadDone] =
          some { st1 with gUrlAc := r.g, gUrlAcDirty := r.dirty, kmem := r.m } := by
        have hmsg : fwxNetlinkMsgRcv st1 .featureLoadDone = afFeatureLoadDoneMsgHandle st1 := rfl
        rw [receiveMessages, List.foldlM_cons, hmsg, afFeatureLoadDoneMsgHandle, if_pos hdirty, hr]
        rfl
      rw [hitems (.inl hgranted)] at hlinked
      refine ⟨_, { st1 with gUrlAc := r.g, gUrlAcDirty := r.dirty, kmem := r.m }, hload,
        by rw [hmessages, hrun]; exact hdone, hhead, ?_, fun _ => ?_, ?_⟩
      · rw [← customSent_iff, hret, hall]
        decide
      · exact libraryLoaded_of_linked hhead hclean hready hlinked
      · rw [hret]
        exact fun h => absurd rfl h

/-- A line of the library, a comment and a short line. -/
def webData : List UInt8 := ascii "1001~web:[tcp;;443;example.com;;]\r\n# old lines\n\n"

theorem sentLines_webData : sentLines webData [] = [.lit "1001~web:[tcp;;443;example.com;;]"] := by
  decide +kernel

/-- A kernel that has a feature already. -/
def oldLibrary : KernelState :=
  { afFeatureHead := [adsFeature], kmem := ⟨fun _ => true, 1⟩ }

theorem reload_replaces_library_web :
    ∃ r st', fwxLoadFeatureToKernel (fun _ => .empty) webData (fun _ => .zeros _) [] = .ok (some r) ∧
      receiveMessages oldLibrary r.messages = some st' ∧ r.ret = 0 ∧
      LibraryLoaded st' ((sentLines webData []).flatMap lineFeatures) := by
  have hfits : ∀ line ∈ sentLines webData [], LineFits line := by
    intro line hline
    rw [sentLines_webData, List.mem_singleton] at hline
    subst hline
    refine ⟨afInitFeature_fits (fun _ => rfl : oldLibrary.kmem.AllOk) (isOk_iff.mpr ?_), ?_⟩
    · decide +kernel
    · unfold FieldsRead
      decide +kernel
  obtain ⟨r, st', hload, hreceive, -, hret, hloaded, -⟩ := @reload_replaces_library (fun _ => .empty) webData
    (by decide) (fun _ => .zeros _) [] hfits oldLibrary (fun _ => rfl)
  have hzero : r.ret = 0 := hret.mpr (fun app happ => absurd happ List.not_mem_nil)
  exact ⟨r, st', hload, hreceive, hzero, hloaded hzero⟩

end Oaf
