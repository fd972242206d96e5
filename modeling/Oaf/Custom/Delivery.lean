/-
# From a custom application to the kernel's features

`fwx_custom_feature_send_to_kernel` prints each application and sends the line with
`fwx_nl_add_feature`; the kernel takes the netlink message apart and loads the line.  `Delivered`
says what that is for: one node for each feature, in order, with what the feature says.

fwxd's limits and the kernel's do not meet in four places.  The kernel skips a line with a `#` in it,
which fwxd allows in names, domains and uris; it wants the line and its terminator in less than 800
bytes, where fwxd prints up to 799; the last feature of a line is copied with its terminator into
an array that has no room for a second one when the text has 127 bytes; and a name of bytes 0xA0
is white space for the kernel only.

* `addFeatureTexts_features`: **loading valid features**, by induction on the line.
* `CustomApp.KernelLoads`: the condition on an application.
* `custom_feature_delivered_iff`: **exactly what is delivered.**
* `custom_config_delivered`: a whole configuration, application by application.
-/
import Oaf.Custom.Kernel
import Oaf.Custom.Request
import Oaf.Lib.Words
import Oaf.UrlAc.Coherence

namespace Oaf

open CLib

/-! ## 1. Messages -/

def MAX_FWX_NETLINK_MSG_LEN : Int := 1024

/-- `sizeof(fwx_nl_msg_t)`, which is `sizeof(af_msg_t)`. -/
def FWX_NL_MSG_SIZE : Int := 4

/-- The length in the header of a message. -/
def FeatureMsg.len : FeatureMsg → Int
  | .addFeature _ data => FWX_NL_MSG_SIZE + data.length
  | .cleanFeature => FWX_NL_MSG_SIZE
  | .featureLoadDone => FWX_NL_MSG_SIZE

/-- `fwx_nl_add_feature`: the data of the message, the line and its terminator. -/
def fwxNlAddFeature (feature : CStr) : List UInt8 := feature.bytes ++ [0]

/-- `fwx_custom_feature_send_to_kernel(fwx_nl_add_feature)`: the data of the messages sent, and
whether every line could be printed. -/
def fwxCustomFeatureSendToKernel : CustomConfig → List (List UInt8) × Bool
  | [] => ([], true)
  | app :: rest =>
    match appToLine app with
    | none => ([], false)
    | some line =>
      let r := fwxCustomFeatureSendToKernel rest
      (fwxNlAddFeature (.ofBytes line) :: r.1, r.2)

/-- `fwx_netlink_msg_rcv`. -/
def fwxNetlinkMsgRcv (st : KernelState) (msg : FeatureMsg) : Option KernelState :=
  if msg.len ≤ 0 ∨ MAX_FWX_NETLINK_MSG_LEN ≤ msg.len then some st
  else fwxUserMsgHandle st msg

/-- The messages of a configuration, one after the other. -/
def receiveAll (beyond : Beyond) (st : KernelState) (messages : List (List UInt8)) :
    Option KernelState :=
  messages.foldlM (fun st data => fwxNetlinkMsgRcv st (.addFeature beyond data)) st

/-! ## 2. What is to be delivered -/

/-- An application fwxd accepts, from a request or from a line of the file. -/
def AcceptedByFwxd (classes : ClassNameTable) (app : CustomApp) : Prop :=
  (∃ baseAppCount request config,
    configFromJson classes baseAppCount request = .ok config ∧ app ∈ config) ∨
  ∃ (config : CustomConfig) (line : CStr), parseAppLine classes config line.bytes = .ok (config ++ [app])

/-- The node of a custom feature. -/
structure NodeOf (appid : Int) (feature : CustomFeature) (node : AfFeatureNode) : Prop where
  appId : (node.appId.toNat : Int) = appid
  proto : feature.protocol.bytes = ascii "tcp" ∧ node.proto = IPPROTO_TCP ∨
    feature.protocol.bytes = ascii "udp" ∧ node.proto = IPPROTO_UDP
  dport : ∃ port, scanDestPort feature.destPort = some port ∧ node.dportInfo.rangeList = port.ranges
  hostUrl : node.hostUrl = feature.domain
  requestUrl : node.requestUrl = feature.uri
  posInfo : node.posInfo = feature.payload.map posOf

/-- **The line is delivered**: the kernel has one node more for each feature, the later ones in front. -/
def Delivered (beyond : Beyond) (st : KernelState) (app : CustomApp) (line : List UInt8) : Prop :=
  ∃ st' nodes,
    fwxNetlinkMsgRcv st (.addFeature beyond (fwxNlAddFeature (.ofBytes line))) = some st' ∧
    st'.afFeatureHead = nodes.reverse ++ st.afFeatureHead ∧
    List.Forall₂ (NodeOf app.appid) app.features nodes

/-- The next `n` allocations are granted. -/
def Granted (m : Kmem) (n : Nat) : Prop := ∀ k < n, m.outcome (m.used + k) = true

/-- The length of a payload item's text. -/
def CustomPayload.textLength (p : CustomPayload) : Nat := (printInt p.position).length + 3

/-- The length of a feature's text: the protocol, five semicolons, the fields, and the payload with
a `|` between its items. -/
def CustomFeature.textLength (feature : CustomFeature) : Nat :=
  8 + feature.destPort.strlen + feature.domain.strlen + feature.uri.strlen +
    (feature.payload.map CustomPayload.textLength).sum + (feature.payload.length - 1)

/-- The length of an application's line: `id~name:[`, the features with a comma between them, `]`. -/
def CustomApp.lineLength (app : CustomApp) : Nat :=
  (printInt app.appid).length + app.name.strlen + 4 +
    (app.features.map CustomFeature.textLength).sum + (app.features.length - 1)

/-- What the kernel asks of an application beyond fwxd's checks. -/
structure CustomApp.KernelLoads (app : CustomApp) : Prop where
  nameHash : (35 : UInt8) ∉ app.name.bytes
  featureHash : ∀ f ∈ app.features, (35 : UInt8) ∉ f.domain.bytes ∧ (35 : UInt8) ∉ f.uri.bytes
  visible : ∃ c ∈ app.name.bytes, Kernel.isspace c = false
  line : app.lineLength < 799
  last : ∀ f, app.features.getLast? = some f → f.textLength < 127

/-! ## 3. Lengths and bytes -/

theorem intercalate_length (d : UInt8) : ∀ l : List (List UInt8),
    ([d].intercalate l).length = (l.map List.length).sum + (l.length - 1)
  | [] => by simp
  | [t] => by simp
  | t :: t' :: l => by
    have ih := intercalate_length d (t' :: l)
    simp only [List.intercalate_cons_cons, List.length_append, ih, List.map_cons, List.sum_cons,
      List.length_cons, List.length_nil]
    omega

theorem payloadText_length (p : CustomPayload) : (payloadText p).length = p.textLength := by
  simp [payloadText, printHex2, CustomPayload.textLength]

theorem featureText_length {feature : CustomFeature} (h : feature.Valid) :
    (featureText feature).length = feature.textLength := by
  have hproto := (map_tolower_protocol h.protocol).2.1
  have hmap : feature.payload.map (List.length ∘ payloadText) =
      feature.payload.map CustomPayload.textLength :=
    List.map_congr_left (fun p _ => payloadText_length p)
  simp only [featureText, featureHead, List.length_append, List.length_cons, List.length_nil,
    intercalate_length, List.map_map, hmap, List.length_map, hproto, CustomFeature.textLength,
    CStr.strlen]
  omega

theorem appText_length {classes : ClassNameTable} {app : CustomApp} (h : app.Valid classes) :
    (appText app).length = app.lineLength := by
  have hmap : app.features.map (List.length ∘ featureText) =
      app.features.map CustomFeature.textLength :=
    List.map_congr_left (fun f hf => featureText_length (h.features f hf))
  simp only [appText, appHead, List.length_append, List.length_cons, List.length_nil,
    intercalate_length, List.map_map, hmap, List.length_map, CustomApp.lineLength, CStr.strlen]
  have hbrackets : (ascii ":[").length = 2 := rfl
  omega

/-- Where a `#` in a line comes from. -/
theorem hash_mem_appText {classes : ClassNameTable} {app : CustomApp} (h : app.Valid classes) :
    (35 : UInt8) ∈ appText app ↔ (35 : UInt8) ∈ app.name.bytes ∨
      ∃ f ∈ app.features, (35 : UInt8) ∈ f.domain.bytes ∨ (35 : UInt8) ∈ f.uri.bytes := by
  constructor
  · intro h0
    rcases mem_appText h h0 with h0 | h0 | h0 | h0
    · exact Or.inl h0
    · exact Or.inr h0
    · exact absurd h0 (by decide)
    · exact absurd h0 (by decide)
  · rintro (h0 | ⟨f, hf, h0⟩)
    · simp [appText, appHead, h0]
    · have hmem : (35 : UInt8) ∈ featureText f := by
        rcases h0 with h0 | h0 <;> simp [featureText, featureHead, h0]
      have hall := mem_intercalate_of_mem (d := 44) (List.mem_map_of_mem hf) hmem
      simp [appText, hall]

/-- A name the kernel sees nothing of. -/
theorem trim_eq_nil_iff {l : List UInt8} :
    Kernel.trim l = [] ↔ ¬ ∃ c ∈ l, Kernel.isspace c = false := by
  rw [Kernel.trim, List.rdropWhile_eq_nil_iff]
  constructor
  · rintro h ⟨c, hc, hno⟩
    by_cases hnil : l.dropWhile Kernel.isspace = []
    · rw [List.dropWhile_eq_nil_iff.mp hnil c hc] at hno
      cases hno
    · have hhead := List.head_dropWhile_not Kernel.isspace hnil
      rw [h _ (List.head_mem hnil)] at hhead
      cases hhead
  · intro h c hc
    by_contra hno
    exact h ⟨c, (List.dropWhile_suffix _).subset hc, by simpa using hno⟩

/-! ## 4. Loading features -/

theorem granted_one {m : Kmem} : Granted m 1 ↔ m.outcome m.used = true := by
  constructor
  · exact fun h => h 0 (by decide)
  · intro h k hk
    have hk0 : k = 0 := by omega
    rw [hk0]
    exact h

theorem granted_add {m m' : Kmem} {a b : Nat} (ho : m'.outcome = m.outcome)
    (hu : m'.used = m.used + a) : Granted m (a + b) ↔ Granted m a ∧ Granted m' b := by
  constructor
  · intro h
    refine ⟨fun k hk => h k (by omega), fun k hk => ?_⟩
    have := h (a + k) (by omega)
    rwa [ho, hu, Nat.add_assoc]
  · rintro ⟨h1, h2⟩ k hk
    by_cases hka : k < a
    · exact h1 k hka
    · have := h2 (k - a) (by omega)
      rw [ho, hu] at this
      have hsum : m.used + a + (k - a) = m.used + k := by omega
      rwa [hsum] at this

/-- What loading some features leaves: a node for each, or fewer when memory runs out. -/
structure FeaturesLoaded (appid : Int) (features : List CustomFeature) (st st' : KernelState) :
    Prop where
  outcome : st'.kmem.outcome = st.kmem.outcome
  used : st'.kmem.used = st.kmem.used + features.length
  loaded : Granted st.kmem features.length → ∃ nodes,
    List.Forall₂ (NodeOf appid) features nodes ∧
      st'.afFeatureHead = nodes.reverse ++ st.afFeatureHead
  short : ¬ Granted st.kmem features.length → ∃ nodes, nodes.length < features.length ∧
    st'.afFeatureHead = nodes ++ st.afFeatureHead

theorem FeaturesLoaded.nil (appid : Int) (st : KernelState) : FeaturesLoaded appid [] st st where
  outcome := rfl
  used := rfl
  loaded := fun _ => ⟨[], .nil, rfl⟩
  short := fun h => absurd (fun k hk => absurd hk (Nat.not_lt_zero k)) h

/-- However many were granted, no more nodes than features. -/
theorem FeaturesLoaded.nodes {appid : Int} {features : List CustomFeature} {st st' : KernelState}
    (h : FeaturesLoaded appid features st st') : ∃ nodes, nodes.length ≤ features.length ∧
      st'.afFeatureHead = nodes ++ st.afFeatureHead := by
  by_cases hg : Granted st.kmem features.length
  · obtain ⟨nodes, h1, h2⟩ := h.loaded hg
    exact ⟨nodes.reverse, by simp [h1.length_eq], h2⟩
  · obtain ⟨nodes, h1, h2⟩ := h.short hg
    exact ⟨nodes, Nat.le_of_lt h1, h2⟩

theorem FeaturesLoaded.append {appid : Int} {a b : List CustomFeature} {st st1 st2 : KernelState}
    (h1 : FeaturesLoaded appid a st st1) (h2 : FeaturesLoaded appid b st1 st2) :
    FeaturesLoaded appid (a ++ b) st st2 := by
  have hgrant : Granted st.kmem (a.length + b.length) ↔
      Granted st.kmem a.length ∧ Granted st1.kmem b.length := granted_add h1.outcome h1.used
  refine ⟨h2.outcome.trans h1.outcome, ?_, ?_, ?_⟩
  · rw [h2.used, h1.used, List.length_append, Nat.add_assoc]
  · intro hg
    rw [List.length_append, hgrant] at hg
    obtain ⟨n1, h3, h4⟩ := h1.loaded hg.1
    obtain ⟨n2, h5, h6⟩ := h2.loaded hg.2
    exact ⟨n1 ++ n2, List.rel_append h3 h5, by simp [h6, h4]⟩
  · intro hg
    rw [List.length_append, hgrant] at hg
    by_cases hga : Granted st.kmem a.length
    · obtain ⟨n1, h3, h4⟩ := h1.nodes
      obtain ⟨n2, h5, h6⟩ := h2.short (fun hgb => hg ⟨hga, hgb⟩)
      exact ⟨n2 ++ n1, by simp; omega, by simp [h6, h4]⟩
    · obtain ⟨n1, h3, h4⟩ := h1.short hga
      obtain ⟨n2, h5, h6⟩ := h2.nodes
      exact ⟨n2 ++ n1, by simp; omega, by simp [h6, h4]⟩

/-- **One valid feature**: the node says what the feature says. -/
theorem addFeatureText_valid (beyond : Beyond) {appid : Int} (h0 : 0 ≤ appid) (h1 : appid < 2 ^ 32)
    (name : CStr) (st : KernelState) (a : CArray 128) {feature : CustomFeature}
    (hv : feature.Valid) {k : Nat}
    (hk : k = (featureStr feature).strlen ∨ k = (featureStr feature).strlen + 1) (hlt : k < 128) :
    ∃ st' a', addFeatureText beyond appid.toNat.toUInt32 name (st, a) (featureStr feature) k =
        .ok (st', a') ∧ FeaturesLoaded appid [feature] st st' := by
  have hlen : (featureText feature).length ≤ CUSTOM_MAX_FEATURE_TEXT := by
    rw [← featureStr_bytes hv, ← CStr.strlen, CUSTOM_MAX_FEATURE_TEXT]
    omega
  obtain ⟨sport, posInfo, a', _, hpos, hrun⟩ := addFeatureText_ok beyond appid.toNat.toUInt32 name st a
    hk hlt (fun _ => featureFits_featureStr hv hlen)
  obtain ⟨proto, hproto, hnum⟩ := protocol_number hv
  obtain ⟨port, hport, hs⟩ := destPort_bytes hv
  have hf := fieldsOf hv
  have hdest : feature.destPort = .ofBytes port.text := by
    obtain ⟨port', _, hdest⟩ := hv.destPort
    rw [hdest] at hs ⊢
    exact CStr.ext (hs.trans (DestPort.ofBytes_text port).symm)
  rw [hf.dict] at hpos
  have hpos := (hpos (dictFits_payload hv.payload).2).trans (dictPositions_payload hv.payload)
  have hge := featureStr_strlen_ge hv
  refine ⟨_, a', hrun, ?_⟩
  have hadd : st.addFeature appid.toNat.toUInt32 name (featureStr feature) sport posInfo =
      if st.kmem.outcome st.kmem.used then
        ({ st with kmem := st.kmem.kzalloc.2 } : KernelState).addNode
          (featureNode st.kmem.kzalloc.2.used appid.toNat.toUInt32 name (featureStr feature) proto sport
            posInfo)
      else { st with kmem := st.kmem.kzalloc.2 } := by
    unfold KernelState.addFeature
    rw [if_neg (by omega), hf.proto, hproto]
  rw [hadd]
  cases hm : st.kmem.outcome st.kmem.used with
  | true =>
    refine ⟨rfl, rfl, fun _ => ⟨[_], .cons ?_ .nil, rfl⟩, fun h => absurd (granted_one.mpr hm) h⟩
    refine ⟨?_, hnum.imp id id, ⟨port, ?_, ?_⟩, hf.host, hf.request, hpos⟩
    · show ((appid.toNat.toUInt32.toNat : Nat) : Int) = appid
      rw [Nat.toUInt32, UInt32.toNat_ofNat', Nat.mod_eq_of_lt (by omega)]
      omega
    · rw [hdest]
      exact scanDestPort_text hport
    · show (portItems (fieldText (featureStr feature) AF_DST_PORT_PARAM_INDEX)).filterMap rangeOf =
        port.ranges
      rw [hf.dstPort, portRanges_port hport hs]
  | false =>
    refine ⟨rfl, rfl, fun h => ?_, fun _ => ⟨[], Nat.zero_lt_one, rfl⟩⟩
    have hg := granted_one.mp h
    rw [hm] at hg
    cases hg

/-- **The features in front of the last one**, by induction on the line. -/
theorem addFeatureTexts_features (beyond : Beyond) {appid : Int} (h0 : 0 ≤ appid)
    (h1 : appid < 2 ^ 32) (name last : CStr) : ∀ (features : List CustomFeature) (st : KernelState)
    (a : CArray 128), (∀ f ∈ features, f.Valid) →
    (∀ f ∈ features, (featureText f).length ≤ CUSTOM_MAX_FEATURE_TEXT) →
    ∃ st' a', addFeatureTexts beyond appid.toNat.toUInt32 name (st, a) (features.map featureStr) last =
        addFeatureTexts beyond appid.toNat.toUInt32 name (st', a') [] last ∧
      FeaturesLoaded appid features st st'
  | [], st, a, _, _ => ⟨st, a, rfl, .nil appid st⟩
  | f :: rest, st, a, hv, hlen => by
    have hf := hv f (List.mem_cons_self ..)
    have hshort : (featureStr f).strlen < 128 := by
      rw [CStr.strlen, featureStr_bytes hf]
      exact Nat.lt_succ_of_le (hlen f (List.mem_cons_self ..))
    obtain ⟨st1, a1, hrun, hload⟩ :=
      addFeatureText_valid beyond h0 h1 name st a hf (Or.inl rfl) hshort
    obtain ⟨st', a', hrest, hloads⟩ := addFeatureTexts_features beyond h0 h1 name last rest st1 a1
      (fun x hx => hv x (List.mem_cons_of_mem _ hx))
      (fun x hx => hlen x (List.mem_cons_of_mem _ hx))
    refine ⟨st', a', ?_, hload.append hloads⟩
    conv_lhs =>
      rw [List.map_cons, addFeatureTexts, if_neg (by rw [MAX_FEATURE_STR_LEN]; omega), hrun, ok_bind,
        hrest]

/-- The last feature of a line, which is copied with its terminator. -/
theorem addFeatureTexts_last (beyond : Beyond) {appid : Int} (h0 : 0 ≤ appid) (h1 : appid < 2 ^ 32)
    (name : CStr) (st : KernelState) (a : CArray 128) {last : CustomFeature} (hv : last.Valid)
    (hlen : (featureText last).length ≤ CUSTOM_MAX_FEATURE_TEXT) :
    (last.textLength < 127 → ∃ st' a',
      addFeatureTexts beyond appid.toNat.toUInt32 name (st, a) [] (featureStr last) = .ok (st', a') ∧
        FeaturesLoaded appid [last] st st') ∧
    (¬ last.textLength < 127 →
      ¬ IsOk (addFeatureTexts beyond appid.toNat.toUInt32 name (st, a) [] (featureStr last))) := by
  rw [CUSTOM_MAX_FEATURE_TEXT] at hlen
  have hstr : (featureStr last).strlen = last.textLength := by
    rw [CStr.strlen, featureStr_bytes hv, featureText_length hv]
  rw [featureText_length hv] at hlen
  rw [addFeatureTexts, if_neg (by rw [MAX_FEATURE_STR_LEN]; omega)]
  constructor
  · intro hlt
    exact addFeatureText_valid beyond h0 h1 name st a hv (Or.inr rfl) (by omega)
  · rintro hge ⟨r, hok⟩
    have h128 : (featureStr last).strlen + 1 = 128 := by omega
    rw [h128] at hok
    obtain ⟨a1, h2, hok⟩ := bind_eq_ok.mp hok
    obtain ⟨a2, h3, _⟩ := bind_eq_ok.mp hok
    exact featureCopy_error a _ (isOk_bind.mpr ⟨a1, h2, a2, h3⟩)

/-! ## 5. A line -/

theorem AcceptedByFwxd.valid {classes : ClassNameTable} {app : CustomApp}
    (h : AcceptedByFwxd classes app) : app.Valid classes := by
  rcases h with ⟨_, _, config, h, happ⟩ | ⟨config, line, h⟩
  · exact (configFromJson_accepted h).1.valid app happ
  · obtain ⟨app', heq, hv⟩ := parseAppLine_valid h
    have hsame : app = app' := by simpa using heq
    rw [hsame]
    exact hv

/-- The message of a line, on its way to `af_init_feature`: it has to be shorter than 799 bytes. -/
theorem fwxNetlinkMsgRcv_line (beyond : Beyond) (st : KernelState) {line : CStr}
    (h : line.strlen ≤ CUSTOM_MAX_APP_LINE) :
    fwxNetlinkMsgRcv st (.addFeature beyond (fwxNlAddFeature line)) =
      if line.strlen < 799 then (afInitFeature beyond st line).toOption else some st := by
  rw [CUSTOM_MAX_APP_LINE] at h
  have hlen : (fwxNlAddFeature line).length = line.strlen + 1 := by
    simp [fwxNlAddFeature, CStr.strlen]
  have hrcv : ¬ ((FeatureMsg.addFeature beyond (fwxNlAddFeature line)).len ≤ 0 ∨
      MAX_FWX_NETLINK_MSG_LEN ≤ (FeatureMsg.addFeature beyond (fwxNlAddFeature line)).len) := by
    rw [FeatureMsg.len, FWX_NL_MSG_SIZE, MAX_FWX_NETLINK_MSG_LEN, hlen]
    omega
  have htake : CStr.ofBytes ((fwxNlAddFeature line).take (line.strlen + 1)) = line := by
    rw [← hlen, List.take_length]
    exact CStr.ofBytes_append_nul line []
  rw [fwxNetlinkMsgRcv, if_neg hrcv, fwxUserMsgHandle, afAddFeatureMsgHandle, hlen, Int.toNat_natCast,
    htake]
  by_cases hshort : line.strlen < 799
  · have hgo : ¬ (((line.strlen + 1 : Nat) : Int) ≤ 0 ∨
        (MAX_FEATURE_LINE_LEN : Int) ≤ (line.strlen + 1 : Nat)) := by
      rw [MAX_FEATURE_LINE_LEN]
      omega
    simp only [Bool.or_eq_true, decide_eq_true_eq, if_neg hgo, if_pos hshort]
  · have hstop : ((line.strlen + 1 : Nat) : Int) ≤ 0 ∨
        (MAX_FEATURE_LINE_LEN : Int) ≤ (line.strlen + 1 : Nat) := by
      rw [MAX_FEATURE_LINE_LEN]
      omega
    simp only [Bool.or_eq_true, decide_eq_true_eq, if_pos hstop, if_neg hshort]
    rfl

/-- **`af_init_feature` on a line of fwxd.**  Without memory for its buffer, with a `#` in the line or
with nothing to see in the name it does nothing; else the features are loaded, unless the text of the
last one has 127 bytes. -/
theorem afInitFeature_line {classes : ClassNameTable} (beyond : Beyond) (st : KernelState)
    {app : CustomApp} (hv : app.Valid classes) (hfits : app.Fits) :
    (Granted st.kmem 1 ∧ (35 : UInt8) ∉ appText app ∧ Kernel.trim app.name.bytes ≠ [] →
      ((∀ f, app.features.getLast? = some f → f.textLength < 127) →
        ∃ st' st1, afInitFeature beyond st (lineStr app) = .ok st' ∧
          FeaturesLoaded app.appid app.features { st with kmem := st.kmem.kzalloc.2 } st1 ∧
          st'.kmem = st1.kmem ∧ st'.afFeatureHead = st1.afFeatureHead) ∧
      (¬ (∀ f, app.features.getLast? = some f → f.textLength < 127) →
        ¬ IsOk (afInitFeature beyond st (lineStr app)))) ∧
    (¬ (Granted st.kmem 1 ∧ (35 : UInt8) ∉ appText app ∧ Kernel.trim app.name.bytes ≠ []) →
      afInitFeature beyond st (lineStr app) = .ok { st with kmem := st.kmem.kzalloc.2 }) := by
  obtain ⟨hpos, hlt, _⟩ := hv.appid_bounds
  have hhash : (lineStr app).strchr 35 = true ↔ (35 : UInt8) ∈ appText app := by
    rw [CStr.strchr, lineStr_bytes hv, List.contains_iff_mem]
  unfold afInitFeature
  simp only [Kmem.kzalloc_fst, afParseFeatureAppHeader_line hv]
  rw [granted_one]
  constructor
  · rintro ⟨hm, hno, hvis⟩
    have hno' : ¬ (lineStr app).strchr 35 = true := fun h => hno (hhash.mp h)
    rcases List.eq_nil_or_concat app.features with hnil | ⟨init, last, hcut⟩
    · exact absurd hnil hv.featuresNe
    rw [List.concat_eq_append] at hcut
    have hall : ∀ f ∈ init ++ [last], f.Valid := hcut ▸ hv.features
    have hlens : ∀ f ∈ init ++ [last], (featureText f).length ≤ CUSTOM_MAX_FEATURE_TEXT :=
      hcut ▸ hfits.features
    have h0 : 0 ≤ app.appid := by omega
    have h1 : app.appid < 2 ^ 32 := by omega
    obtain ⟨st1, a1, hrun, hload⟩ := addFeatureTexts_features beyond h0 h1 (.ofBytes ((Kernel.trim app.name.bytes).take 127)) (featureStr last) init
      ({ st with kmem := st.kmem.kzalloc.2 } : KernelState) (.zeros 128)
      (fun f hf => hall f (by simp [hf])) (fun f hf => hlens f (by simp [hf]))
    obtain ⟨hgood, hbad⟩ := addFeatureTexts_last beyond h0 h1
      (.ofBytes ((Kernel.trim app.name.bytes).take 127)) st1 a1 (hall last (by simp))
      (hlens last (by simp))
    have hlast : (∀ f, app.features.getLast? = some f → f.textLength < 127) ↔
        last.textLength < 127 := by
      simp [hcut]
    rw [hlast]
    simp only [hm, Bool.not_true, Bool.false_eq_true, if_false, if_neg hno', if_neg hvis,
      featureBufOf_line hv, hcut, tokens_features hall, hrun]
    constructor
    · intro hshort
      obtain ⟨st2, a2, hlastRun, hlastLoad⟩ := hgood hshort
      exact ⟨{ st2 with gFeatureCount := st2.gFeatureCount + 1 }, st2, by rw [hlastRun]; rfl,
        hload.append hlastLoad, rfl, rfl⟩
    · rintro hlong ⟨r, hok⟩
      obtain ⟨r', hok', _⟩ := bind_eq_ok.mp hok
      exact hbad hlong ⟨r', hok'⟩
  · intro hno
    by_cases hm : st.kmem.outcome st.kmem.used = true
    · simp only [hm, Bool.not_true, Bool.false_eq_true, if_false]
      by_cases hin : (lineStr app).strchr 35 = true
      · simp only [if_pos hin]
        rfl
      · have hnil : Kernel.trim app.name.bytes = [] := by
          by_contra hvis
          exact hno ⟨hm, fun h => hin (hhash.mpr h), hvis⟩
        simp only [if_neg hin, if_pos hnil]
        rfl
    · simp [hm, pure, Except.pure]

/-! ## 6. What is delivered -/

/-- A list that grew by less has not the new nodes. -/
theorem not_forall₂_of_append_eq {appid : Int} {features : List CustomFeature}
    {nodes old new : List AfFeatureNode} (hnew : new.length < features.length)
    (h : List.Forall₂ (NodeOf appid) features nodes) (heq : new ++ old = nodes.reverse ++ old) :
    False := by
  have hlen := congrArg List.length heq
  have hnodes := h.length_eq
  simp only [List.length_append, List.length_reverse] at hlen
  omega

theorem not_forall₂_of_eq {appid : Int} {features : List CustomFeature}
    {nodes old : List AfFeatureNode} (hne : 0 < features.length)
    (h : List.Forall₂ (NodeOf appid) features nodes) (heq : old = nodes.reverse ++ old) : False :=
  have hnil : ([] : List AfFeatureNode).length < features.length := hne
  not_forall₂_of_append_eq hnil h heq

theorem CustomApp.kernelLoads_iff {classes : ClassNameTable} {app : CustomApp}
    (hv : app.Valid classes) : app.KernelLoads ↔
      app.lineLength < 799 ∧ ((35 : UInt8) ∉ appText app ∧ Kernel.trim app.name.bytes ≠ []) ∧
        ∀ f, app.features.getLast? = some f → f.textLength < 127 := by
  rw [hash_mem_appText hv, ne_eq, trim_eq_nil_iff, not_not]
  constructor
  · intro h
    refine ⟨h.line, ⟨?_, h.visible⟩, h.last⟩
    rintro (h0 | ⟨f, hf, h0 | h0⟩)
    · exact h.nameHash h0
    · exact (h.featureHash f hf).1 h0
    · exact (h.featureHash f hf).2 h0
  · rintro ⟨hline, ⟨hhash, hvis⟩, hlast⟩
    rw [not_or] at hhash
    refine ⟨hhash.1, fun f hf => ⟨fun h0 => ?_, fun h0 => ?_⟩, hvis, hline, hlast⟩
    · exact hhash.2 ⟨f, hf, Or.inl h0⟩
    · exact hhash.2 ⟨f, hf, Or.inr h0⟩

/-- **Exactly what is delivered.**  An application fwxd accepts and prints becomes one node for each of
its features, in order and with what they say, exactly when the kernel has memory for them and
loads the application. -/
theorem custom_feature_delivered_iff {classes : ClassNameTable} {app : CustomApp} {line : List UInt8}
    (beyond : Beyond) (st : KernelState) (h : AcceptedByFwxd classes app)
    (hline : appToLine app = some line) :
    Delivered beyond st app line ↔
      app.KernelLoads ∧ Granted st.kmem (app.features.length + 1) := by
  have hv := h.valid
  obtain ⟨hfits, rfl⟩ := appToLine_eq_some.mp hline
  have hlen : (lineStr app).strlen = app.lineLength := by
    rw [CStr.strlen, lineStr_bytes hv, appText_length hv]
  have hmax : (lineStr app).strlen ≤ CUSTOM_MAX_APP_LINE := by
    rw [CStr.strlen, lineStr_bytes hv]
    exact hfits.line
  have hsome : 0 < app.features.length := List.length_pos_of_ne_nil hv.featuresNe
  have hrcv :
      fwxNetlinkMsgRcv st (.addFeature beyond (fwxNlAddFeature (.ofBytes (appText app)))) =
        if (lineStr app).strlen < 799 then (afInitFeature beyond st (lineStr app)).toOption
        else some st :=
    fwxNetlinkMsgRcv_line beyond st hmax
  obtain ⟨hrun, hskip⟩ := afInitFeature_line beyond st hv hfits
  have hgrant : Granted st.kmem (1 + app.features.length) ↔
      Granted st.kmem 1 ∧ Granted st.kmem.kzalloc.2 app.features.length := granted_add rfl rfl
  rw [Nat.add_comm app.features.length 1, hgrant, CustomApp.kernelLoads_iff hv]
  unfold Delivered
  rw [hrcv, hlen]
  by_cases hshort : app.lineLength < 799
  · rw [if_pos hshort]
    by_cases hgo : Granted st.kmem 1 ∧ (35 : UInt8) ∉ appText app ∧ Kernel.trim app.name.bytes ≠ []
    · by_cases hlast : ∀ f, app.features.getLast? = some f → f.textLength < 127
      · obtain ⟨st', st1, hok, hload, hkmem, hhead⟩ := (hrun hgo).1 hlast
        rw [hok]
        constructor
        · rintro ⟨st2, nodes, h2, hnodes, hall⟩
          cases h2
          refine ⟨⟨hshort, hgo.2, hlast⟩, hgo.1, ?_⟩
          by_contra hno
          obtain ⟨new, hnew, heq⟩ := hload.short hno
          exact not_forall₂_of_append_eq hnew hall ((heq.symm.trans hhead.symm).trans hnodes)
        · rintro ⟨_, _, hmem⟩
          obtain ⟨nodes, hall, heq⟩ := hload.loaded hmem
          exact ⟨st', nodes, rfl, hhead.trans heq, hall⟩
      · -- the last text has no room for its second terminator
        have hbad := (hrun hgo).2 hlast
        constructor
        · rintro ⟨st2, nodes, h2, _⟩
          cases hr : afInitFeature beyond st (lineStr app) with
          | error e =>
            rw [hr] at h2
            cases h2
          | ok st' => exact absurd ⟨st', hr⟩ hbad
        · rintro ⟨⟨_, _, hl⟩, _⟩
          exact absurd hl hlast
    · -- the line is skipped
      rw [hskip hgo]
      constructor
      · rintro ⟨st2, nodes, h2, hnodes, hall⟩
        cases h2
        exact (not_forall₂_of_eq hsome hall hnodes).elim
      · rintro ⟨⟨_, hh, _⟩, hg, _⟩
        exact absurd ⟨hg, hh⟩ hgo
  · -- the message is too long
    rw [if_neg hshort]
    constructor
    · rintro ⟨st2, nodes, h2, hnodes, hall⟩
      cases h2
      exact (not_forall₂_of_eq hsome hall hnodes).elim
    · rintro ⟨⟨hl, _⟩, _⟩
      exact absurd hl hshort

/-- An application with a `uri`, as a line of the file gives it. -/
def docsApp (uri : CStr) : CustomApp :=
  { appid := 1900, classId := 1, name := .lit "docs",
    features := [
      { protocol := .lit "tcp", destPort := .lit "443", domain := .lit "example.com", uri := uri,
        payload := [⟨-1, 255⟩] }] }

/-- An ordinary application. -/
theorem custom_feature_delivered_iff_docs :
    Delivered (fun _ => .empty) { kmem := ⟨fun _ => true, 0⟩ } (docsApp (.lit "/a"))
        (ascii "1900~docs:[tcp;;443;example.com;/a;-1:ff]") ↔
      (docsApp (.lit "/a")).KernelLoads ∧ Granted ⟨fun _ => true, 0⟩ 2 :=
  custom_feature_delivered_iff (fun _ => .empty) { kmem := ⟨fun _ => true, 0⟩ }
    (show AcceptedByFwxd (fun _ => .empty) (docsApp (.lit "/a")) from
      Or.inr ⟨[], .lit "1900~docs:[tcp;;443;example.com;/a;-1:ff]", rfl⟩)
    (show appToLine (docsApp (.lit "/a")) =
      some (ascii "1900~docs:[tcp;;443;example.com;/a;-1:ff]") from rfl)

/-- A `#` in a `uri`. -/
theorem custom_feature_lost :
    ¬ ∀ (classes : ClassNameTable) (app : CustomApp) (line : List UInt8) (beyond : Beyond)
      (st : KernelState), AcceptedByFwxd classes app → appToLine app = some line → st.kmem.AllOk →
      Delivered beyond st app line := by
  intro hall
  obtain ⟨st', nodes, hrun, hnodes, hof⟩ := hall (fun _ => .empty) (docsApp (.lit "/a#b"))
    (ascii "1900~docs:[tcp;;443;example.com;/a#b;-1:ff]") (fun _ => .empty)
    { kmem := ⟨fun _ => true, 0⟩ }
    (Or.inr ⟨[], .lit "1900~docs:[tcp;;443;example.com;/a#b;-1:ff]", rfl⟩) rfl (fun _ => rfl)
  have hskip : fwxNetlinkMsgRcv { kmem := ⟨fun _ => true, 0⟩ } (.addFeature (fun _ => .empty)
      (fwxNlAddFeature (.ofBytes (ascii "1900~docs:[tcp;;443;example.com;/a#b;-1:ff]")))) =
      some { kmem := ⟨fun _ => true, 1⟩ } := rfl
  rw [hskip] at hrun
  cases hrun
  have hsome : 0 < (docsApp (.lit "/a#b")).features.length := Nat.zero_lt_one
  exact not_forall₂_of_eq hsome hof hnodes

/-! ## 7. A whole configuration -/

/-- The features of a configuration with the ids of their applications, in order. -/
def configFeatures (config : CustomConfig) : List (Int × CustomFeature) :=
  config.flatMap (fun app => app.features.map (fun f => (app.appid, f)))

/-- One application, with memory left for the next. -/
theorem fwxNetlinkMsgRcv_app {classes : ClassNameTable} (beyond : Beyond) {st : KernelState}
    {app : CustomApp} (hv : app.Valid classes) (hfits : app.Fits) (hloads : app.KernelLoads)
    (hmem : st.kmem.AllOk) :
    ∃ st' nodes,
      fwxNetlinkMsgRcv st (.addFeature beyond (fwxNlAddFeature (lineStr app))) = some st' ∧
      st'.kmem.AllOk ∧ st'.afFeatureHead = nodes.reverse ++ st.afFeatureHead ∧
      List.Forall₂ (NodeOf app.appid) app.features nodes := by
  obtain ⟨hshort, hseen, hlast⟩ := (CustomApp.kernelLoads_iff hv).mp hloads
  have hlen : (lineStr app).strlen = app.lineLength := by
    rw [CStr.strlen, lineStr_bytes hv, appText_length hv]
  have hmax : (lineStr app).strlen ≤ CUSTOM_MAX_APP_LINE := by
    rw [CUSTOM_MAX_APP_LINE]
    omega
  have hone : Granted st.kmem 1 := fun k _ => hmem _
  obtain ⟨st', st1, hok, hload, hkmem, hhead⟩ :=
    ((afInitFeature_line beyond st hv hfits).1 ⟨hone, hseen⟩).1 hlast
  obtain ⟨nodes, hall, hnodes⟩ := hload.loaded (fun k _ => hmem _)
  refine ⟨st', nodes, ?_, ?_, hhead.trans hnodes, hall⟩
  · rw [fwxNetlinkMsgRcv_line beyond st hmax, hlen, if_pos hshort, hok]
    rfl
  · intro k
    rw [hkmem, hload.outcome]
    exact hmem k

/-- **A whole configuration**, by induction on its applications: when the kernel loads each of them,
all are printed and all their features arrive. -/
theorem custom_config_delivered {classes : ClassNameTable} (beyond : Beyond) :
    ∀ (config : CustomConfig) (st : KernelState), st.kmem.AllOk →
      (∀ app ∈ config, app.Valid classes ∧ app.Fits ∧ app.KernelLoads) →
      (fwxCustomFeatureSendToKernel config).2 = true ∧
      ∃ st' nodes,
        receiveAll beyond st (fwxCustomFeatureSendToKernel config).1 = some st' ∧
        st'.afFeatureHead = nodes.reverse ++ st.afFeatureHead ∧
        List.Forall₂ (fun f node => NodeOf f.1 f.2 node) (configFeatures config) nodes
  | [], st, _, _ => ⟨rfl, st, [], rfl, rfl, .nil⟩
  | app :: rest, st, hmem, hall => by
    obtain ⟨hv, hfits, hloads⟩ := hall app (List.mem_cons_self ..)
    obtain ⟨st1, n1, hrcv, hmem1, hhead1, hof1⟩ := fwxNetlinkMsgRcv_app beyond hv hfits hloads hmem
    obtain ⟨hsent, st2, n2, hrest, hhead2, hof2⟩ := custom_config_delivered beyond rest st1 hmem1
      (fun x hx => hall x (List.mem_cons_of_mem _ hx))
    have hline : appToLine app = some (appText app) := appToLine_eq_some.mpr ⟨hfits, rfl⟩
    have hsend : fwxCustomFeatureSendToKernel (app :: rest) =
        (fwxNlAddFeature (lineStr app) :: (fwxCustomFeatureSendToKernel rest).1,
          (fwxCustomFeatureSendToKernel rest).2) := by
      simp only [fwxCustomFeatureSendToKernel, hline, lineStr]
    rw [hsend]
    refine ⟨hsent, st2, n1 ++ n2, ?_, ?_, ?_⟩
    · rw [receiveAll, List.foldlM_cons, hrcv]
      exact hrest
    · rw [hhead2, hhead1, List.reverse_append, List.append_assoc]
    · rw [configFeatures, List.flatMap_cons]
      refine List.rel_append ?_ hof2
      rw [List.forall₂_map_left_iff]
      exact hof1

end Oaf
