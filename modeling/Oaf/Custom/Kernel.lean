/-
# What the kernel reads in a custom application's line

The loader of the kernel module has a tokenizer of its own.  On the texts fwxd prints the two
agree: the fields of a valid feature come out as they went in, its port text gives the range it
names, its payload list the same positions, and the line its header and its features.

* `fieldText_featureStr`, `rangeOf_portText`, `dictPositions_payload`: the fields.
* `featureFits_featureStr`: a valid feature stays inside every array.
* `afParseFeatureAppHeader_line`, `featureBufOf_line`, `tokens_features`: the line.
-/
import Oaf.Custom.Text
import Oaf.Loader.Bounds
import Mathlib.Tactic.FinCases

namespace Oaf

open CLib

/-! ## 1. The fields of a feature -/

/-- A feature's text as a C string. -/
def featureStr (feature : CustomFeature) : CStr := .ofBytes (featureText feature)

/-- The payload of a feature's text. -/
def payloadStr (payload : List CustomPayload) : CStr :=
  .ofBytes ([124].intercalate (payload.map payloadText))

theorem noNul_of_payload (payload : List CustomPayload) :
    (0 : UInt8) ∉ [124].intercalate (payload.map payloadText) := by
  intro h
  rcases mem_intercalate h with h | ⟨t, ht, h⟩
  · exact absurd h (by decide)
  · obtain ⟨p, _, rfl⟩ := List.mem_map.mp ht
    rcases mem_payloadText h with h | h <;> exact absurd h (by decide)

@[simp] theorem payloadStr_bytes (payload : List CustomPayload) :
    (payloadStr payload).bytes = [124].intercalate (payload.map payloadText) :=
  CStr.ofBytes_of_noNul (noNul_of_payload payload)

theorem featureStr_bytes {feature : CustomFeature} (h : feature.Valid) :
    (featureStr feature).bytes = featureText feature := by
  refine CStr.ofBytes_of_noNul ?_
  intro h0
  rcases mem_featureText h h0 with h0 | h0 | h0 | h0
  · exact feature.domain.noNul h0
  · exact feature.uri.noNul h0
  · exact absurd h0 (by decide)
  · exact absurd h0 (by decide)

/-- The fields in front of the last `;`. -/
def headFields (feature : CustomFeature) : List CStr :=
  [feature.protocol, .empty, feature.destPort, feature.domain, feature.uri]

theorem semicolon_not_mem_payload (payload : List CustomPayload) :
    (59 : UInt8) ∉ (payloadStr payload).bytes := by
  rw [payloadStr_bytes]
  intro h
  rcases mem_intercalate h with h | ⟨t, ht, h⟩
  · exact absurd h (by decide)
  · obtain ⟨p, _, rfl⟩ := List.mem_map.mp ht
    rcases mem_payloadText h with h | h <;> exact absurd h (by decide)

theorem destPort_bytes {feature : CustomFeature} (h : feature.Valid) :
    ∃ port : DestPort, port.Valid ∧ feature.destPort.bytes = port.text := by
  obtain ⟨port, hport, hdest⟩ := h.destPort
  exact ⟨port, hport, by simp [hdest]⟩

/-- The `;` of a feature's text. -/
theorem tokens_featureStr {feature : CustomFeature} (h : feature.Valid) :
    tokens 59 (featureStr feature) = (headFields feature, payloadStr feature.payload) := by
  obtain ⟨hlower, hproto, hp⟩ := map_tolower_protocol h.protocol
  obtain ⟨port, _, hport⟩ := destPort_bytes h
  have hdest : (59 : UInt8) ∉ feature.destPort.bytes := by
    rw [hport]
    intro h0
    rcases DestPort.mem_text h0 with h0 | h0 <;> exact absurd h0 (by decide)
  refine tokens_intercalate ?_ (semicolon_not_mem_payload _) ?_ ?_
  · intro t ht
    simp only [headFields, List.mem_cons, List.not_mem_nil, or_false] at ht
    rcases ht with rfl | rfl | rfl | rfl | rfl
    · exact hp
    · simp
    · exact hdest
    · exact not_mem_of_allowed h.domain (by decide)
    · exact not_mem_of_allowed h.uri (by decide)
  · rw [featureStr_bytes h]
    simp [featureText, featureHead, headFields, List.intercalate_cons_cons]
  · intro t ht h0
    simp only [headFields, List.cons_append, List.head?_cons, Option.some.injEq] at ht
    rw [ht, h0] at hproto
    simp at hproto

/-- **The fields the kernel sees** are those of the feature. -/
theorem fieldTexts_featureStr {feature : CustomFeature} (h : feature.Valid) :
    fieldTexts (featureStr feature) = headFields feature ++ [payloadStr feature.payload] := by
  unfold fieldTexts
  rw [tokens_featureStr h]
  exact if_pos (Or.inl rfl)

theorem fieldText_featureStr {feature : CustomFeature} (h : feature.Valid) (i : AfFeatureParam) :
    fieldText (featureStr feature) i =
      (headFields feature ++ [payloadStr feature.payload]).getD i .empty := by
  rw [fieldText, fieldTexts_featureStr h]

/-! ## 2. The port -/

/-- The ranges a port text names. -/
def DestPort.ranges : DestPort → List RangeValue
  | .any => []
  | .single port => [⟨false, port, port⟩]
  | .range start stop => [⟨false, start, stop⟩]

theorem trimStr_port {s : CStr} {port : DestPort} (hs : s.bytes = port.text) :
    Kernel.trimStr s = s := by
  refine CStr.ext (Kernel.trim_eq_self ?_ ?_)
  · intro c hc
    rw [hs] at hc
    exact Kernel.isspace_of_digit (DestPort.mem_text (List.mem_of_head? hc))
  · intro c hc
    rw [hs] at hc
    exact Kernel.isspace_of_digit (DestPort.mem_text (List.mem_of_getLast? hc))

theorem text_ne_nil {port : DestPort} (h : port ≠ .any) : port.text ≠ [] := by
  cases port with
  | any => exact absurd rfl h
  | single p => exact printInt_ne_nil p
  | range a b => simp [DestPort.text]

/-- There is no `|` in a port text, so it is one item, or none. -/
theorem portItems_port {s : CStr} {port : DestPort} (hs : s.bytes = port.text) :
    portItems s = if port = .any then [] else [s] := by
  unfold portItems
  simp only [trimStr_port hs, CStr.strlen, hs]
  by_cases h : port = .any
  · simp [h, DestPort.text]
  · have hbar : (124 : UInt8) ∉ s.bytes := by
      rw [hs]
      intro h0
      rcases DestPort.mem_text h0 with h0 | h0 <;> exact absurd h0 (by decide)
    have htok : tokens 124 s = ([], s) := by
      refine tokens_intercalate (by simp) hbar (by simp) ?_
      intro t ht
      cases ht
      rw [hs]
      exact text_ne_nil h
    rw [if_neg (by simpa using text_ne_nil h), htok, if_neg h]
    rfl

/-- **The range a port text names** is the one the kernel scans. -/
theorem rangeOf_port {s : CStr} {port : DestPort} (hport : port.Valid) (h : port ≠ .any)
    (hs : s.bytes = port.text) : (rangeOf s).toList = port.ranges := by
  have hvalid : validateRangeValue s = true := by
    refine List.all_eq_true.mpr ?_
    intro c hc
    rw [hs] at hc
    rcases DestPort.mem_text hc with hc | rfl
    · simp [hc]
    · decide
  have hneg : (s.get 0 == 33) = false := by
    rw [CStr.get, hs]
    obtain ⟨c, l, hl⟩ := List.exists_cons_of_ne_nil (text_ne_nil h)
    have hc : isdigit c = true ∨ c = 45 := DestPort.mem_text (hl ▸ List.mem_cons_self ..)
    simp only [hl, List.getD_cons_zero, beq_eq_false_iff_ne, ne_eq]
    rintro rfl
    exact absurd hc (by decide)
  unfold rangeOf
  rw [if_pos hvalid, trimStr_port hs]
  simp only [hneg, Bool.false_eq_true, if_false, trimStr_port hs]
  unfold scanRange CStr.strchr
  rw [hs]
  cases port with
  | any => exact absurd rfl h
  | single p =>
    obtain ⟨h1, h2⟩ := hport
    have hread := Kernel.scanD_printInt (i := p) (by omega) (by omega) noDigitHead_nil
    have hdrop := Kernel.dropWhile_printInt (fun c hc => Kernel.isspace_of_digit hc) p []
    rw [List.append_nil] at hread hdrop
    have hdash : (45 : UInt8) ∉ printInt p := not_mem_printInt_port (by omega)
    simp [DestPort.text, hdash, Kernel.vsscanf, hdrop, hread, DestPort.ranges]
  | range a b =>
    obtain ⟨h1, h2, h3⟩ := hport
    have hra := Kernel.scanD_printInt (i := a) (by omega) (by omega)
      (noDigitHead_cons (c := 45) (l := printInt b) (by decide))
    have hrb := Kernel.scanD_printInt (i := b) (by omega) (by omega) noDigitHead_nil
    have hda := Kernel.dropWhile_printInt (fun c hc => Kernel.isspace_of_digit hc) a
      (45 :: printInt b)
    have hdb := Kernel.dropWhile_printInt (fun c hc => Kernel.isspace_of_digit hc) b []
    rw [List.append_nil] at hrb hdb
    simp [DestPort.text, Kernel.vsscanf, hda, hra, hdb, hrb, DestPort.ranges]

theorem portRanges_port {s : CStr} {port : DestPort} (hport : port.Valid)
    (hs : s.bytes = port.text) : (portItems s).filterMap rangeOf = port.ranges := by
  rw [portItems_port hs]
  by_cases h : port = .any
  · simp [h, DestPort.ranges]
  · have hrange := rangeOf_port hport h hs
    rw [if_neg h, ← hrange]
    cases hr : rangeOf s <;> simp [hr]

theorem portsFit_port {s : CStr} {port : DestPort} (hs : s.bytes = port.text) : PortsFit s := by
  unfold PortsFit
  rw [portItems_port hs]
  split
  · intro pre item post h
    simp at h
  · intro pre item post h _
    have hpre : pre = [] := by
      cases pre with
      | nil => rfl
      | cons x pre => simp at h
    simp [hpre, MAX_PORT_RANGE_NUM]

/-! ## 3. The payload -/

/-- A payload byte as the kernel keeps it. -/
def posOf (p : CustomPayload) : AfPosInfo := ⟨p.position, p.value⟩

/-- One item of a payload as a C string. -/
def itemStr (p : CustomPayload) : CStr := .ofBytes (payloadText p)

@[simp] theorem itemStr_bytes (p : CustomPayload) : (itemStr p).bytes = payloadText p := by
  refine CStr.ofBytes_of_noNul ?_
  intro h
  rcases mem_payloadText h with h | h <;> exact absurd h (by decide)

theorem itemStr_strlen {p : CustomPayload} (h1 : INT_MIN ≤ p.position) (h2 : p.position ≤ INT_MAX) :
    (itemStr p).strlen < 64 := by
  unfold INT_MIN at h1
  unfold INT_MAX at h2
  have hlen := printInt_length_le (i := p.position) (k := 10) (by decide) (by omega)
  simp [CStr.strlen, payloadText, printHex2]
  omega

/-- **One item**, scanned with `"%d:%x"`. -/
theorem scan_itemStr {p : CustomPayload} (h1 : INT_MIN ≤ p.position) (h2 : p.position ≤ INT_MAX)
    (v : PosVals) : v.scan (itemStr p) = (2, { v with index := p.position, value := p.value.toNat }) := by
  unfold INT_MIN at h1
  unfold INT_MAX at h2
  have hspace : ∀ c, isdigit c = true ∨ c = 45 → CLib.isspace c = false := by
    rintro c (hc | rfl)
    · exact CLib.isspace_of_isdigit hc
    · decide
  have hd := Kernel.scanD_printInt (i := p.position) (by omega) (by omega)
    (noDigitHead_cons (c := 58) (l := printHex2 p.value) (by decide))
  have hdrop := Kernel.dropWhile_printInt hspace p.position (58 :: printHex2 p.value)
  have hx := Kernel.scanX_printHex2 p.value
  have hxdrop : (printHex2 p.value).dropWhile CLib.isspace = printHex2 p.value := by
    refine List.dropWhile_eq_self_iff.mpr ?_
    intro hl
    have hmem := mem_printHex2 (List.getElem_mem hl)
    generalize (printHex2 p.value)[0] = c at hmem
    simp [isxdigit, isdigit, CLib.isspace, UInt8.le_iff_toNat_le, ← UInt8.toNat_inj] at hmem ⊢
    omega
  unfold PosVals.scan
  simp [payloadText, Kernel.vsscanf, hdrop, hd, hxdrop, hx]

theorem push_itemStr {p : CustomPayload} (h1 : INT_MIN ≤ p.position) (h2 : p.position ≤ INT_MAX)
    (v : PosVals) : (v.scan (itemStr p)).2.push.posInfo = v.posInfo ++ [posOf p] := by
  have hv : p.value.toNat < 256 := p.value.toNat_lt
  have hval : ((p.value.toNat : Int) % 256).toNat.toUInt8 = p.value := by
    have hmod : ((p.value.toNat : Int) % 256).toNat = p.value.toNat := by omega
    rw [hmod]
    simp
  rw [scan_itemStr h1 h2]
  simp [PosVals.push, posOf, hval]

/-- The `|` of a payload. -/
theorem tokens_payloadStr {init : List CustomPayload} {last : CustomPayload} :
    tokens 124 (payloadStr (init ++ [last])) = (init.map itemStr, itemStr last) := by
  have hbar : ∀ p, (124 : UInt8) ∉ (itemStr p).bytes := by
    intro p h
    rw [itemStr_bytes] at h
    rcases mem_payloadText h with h | h <;> exact absurd h (by decide)
  refine tokens_intercalate ?_ (hbar last) ?_ ?_
  · intro t ht
    obtain ⟨p, _, rfl⟩ := List.mem_map.mp ht
    exact hbar p
  · simp [Function.comp_def]
  · intro t ht
    have hmem := List.mem_of_head? ht
    rcases List.mem_append.mp hmem with hmem | hmem
    · obtain ⟨p, _, rfl⟩ := List.mem_map.mp hmem
      simpa using payloadText_ne_nil p
    · rw [List.mem_singleton.mp hmem]
      simpa using payloadText_ne_nil last

theorem foldl_itemStr : ∀ (l : List CustomPayload) (v : PosVals),
    (∀ p ∈ l, INT_MIN ≤ p.position ∧ p.position ≤ INT_MAX) →
    ((l.map itemStr).foldl (fun (v : PosVals) item => (v.scan item).2.push) v).posInfo =
      v.posInfo ++ l.map posOf
  | [], v, _ => by simp
  | p :: l, v, h => by
    obtain ⟨h1, h2⟩ := h p (List.mem_cons_self ..)
    have ih := foldl_itemStr l (v.scan (itemStr p)).2.push
      (fun x hx => h x (List.mem_cons_of_mem _ hx))
    simp only [List.map_cons, List.foldl_cons, ih, push_itemStr h1 h2, List.append_assoc,
      List.singleton_append]

theorem payload_cases (payload : List CustomPayload) :
    payload = [] ∨ ∃ init last, payload = init ++ [last] := by
  induction payload using List.reverseRecOn with
  | nil => exact Or.inl rfl
  | append_singleton init last _ => exact Or.inr ⟨init, last, rfl⟩

theorem payloadStr_nil : payloadStr [] = .empty := rfl

/-- **The positions the kernel reads** are those of the payload list. -/
theorem dictPositions_payload {payload : List CustomPayload} (h : PayloadValid payload) :
    dictPositions (payloadStr payload) = payload.map posOf := by
  rcases payload_cases payload with rfl | ⟨init, last, rfl⟩
  · decide
  · obtain ⟨h1, h2⟩ := h.position last (by simp)
    have hinit := foldl_itemStr init {} (fun p hp => h.position p (by simp [hp]))
    unfold dictPositions
    rw [tokens_payloadStr, PosVals.finish, scan_itemStr h1 h2, if_pos rfl, ← scan_itemStr h1 h2,
      push_itemStr h1 h2, hinit]
    simp

theorem dictFits_payload {payload : List CustomPayload} (h : PayloadValid payload) :
    DictFits (payloadStr payload) ∧
      ∀ t ∈ (tokens 124 (payloadStr payload)).1, t.strlen < 64 := by
  rcases payload_cases payload with rfl | ⟨init, last, rfl⟩
  · rw [payloadStr_nil]
    exact ⟨⟨by decide, by simp [tokens], by decide⟩, by simp [tokens]⟩
  · have hcount := h.count
    rw [List.length_append, List.length_singleton, CUSTOM_MAX_PAYLOADS] at hcount
    have hshort : ∀ t ∈ init.map itemStr, t.strlen < 64 := by
      intro t ht
      obtain ⟨p, hp, rfl⟩ := List.mem_map.mp ht
      obtain ⟨h1, h2⟩ := h.position p (by simp [hp])
      exact itemStr_strlen h1 h2
    obtain ⟨h1, h2⟩ := h.position last (by simp)
    rw [tokens_payloadStr]
    refine ⟨⟨?_, fun t ht => Nat.le_of_lt ?_, ?_⟩, ?_⟩
    · rw [tokens_payloadStr]
      simp [MAX_POS_INFO_PER_FEATURE]
      omega
    · rw [tokens_payloadStr] at ht
      exact hshort t ht
    · rw [tokens_payloadStr]
      exact itemStr_strlen h1 h2
    · exact hshort

/-! ## 4. One feature -/

theorem protocol_number {feature : CustomFeature} (h : feature.Valid) :
    ∃ proto, featureProto feature.protocol = some proto ∧
      (feature.protocol.bytes = ascii "tcp" ∧ proto = IPPROTO_TCP ∨
        feature.protocol.bytes = ascii "udp" ∧ proto = IPPROTO_UDP) := by
  unfold featureProto
  rcases h.protocol with hp | hp
  · exact ⟨IPPROTO_TCP, if_pos hp, Or.inl ⟨hp, rfl⟩⟩
  · have hne : feature.protocol.bytes ≠ ascii "tcp" := by
      rw [hp]
      decide
    exact ⟨IPPROTO_UDP, by rw [if_neg hne, if_pos hp], Or.inr ⟨hp, rfl⟩⟩

/-- The eight fields, by name. -/
structure FieldsOf (feature : CustomFeature) : Prop where
  proto : fieldText (featureStr feature) AF_PROTO_PARAM_INDEX = feature.protocol
  srcPort : fieldText (featureStr feature) AF_SRC_PORT_PARAM_INDEX = .empty
  dstPort : fieldText (featureStr feature) AF_DST_PORT_PARAM_INDEX = feature.destPort
  host : fieldText (featureStr feature) AF_HOST_URL_PARAM_INDEX = feature.domain
  request : fieldText (featureStr feature) AF_REQUEST_URL_PARAM_INDEX = feature.uri
  dict : fieldText (featureStr feature) AF_DICT_PARAM_INDEX = payloadStr feature.payload
  search : fieldText (featureStr feature) AF_STR_PARAM_INDEX = .empty

theorem fieldsOf {feature : CustomFeature} (h : feature.Valid) : FieldsOf feature := by
  constructor <;> exact fieldText_featureStr h _

/-- **A valid feature stays inside every array** of the loader. -/
theorem featureFits_featureStr {feature : CustomFeature} (h : feature.Valid)
    (hlen : (featureText feature).length ≤ CUSTOM_MAX_FEATURE_TEXT) :
    FeatureFits (featureStr feature) := by
  obtain ⟨port, hport, hs⟩ := destPort_bytes h
  have hf := fieldsOf h
  have hproto := (map_tolower_protocol h.protocol).2.1
  have hdest := DestPort.text_length hport
  have h1 := h.domainLen
  have h2 := h.uriLen
  have hstr : (featureStr feature).strlen ≤ 127 := by
    rw [CStr.strlen, featureStr_bytes h]
    exact hlen
  have hdict := (fieldText_strlen_le (featureStr feature) AF_DICT_PARAM_INDEX).trans hstr
  rw [hf.dict] at hdict
  have hport16 : feature.destPort.strlen ≤ 11 := by
    rw [CStr.strlen, hs]
    exact hdest
  have hempty : CStr.empty.strlen = 0 := rfl
  refine ⟨?_, fun proto _ => ?_⟩
  · rw [fieldTexts_featureStr h]
    intro i
    fin_cases i
    · show feature.protocol.strlen ≤ 16
      rw [CStr.strlen]
      omega
    · show CStr.empty.strlen ≤ 16
      omega
    · show feature.destPort.strlen ≤ 16
      omega
    · show feature.domain.strlen ≤ 32
      omega
    · show feature.uri.strlen ≤ 128
      omega
    · show (payloadStr feature.payload).strlen ≤ 128
      omega
    · show CStr.empty.strlen ≤ 128
      omega
    · show CStr.empty.strlen ≤ 128
      omega
  · rw [hf.dstPort, hf.host, hf.search, hf.dict]
    exact ⟨by omega, portsFit_port hs, by omega, by rw [hempty]; decide,
      (dictFits_payload h.payload).1⟩

theorem featureStr_strlen_ge {feature : CustomFeature} (h : feature.Valid) :
    MIN_FEATURE_STR_LEN ≤ (featureStr feature).strlen := by
  have hproto := (map_tolower_protocol h.protocol).2.1
  rw [CStr.strlen, featureStr_bytes h]
  simp [featureText, featureHead, MIN_FEATURE_STR_LEN]
  omega

/-! ## 5. The line -/

/-- A line as a C string. -/
def lineStr (app : CustomApp) : CStr := .ofBytes (appText app)

theorem lineStr_bytes {classes : ClassNameTable} {app : CustomApp} (h : app.Valid classes) :
    (lineStr app).bytes = appText app := CStr.ofBytes_of_noNul (noNul_appText h)

/-- The first `[` of a text. -/
theorem findBrackets_skip : ∀ (u rest : List UInt8) (p len : Nat), (91 : UInt8) ∉ u →
    findBrackets p none len (u ++ rest) = findBrackets (p + u.length) none len rest
  | [], rest, p, len, _ => by simp
  | c :: u, rest, p, len, h => by
    rw [List.mem_cons, not_or] at h
    rw [List.cons_append, findBrackets, if_neg (Ne.symm h.1)]
    simp only [findBrackets_skip u rest (p + 1) len h.2, List.length_cons]
    congr 1
    omega

/-- The text behind it, up to the `]` at the end. -/
theorem findBrackets_body (b : Nat) : ∀ (v : List UInt8) (p len : Nat), (91 : UInt8) ∉ v →
    (93 : UInt8) ∉ v → findBrackets p (some b) len (v ++ [93]) = (some b, p + v.length - b)
  | [], p, len, _, _ => by simp [findBrackets]
  | c :: v, p, len, h1, h2 => by
    rw [List.mem_cons, not_or] at h1 h2
    rw [List.cons_append, findBrackets, if_neg (Ne.symm h1.1)]
    simp only [if_neg (Ne.symm h2.1), findBrackets_body b v (p + 1) len h1.2 h2.2,
      List.length_cons]
    congr 1
    omega

/-- The texts of the features, with their commas. -/
def featuresStr (features : List CustomFeature) : CStr :=
  .ofBytes ([44].intercalate (features.map featureText))

theorem not_mem_features {features : List CustomFeature} (h : ∀ f ∈ features, f.Valid) {c : UInt8}
    (hc : c ∈ ascii ";,[]") (hx : isxdigit c = false) (ha : c ∉ ascii "tpu;:|-") (h44 : c ≠ 44) :
    c ∉ [44].intercalate (features.map featureText) := by
  intro h0
  rcases mem_intercalate h0 with h0 | ⟨t, ht, h0⟩
  · exact h44 h0
  · obtain ⟨f, hf, rfl⟩ := List.mem_map.mp ht
    exact not_mem_featureText (h f hf) hc hx ha h0

theorem featuresStr_bytes {features : List CustomFeature} (h : ∀ f ∈ features, f.Valid) :
    (featuresStr features).bytes = [44].intercalate (features.map featureText) := by
  refine CStr.ofBytes_of_noNul ?_
  intro h0
  rcases mem_intercalate h0 with h0 | ⟨t, ht, h0⟩
  · exact absurd h0 (by decide)
  · obtain ⟨f, hf, rfl⟩ := List.mem_map.mp ht
    rw [← featureStr_bytes (h f hf)] at h0
    exact (featureStr f).noNul h0

/-- **What is between the brackets.** -/
theorem featureBufOf_line {classes : ClassNameTable} {app : CustomApp} (h : app.Valid classes) :
    featureBufOf (lineStr app) = featuresStr app.features := by
  obtain ⟨c, l, hid, hc⟩ := printInt_cons h
  have hopen : (91 : UInt8) ∉ l ++ 126 :: (app.name.bytes ++ [58]) := by
    simp only [List.mem_append, List.mem_cons, List.not_mem_nil, or_false, not_or]
    refine ⟨fun h0 => ?_, by decide, not_mem_of_allowed h.name (by decide), by decide⟩
    have hmem : (91 : UInt8) ∈ printInt app.appid := by simp [hid, h0]
    exact not_mem_printInt (by decide) (by decide) hmem
  have htext : appText app = c :: ((l ++ 126 :: (app.name.bytes ++ [58])) ++
      91 :: ([44].intercalate (app.features.map featureText) ++ [93])) := by
    simp [appText, appHead, hid, ascii]
  have h1 := not_mem_features (c := 91) h.features (by decide) (by decide) (by decide) (by decide)
  have h2 := not_mem_features (c := 93) h.features (by decide) (by decide) (by decide) (by decide)
  unfold featureBufOf
  rw [lineStr_bytes h, htext, List.tail_cons, findBrackets_skip _ _ _ _ hopen, findBrackets,
    if_pos rfl, findBrackets_body _ _ _ _ h1 h2]
  generalize l ++ 126 :: (app.name.bytes ++ [58]) = u
  have hdrop : (c :: (u ++ 91 :: ([44].intercalate (app.features.map featureText) ++ [93]))).drop
      (1 + u.length + 1) = [44].intercalate (app.features.map featureText) ++ [93] := by
    have hlen : 1 + u.length + 1 = (c :: u ++ [91]).length := by simp; omega
    have happ : c :: (u ++ 91 :: ([44].intercalate (app.features.map featureText) ++ [93])) =
        (c :: u ++ [91]) ++ ([44].intercalate (app.features.map featureText) ++ [93]) := by simp
    rw [happ, hlen, List.drop_left]
  have htake : 1 + u.length + 1 + ([44].intercalate (app.features.map featureText)).length -
      (1 + u.length + 1) = ([44].intercalate (app.features.map featureText)).length := by omega
  simp only [hdrop, htake, List.take_left]
  rfl

/-- **The commas** of a line. -/
theorem tokens_features {init : List CustomFeature} {last : CustomFeature}
    (h : ∀ f ∈ init ++ [last], f.Valid) :
    tokens 44 (featuresStr (init ++ [last])) = (init.map featureStr, featureStr last) := by
  have hcomma : ∀ f ∈ init ++ [last], (44 : UInt8) ∉ (featureStr f).bytes := by
    intro f hf
    rw [featureStr_bytes (h f hf)]
    exact not_mem_featureText (h f hf) (by decide) (by decide) (by decide)
  have hbytes : (init.map featureStr).map CStr.bytes ++ [(featureStr last).bytes] =
      (init ++ [last]).map featureText := by
    rw [List.map_append, List.map_map]
    congr 1
    · refine List.map_congr_left ?_
      intro f hf
      exact featureStr_bytes (h f (by simp [hf]))
    · simp [featureStr_bytes (h last (by simp))]
  refine tokens_intercalate ?_ (hcomma last (by simp)) ?_ ?_
  · intro t ht
    obtain ⟨f, hf, rfl⟩ := List.mem_map.mp ht
    exact hcomma f (by simp [hf])
  · rw [hbytes, featuresStr_bytes h]
  · intro t ht
    have hmem : t ∈ (init ++ [last]).map featureStr := by
      simpa using List.mem_of_head? ht
    obtain ⟨f, hf, rfl⟩ := List.mem_map.mp hmem
    rw [featureStr_bytes (h f hf)]
    exact featureText_ne_nil f

theorem beforeChar_append {c : UInt8} {w : List UInt8} (h : c ∉ w) (rest : List UInt8) :
    beforeChar c (w ++ c :: rest) = w := by
  have hall : ∀ x ∈ w, (x != c) = true := by
    intro x hx
    simpa using fun h0 : x = c => h (h0 ▸ hx)
  simp [beforeChar, List.takeWhile_append_of_pos hall]

theorem afterChar_append {c : UInt8} {w : List UInt8} (h : c ∉ w) (rest : List UInt8) :
    afterChar c (w ++ c :: rest) = rest := by
  have hall : ∀ x ∈ w, (x != c) = true := by
    intro x hx
    simpa using fun h0 : x = c => h (h0 ▸ hx)
  simp [afterChar, List.dropWhile_append_of_pos hall]

/-- **The header of a line.**  It is turned away when the name shows nothing but white space to the
kernel, which counts the byte 0xA0. -/
theorem afParseFeatureAppHeader_line {classes : ClassNameTable} {app : CustomApp}
    (h : app.Valid classes) :
    afParseFeatureAppHeader (lineStr app) =
      if Kernel.trim app.name.bytes = [] then none
      else some (app.appid.toNat.toUInt32, .ofBytes ((Kernel.trim app.name.bytes).take 127)) := by
  obtain ⟨hpos, hlt, _⟩ := h.appid_bounds
  have hname := h.nameLen
  rw [CStr.strlen] at hname
  have hidlen := printInt_length_le (i := app.appid) (k := 5) (by decide) (by omega)
  have hid : printInt app.appid = printNat app.appid.toNat := printInt_of_nonneg (by omega)
  have hcolon : (58 : UInt8) ∉ printInt app.appid ++ 126 :: app.name.bytes := by
    rw [List.mem_append, List.mem_cons, not_or, not_or]
    exact ⟨not_mem_printInt (by decide) (by decide), by decide,
      not_mem_of_allowed h.name (by decide)⟩
  have htext : appText app = (printInt app.appid ++ 126 :: app.name.bytes) ++ 58 :: 91 ::
      ([44].intercalate (app.features.map featureText) ++ [93]) := by
    simp [appText, appHead, ascii]
  have hheader : beforeChar 58 (appText app) = printInt app.appid ++ 126 :: app.name.bytes := by
    rw [htext]
    exact beforeChar_append hcolon _
  have hidText : beforeChar 126 (printInt app.appid ++ 126 :: app.name.bytes) = printInt app.appid :=
    beforeChar_append (not_mem_printInt (by decide) (by decide)) _
  have hnameText : afterChar 126 (printInt app.appid ++ 126 :: app.name.bytes) = app.name.bytes :=
    afterChar_append (not_mem_printInt (by decide) (by decide)) _
  have htrim : Kernel.trim (printInt app.appid) = printInt app.appid := by
    refine Kernel.trim_eq_self ?_ ?_
    · exact fun c hc => Kernel.isspace_of_digit (mem_printInt (List.mem_of_head? hc))
    · exact fun c hc => Kernel.isspace_of_digit (mem_printInt (List.mem_of_getLast? hc))
  have hend : (printInt app.appid).dropWhile (fun c => !Kernel.isspace c) = [] := by
    refine List.dropWhile_eq_nil_iff.mpr ?_
    intro c hc
    simp [Kernel.isspace_of_digit (mem_printInt hc)]
  have hnum : Kernel.kstrtol10 (printInt app.appid) = some app.appid := by
    rw [hid, Kernel.kstrtol10_printNat (by omega)]
    congr 1
    omega
  have hmod : (app.appid % 2 ^ 32).toNat = app.appid.toNat := by
    rw [Int.emod_eq_of_lt (by omega) (by omega)]
  unfold afParseFeatureAppHeader CStr.strchr
  rw [lineStr_bytes h]
  have hhas : (appText app).contains 58 = true := by simp [htext]
  have hlen : (printInt app.appid ++ 126 :: app.name.bytes).length < 128 := by
    simp
    omega
  have hmin : (printInt app.appid ++ 126 :: app.name.bytes).length ≠ 0 := by simp
  have htilde : (printInt app.appid ++ 126 :: app.name.bytes).contains 126 = true := by simp
  have htrimNil : Kernel.trim [] = [] := rfl
  simp only [hhas, Bool.not_true, Bool.false_eq_true, if_false, hheader, hidText, hnameText, htrim,
    htilde, hnum, hend, htrimNil, ne_eq, not_true_eq_false, hmod, printInt_ne_nil]
  rw [if_neg (by simp; omega)]
  by_cases hvis : Kernel.trim app.name.bytes = []
  · simp [hvis]
  · simp [hvis, Int.not_le.mpr hpos]

end Oaf
