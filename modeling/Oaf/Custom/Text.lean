/-
# A feature and an application line, printed and read back

`CustomFeature.Valid` and `CustomApp.Valid` say what fwxd's checks leave of an application, whether
it came in a request or in a line of the file.  A valid application that fits its line comes back
from it.

* `validateFeature_valid`, `validateFeature_self`: what `validate_feature` lets through, and that it
  changes nothing more of it.
* `featureToText_eq`, `appToLine_eq_some`: what is printed, and when it fits.
* `parseFeatureText_featureText`: **the round trip of a feature.**
* `parseAppLine_appText`: **the round trip of a line.**
* `mem_featureText`, `mem_appText`: which bytes a text can hold.
-/
import Oaf.Custom.Model
import Oaf.Lib.Words

namespace Oaf

open CLib

/-! ## 1. Ports -/

/-- The ports are port numbers, in order. -/
def DestPort.Valid : DestPort → Prop
  | .any => True
  | .single port => 1 ≤ port ∧ port ≤ 65535
  | .range start stop => 1 ≤ start ∧ start ≤ stop ∧ stop ≤ 65535

theorem parseInteger_bounds {text : List UInt8} {lo hi i : Int}
    (h : parseInteger text lo hi = some i) : lo ≤ i ∧ i ≤ hi := by
  unfold parseInteger at h
  split at h
  · simp at h
  dsimp only at h
  split at h
  · simp at h
  rename_i hok
  cases h
  simp at hok
  omega

theorem parseInteger_printInt {lo hi i : Int} (h1 : lo ≤ i) (h2 : i ≤ hi) (h3 : -2 ^ 63 ≤ i)
    (h4 : i < 2 ^ 63) : parseInteger (printInt i) lo hi = some i := by
  have hread := strtol10_printInt_nil h3 h4
  unfold parseInteger
  rw [if_neg (printInt_ne_nil i), hread]
  simp [h1, h2]

theorem scanDestPort_valid {text : CStr} {port : DestPort} (h : scanDestPort text = some port) :
    port.Valid := by
  unfold scanDestPort at h
  split at h
  · cases h
    trivial
  · split at h
    · simp at h
    split at h
    · obtain ⟨i, h1, rfl⟩ := Option.map_eq_some_iff.mp h
      exact parseInteger_bounds h1
    · split at h
      · simp at h
      split at h
      · rename_i start stop h1 h2
        split at h
        · simp at h
        rename_i hle
        cases h
        exact ⟨(parseInteger_bounds h1).1, by omega, (parseInteger_bounds h2).2⟩
      · simp at h

theorem printInt_port_length {i : Int} (h1 : 0 ≤ i) (h2 : i ≤ 65535) : (printInt i).length ≤ 5 := by
  rw [printInt_of_nonneg h1]
  exact printNat_length_le (by decide) (by omega)

theorem DestPort.text_length {port : DestPort} (h : port.Valid) : port.text.length ≤ 11 := by
  cases port with
  | any => simp [DestPort.text]
  | single p =>
    have h1 := printInt_port_length (i := p) (by have := h.1; omega) h.2
    rw [DestPort.text]
    omega
  | range a b =>
    obtain ⟨h1, h2, h3⟩ := h
    have h4 := printInt_port_length (i := a) (by omega) (by omega)
    have h5 := printInt_port_length (i := b) (by omega) h3
    simp only [DestPort.text, List.length_append, List.length_cons]
    omega

theorem DestPort.mem_text {port : DestPort} {c : UInt8} (h : c ∈ port.text) :
    isdigit c = true ∨ c = 45 := by
  cases port with
  | any => simp [DestPort.text] at h
  | single p => exact mem_printInt h
  | range a b =>
    rcases List.mem_append.mp h with h | h
    · exact mem_printInt h
    · rcases List.mem_cons.mp h with h | h
      · exact Or.inr h
      · exact mem_printInt h

@[simp] theorem DestPort.ofBytes_text (port : DestPort) :
    (CStr.ofBytes port.text).bytes = port.text := by
  refine CStr.ofBytes_of_noNul ?_
  intro h
  rcases DestPort.mem_text h with h | h <;> exact absurd h (by decide)

theorem not_mem_printInt_port {i : Int} (h : 0 ≤ i) : (45 : UInt8) ∉ printInt i := by
  rw [printInt_of_nonneg h]
  intro h1
  exact absurd (isdigit_of_mem_printNat h1) (by decide)

/-- A printed port text names what was printed. -/
theorem scanDestPort_text {port : DestPort} (h : port.Valid) :
    scanDestPort (.ofBytes port.text) = some port := by
  have hlen := DestPort.text_length h
  have hshort : ¬ 16 ≤ (CStr.ofBytes port.text).strlen := by
    rw [CStr.strlen, DestPort.ofBytes_text]
    omega
  unfold scanDestPort
  rw [if_neg hshort, DestPort.ofBytes_text]
  cases port with
  | any => simp [DestPort.text]
  | single p =>
    obtain ⟨h1, h2⟩ := h
    rw [DestPort.text, if_neg (printInt_ne_nil p),
      strchrSplit_eq_none (not_mem_printInt_port (by omega))]
    simp [parseInteger_printInt h1 h2 (by omega) (by omega)]
  | range a b =>
    obtain ⟨h1, h2, h3⟩ := h
    have ha : parseInteger (printInt a) 1 65535 = some a :=
      parseInteger_printInt h1 (by omega) (by omega) (by omega)
    have hb : parseInteger (printInt b) 1 65535 = some b :=
      parseInteger_printInt (by omega) h3 (by omega) (by omega)
    rw [DestPort.text, if_neg (by simp), strchrSplit_append (not_mem_printInt_port (by omega))]
    simp [not_mem_printInt_port (i := b) (by omega), ha, hb]
    omega

/-- `normalize_dest_port` answers a printed port text. -/
theorem normalizeDestPort_eq_some {text out : CStr} (h : normalizeDestPort text = some out) :
    ∃ port : DestPort, port.Valid ∧ out = .ofBytes port.text := by
  unfold normalizeDestPort at h
  split at h
  · simp at h
  rename_i port hport
  split at h
  · cases h
    exact ⟨port, scanDestPort_valid hport, rfl⟩
  · simp at h

/-- Normalizing again changes nothing. -/
theorem normalizeDestPort_text {port : DestPort} (h : port.Valid) :
    normalizeDestPort (.ofBytes port.text) = some (.ofBytes port.text) := by
  have hlen := DestPort.text_length h
  rw [normalizeDestPort, scanDestPort_text h]
  exact if_pos (by omega)

/-! ## 2. Valid features -/

/-- A payload list that fits its array, with positions that are C integers. -/
structure PayloadValid (payload : List CustomPayload) : Prop where
  count : payload.length ≤ CUSTOM_MAX_PAYLOADS
  position : ∀ p ∈ payload, INT_MIN ≤ p.position ∧ p.position ≤ INT_MAX

/-- What `validate_feature` lets through. -/
structure CustomFeature.Valid (feature : CustomFeature) : Prop where
  protocol : feature.protocol.bytes = ascii "tcp" ∨ feature.protocol.bytes = ascii "udp"
  destPort : ∃ port : DestPort, port.Valid ∧ feature.destPort = .ofBytes port.text
  domainLen : feature.domain.strlen ≤ 31
  domain : hasForbiddenTextChar feature.domain false = false
  uriLen : feature.uri.strlen ≤ 63
  uri : hasForbiddenTextChar feature.uri false = false
  payload : PayloadValid feature.payload
  nonempty : ¬ (feature.destPort.bytes = [] ∧ feature.domain.bytes = [] ∧ feature.uri.bytes = [] ∧
    feature.payload = [])

theorem snprintfS_self {n : Nat} {s : CStr} (h : s.strlen < n) : snprintfS n s = s := by
  rw [CStr.strlen] at h
  rw [snprintfS, List.take_of_length_le (by omega), CStr.ofBytes_bytes]

theorem validateFeature_valid {feature g : CustomFeature} (h : validateFeature feature = .ok g)
    (hpayload : PayloadValid feature.payload) : g.Valid := by
  unfold validateFeature at h
  split at h
  · simp at h
  rename_i hproto
  split at h
  · simp at h
  rename_i port hport
  obtain ⟨p, hp, rfl⟩ := normalizeDestPort_eq_some hport
  have hself : snprintfS 16 (.ofBytes p.text) = .ofBytes p.text := by
    have := DestPort.text_length hp
    exact snprintfS_self (by rw [CStr.strlen, DestPort.ofBytes_text]; omega)
  dsimp only at h
  rw [hself] at h
  split at h
  · simp at h
  rename_i hdomain
  split at h
  · simp at h
  rename_i huri
  split at h
  · simp at h
  rename_i hempty
  cases h
  simp only [not_or, Nat.not_lt, Bool.not_eq_true] at hdomain huri
  exact ⟨by tauto, ⟨p, hp, rfl⟩, hdomain.1, hdomain.2, huri.1, huri.2, hpayload, hempty⟩

/-- A valid feature passes unchanged. -/
theorem validateFeature_self {feature : CustomFeature} (h : feature.Valid) :
    validateFeature feature = .ok feature := by
  obtain ⟨p, hp, hport⟩ := h.destPort
  have hself : snprintfS 16 feature.destPort = feature.destPort := by
    have := DestPort.text_length hp
    exact snprintfS_self (by rw [hport, CStr.strlen, DestPort.ofBytes_text]; omega)
  have hnorm : normalizeDestPort feature.destPort = some feature.destPort := by
    rw [hport]
    exact normalizeDestPort_text hp
  have hdomain : ¬ (31 < feature.domain.strlen ∨ hasForbiddenTextChar feature.domain false) := by
    have := h.domainLen
    simp [h.domain]
    omega
  have huri : ¬ (63 < feature.uri.strlen ∨ hasForbiddenTextChar feature.uri false) := by
    have := h.uriLen
    simp [h.uri]
    omega
  unfold validateFeature
  rw [if_neg (by have := h.protocol; tauto), hnorm]
  simp only [hself, if_neg hdomain, if_neg huri, if_neg h.nonempty]

/-- A byte that is not allowed does not occur. -/
theorem not_mem_of_allowed {s : CStr} {appName : Bool} (h : hasForbiddenTextChar s appName = false)
    {c : UInt8} (hc : c ∈ ascii (if appName then ":~[];," else ";,[]")) : c ∉ s.bytes := by
  intro hmem
  have hno := List.any_eq_false.mp h c hmem
  simp [hc] at hno

theorem not_isspace_of_allowed {s : CStr} (h : hasForbiddenTextChar s false = false) {c : UInt8}
    (hc : c ∈ s.bytes) : isspace c = false := by
  have hno := List.any_eq_false.mp h c hc
  simp at hno
  exact hno.1

/-! ## 3. The text of a feature -/

/-- The text `feature_to_text` prints. -/
def featureText (feature : CustomFeature) : List UInt8 :=
  featureHead feature ++ [124].intercalate (feature.payload.map payloadText)

/-- **`feature_to_text`**: the whole text, or nothing. -/
theorem featureToText_eq (feature : CustomFeature) : featureToText feature =
    if (featureText feature).length ≤ CUSTOM_MAX_FEATURE_TEXT then some (featureText feature)
    else none := by
  have hlen : (featureHead feature).length ≤ (featureText feature).length := by
    simp [featureText]
  unfold featureToText
  by_cases hhead : CUSTOM_MAX_FEATURE_TEXT + 1 ≤ (featureHead feature).length
  · rw [if_pos hhead, if_neg (by omega)]
  · have hjoin : featureHead feature ++ joined 124 false (feature.payload.map payloadText) =
        featureText feature := by
      simp [joined, featureText]
    rw [if_neg hhead, snprintfList_eq _ _ _ _ _ (by omega), hjoin]
    by_cases hfit : (featureText feature).length ≤ CUSTOM_MAX_FEATURE_TEXT
    · simp only [if_pos hfit, if_pos (Nat.lt_succ_of_le hfit)]
    · rw [if_neg (by omega), if_neg hfit]

theorem isxdigit_of_isdigit {c : UInt8} (h : isdigit c = true) : isxdigit c = true := by
  simp [isxdigit, h]

theorem mem_payloadText {p : CustomPayload} {c : UInt8} (h : c ∈ payloadText p) :
    isxdigit c = true ∨ c ∈ ascii ":-" := by
  rcases List.mem_append.mp h with h | h
  · rcases mem_printInt h with h | rfl
    · exact Or.inl (isxdigit_of_isdigit h)
    · exact Or.inr (by decide)
  · rcases List.mem_cons.mp h with rfl | h
    · exact Or.inr (by decide)
    · exact Or.inl (mem_printHex2 h)

/-- The two protocol names. -/
theorem mem_protocol {l : List UInt8} {c : UInt8} (hl : l = ascii "tcp" ∨ l = ascii "udp")
    (h : c ∈ l) : isxdigit c = true ∨ c ∈ ascii "tpu;:|-" := by
  rcases hl with rfl | rfl
  · simp [ascii] at h
    rcases h with rfl | rfl | rfl <;> decide
  · simp [ascii] at h
    rcases h with rfl | rfl | rfl <;> decide

/-- The bytes of a feature's text: those of its domain and its uri, and a few others. -/
theorem mem_featureText {feature : CustomFeature} (hv : feature.Valid) {c : UInt8}
    (h : c ∈ featureText feature) :
    c ∈ feature.domain.bytes ∨ c ∈ feature.uri.bytes ∨ isxdigit c = true ∨
      c ∈ ascii "tpu;:|-" := by
  obtain ⟨port, hport, hdest⟩ := hv.destPort
  simp only [featureText, featureHead, hdest, DestPort.ofBytes_text, List.mem_append,
    List.mem_cons, List.not_mem_nil, or_false] at h
  have hsemi : c = 59 → c ∈ ascii "tpu;:|-" := by
    rintro rfl
    decide
  rcases h with (h | h | h | h | h | h | h | h | h) | h
  · exact Or.inr (Or.inr (mem_protocol hv.protocol h))
  · exact Or.inr (Or.inr (Or.inr (hsemi h)))
  · exact Or.inr (Or.inr (Or.inr (hsemi h)))
  · rcases DestPort.mem_text h with h | rfl
    · exact Or.inr (Or.inr (Or.inl (isxdigit_of_isdigit h)))
    · exact Or.inr (Or.inr (Or.inr (by decide)))
  · exact Or.inr (Or.inr (Or.inr (hsemi h)))
  · exact Or.inl h
  · exact Or.inr (Or.inr (Or.inr (hsemi h)))
  · exact Or.inr (Or.inl h)
  · exact Or.inr (Or.inr (Or.inr (hsemi h)))
  · rcases mem_intercalate h with rfl | ⟨t, ht, h⟩
    · exact Or.inr (Or.inr (Or.inr (by decide)))
    · obtain ⟨p, _, rfl⟩ := List.mem_map.mp ht
      rcases mem_payloadText h with h | h
      · exact Or.inr (Or.inr (Or.inl h))
      · refine Or.inr (Or.inr (Or.inr ?_))
        revert h
        simp [ascii]
        tauto

/-! ## 4. Reading a feature back -/

theorem INT_bounds {i : Int} (h1 : INT_MIN ≤ i) (h2 : i ≤ INT_MAX) : -2 ^ 63 ≤ i ∧ i < 2 ^ 63 := by
  unfold INT_MIN at h1
  unfold INT_MAX at h2
  omega

theorem parsePayloadItem_payloadText {p : CustomPayload} (h1 : INT_MIN ≤ p.position)
    (h2 : p.position ≤ INT_MAX) : parsePayloadItem (payloadText p) = some p := by
  obtain ⟨h3, h4⟩ := INT_bounds h1 h2
  have hread := strtol10_printInt_nil h3 h4
  have hcolon : (58 : UInt8) ∉ printHex2 p.value := by
    intro h
    exact absurd (mem_printHex2 h) (by decide)
  unfold parsePayloadItem
  rw [payloadText, strchrSplit_append (not_mem_printInt (by decide) (by decide))]
  simp only [if_neg hcolon, hread, hexByte_printHex2]
  simp [h1, h2]

theorem payloadText_ne_nil (p : CustomPayload) : payloadText p ≠ [] := by simp [payloadText]

theorem parsePayloadItems_map : ∀ (l payload : List CustomPayload),
    PayloadValid (payload ++ l) →
    parsePayloadItems payload (l.map payloadText) = some (payload ++ l)
  | [], payload, _ => by simp [parsePayloadItems]
  | p :: l, payload, h => by
    have hcount := h.count
    rw [List.length_append, List.length_cons] at hcount
    obtain ⟨h1, h2⟩ := h.position p (by simp)
    rw [List.map_cons, parsePayloadItems, if_neg fun hend => payloadText_ne_nil p hend.1, if_neg (by omega),
      parsePayloadItem_payloadText h1 h2]
    have hrest := parsePayloadItems_map l (payload ++ [p]) (by simpa using h)
    simpa using hrest

theorem payloadText_getLast (p : CustomPayload) : (payloadText p).getLast? =
    some (digitByte (p.value.toNat % 16)) := by
  simp [payloadText, printHex2]

/-- A list printed with a separator ends like its last item. -/
theorem intercalate_getLast? {d : UInt8} : ∀ {l : List (List UInt8)} (hl : l ≠ []),
    l.getLast hl ≠ [] → ([d].intercalate l).getLast? = (l.getLast hl).getLast?
  | [], hl, _ => absurd rfl hl
  | [t], _, _ => by simp
  | t :: t' :: l, hl, hne => by
    have hlast : (t :: t' :: l).getLast hl = (t' :: l).getLast (by simp) := by simp
    rw [hlast] at hne ⊢
    have ih := intercalate_getLast? (d := d) (by simp) hne
    have hne' : [d].intercalate (t' :: l) ≠ [] := by
      intro h0
      rw [h0] at ih
      exact hne (List.getLast?_eq_none_iff.mp ih.symm)
    rw [List.intercalate_cons_cons, List.getLast?_append_of_ne_nil _ hne', ih]

theorem parsePayloadText_intercalate {l : List CustomPayload} (h : PayloadValid l) :
    parsePayloadText ([124].intercalate (l.map payloadText)) = some l := by
  unfold parsePayloadText
  by_cases hl : l = []
  · simp [hl]
  · have hmap : l.map payloadText ≠ [] := by simpa using hl
    have hlast : (l.map payloadText).getLast hmap = payloadText (l.getLast hl) := by
      rw [List.getLast_map]
    have hend := intercalate_getLast? (d := 124) hmap
      (by rw [hlast]; exact payloadText_ne_nil _)
    rw [hlast, payloadText_getLast] at hend
    have hne : [124].intercalate (l.map payloadText) ≠ [] := by
      intro h0
      rw [h0] at hend
      simp at hend
    have hdigit : digitByte ((l.getLast hl).value.toNat % 16) ≠ 124 := by
      intro h0
      have hx := isxdigit_digitByte (d := (l.getLast hl).value.toNat % 16) (by omega)
      rw [h0] at hx
      exact absurd hx (by decide)
    have hbar : ∀ t ∈ l.map payloadText, (124 : UInt8) ∉ t := by
      intro t ht h0
      obtain ⟨p, _, rfl⟩ := List.mem_map.mp ht
      rcases mem_payloadText h0 with h0 | h0 <;> exact absurd h0 (by decide)
    rw [if_neg hne, hend, if_neg (by simpa using hdigit), List.splitOn_intercalate 124 hbar hmap]
    exact parsePayloadItems_map l [] (by simpa using h)

theorem map_tolower_protocol {l : List UInt8} (h : l = ascii "tcp" ∨ l = ascii "udp") :
    l.map tolower = l ∧ l.length = 3 ∧ (59 : UInt8) ∉ l := by
  rcases h with rfl | rfl <;> decide

/-- **A feature comes back** from its text. -/
theorem parseFeatureText_featureText {feature : CustomFeature} (h : feature.Valid)
    (hlen : (featureText feature).length ≤ CUSTOM_MAX_FEATURE_TEXT) :
    parseFeatureText (featureText feature) = .ok feature := by
  obtain ⟨port, hport, hdest⟩ := h.destPort
  obtain ⟨hlower, hproto, hp⟩ := map_tolower_protocol h.protocol
  have hdigits : ∀ {c : UInt8}, c ∈ port.text → c ≠ 59 := by
    rintro c hc rfl
    rcases DestPort.mem_text hc with hc | hc <;> exact absurd hc (by decide)
  have hsemi : (59 : UInt8) ∉ [124].intercalate (feature.payload.map payloadText) := by
    intro h0
    rcases mem_intercalate h0 with h0 | ⟨t, ht, h0⟩
    · exact absurd h0 (by decide)
    · obtain ⟨p, _, rfl⟩ := List.mem_map.mp ht
      rcases mem_payloadText h0 with h0 | h0 <;> exact absurd h0 (by decide)
  have hdomain : (59 : UInt8) ∉ feature.domain.bytes := not_mem_of_allowed h.domain (by decide)
  have huri : (59 : UInt8) ∉ feature.uri.bytes := not_mem_of_allowed h.uri (by decide)
  have htext : featureText feature = feature.protocol.bytes ++ 59 :: ([] ++ 59 :: (port.text ++
      59 :: (feature.domain.bytes ++ 59 :: (feature.uri.bytes ++
      59 :: [124].intercalate (feature.payload.map payloadText))))) := by
    simp [featureText, featureHead, hdest]
  have hsplit : splitExact 59 5 (featureText feature) = some [feature.protocol.bytes, [], port.text,
      feature.domain.bytes, feature.uri.bytes,
      [124].intercalate (feature.payload.map payloadText)] := by
    rw [htext, splitExact_append hp, splitExact_append (by simp),
      splitExact_append (fun h0 => hdigits h0 rfl), splitExact_append hdomain,
      splitExact_append huri, splitExact_zero hsemi]
    rfl
  have hne : featureText feature ≠ [] := by simp [htext]
  have h1 := h.domainLen
  have h2 := h.uriLen
  rw [CStr.strlen] at h1 h2
  unfold parseFeatureText
  rw [if_neg (by rw [not_or]; exact ⟨hne, by omega⟩), hsplit]
  simp only [ne_eq, not_true_eq_false, if_false, hproto, normalizeDestPort_text hport]
  rw [if_neg (by omega), parsePayloadText_intercalate h.payload]
  simp only [hlower, CStr.ofBytes_bytes, ← hdest]
  exact validateFeature_self h

/-! ## 5. Lines -/

/-- The text `app_to_line` prints. -/
def appText (app : CustomApp) : List UInt8 :=
  appHead app ++ ([44].intercalate (app.features.map featureText) ++ [93])

/-- The features of an application fit their buffer, and the application its line. -/
structure CustomApp.Fits (app : CustomApp) : Prop where
  features : ∀ f ∈ app.features, (featureText f).length ≤ CUSTOM_MAX_FEATURE_TEXT
  line : (appText app).length ≤ CUSTOM_MAX_APP_LINE

theorem mapM_featureToText : ∀ (l : List CustomFeature) (texts : List (List UInt8)),
    l.mapM featureToText = some texts ↔
      (∀ f ∈ l, (featureText f).length ≤ CUSTOM_MAX_FEATURE_TEXT) ∧ texts = l.map featureText
  | [], texts => by simp [eq_comm]
  | f :: l, texts => by
    rw [List.mapM_cons, featureToText_eq]
    by_cases hf : (featureText f).length ≤ CUSTOM_MAX_FEATURE_TEXT
    · simp only [if_pos hf, Option.bind_eq_bind, Option.bind_some, Option.bind_eq_some_iff,
        mapM_featureToText l, Option.pure_def, Option.some.injEq, List.forall_mem_cons,
        List.map_cons]
      constructor
      · rintro ⟨rest, ⟨hl, rfl⟩, rfl⟩
        exact ⟨⟨hf, hl⟩, rfl⟩
      · rintro ⟨⟨_, hl⟩, rfl⟩
        exact ⟨_, ⟨hl, rfl⟩, rfl⟩
    · simp [hf]

/-- **`app_to_line`** prints the whole text, and does so when everything fits. -/
theorem appToLine_eq_some {app : CustomApp} {line : List UInt8} :
    appToLine app = some line ↔ app.Fits ∧ line = appText app := by
  have htext : (appHead app ++ joined 44 false (app.features.map featureText)) ++ [93] =
      appText app := by
    simp [appText, joined]
  have hlen : (appHead app).length + ([44].intercalate (app.features.map featureText)).length + 1 =
      (appText app).length := by
    simp [appText]
    omega
  have hjoin : (appHead app ++ joined 44 false (app.features.map featureText)).length + 1 =
      (appText app).length := by
    simp only [← htext, List.length_append, List.length_singleton]
  unfold appToLine
  constructor
  · intro h
    split at h
    · simp at h
    rename_i hhead
    split at h
    · simp at h
    rename_i texts htexts
    obtain ⟨hfeatures, rfl⟩ := (mapM_featureToText _ _).mp htexts
    rw [snprintfList_eq _ _ _ _ _ (by omega)] at h
    split at h
    · simp at h
    rename_i text hsome
    split at hsome
    · cases hsome
      split at h
      · simp at h
      cases h
      exact ⟨⟨hfeatures, by omega⟩, htext⟩
    · simp at hsome
  · rintro ⟨hfits, rfl⟩
    have hline := hfits.line
    rw [if_neg (by omega), (mapM_featureToText _ _).mpr ⟨hfits.features, rfl⟩]
    simp only [snprintfList_eq _ 44 (app.features.map featureText) (appHead app) false
      (show (appHead app).length < CUSTOM_MAX_APP_LINE + 2 by omega)]
    rw [if_pos (by omega)]
    simp only [htext, if_neg (show ¬ CUSTOM_MAX_APP_LINE <
      (appHead app ++ joined 44 false (app.features.map featureText)).length + 1 by omega)]

/-- What the checks on an application let through, apart from its id: the name is trimmed. -/
structure CustomApp.Checked (classes : ClassNameTable) (app : CustomApp) : Prop where
  classId : classIsAvailable classes app.classId = true
  nameNe : app.name.bytes ≠ []
  nameLen : app.name.strlen ≤ 63
  name : hasForbiddenTextChar app.name true = false
  trimmed : trimSpaces app.name.bytes = app.name.bytes
  featuresNe : app.features ≠ []
  featuresLen : app.features.length ≤ CUSTOM_MAX_FEATURES
  features : ∀ f ∈ app.features, f.Valid

/-- The id is one of the custom ids of the class. -/
structure CustomApp.IdValid (app : CustomApp) : Prop where
  appidMin : app.classId * 1000 + CUSTOM_APP_MIN_SUFFIX ≤ app.appid
  appidMax : app.appid ≤ app.classId * 1000 + CUSTOM_APP_MAX_SUFFIX

structure CustomApp.Valid (classes : ClassNameTable) (app : CustomApp) : Prop
    extends app.Checked classes, app.IdValid

theorem classIsAvailable_bounds {classes : ClassNameTable} {classId : Int}
    (h : classIsAvailable classes classId = true) : 1 ≤ classId ∧ classId ≤ MAX_APP_TYPE := by
  unfold classIsAvailable at h
  split at h
  · split at h
    · rename_i hb
      exact hb
    · simp at h
  · rw [Bool.and_eq_true, decide_eq_true_eq, decide_eq_true_eq] at h
    exact ⟨h.1, h.2.trans (by decide)⟩

/-- The id of a valid application, and its class. -/
theorem CustomApp.Valid.appid_bounds {classes : ClassNameTable} {app : CustomApp}
    (h : app.Valid classes) : 0 < app.appid ∧ app.appid < 17000 ∧ app.appid / 1000 = app.classId := by
  obtain ⟨h1, h2⟩ := classIsAvailable_bounds h.classId
  have h3 := h.appidMin
  have h4 := h.appidMax
  simp only [MAX_APP_TYPE, CUSTOM_APP_MIN_SUFFIX, CUSTOM_APP_MAX_SUFFIX] at h2 h3 h4
  omega

/-- `validate_app_identity`, when it has nothing to say. -/
theorem validateAppIdentity_eq_ok {classes : ClassNameTable} {earlier : CustomConfig}
    {app : CustomApp} : validateAppIdentity classes earlier app = .ok () ↔
      classIsAvailable classes app.classId = true ∧ app.name.bytes ≠ [] ∧ app.name.strlen ≤ 63 ∧
        hasForbiddenTextChar app.name true = false ∧
        (app.appid ≠ 0 → app.classId * 1000 + CUSTOM_APP_MIN_SUFFIX ≤ app.appid ∧
          app.appid ≤ app.classId * 1000 + CUSTOM_APP_MAX_SUFFIX) ∧
        ∀ other ∈ earlier, other.name ≠ app.name ∧ (app.appid ≠ 0 → other.appid ≠ app.appid) := by
  unfold validateAppIdentity
  constructor
  · intro h
    split at h
    · simp at h
    rename_i hclass
    split at h
    · simp at h
    rename_i hname
    split at h
    · simp at h
    rename_i hid
    split at h
    · simp at h
    rename_i hdup
    simp only [not_or, Nat.not_lt, Bool.not_eq_true] at hname
    refine ⟨by simpa using hclass, hname.1, hname.2.1, hname.2.2, fun h0 => ?_, ?_⟩
    · by_contra hno
      exact hid ⟨h0, by omega⟩
    · simpa using hdup
  · rintro ⟨hclass, h1, h2, h3, hid, hdup⟩
    have hname : ¬ (app.name.bytes = [] ∨ 63 < app.name.strlen ∨
        hasForbiddenTextChar app.name true = true) := by
      simp [h1, h3]
      omega
    have hid' : ¬ (app.appid ≠ 0 ∧ (app.appid - app.classId * 1000 < CUSTOM_APP_MIN_SUFFIX ∨
        CUSTOM_APP_MAX_SUFFIX < app.appid - app.classId * 1000)) := by
      rintro ⟨h0, h4⟩
      have := hid h0
      omega
    rw [if_neg (by simp [hclass]), if_neg hname, if_neg hid', if_neg (by simpa using hdup)]

/-- The features of a line come back in order. -/
theorem parseFeatureTexts_map : ∀ (l features : List CustomFeature), (∀ f ∈ l, f.Valid) →
    (∀ f ∈ l, (featureText f).length ≤ CUSTOM_MAX_FEATURE_TEXT) →
    features.length + l.length ≤ CUSTOM_MAX_FEATURES →
    parseFeatureTexts features (l.map featureText) = .ok (features ++ l)
  | [], features, _, _, _ => by simp [parseFeatureTexts]
  | f :: l, features, hv, hfit, hlen => by
    have hne : featureText f ≠ [] := by simp [featureText, featureHead]
    rw [List.length_cons] at hlen
    rw [List.map_cons, parseFeatureTexts, if_neg fun hend => hne hend.1, if_neg (by omega),
      parseFeatureText_featureText (hv f (by simp)) (hfit f (by simp))]
    have hrest := parseFeatureTexts_map l (features ++ [f])
      (fun x hx => hv x (List.mem_cons_of_mem _ hx))
      (fun x hx => hfit x (List.mem_cons_of_mem _ hx)) (by simp; omega)
    simpa using hrest

/-- A byte outside the alphabet of the features, and not allowed in their texts. -/
theorem not_mem_featureText {feature : CustomFeature} (h : feature.Valid) {c : UInt8}
    (hc : c ∈ ascii ";,[]") (hx : isxdigit c = false) (ha : c ∉ ascii "tpu;:|-") :
    c ∉ featureText feature := by
  intro h0
  rcases mem_featureText h h0 with h0 | h0 | h0 | h0
  · exact not_mem_of_allowed h.domain hc h0
  · exact not_mem_of_allowed h.uri hc h0
  · simp [hx] at h0
  · exact ha h0

/-- A feature's text does not end in a comma, nor in anything else that is not allowed in it. -/
theorem getLast_featureText_ne {feature : CustomFeature} (h : feature.Valid) :
    (featureText feature).getLast? ≠ some 44 := by
  intro h0
  exact not_mem_featureText h (by decide) (by decide) (by decide)
    (List.mem_of_getLast? h0)

theorem featureText_ne_nil (feature : CustomFeature) : featureText feature ≠ [] := by
  simp [featureText, featureHead]

/-- **A line comes back** as the application it was printed from. -/
theorem parseAppLine_appText {classes : ClassNameTable} {config : CustomConfig} {app : CustomApp}
    (hv : app.Valid classes) (hfits : app.Fits) (hcount : config.length < MAX_SUPPORT_APP_NUM)
    (hnew : ∀ other ∈ config, other.name ≠ app.name ∧ other.appid ≠ app.appid) :
    parseAppLine classes config (appText app) = .ok (config ++ [app]) := by
  obtain ⟨hpos, hlt, hclass⟩ := hv.appid_bounds
  have hcolon : (58 : UInt8) ∉ printInt app.appid ++ 126 :: app.name.bytes := by
    rw [List.mem_append, List.mem_cons, not_or, not_or]
    exact ⟨not_mem_printInt (by decide) (by decide), by decide,
      not_mem_of_allowed hv.name (by decide)⟩
  have hopen : strstrSplit (ascii ":[") (appText app) =
      some (printInt app.appid ++ 126 :: app.name.bytes,
        [44].intercalate (app.features.map featureText) ++ [93]) := by
    have htext : appText app = (printInt app.appid ++ 126 :: app.name.bytes) ++ 58 :: 91 ::
        ([44].intercalate (app.features.map featureText) ++ [93]) := by
      simp [appText, appHead, ascii]
    rw [htext]
    exact strstrSplit_pair hcolon _
  have hsplit : strchrSplit 126 (printInt app.appid ++ 126 :: app.name.bytes) =
      some (printInt app.appid, app.name.bytes) :=
    strchrSplit_append (not_mem_printInt (by decide) (by decide)) _
  have hid : trimSpaces (printInt app.appid) = printInt app.appid := by
    refine trimSpaces_of_forall ?_
    intro c hc
    rw [printInt_of_nonneg (by omega)] at hc
    exact isspace_of_isdigit (isdigit_of_mem_printNat hc)
  have hparse : parseAppid (printInt app.appid) = some app.appid := by
    have hread := @strtol10_printInt_nil app.appid (by omega) (by omega)
    unfold parseAppid
    rw [hread]
    refine if_neg ?_
    simp [trimSpaces, INT_MAX]
    omega
  have hident : validateAppIdentity classes config
      { appid := app.appid, classId := app.classId, name := app.name } = .ok () :=
    validateAppIdentity_eq_ok.mpr ⟨hv.classId, hv.nameNe, hv.nameLen, hv.name,
      fun _ => ⟨hv.appidMin, hv.appidMax⟩, fun other h => ⟨(hnew other h).1, fun _ => (hnew other h).2⟩⟩
  have hmap : app.features.map featureText ≠ [] := by simpa using hv.featuresNe
  have hlast : (app.features.map featureText).getLast hmap =
      featureText (app.features.getLast hv.featuresNe) := by
    rw [List.getLast_map]
  have hend := intercalate_getLast? (d := 44) hmap (by rw [hlast]; exact featureText_ne_nil _)
  rw [hlast] at hend
  have hne : [44].intercalate (app.features.map featureText) ≠ [] := by
    intro h0
    rw [h0] at hend
    exact featureText_ne_nil _ (List.getLast?_eq_none_iff.mp hend.symm)
  have hcomma : ∀ t ∈ app.features.map featureText, (44 : UInt8) ∉ t := by
    intro t ht
    obtain ⟨f, hf, rfl⟩ := List.mem_map.mp ht
    exact not_mem_featureText (hv.features f hf) (by decide) (by decide) (by decide)
  have htexts := parseFeatureTexts_map app.features [] hv.features hfits.features
    (by simpa using hv.featuresLen)
  have hname := hv.nameLen
  have hline := hfits.line
  rw [CStr.strlen] at hname
  have hlastFeature := getLast_featureText_ne (hv.features _ (List.getLast_mem hv.featuresNe))
  unfold parseAppLine
  rw [hopen]
  simp only [if_neg (show ¬ CUSTOM_MAX_APP_LINE < (appText app).length by omega),
    List.getLast?_concat, ne_eq, not_true_eq_false, if_false,
    if_neg (show ¬ MAX_SUPPORT_APP_NUM ≤ config.length by omega), hsplit, hid, hv.trimmed,
    printInt_ne_nil, hv.nameNe, or_self, hparse,
    if_neg (show ¬ 64 ≤ app.name.bytes.length by omega), hident, List.dropLast_concat, hne, hend,
    hlastFeature, List.splitOn_intercalate 44 hcomma hmap, htexts, List.nil_append, hv.featuresNe,
    CStr.ofBytes_bytes, hclass]

/-! ## 6. The bytes of a line -/

/-- The bytes of a line: those of the name, the domains and the uris, and a few others. -/
theorem mem_appText {classes : ClassNameTable} {app : CustomApp} (hv : app.Valid classes)
    {c : UInt8} (h : c ∈ appText app) :
    c ∈ app.name.bytes ∨ (∃ f ∈ app.features, c ∈ f.domain.bytes ∨ c ∈ f.uri.bytes) ∨
      isxdigit c = true ∨ c ∈ ascii "~:[],-tpu;|" := by
  simp only [appText, appHead, List.mem_append, List.mem_cons, List.not_mem_nil, or_false] at h
  rcases h with (h | rfl | h | h) | h | rfl
  · rcases mem_printInt h with h | rfl
    · exact Or.inr (Or.inr (Or.inl (isxdigit_of_isdigit h)))
    · exact Or.inr (Or.inr (Or.inr (by decide)))
  · exact Or.inr (Or.inr (Or.inr (by decide)))
  · exact Or.inl h
  · refine Or.inr (Or.inr (Or.inr ?_))
    simp [ascii] at h
    rcases h with rfl | rfl <;> decide
  · rcases mem_intercalate h with rfl | ⟨t, ht, h⟩
    · exact Or.inr (Or.inr (Or.inr (by decide)))
    · obtain ⟨f, hf, rfl⟩ := List.mem_map.mp ht
      rcases mem_featureText (hv.features f hf) h with h | h | h | h
      · exact Or.inr (Or.inl ⟨f, hf, Or.inl h⟩)
      · exact Or.inr (Or.inl ⟨f, hf, Or.inr h⟩)
      · exact Or.inr (Or.inr (Or.inl h))
      · refine Or.inr (Or.inr (Or.inr ?_))
        simp [ascii] at h ⊢
        tauto
  · exact Or.inr (Or.inr (Or.inr (by decide)))

theorem noNul_appText {classes : ClassNameTable} {app : CustomApp} (hv : app.Valid classes) :
    (0 : UInt8) ∉ appText app := by
  intro h
  rcases mem_appText hv h with h | ⟨f, _, h | h⟩ | h | h
  · exact app.name.noNul h
  · exact f.domain.noNul h
  · exact f.uri.noNul h
  · exact absurd h (by decide)
  · exact absurd h (by decide)

/-- An id starts with a digit. -/
theorem printInt_cons {classes : ClassNameTable} {app : CustomApp} (hv : app.Valid classes) :
    ∃ c l, printInt app.appid = c :: l ∧ isdigit c = true := by
  rw [printInt_of_nonneg (by have := hv.appid_bounds.1; omega)]
  exact printNat_cons _

end Oaf
