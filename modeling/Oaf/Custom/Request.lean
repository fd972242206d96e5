/-
# What fwxd accepts

Two ways lead into a configuration, a request and a line of the file, and each has checks of its
own.  Both end in `CustomApp.Valid`; a whole request moreover gives applications with distinct
names and ids, sorted, that fit their lines (`CustomConfig.Accepted`).

* `parseFeatureJson_valid`, `parseFeatureText_valid`: a feature.
* `parseAppLine_valid`: a line.
* `appsFromJson_drafts`: the applications of a request, before ids are given out.
* `assignAppids_spec`: **ids that are given out are fresh.**
* `configFromJson_accepted`: a request.
-/
import Oaf.Custom.Text
import Oaf.Lib.CArray

namespace Oaf

open CLib

/-! ## 1. Features of a request -/

/-- A list read item by item. -/
theorem mapM_ok {ε α β : Type} {f : α → Except ε β} : ∀ {l : List α} {r : List β},
    l.mapM f = .ok r → r.length = l.length ∧ ∀ y ∈ r, ∃ x ∈ l, f x = .ok y
  | [], r, h => by
    rw [List.mapM_nil] at h
    cases h
    simp
  | x :: l, r, h => by
    rw [List.mapM_cons] at h
    obtain ⟨y, hy, h⟩ := bind_eq_ok.mp h
    obtain ⟨ys, hys, h⟩ := bind_eq_ok.mp h
    cases h
    obtain ⟨hlen, hall⟩ := mapM_ok hys
    refine ⟨by simp [hlen], ?_⟩
    intro z hz
    rcases List.mem_cons.mp hz with rfl | hz
    · exact ⟨x, List.mem_cons_self .., hy⟩
    · obtain ⟨w, hw, hwz⟩ := hall z hz
      exact ⟨w, List.mem_cons_of_mem _ hw, hwz⟩

theorem parsePayloadItemJson_ok {item : JsonObject} {p : CustomPayload}
    (h : parsePayloadItemJson item = .ok p) : INT_MIN ≤ p.position ∧ p.position ≤ INT_MAX := by
  unfold parsePayloadItemJson at h
  split at h
  · dsimp only at h
    split at h
    · simp at h
    rename_i hpos
    split at h
    · simp at h
    cases h
    simpa using hpos
  · simp at h

theorem payloadJson_valid {value : Option JsonObject} {payload : List CustomPayload}
    (h : payloadJson value = .ok payload) : PayloadValid payload := by
  have hnil : PayloadValid [] := ⟨by simp, by simp⟩
  unfold payloadJson at h
  split at h
  · cases h
    exact hnil
  · unfold parsePayloadJson at h
    split at h
    · cases h
      exact hnil
    · split at h
      · simp at h
      rename_i hcount
      obtain ⟨hlen, hall⟩ := mapM_ok h
      refine ⟨by omega, fun p hp => ?_⟩
      obtain ⟨item, _, hitem⟩ := hall p hp
      exact parsePayloadItemJson_ok hitem
    · simp at h

/-- **A feature of a request** is valid. -/
theorem parseFeatureJson_valid {object : JsonObject} {feature : CustomFeature}
    (h : parseFeatureJson object = .ok feature) : feature.Valid := by
  unfold parseFeatureJson at h
  obtain ⟨protocol, _, h⟩ := bind_eq_ok.mp h
  obtain ⟨destPort, _, h⟩ := bind_eq_ok.mp h
  obtain ⟨domain, _, h⟩ := bind_eq_ok.mp h
  obtain ⟨uri, _, h⟩ := bind_eq_ok.mp h
  obtain ⟨payload, hpayload, h⟩ := bind_eq_ok.mp h
  exact validateFeature_valid h (payloadJson_valid hpayload)

/-! ## 2. Features of a line -/

theorem parsePayloadItem_ok {item : List UInt8} {p : CustomPayload}
    (h : parsePayloadItem item = some p) : INT_MIN ≤ p.position ∧ p.position ≤ INT_MAX := by
  unfold parsePayloadItem at h
  split at h
  · simp at h
  split at h
  · simp at h
  dsimp only at h
  split at h
  · simp at h
  rename_i hok
  obtain ⟨v, _, rfl⟩ := Option.map_eq_some_iff.mp h
  simp at hok
  exact ⟨hok.1.2, hok.2⟩

theorem parsePayloadItems_valid : ∀ {items : List (List UInt8)} {payload l : List CustomPayload},
    PayloadValid payload → parsePayloadItems payload items = some l → PayloadValid l
  | [], payload, l, hp, h => by
    cases h
    exact hp
  | item :: rest, payload, l, hp, h => by
    unfold parsePayloadItems at h
    split at h
    · cases h
      exact hp
    · split at h
      · simp at h
      rename_i hcount
      split at h
      · simp at h
      rename_i p hitem
      refine parsePayloadItems_valid ⟨?_, ?_⟩ h
      · simp
        omega
      · intro q hq
        rcases List.mem_append.mp hq with hq | hq
        · exact hp.position q hq
        · rw [List.mem_singleton.mp hq]
          exact parsePayloadItem_ok hitem

theorem parsePayloadText_valid {text : List UInt8} {l : List CustomPayload}
    (h : parsePayloadText text = some l) : PayloadValid l := by
  have hnil : PayloadValid [] := ⟨by simp, by simp⟩
  unfold parsePayloadText at h
  split at h
  · cases h
    exact hnil
  · split at h
    · simp at h
    exact parsePayloadItems_valid hnil h

/-- **A feature of a line** is valid. -/
theorem parseFeatureText_valid {text : List UInt8} {feature : CustomFeature}
    (h : parseFeatureText text = .ok feature) : feature.Valid := by
  unfold parseFeatureText at h
  split at h
  · simp at h
  split at h
  · split at h
    · simp at h
    split at h
    · simp at h
    split at h
    · simp at h
    split at h
    · simp at h
    split at h
    · simp at h
    rename_i hpayload
    exact validateFeature_valid h (parsePayloadText_valid hpayload)
  · simp at h

theorem parseFeatureTexts_valid : ∀ {texts : List (List UInt8)} {features l : List CustomFeature},
    features.length ≤ CUSTOM_MAX_FEATURES → (∀ f ∈ features, f.Valid) →
    parseFeatureTexts features texts = .ok l →
    l.length ≤ CUSTOM_MAX_FEATURES ∧ ∀ f ∈ l, f.Valid
  | [], features, l, hlen, hv, h => by
    cases h
    exact ⟨hlen, hv⟩
  | text :: rest, features, l, hlen, hv, h => by
    unfold parseFeatureTexts at h
    split at h
    · cases h
      exact ⟨hlen, hv⟩
    · split at h
      · simp at h
      rename_i hcount
      split at h
      · simp at h
      rename_i f hf
      refine parseFeatureTexts_valid ?_ ?_ h
      · simp
        omega
      · intro x hx
        rcases List.mem_append.mp hx with hx | hx
        · exact hv x hx
        · rw [List.mem_singleton.mp hx]
          exact parseFeatureText_valid hf

/-- **A line** adds one valid application. -/
theorem parseAppLine_valid {classes : ClassNameTable} {config config' : CustomConfig} {line : CStr}
    (h : parseAppLine classes config line.bytes = .ok config') :
    ∃ app : CustomApp, config' = config ++ [app] ∧ app.Valid classes := by
  unfold parseAppLine at h
  split at h
  · simp at h
  rename_i header body hopen
  split at h
  · simp at h
  split at h
  · simp at h
  split at h
  · simp at h
  split at h
  · simp at h
  rename_i idText nameText hslash
  dsimp only at h
  split at h
  · simp at h
  split at h
  · simp at h
  rename_i appid hid
  split at h
  · simp at h
  split at h
  · simp at h
  rename_i hident
  split at h
  · simp at h
  split at h
  · simp at h
  rename_i features hfeatures
  split at h
  · simp at h
  rename_i hne
  cases h
  have hnul : (0 : UInt8) ∉ trimSpaces nameText := by
    intro h0
    refine line.noNul ?_
    rw [strstrSplit_eq_some hopen, (strchrSplit_eq_some hslash).1]
    simp [mem_of_mem_trimSpaces h0]
  obtain ⟨hlen, hall⟩ := parseFeatureTexts_valid (by simp) (by simp) hfeatures
  obtain ⟨h1, h2, h3, h4, h5, _⟩ := validateAppIdentity_eq_ok.mp hident
  have hpos : appid ≠ 0 := by
    unfold parseAppid at hid
    dsimp only at hid
    split at hid
    · simp at hid
    rename_i hok
    cases hid
    simp at hok
    omega
  have htrim : trimSpaces (CStr.ofBytes (trimSpaces nameText)).bytes =
      (CStr.ofBytes (trimSpaces nameText)).bytes := by
    rw [CStr.ofBytes_of_noNul hnul, trimSpaces_idem]
  exact ⟨_, rfl, ⟨h1, h2, h3, h4, htrim, hne, hlen, hall⟩, (h5 hpos).1,
    (h5 hpos).2⟩

/-! ## 3. The applications of a request -/

/-- An id that is not given yet, or one of the custom ids of the class. -/
def CustomApp.Draft (app : CustomApp) : Prop := app.appid = 0 ∨ app.IdValid

/-- Two applications that may stand in one configuration, the first one earlier. -/
def Apart (a b : CustomApp) : Prop := a.name ≠ b.name ∧ (b.appid ≠ 0 → a.appid ≠ b.appid)

/-- The applications read so far. -/
structure Drafts (classes : ClassNameTable) (apps : CustomConfig) : Prop where
  checked : ∀ app ∈ apps, app.Checked classes
  draft : ∀ app ∈ apps, app.Draft
  apart : apps.Pairwise Apart
  count : apps.length ≤ MAX_SUPPORT_APP_NUM

/-- The name in an item of a request. -/
def requestName (item : JsonObject) : Option CStr :=
  match item.get "name" with
  | some (.string text) => some (trimSpace (.ofBytes text))
  | _ => none

theorem nameJson_ok {value : Option JsonObject} {name : CStr} (h : nameJson value = .ok name) :
    ∃ text, value = some (.string text) ∧ name = trimSpace (.ofBytes text) := by
  unfold nameJson at h
  split at h
  · rename_i text
    split at h
    · simp at h
    rename_i hlen
    cases h
    have hle := CStr.ofBytes_strlen_le text
    exact ⟨text, rfl, by rw [snprintfS_self (by omega)]⟩
  · simp at h

/-- One round adds one application. -/
theorem appFromJson_ok {classes : ClassNameTable} {config config' : CustomConfig}
    {item : JsonObject} (h : appFromJson classes config item = .ok config')
    (hd : Drafts classes config) :
    Drafts classes config' ∧ ∃ app : CustomApp, config' = config ++ [app] ∧
      requestName item = some app.name := by
  unfold appFromJson at h
  split at h
  · simp [throw, throwThe, MonadExceptOf.throw] at h
  · rename_i hcount
    obtain ⟨appid, hid, h⟩ := bind_eq_ok.mp h
    obtain ⟨classId, _, h⟩ := bind_eq_ok.mp h
    obtain ⟨name, hname, h⟩ := bind_eq_ok.mp h
    obtain ⟨u, hident, h⟩ := bind_eq_ok.mp h
    obtain ⟨features, hfeatures, h⟩ := bind_eq_ok.mp h
    cases h
    obtain ⟨h1, h2, h3, h4, h5, h6⟩ := validateAppIdentity_eq_ok.mp hident
    obtain ⟨text, htext, htrim⟩ := nameJson_ok hname
    have hall : features ≠ [] ∧ features.length ≤ CUSTOM_MAX_FEATURES ∧ ∀ f ∈ features, f.Valid := by
      unfold featuresJson at hfeatures
      split at hfeatures
      · split at hfeatures
        · simp at hfeatures
        rename_i hlen
        rw [not_or, Nat.not_lt, Nat.not_lt] at hlen
        obtain ⟨heq, hall⟩ := mapM_ok hfeatures
        refine ⟨?_, by omega, fun f hf => ?_⟩
        · rintro rfl
          simp at heq
          omega
        · obtain ⟨o, _, ho⟩ := hall f hf
          exact parseFeatureJson_valid ho
      · simp at hfeatures
    have hself : trimSpaces name.bytes = name.bytes := by
      rw [htrim]
      exact trimSpaces_idem _
    refine ⟨⟨?_, ?_, ?_, ?_⟩, _, rfl, by simp [requestName, htext, htrim]⟩
    · intro app happ
      rcases List.mem_append.mp happ with happ | happ
      · exact hd.checked app happ
      · rw [List.mem_singleton.mp happ]
        exact ⟨h1, h2, h3, h4, hself, hall.1, hall.2.1, hall.2.2⟩
    · intro app happ
      rcases List.mem_append.mp happ with happ | happ
      · exact hd.draft app happ
      · rw [List.mem_singleton.mp happ]
        by_cases h0 : appid = 0
        · exact Or.inl h0
        · exact Or.inr ⟨(h5 h0).1, (h5 h0).2⟩
    · rw [List.pairwise_append]
      refine ⟨hd.apart, List.pairwise_singleton .., ?_⟩
      intro a ha b hb
      rw [List.mem_singleton.mp hb]
      exact h6 a ha
    · simp
      omega

theorem appsFromJson_drafts {classes : ClassNameTable} : ∀ {items : List JsonObject}
    {config apps : CustomConfig}, items.foldlM (appFromJson classes) config = .ok apps →
    Drafts classes config →
    Drafts classes apps ∧ apps.map (·.name) = config.map (·.name) ++ items.filterMap requestName
  | [], config, apps, h, hd => by
    cases h
    exact ⟨hd, by simp⟩
  | item :: rest, config, apps, h, hd => by
    rw [List.foldlM_cons] at h
    obtain ⟨config', h1, h2⟩ := bind_eq_ok.mp h
    obtain ⟨hd', app, rfl, hname⟩ := appFromJson_ok h1 hd
    obtain ⟨hd'', hnames⟩ := appsFromJson_drafts h2 hd'
    exact ⟨hd'', by simp [hnames, hname]⟩

/-! ## 4. The ids that are given out -/

/-- The cell of `used` an id stands in. -/
def appCell (app : CustomApp) : Int × Int :=
  (app.classId, app.appid % 1000 - CUSTOM_APP_MIN_SUFFIX)

/-- A custom id is its class and its cell. -/
theorem CustomApp.IdValid.appid_eq {app : CustomApp} (h : app.IdValid) :
    app.appid = app.classId * 1000 + CUSTOM_APP_MIN_SUFFIX + (appCell app).2 := by
  have h1 := h.appidMin
  have h2 := h.appidMax
  simp only [CUSTOM_APP_MIN_SUFFIX, CUSTOM_APP_MAX_SUFFIX, appCell] at h1 h2 ⊢
  omega

theorem appCell_inj {a b : CustomApp} (ha : a.IdValid) (hb : b.IdValid) :
    appCell a = appCell b ↔ a.classId = b.classId ∧ a.appid = b.appid := by
  constructor
  · intro h
    have hclass : a.classId = b.classId := congrArg Prod.fst h
    refine ⟨hclass, ?_⟩
    rw [ha.appid_eq, hb.appid_eq, hclass, h]
  · rintro ⟨h1, h2⟩
    simp [appCell, h1, h2]

/-- Equal custom ids are of one class. -/
theorem CustomApp.IdValid.class_eq {a b : CustomApp} (ha : a.IdValid) (hb : b.IdValid)
    (h : a.appid = b.appid) : a.classId = b.classId := by
  have h1 := ha.appidMin
  have h2 := ha.appidMax
  have h3 := hb.appidMin
  have h4 := hb.appidMax
  simp only [CUSTOM_APP_MIN_SUFFIX, CUSTOM_APP_MAX_SUFFIX] at h1 h2 h3 h4
  omega

theorem markUsed_ok : ∀ {apps : CustomConfig} {used used' : List (Int × Int)},
    markUsed used apps = .ok used' →
    used ⊆ used' ∧ ∀ app ∈ apps, app.appid ≠ 0 → appCell app ∈ used'
  | [], used, used', h => by
    cases h
    simp
  | app :: rest, used, used', h => by
    unfold markUsed at h
    split at h
    · rename_i h0
      obtain ⟨h1, h2⟩ := markUsed_ok h
      refine ⟨h1, fun x hx hne => ?_⟩
      rcases List.mem_cons.mp hx with rfl | hx
      · exact absurd h0 hne
      · exact h2 x hx hne
    · dsimp only at h
      split at h
      · simp at h
      obtain ⟨h1, h2⟩ := markUsed_ok h
      refine ⟨fun c hc => h1 (List.mem_cons_of_mem _ hc), fun x hx hne => ?_⟩
      rcases List.mem_cons.mp hx with rfl | hx
      · exact h1 (List.mem_cons_self ..)
      · exact h2 x hx hne

/-- What giving out ids does to one application. -/
structure Assigned (a a' : CustomApp) : Prop where
  same : a' = { a with appid := a'.appid }
  idValid : a.Draft → a'.IdValid

theorem mem_suffixes {s : Int} (h : s ∈ suffixes) :
    CUSTOM_APP_MIN_SUFFIX ≤ s ∧ s ≤ CUSTOM_APP_MAX_SUFFIX := by
  obtain ⟨i, hi, rfl⟩ := List.mem_map.mp h
  rw [List.mem_range] at hi
  simp only [CUSTOM_APP_MIN_SUFFIX, CUSTOM_APP_MAX_SUFFIX]
  omega

/-- The cell of an id that is given out. -/
theorem appCell_assigned (app : CustomApp) {s : Int} (h : s ∈ suffixes) :
    appCell { app with appid := app.classId * 1000 + s } =
      (app.classId, s - CUSTOM_APP_MIN_SUFFIX) := by
  obtain ⟨h1, h2⟩ := mem_suffixes h
  simp only [CUSTOM_APP_MIN_SUFFIX, CUSTOM_APP_MAX_SUFFIX] at h1 h2
  simp only [appCell, Prod.mk.injEq, true_and]
  omega

/-- **Ids that are given out are fresh.**  The cells of the ids that were given are used already, so
no two applications end up in one cell. -/
theorem assignAppids_spec : ∀ {apps apps' : CustomConfig} {used : List (Int × Int)},
    assignAppids used apps = .ok apps' →
    (∀ app ∈ apps, app.appid ≠ 0 → appCell app ∈ used) →
    apps.Pairwise (fun a b => a.appid ≠ 0 → b.appid ≠ 0 → appCell a ≠ appCell b) →
    List.Forall₂ Assigned apps apps' ∧
      (∀ a' ∈ apps', appCell a' ∈ used → a' ∈ apps ∧ a'.appid ≠ 0) ∧
      apps'.Pairwise (fun a b => appCell a ≠ appCell b)
  | [], apps', used, h, _, _ => by
    cases h
    exact ⟨.nil, by simp, .nil⟩
  | app :: rest, apps', used, h, hused, happart => by
    rw [List.pairwise_cons] at happart
    have husedRest : ∀ x ∈ rest, x.appid ≠ 0 → appCell x ∈ used := fun x hx =>
      hused x (List.mem_cons_of_mem _ hx)
    unfold assignAppids at h
    split at h
    · -- the id was given: its cell is used, so the ids given out later are elsewhere
      rename_i hgiven
      split at h
      · simp at h
      rename_i apps'' hrest
      cases h
      obtain ⟨h1, h2, h3⟩ := assignAppids_spec hrest husedRest happart.2
      refine ⟨.cons ⟨rfl, fun hd => hd.resolve_left hgiven⟩ h1, ?_, ?_⟩
      · intro a' ha' hcell
        rcases List.mem_cons.mp ha' with rfl | ha'
        · exact ⟨List.mem_cons_self .., hgiven⟩
        · obtain ⟨h4, h5⟩ := h2 a' ha' hcell
          exact ⟨List.mem_cons_of_mem _ h4, h5⟩
      · refine List.pairwise_cons.mpr ⟨?_, h3⟩
        intro b hb heq
        have hcell := hused app (List.mem_cons_self ..) hgiven
        obtain ⟨h4, h5⟩ := h2 b hb (heq ▸ hcell)
        exact happart.1 b h4 hgiven h5 heq
    · -- the id is given out: its cell is free, and used from then on
      rename_i hzero
      split at h
      · simp at h
      rename_i suffix hfind
      split at h
      · simp at h
      rename_i apps'' hrest
      cases h
      have hmem := List.mem_of_find?_eq_some hfind
      have hfree : (app.classId, suffix - CUSTOM_APP_MIN_SUFFIX) ∉ used := by
        simpa using List.find?_some hfind
      have hcell := appCell_assigned app hmem
      obtain ⟨hmin, hmax⟩ := mem_suffixes hmem
      obtain ⟨h1, h2, h3⟩ := assignAppids_spec hrest
        (fun x hx hne => List.mem_cons_of_mem _ (husedRest x hx hne)) happart.2
      refine ⟨.cons ⟨rfl, fun _ => ⟨?_, ?_⟩⟩ h1, ?_, ?_⟩
      · show app.classId * 1000 + CUSTOM_APP_MIN_SUFFIX ≤ app.classId * 1000 + suffix
        omega
      · show app.classId * 1000 + suffix ≤ app.classId * 1000 + CUSTOM_APP_MAX_SUFFIX
        omega
      · intro a' ha' hin
        rcases List.mem_cons.mp ha' with rfl | ha'
        · rw [hcell] at hin
          exact absurd hin hfree
        · obtain ⟨h4, h5⟩ := h2 a' ha' (List.mem_cons_of_mem _ hin)
          exact ⟨List.mem_cons_of_mem _ h4, h5⟩
      · refine List.pairwise_cons.mpr ⟨?_, h3⟩
        intro b hb heq
        rw [hcell] at heq
        obtain ⟨h4, h5⟩ := h2 b hb (heq ▸ List.mem_cons_self ..)
        exact hfree (heq ▸ husedRest b h4 h5)

/-! ## 5. Sorted configurations -/

instance : Std.Total AppLe := ⟨fun a b => by
  unfold AppLe appCompare
  split <;> split <;> omega⟩

instance : IsTrans CustomApp AppLe := ⟨fun a b c h1 h2 => by
  unfold AppLe appCompare at *
  split at h1 <;> split at h2 <;> split <;> omega⟩

theorem sortApps_perm (config : CustomConfig) : (sortApps config).Perm config :=
  List.perm_insertionSort AppLe config

/-- Sorting again changes nothing. -/
theorem sortApps_idem (config : CustomConfig) : sortApps (sortApps config) = sortApps config :=
  (List.pairwise_insertionSort AppLe config).insertionSort_eq

/-! ## 6. Requests -/

/-- What a request leaves when it is accepted. -/
structure CustomConfig.Accepted (classes : ClassNameTable) (baseAppCount : Nat)
    (config : CustomConfig) : Prop where
  valid : ∀ app ∈ config, app.Valid classes
  fits : ∀ app ∈ config, app.Fits
  names : (config.map (·.name)).Nodup
  appids : (config.map (·.appid)).Nodup
  sorted : sortApps config = config
  capacity : baseAppCount + config.length ≤ MAX_SUPPORT_APP_NUM

theorem Assigned.checked {classes : ClassNameTable} {a a' : CustomApp} (h : Assigned a a')
    (hc : a.Checked classes) : a'.Checked classes := by
  rw [h.same]
  exact ⟨hc.classId, hc.nameNe, hc.nameLen, hc.name, hc.trimmed, hc.featuresNe, hc.featuresLen,
    hc.features⟩

theorem forall₂_assigned_names : ∀ {apps apps' : CustomConfig}, List.Forall₂ Assigned apps apps' →
    apps'.map (·.name) = apps.map (·.name)
  | _, _, .nil => rfl
  | _, _, .cons h hrest => by
    rw [List.map_cons, List.map_cons, forall₂_assigned_names hrest, h.same]

theorem forall₂_assigned_mem : ∀ {apps apps' : CustomConfig}, List.Forall₂ Assigned apps apps' →
    ∀ a' ∈ apps', ∃ a ∈ apps, Assigned a a'
  | _, _, .nil, a', h => by simp at h
  | _, _, .cons h hrest, a', ha' => by
    rcases List.mem_cons.mp ha' with rfl | ha'
    · exact ⟨_, List.mem_cons_self .., h⟩
    · obtain ⟨a, ha, hab⟩ := forall₂_assigned_mem hrest a' ha'
      exact ⟨a, List.mem_cons_of_mem _ ha, hab⟩

/-- **`allocate_appids`** on what a request holds. -/
theorem allocateAppids_ok {classes : ClassNameTable} {apps config : CustomConfig}
    (h : allocateAppids apps = .ok config) (hd : Drafts classes apps) :
    (∀ app ∈ config, app.Valid classes) ∧ (config.map (·.name)).Nodup ∧
      (config.map (·.appid)).Nodup ∧ sortApps config = config ∧
      (config.map (·.name)).Perm (apps.map (·.name)) := by
  unfold allocateAppids at h
  split at h
  · simp at h
  rename_i used hmark
  split at h
  · simp at h
  rename_i apps' hassign
  cases h
  have hcells : apps.Pairwise (fun a b => a.appid ≠ 0 → b.appid ≠ 0 → appCell a ≠ appCell b) := by
    refine hd.apart.imp_of_mem ?_
    intro a b ha hb hab h1 h2 hcell
    have ha' := (hd.draft a ha).resolve_left h1
    have hb' := (hd.draft b hb).resolve_left h2
    exact hab.2 h2 ((appCell_inj ha' hb').mp hcell).2
  obtain ⟨h1, _, h3⟩ := assignAppids_spec hassign (markUsed_ok hmark).2 hcells
  have hvalid : ∀ app ∈ apps', app.Valid classes := by
    intro a' ha'
    obtain ⟨a, ha, hab⟩ := forall₂_assigned_mem h1 a' ha'
    exact ⟨hab.checked (hd.checked a ha), hab.idValid (hd.draft a ha)⟩
  have hperm := sortApps_perm apps'
  have hnames := forall₂_assigned_names h1
  have hnodup : (apps.map (·.name)).Nodup := by
    rw [List.Nodup, List.pairwise_map]
    exact hd.apart.imp And.left
  have hids : (apps'.map (·.appid)).Nodup := by
    rw [List.Nodup, List.pairwise_map]
    refine h3.imp_of_mem ?_
    intro a b ha hb hcell heq
    have ha' := (hvalid a ha).toIdValid
    have hb' := (hvalid b hb).toIdValid
    exact hcell ((appCell_inj ha' hb').mpr ⟨ha'.class_eq hb' heq, heq⟩)
  refine ⟨fun app happ => hvalid app (hperm.mem_iff.mp happ), ?_, ?_, sortApps_idem apps', ?_⟩
  · rw [(hperm.map _).nodup_iff, hnames]
    exact hnodup
  · rw [(hperm.map _).nodup_iff]
    exact hids
  · rw [← hnames]
    exact hperm.map _

/-- The names in a request, without the white space at their ends. -/
def requestNames (request : JsonObject) : List CStr :=
  match request.get "app_list" with
  | some (.array items) => items.filterMap requestName
  | _ => []

/-- **A request that is accepted.** -/
theorem configFromJson_accepted {classes : ClassNameTable} {baseAppCount : Nat}
    {request : JsonObject} {config : CustomConfig}
    (h : configFromJson classes baseAppCount request = .ok config) :
    config.Accepted classes baseAppCount ∧ (config.map (·.name)).Perm (requestNames request) := by
  unfold configFromJson at h
  split at h
  · rename_i items hlist
    obtain ⟨apps, happs, h⟩ := bind_eq_ok.mp h
    split at h
    · simp [throw, throwThe, MonadExceptOf.throw] at h
    rename_i hcap
    obtain ⟨config', halloc, h⟩ := bind_eq_ok.mp h
    split at h
    · simp [throw, throwThe, MonadExceptOf.throw] at h
    rename_i hlines
    cases h
    obtain ⟨hd, hnames⟩ := appsFromJson_drafts happs ⟨by simp, by simp, .nil, by simp⟩
    obtain ⟨h1, h2, h3, h4, h5⟩ := allocateAppids_ok halloc hd
    have hlen : config.length = apps.length := by simpa using h5.length_eq
    refine ⟨⟨h1, fun app happ => ?_, h2, h3, h4, by omega⟩, ?_⟩
    · simp at hlines
      obtain ⟨line, hline⟩ := Option.ne_none_iff_exists'.mp (hlines app happ)
      exact (appToLine_eq_some.mp hline).1
    · rw [hnames] at h5
      simpa [requestNames, hlist] using h5
  · simp at h

end Oaf
