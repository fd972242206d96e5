/-
# The ids of the app-filter rules

`fwx_api_add_filter_rule` makes a rule's id of the clock: `(int)time(NULL)`.  `fwx_api_update_filter_rule` and
`fwx_api_delete_filter_rule` change the first section that shows the id they are given.

`Registry` is the package with what it does not hold: which id each stored rule was created with.  A run is
these calls at times that do not go back.

* `add_rules`, `update_rules`, `delete_rules`: what one call makes of the stored rules.
* `Matches.after`: the stored ids stay those of the creation while no new id is a stored one.
* `rule_ids_unique`: what holds in every state of such a run, and what the first other step does.
-/
import Oaf.AppFilter.TimeRules
import Oaf.AppFilter.Buffers
import Oaf.Lib.Runs

namespace Oaf

open CLib
open MacFilter (ApiCode findRuleIndexById findRuleIndexById_some ruleType setText setInt mem_setText
  mem_setInt fwxApiDeleteMacFilterRule plainUci)

/-! ## 1. The calls over time -/

/-- The id that a stored rule shows: `atoi` of its option, read into 32 bytes. -/
def ruleId (s : UciSection) : Option Int := (s.getValue (ascii "id") 32).map atoi

/-- The rules of a package, as `@rule[0]`, `@rule[1]` and so on. -/
def UciStore.rules (store : UciStore) : List UciSection := store.visible.ofType ruleType

inductive AppRuleCall where
  | add (req : AddFilterRuleRequest)
  | update (req : UpdateFilterRuleRequest)
  | delete (id : Option Int)

/-- A call and what `time(NULL)` says at it. -/
structure RuleEvent where
  now : Int
  call : AppRuleCall

/-- The package, the id that each of its rules was created with, and the time of the last call. -/
structure Registry where
  store : UciStore
  created : List Int
  clock : Int

/-- `rule_id` of a rule that is added at this time. -/
def newRuleId (now : Int) : Int := Kernel.toInt32 now

/-- A call.  Whatever it removes takes its `created` with it. -/
def Registry.after (uci : Libuci) (r : Registry) (e : RuleEvent) : Registry :=
  match e.call with
  | .add req =>
    let answer := fwxApiAddFilterRule uci (newRuleId e.now) r.store req
    ⟨answer.1, if answer.2 = .success then r.created ++ [newRuleId e.now] else r.created, e.now⟩
  | .update req => ⟨(fwxApiUpdateFilterRule uci r.store req).1, r.created, e.now⟩
  | .delete id =>
    let created := match id.bind (findRuleIndexById r.store.visible) with
      | some index => r.created.eraseIdx index
      | none => r.created
    ⟨(fwxApiDeleteFilterRule r.store id).1, created, e.now⟩

/-- The clock does not go back. -/
def Registry.next (uci : Libuci) (r : Registry) (e : RuleEvent) : Option Registry :=
  if r.clock ≤ e.now then some (r.after uci e) else none

def Registry.Step (uci : Libuci) (r : Registry) (e : RuleEvent) (r' : Registry) : Prop :=
  r.next uci e = some r'

/-- A package as it is found: its rules count as created with the ids they show. -/
def Registry.found (store : UciStore) (clock : Int) : Registry :=
  ⟨store, store.rules.filterMap ruleId, clock⟩

/-- `uci_set` of a printed number is read back as it is. -/
def Libuci.StoresNumbers (uci : Libuci) : Prop :=
  ∀ (old : Option UciValue) (i : Int), uci.set old (printInt i) = some (.string (printInt i))

/-- **What the ids are for.**  Each stored rule shows the id it was created with, no two show one, and a call
by id changes the rule that was created with it and nothing else. -/
structure IdsHold (uci : Libuci) (r : Registry) : Prop where
  stored : r.store.rules.map ruleId = r.created.map some
  distinct : (r.store.rules.map ruleId).Nodup
  update : ∀ (req : UpdateFilterRuleRequest) (id : Int) (index : Nat), req.id = some id →
    r.created[index]? = some id →
    (fwxApiUpdateFilterRule uci r.store req).1.rules = r.store.rules.modify index
      (fun s => { s with options := runEdits uci (filterEdits index req) s.options }) ∧
    (fwxApiUpdateFilterRule uci r.store req).1.visible.otherTypes ruleType =
      r.store.visible.otherTypes ruleType
  delete : ∀ (id : Int) (index : Nat), r.created[index]? = some id →
    (fwxApiDeleteFilterRule r.store (some id)).1.rules = r.store.rules.eraseIdx index ∧
    (fwxApiDeleteFilterRule r.store (some id)).1.visible.otherTypes ruleType =
      r.store.visible.otherTypes ruleType
  unknown : ∀ (id : Int), id ∉ r.created →
    fwxApiDeleteFilterRule r.store (some id) = (r.store, .error) ∧
    ∀ req : UpdateFilterRuleRequest, req.id = some id →
      fwxApiUpdateFilterRule uci r.store req = (r.store, .error)

/-- The request has what an added rule needs. -/
def AddFilterRuleRequest.Complete (req : AddFilterRuleRequest) : Prop :=
  req.name.isSome ∧ req.mode.isSome ∧ req.timeRules.isSome ∧ req.appIds.isSome

/-- No rule is added in a second whose number is the id of a stored one. -/
def FreshSecond (r : Registry) (e : RuleEvent) : Prop :=
  match e.call with
  | .add req => req.Complete → some (newRuleId e.now) ∉ r.store.rules.map ruleId
  | .update _ => True
  | .delete _ => True

/-! ## 2. What one call makes of the rules -/

variable {uci : Libuci}

theorem newRuleId_bounds (now : Int) : -2 ^ 31 ≤ newRuleId now ∧ newRuleId now < 2 ^ 31 :=
  ⟨Int.le_bmod (by decide), Int.bmod_lt (by decide)⟩

/-- A section whose id was printed by `%d` shows it. -/
theorem ruleId_printed {s : UciSection} {i : Int} (h1 : -2 ^ 31 ≤ i) (h2 : i < 2 ^ 31)
    (hid : s.options (ascii "id") = some (.string (printInt i))) : ruleId s = some i := by
  have hlen : (printInt i).length ≤ 11 := printInt_length_le (by decide) (by omega)
  rw [ruleId, UciSection.getValue, hid]
  dsimp only
  rw [List.take_of_length_le (by omega), Option.map_some, atoi_printInt h1 h2]

/-- The first write of an added rule is its id; no other write is. -/
theorem mem_newTexts {name n : List UInt8} {texts : List (Option (List UInt8))}
    (h : n ∈ (newTexts name texts).map UciEdit.name) : n = name :=
  (name_of_mem_texts h).1

/-- A refused request adds nothing. -/
theorem add_refused {now : Int} {store : UciStore} {req : AddFilterRuleRequest}
    (h : ¬ req.Complete) : fwxApiAddFilterRule uci now store req = (store, .error) := by
  unfold fwxApiAddFilterRule
  split
  · rename_i hname hmode htimes happs
    refine absurd ?_ h
    simp [AddFilterRuleRequest.Complete, hname, hmode, htimes, happs]
  · rfl

theorem modify_last {α : Type} (l : List α) (a : α) (f : α → α) :
    (l ++ [a]).modify l.length f = l ++ [f a] := by
  induction l with
  | nil => rfl
  | cons b l ih => simp [ih]

/-- The writes of an added rule behind its id, in order. -/
def newEdits (req : AddFilterRuleRequest) (name : List UInt8) (mode : Int)
    (timeRules : List FilterTimeRule) (appIds : List (Option (List UInt8))) : List UciEdit :=
  setText (ascii "name") (some name) ++ setInt (ascii "mode") (some mode) ++
    setText (ascii "user_mac") req.userMac ++ setText (ascii "user_name") req.userName ++
    setInt (ascii "enabled") (some (req.enabled.getD 1)) ++
    setInt (ascii "filter_quic") (some (if req.filterQuic.getD 0 = 0 then 0 else 1)) ++
    newTexts (ascii "time_rule") (timeRules.map FilterTimeRule.text) ++
    newTexts (ascii "app_id") (appIds.map (·.bind normalizeAppIdToken))

/-- Nothing behind the id writes an id. -/
theorem id_not_mem_newEdits {req : AddFilterRuleRequest} {name : List UInt8} {mode : Int}
    {timeRules : List FilterTimeRule} {appIds : List (Option (List UInt8))} :
    ascii "id" ∉ (newEdits req name mode timeRules appIds).map UciEdit.name := by
  intro hmem
  simp only [newEdits, List.map_append, List.mem_append, mem_setText, mem_setInt] at hmem
  rcases hmem with ((((((hname | hmode) | hmac) | huser) | henabled) | hquic) | htime) | happ
  · exact absurd hname.1 (by decide)
  · exact absurd hmode.1 (by decide)
  · exact absurd hmac.1 (by decide)
  · exact absurd huser.1 (by decide)
  · exact absurd henabled.1 (by decide)
  · exact absurd hquic.1 (by decide)
  · exact absurd (mem_newTexts htime) (by decide)
  · exact absurd (mem_newTexts happ) (by decide)

/-- An option that is written first and by nothing else is what the first write made of it. -/
theorem runEdits_first {name text : List UInt8} {edits : List UciEdit}
    (h : name ∉ edits.map UciEdit.name) (options : UciOptions) :
    runEdits uci (.set name text :: edits) options name = uci.set (options name) text := by
  rw [runEdits, List.foldl_cons]
  exact (runEdits_of_not_mem h _).trans (Function.update_self ..)

/-- What an added rule makes of the rules. -/
theorem rules_added (id : Int) (store : UciStore) {req : AddFilterRuleRequest} {name : List UInt8} {mode : Int}
    {timeRules : List FilterTimeRule} {appIds : List (Option (List UInt8))} (hname : req.name = some name)
    (hmode : req.mode = some mode) (htimes : req.timeRules = some timeRules) (happs : req.appIds = some appIds) :
    (fwxApiAddFilterRule uci id store req).2 = .success ∧
    (fwxApiAddFilterRule uci id store req).1.rules = store.rules ++
      [⟨ruleType, runEdits uci (.set (ascii "id") (printInt id) :: newEdits req name mode timeRules appIds)
        (fun _ => none)⟩] := by
  have hadd : fwxApiAddFilterRule uci id store req =
      (((store.addSection ruleType).edit uci ruleType store.rules.length
        (.set (ascii "id") (printInt id) :: newEdits req name mode timeRules appIds)).commit, .success) := by
    have hindex : ((store.addSection ruleType).visible.ofType ruleType).length - 1 =
        store.rules.length := by
      rw [UciStore.ofType_addSection, List.length_append, List.length_singleton, Nat.add_sub_cancel]
      rfl
    simp only [fwxApiAddFilterRule, hname, hmode, htimes, happs, UciStore.edit_edit, hindex, newEdits,
      List.append_assoc]
    rfl
  refine ⟨by rw [hadd], ?_⟩
  rw [hadd, UciStore.rules, UciStore.visible_commit, UciStore.visible_edit, ofType_modifyNth,
    UciStore.ofType_addSection]
  exact modify_last ..

/-- **A rule is added** behind the others, with the id of its second. -/
theorem add_rules (huci : uci.StoresNumbers) {now : Int} {store : UciStore}
    {req : AddFilterRuleRequest} (h : req.Complete) :
    (fwxApiAddFilterRule uci (newRuleId now) store req).2 = .success ∧
    ∃ s, (fwxApiAddFilterRule uci (newRuleId now) store req).1.rules = store.rules ++ [s] ∧
      ruleId s = some (newRuleId now) := by
  obtain ⟨hname, hmode, htimes, happs⟩ := h
  obtain ⟨name, hname⟩ := Option.isSome_iff_exists.mp hname
  obtain ⟨mode, hmode⟩ := Option.isSome_iff_exists.mp hmode
  obtain ⟨timeRules, htimes⟩ := Option.isSome_iff_exists.mp htimes
  obtain ⟨appIds, happs⟩ := Option.isSome_iff_exists.mp happs
  obtain ⟨hcode, hrules⟩ := @rules_added uci (newRuleId now) store req _ _ _ _ hname hmode htimes happs
  obtain ⟨h1, h2⟩ := newRuleId_bounds now
  have hid : runEdits uci (.set (ascii "id") (printInt (newRuleId now)) ::
      newEdits req name mode timeRules appIds) (fun _ => none) (ascii "id") =
        some (.string (printInt (newRuleId now))) := by
    rw [runEdits_first id_not_mem_newEdits]
    exact huci _ _
  exact ⟨hcode, _, hrules, ruleId_printed h1 h2 hid⟩

/-- An update of the rule at `index`. -/
theorem update_rules {store : UciStore} {req : UpdateFilterRuleRequest} {id : Int} {index : Nat}
    (hid : req.id = some id) (hfind : findRuleIndexById store.visible id = some index) :
    (fwxApiUpdateFilterRule uci store req).1.rules = store.rules.modify index
      (fun s => { s with options := runEdits uci (filterEdits index req) s.options }) ∧
    (fwxApiUpdateFilterRule uci store req).1.visible.otherTypes ruleType =
      store.visible.otherTypes ruleType := by
  rw [fwxApiUpdateFilterRule_eq hid hfind]
  exact ⟨ofType_modifyNth index store.visible, otherTypes_modifyNth index store.visible⟩

/-- A deletion of the rule at `index`. -/
theorem delete_rules {store : UciStore} {id : Int} {index : Nat}
    (hfind : findRuleIndexById store.visible id = some index) :
    (fwxApiDeleteFilterRule store (some id)).1.rules = store.rules.eraseIdx index ∧
    (fwxApiDeleteFilterRule store (some id)).1.visible.otherTypes ruleType =
      store.visible.otherTypes ruleType := by
  simp only [fwxApiDeleteFilterRule, fwxApiDeleteMacFilterRule, hfind]
  exact ⟨ofType_deleteNth index store.visible, otherTypes_deleteNth index store.visible⟩

/-- An update does not write the id. -/
theorem ruleId_update (index : Nat) (req : UpdateFilterRuleRequest) (s : UciSection) :
    ruleId { s with options := runEdits uci (filterEdits index req) s.options } = ruleId s := by
  have hgiven : ¬ req.Given (ascii "id") := by
    rintro (h | h | h | h | h | h | h | h) <;> exact absurd h.1 (by decide)
  have hid : runEdits uci (filterEdits index req) s.options (ascii "id") = s.options (ascii "id") :=
    filterEdits_rest hgiven (by decide) (by decide) s.options
  simp only [ruleId, UciSection.getValue, hid]

/-! ## 3. Ids that stay those of the creation -/

theorem map_modify_same {α β : Type} {g : α → β} {f : α → α} (h : ∀ a, g (f a) = g a) :
    ∀ (l : List α) (index : Nat), (l.modify index f).map g = l.map g
  | [], _ => by simp
  | a :: l, 0 => by simp [h a]
  | a :: l, index + 1 => by simp [map_modify_same h l index]

/-- Each stored rule shows the id that it was created with, and these are distinct. -/
structure Matches (r : Registry) : Prop where
  stored : r.store.rules.map ruleId = r.created.map some
  created : r.created.Nodup

/-- The rule that a call finds by its id is the one created with it. -/
theorem Matches.find {r : Registry} (h : Matches r) {id : Int} {index : Nat} :
    findRuleIndexById r.store.visible id = some index ↔ r.created[index]? = some id := by
  have hsearch : findRuleIndexById r.store.visible id =
      (r.store.rules.map ruleId).findIdx? (· = some id) := by
    rw [List.findIdx?_map]
    rfl
  rw [hsearch, h.stored, List.findIdx?_eq_some_iff_getElem]
  constructor
  · rintro ⟨hlt, hthere, -⟩
    rw [List.length_map] at hlt
    rw [List.getElem?_eq_getElem hlt]
    simpa using hthere
  · intro hthere
    obtain ⟨hlt, hid⟩ := List.getElem?_eq_some_iff.mp hthere
    refine ⟨by rwa [List.length_map], by simpa using hid, ?_⟩
    intro j hj hsame
    have hid' : r.created[j] = r.created[index] := by simpa [hid] using hsame
    exact absurd ((List.Nodup.getElem_inj_iff h.created).mp hid') (Nat.ne_of_lt hj)

theorem Matches.find_none {r : Registry} (h : Matches r) {id : Int} (hid : id ∉ r.created) :
    findRuleIndexById r.store.visible id = none := by
  cases hfind : findRuleIndexById r.store.visible id with
  | none => rfl
  | some index => exact absurd (List.mem_of_getElem? (h.find.mp hfind)) hid

theorem Matches.found {store : UciStore} {clock : Int} (hall : ∀ s ∈ store.rules, ruleId s ≠ none)
    (hdistinct : (store.rules.map ruleId).Nodup) : Matches (Registry.found store clock) := by
  have hstored : ∀ l : List UciSection, (∀ s ∈ l, ruleId s ≠ none) →
      l.map ruleId = (l.filterMap ruleId).map some := by
    intro l
    induction l with
    | nil => exact fun _ => rfl
    | cons s l ih =>
      intro hl
      obtain ⟨i, hi⟩ := Option.ne_none_iff_exists'.mp (hl s (List.mem_cons_self ..))
      have hrest := ih fun s hs => hl s (List.mem_cons_of_mem _ hs)
      simp [hi, hrest]
  refine ⟨hstored _ hall, ?_⟩
  have hnodup := hstored _ hall ▸ hdistinct
  exact hnodup.of_map some

theorem Registry.Step.eq {r r' : Registry} {e : RuleEvent} (h : r.Step uci e r') :
    r' = r.after uci e := by
  unfold Registry.Step Registry.next at h
  split at h
  · exact (Option.some.inj h).symm
  · cases h

/-- **The step.** -/
theorem Matches.after (huci : uci.StoresNumbers) {r : Registry} {e : RuleEvent} (h : Matches r)
    (hcond : FreshSecond r e) : Matches (r.after uci e) := by
  obtain ⟨now, call⟩ := e
  cases call with
  | add req =>
    by_cases hreq : req.Complete
    · obtain ⟨hcode, s, hrules, hid⟩ := @add_rules uci huci now r.store req hreq
      have hfresh : newRuleId now ∉ r.created := by
        intro hmem
        have hnew := hcond hreq
        rw [h.stored] at hnew
        exact hnew (List.mem_map_of_mem hmem)
      constructor
      · simp only [Registry.after, hcode, if_true, hrules, List.map_append, h.stored, List.map_cons,
          List.map_nil, hid]
      · simp only [Registry.after, hcode, if_true]
        exact h.created.append (List.nodup_singleton _) (List.disjoint_singleton.mpr hfresh)
    · have hsame := @add_refused uci (newRuleId now) r.store req hreq
      constructor
      · simp only [Registry.after, hsame, reduceCtorEq, if_false]
        exact h.stored
      · simp only [Registry.after, hsame, reduceCtorEq, if_false]
        exact h.created
  | update req =>
    refine ⟨?_, h.created⟩
    cases hid : req.id with
    | none => simpa only [Registry.after, fwxApiUpdateFilterRule, hid] using h.stored
    | some id =>
      cases hfind : findRuleIndexById r.store.visible id with
      | none => simpa only [Registry.after, fwxApiUpdateFilterRule, hid, hfind] using h.stored
      | some index =>
        have hrules := (@update_rules uci _ _ _ _ hid hfind).1
        simp only [Registry.after, hrules, map_modify_same (ruleId_update index req)]
        exact h.stored
  | delete id =>
    cases id with
    | none => exact ⟨h.stored, h.created⟩
    | some id =>
      cases hfind : findRuleIndexById r.store.visible id with
      | none =>
        have hnone : fwxApiDeleteFilterRule r.store (some id) = (r.store, .error) := by
          simp only [fwxApiDeleteFilterRule, fwxApiDeleteMacFilterRule, hfind]
        constructor
        · simpa only [Registry.after, hnone, Option.bind_some, hfind] using h.stored
        · simpa only [Registry.after, Option.bind_some, hfind] using h.created
      | some index =>
        constructor
        · simp only [Registry.after, Option.bind_some, hfind, (delete_rules hfind).1]
          rw [← List.eraseIdx_map, ← List.eraseIdx_map, h.stored]
        · simp only [Registry.after, Option.bind_some, hfind]
          exact h.created.sublist (List.eraseIdx_sublist ..)

/-- The ids serve their purpose as long as they are those of the creation. -/
theorem Matches.idsHold {r : Registry} (h : Matches r) : IdsHold uci r where
  stored := h.stored
  distinct := h.stored ▸ h.created.map (Option.some_injective _)
  update _ _ _ hid hindex := update_rules hid (h.find.mpr hindex)
  delete _ _ hindex := delete_rules (h.find.mpr hindex)
  unknown id hid := by
    have hnone := h.find_none hid
    refine ⟨?_, fun req hreq => ?_⟩
    · simp only [fwxApiDeleteFilterRule, fwxApiDeleteMacFilterRule, hnone]
    · simp only [fwxApiUpdateFilterRule, hreq, hnone]

/-- A rule that is added in a second whose number is a stored id makes a second rule of this id. -/
theorem add_repeats (huci : uci.StoresNumbers) {r : Registry} {e : RuleEvent}
    (hcond : ¬ FreshSecond r e) : ¬ ((r.after uci e).store.rules.map ruleId).Nodup := by
  obtain ⟨now, call⟩ := e
  cases call with
  | add req =>
    obtain ⟨hreq, hthere⟩ := Classical.not_imp.mp hcond
    obtain ⟨-, s, hrules, hid⟩ := @add_rules uci huci now r.store req hreq
    simp only [Registry.after, hrules, List.map_append, List.map_singleton, hid]
    intro hnodup
    exact List.disjoint_singleton.mp (List.disjoint_of_nodup_append hnodup) (not_not.mp hthere)
  | update req => exact absurd trivial hcond
  | delete id => exact absurd trivial hcond

/-- **While no rule is added in a second whose number is a stored id**, the ids of the stored rules are distinct
and a call by id changes exactly the rule created with it; the first rule that is added in such a second has
the id of another one. -/
theorem rule_ids_unique (huci : uci.StoresNumbers) {store : UciStore}
    (hall : ∀ s ∈ store.rules, ruleId s ≠ none) (hdistinct : (store.rules.map ruleId).Nodup)
    {clock : Int} {r : Registry}
    (hrun : Runs.Reaches (Registry.Step uci) FreshSecond (Registry.found store clock) r) :
    IdsHold uci r ∧
    ∀ (e : RuleEvent) (r' : Registry), r.Step uci e r' → ¬ FreshSecond r e →
      ¬ (r'.store.rules.map ruleId).Nodup := by
  have hstart : Matches (Registry.found store clock) := Matches.found hall hdistinct
  have hmatches : Matches r := by
    refine hrun.invariant ?_ hstart
    intro r e r' h hcond hstep
    rw [Registry.Step.eq hstep]
    exact h.after huci hcond
  refine ⟨hmatches.idsHold, ?_⟩
  intro e r' hstep hcond
  rw [Registry.Step.eq hstep]
  exact add_repeats huci hcond

theorem plainUci_storesNumbers : plainUci.StoresNumbers := by
  intro old i
  rw [plainUci]
  exact if_neg (printInt_ne_nil i)

/-- A rule without times and apps. -/
def blockRequest (name : List UInt8) : AddFilterRuleRequest where
  name := some name
  mode := some 1
  userMac := none
  userName := none
  enabled := none
  filterQuic := none
  timeRules := some []
  appIds := some []

/-- The empty package. -/
def noRules : Registry := Registry.found ⟨[], []⟩ 0

/-- A rule is added. -/
def addEvent (now : Int) (name : List UInt8) : RuleEvent := ⟨now, .add (blockRequest name)⟩

theorem ruleIds_addEvent (r : Registry) (now : Int) (name : List UInt8) :
    (r.after plainUci (addEvent now name)).store.rules.map ruleId =
      r.store.rules.map ruleId ++ [some (newRuleId now)] := by
  obtain ⟨-, s, hrules, hs⟩ :=
    @add_rules plainUci plainUci_storesNumbers now r.store (blockRequest name) ⟨rfl, rfl, rfl, rfl⟩
  simp only [Registry.after, addEvent, hrules, List.map_append, List.map_singleton, hs]

/-- The first of them is for a phone from now on, with an app. -/
def phoneEvent : RuleEvent where
  now := 1700000100
  call := .update {
    id := some 1700000000
    name := some (ascii "phone games")
    mode := some 2
    userMac := some (ascii "02:00:00:00:00:a7")
    userName := none
    enabled := none
    filterQuic := some 1
    timeRules := none
    appIds := some [some (ascii "1001")] }

def oneRule : Registry := noRules.after plainUci (addEvent 1700000000 (ascii "games"))

def bothRules : Registry := oneRule.after plainUci (addEvent 1700000060 (ascii "video"))

/-- Two rules are added, a minute apart, and one is changed. -/
theorem rule_ids_unique_phone :
    Runs.Reaches (Registry.Step plainUci) FreshSecond noRules (bothRules.after plainUci phoneEvent) ∧
      (bothRules.after plainUci phoneEvent).created = [1700000000, 1700000060] ∧
      IdsHold plainUci (bothRules.after plainUci phoneEvent) := by
  have hgames : noRules.Step plainUci (addEvent 1700000000 (ascii "games")) oneRule := if_pos (by decide)
  have hvideo : oneRule.Step plainUci (addEvent 1700000060 (ascii "video")) bothRules := if_pos (by decide)
  have hphone : bothRules.Step plainUci phoneEvent (bothRules.after plainUci phoneEvent) := if_pos (by decide)
  have hfresh : FreshSecond oneRule (addEvent 1700000060 (ascii "video")) := by
    intro _ hstored
    rw [oneRule, ruleIds_addEvent] at hstored
    exact absurd hstored (by decide)
  have hupdate : FreshSecond bothRules phoneEvent := trivial
  have hrun : Runs.Reaches (Registry.Step plainUci) FreshSecond noRules (bothRules.after plainUci phoneEvent) :=
    ((Runs.Reaches.refl.tail (fun _ => List.not_mem_nil) hgames).tail hfresh hvideo).tail hupdate hphone
  have hempty : (⟨[], []⟩ : UciStore).rules = [] := rfl
  have hall : ∀ s ∈ (⟨[], []⟩ : UciStore).rules, ruleId s ≠ none := by simp [hempty]
  have hdistinct : ((⟨[], []⟩ : UciStore).rules.map ruleId).Nodup := by simp [hempty]
  exact ⟨hrun, by decide +kernel, (rule_ids_unique plainUci_storesNumbers hall hdistinct hrun).1⟩

/-- **Two rules of one id**, added within a second: no call can name the second one. -/
theorem one_second_one_id :
    ∃ r : Registry, Runs.Reaches (Registry.Step plainUci) Runs.Always noRules r ∧
      r.store.rules.map ruleId = [some 1700000000, some 1700000000] ∧ ¬ IdsHold plainUci r := by
  have hids : (oneRule.after plainUci (addEvent 1700000000 (ascii "video"))).store.rules.map ruleId =
      [some 1700000000, some 1700000000] := by
    rw [ruleIds_addEvent, oneRule, ruleIds_addEvent]
    rfl
  have hgames : noRules.Step plainUci (addEvent 1700000000 (ascii "games")) oneRule := if_pos (by decide)
  have hvideo : oneRule.Step plainUci (addEvent 1700000000 (ascii "video"))
      (oneRule.after plainUci (addEvent 1700000000 (ascii "video"))) := if_pos (by decide)
  refine ⟨_, .tail (.tail .refl trivial hgames) trivial hvideo, hids, ?_⟩
  intro h
  have hnodup := h.distinct
  rw [hids] at hnodup
  exact absurd hnodup (by decide)

end Oaf
