/-
# Updates of rules, and what they are not given

`fwx_api_update_filter_rule` (`fwx_app_filter.c`) beside `fwx_api_update_mac_filter_rule`: of a stored rule each
changes the options whose keys the request has.

The app filter deletes the times and the app ids first, and looks for their keys behind that: a request
without them wipes them.  The MAC filter asks for any key of the times before it deletes one.

* `filterEdits_rest`: what the update of the app filter leaves of an option without a key.
* `update_keeps_iff`: exactly when an update keeps all that it is not given.
-/
import Oaf.MacFilter.Enforced
import Oaf.MacFilter.Update

namespace Oaf

open CLib
open MacFilter (ApiCode UpdateMacRuleRequest fwxApiUpdateMacFilterRule findRuleIndexById
  findRuleIndexById_some ruleType setText setInt mem_setText mem_setInt sscanfInt update_keepsRest
  MAX_PARAM_LIST_LEN)

/-! ## 1. The call -/

/-- `normalize_app_id_token`: a number, or a range of numbers. -/
def normalizeAppIdToken (raw : List UInt8) : Option (List UInt8) :=
  match sscanfInt raw with
  | some (start, 45 :: rest) =>
    match sscanfInt rest with
    | some (stop, []) =>
      if 0 < start ∧ 0 < stop ∧ start ≤ stop then some (printInt start ++ 45 :: printInt stop)
      else none
    | _ => none
  | some (val, []) => if 0 < val then some (printInt val) else none
  | _ => none

/-- An element of `time_rules`. -/
structure FilterTimeRule where
  weekdays : Option (List Int)
  startTime : Option (List UInt8)
  endTime : Option (List UInt8)

/-- `time_rule_str`: all weekdays as they come, the start and the end. -/
def FilterTimeRule.text (rule : FilterTimeRule) : Option (List UInt8) :=
  match rule.weekdays, rule.startTime, rule.endTime with
  | some weekdays, some startTime, some endTime =>
    some ([44].intercalate (weekdays.map printInt) ++ 44 :: (startTime ++ 44 :: endTime))
  | _, _, _ => none

/-- A request of `fwx_api_update_filter_rule`; a key with `null` counts as absent. -/
structure UpdateFilterRuleRequest where
  id : Option Int
  name : Option (List UInt8)
  mode : Option Int
  userMac : Option (List UInt8)
  userName : Option (List UInt8)
  enabled : Option Int
  filterQuic : Option Int
  timeRules : Option (List FilterTimeRule)
  appIds : Option (List (Option (List UInt8)))

/-- `appfilter.@rule[%d].name` -/
def filterRuleKey (index : Nat) (name : List UInt8) : List UInt8 :=
  ascii "appfilter.@rule[" ++ printNat index ++ ascii "]." ++ name

/-- `fwx_uci_add_list`, of each text there is. -/
def addTexts (index : Nat) (name : List UInt8) (texts : List (Option (List UInt8))) : List UciEdit :=
  texts.flatMap (fun text =>
    match text with
    | some text =>
      if MAX_PARAM_LIST_LEN - 1 ≤ text.length + (filterRuleKey index name).length then []
      else [.add name text]
    | none => [])

/-- The options that are written over. -/
def UpdateFilterRuleRequest.sets (req : UpdateFilterRuleRequest) : List UciEdit :=
  setText (ascii "name") req.name ++ setInt (ascii "mode") req.mode ++
    setText (ascii "user_mac") req.userMac ++ setText (ascii "user_name") req.userName ++
    setInt (ascii "enabled") req.enabled ++
    setInt (ascii "filter_quic") (req.filterQuic.map (fun quic => if quic = 0 then 0 else 1))

/-- `fwx_api_update_filter_rule`. -/
def fwxApiUpdateFilterRule (uci : Libuci) (store : UciStore) (req : UpdateFilterRuleRequest) :
    UciStore × ApiCode :=
  match req.id with
  | none => (store, .error)
  | some id =>
    match findRuleIndexById store.visible id with
    | none => (store, .error)
    | some index =>
      let store := store.edit uci ruleType index req.sets
      let store := store.edit uci ruleType index
        [.delete (ascii "time_rule"), .delete (ascii "app_id")]
      let store := store.edit uci ruleType index
        (addTexts index (ascii "time_rule") ((req.timeRules.getD []).map FilterTimeRule.text))
      let store := store.edit uci ruleType index
        (addTexts index (ascii "app_id") ((req.appIds.getD []).map (·.bind normalizeAppIdToken)))
      (store.commit, .success)

/-! ## 2. What an update keeps -/

/-- The options whose key is in the request. -/
def UpdateFilterRuleRequest.Given (req : UpdateFilterRuleRequest) (name : List UInt8) : Prop :=
  name = ascii "name" ∧ req.name.isSome ∨ name = ascii "mode" ∧ req.mode.isSome ∨
    name = ascii "user_mac" ∧ req.userMac.isSome ∨ name = ascii "user_name" ∧ req.userName.isSome ∨
    name = ascii "enabled" ∧ req.enabled.isSome ∨
    name = ascii "filter_quic" ∧ req.filterQuic.isSome ∨
    name = ascii "time_rule" ∧ req.timeRules.isSome ∨ name = ascii "app_id" ∧ req.appIds.isSome

theorem given_timeRule {req : UpdateFilterRuleRequest} :
    req.Given (ascii "time_rule") ↔ req.timeRules ≠ none := by
  rw [← Option.isSome_iff_ne_none]
  simp +decide [UpdateFilterRuleRequest.Given]

theorem given_appId {req : UpdateFilterRuleRequest} :
    req.Given (ascii "app_id") ↔ req.appIds ≠ none := by
  rw [← Option.isSome_iff_ne_none]
  simp +decide [UpdateFilterRuleRequest.Given]

theorem given_of_mem_sets {req : UpdateFilterRuleRequest} {name : List UInt8}
    (h : name ∈ req.sets.map UciEdit.name) : req.Given name := by
  simp only [UpdateFilterRuleRequest.sets, List.map_append, List.mem_append, mem_setText, mem_setInt,
    Option.isSome_map] at h
  rcases h with ((((hname | hmode) | hmac) | huser) | henabled) | hquic
  · exact Or.inl hname
  · exact Or.inr (Or.inl hmode)
  · exact Or.inr (Or.inr (Or.inl hmac))
  · exact Or.inr (Or.inr (Or.inr (Or.inl huser)))
  · exact Or.inr (Or.inr (Or.inr (Or.inr (Or.inl henabled))))
  · exact Or.inr (Or.inr (Or.inr (Or.inr (Or.inr (Or.inl hquic)))))

/-- Writes of one option, of the texts that are not too long. -/
theorem name_of_mem_texts {tooLong : List UInt8 → Prop} [DecidablePred tooLong] {name n : List UInt8}
    {texts : List (Option (List UInt8))}
    (h : n ∈ (texts.flatMap fun text =>
      match text with
      | some text => if tooLong text then [] else [UciEdit.add name text]
      | none => []).map UciEdit.name) : n = name ∧ texts ≠ [] := by
  obtain ⟨edit, hedit, rfl⟩ := List.mem_map.mp h
  obtain ⟨text, htext, hedit⟩ := List.mem_flatMap.mp hedit
  refine ⟨?_, List.ne_nil_of_mem htext⟩
  cases text with
  | none => exact absurd hedit List.not_mem_nil
  | some text =>
    dsimp only at hedit
    split at hedit
    · exact absurd hedit List.not_mem_nil
    · rw [List.mem_singleton.mp hedit]
      rfl

theorem mem_addTexts {index : Nat} {name n : List UInt8} {texts : List (Option (List UInt8))}
    (h : n ∈ (addTexts index name texts).map UciEdit.name) : n = name ∧ texts ≠ [] :=
  name_of_mem_texts h

/-- All writes of an update, in order. -/
def filterEdits (index : Nat) (req : UpdateFilterRuleRequest) : List UciEdit :=
  req.sets ++ [.delete (ascii "time_rule"), .delete (ascii "app_id")] ++
    addTexts index (ascii "time_rule") ((req.timeRules.getD []).map FilterTimeRule.text) ++
    addTexts index (ascii "app_id") ((req.appIds.getD []).map (·.bind normalizeAppIdToken))

theorem fwxApiUpdateFilterRule_eq {uci : Libuci} {store : UciStore} {req : UpdateFilterRuleRequest}
    {id : Int} {index : Nat} (hid : req.id = some id)
    (hfind : findRuleIndexById store.visible id = some index) :
    fwxApiUpdateFilterRule uci store req =
      ((store.edit uci ruleType index (filterEdits index req)).commit, .success) := by
  simp only [fwxApiUpdateFilterRule, hid, hfind, UciStore.edit_edit, filterEdits]

/-- The times of a rule, or its app ids, without a key: they are gone. -/
theorem filterEdits_absent {uci : Libuci} {index : Nat} {req : UpdateFilterRuleRequest}
    (options : UciOptions) :
    (req.timeRules = none → runEdits uci (filterEdits index req) options (ascii "time_rule") = none) ∧
    (req.appIds = none → runEdits uci (filterEdits index req) options (ascii "app_id") = none) := by
  constructor
  · intro hnone
    have hsplit : filterEdits index req = req.sets ++ .delete (ascii "time_rule") ::
        (.delete (ascii "app_id") :: addTexts index (ascii "app_id")
          ((req.appIds.getD []).map (·.bind normalizeAppIdToken))) := by
      simp [filterEdits, hnone, addTexts]
    rw [hsplit]
    refine runEdits_delete _ (fun hmem => ?_) options
    rcases List.mem_cons.mp hmem with hname | hmem
    · exact absurd hname (by decide)
    · exact absurd (mem_addTexts hmem).1 (by decide)
  · intro hnone
    have hsplit : filterEdits index req = (req.sets ++ [.delete (ascii "time_rule")]) ++
        .delete (ascii "app_id") :: addTexts index (ascii "time_rule")
          ((req.timeRules.getD []).map FilterTimeRule.text) := by
      simp [filterEdits, hnone, addTexts]
    rw [hsplit]
    exact runEdits_delete _ (fun hmem => absurd (mem_addTexts hmem).1 (by decide)) options

/-- **What the app filter's update keeps**: an option without a key, unless it is the times or the app ids. -/
theorem filterEdits_rest {uci : Libuci} {index : Nat} {req : UpdateFilterRuleRequest}
    {name : List UInt8} (hname : ¬ req.Given name) (htimes : name ≠ ascii "time_rule")
    (happs : name ≠ ascii "app_id") (options : UciOptions) :
    runEdits uci (filterEdits index req) options name = options name := by
  refine runEdits_of_not_mem (fun hmem => ?_) options
  simp only [filterEdits, List.map_append, List.mem_append] at hmem
  rcases hmem with ((hsets | hdeletes) | hadd) | hadd
  · exact hname (given_of_mem_sets hsets)
  · rcases List.mem_cons.mp hdeletes with heq | hdeletes
    · exact htimes heq
    · exact happs (List.mem_singleton.mp hdeletes)
  · exact htimes (mem_addTexts hadd).1
  · exact happs (mem_addTexts hadd).1

/-- An update of either filter. -/
inductive RuleUpdate where
  | filter (req : UpdateFilterRuleRequest)
  | mac (req : UpdateMacRuleRequest)

def RuleUpdate.id : RuleUpdate → Option Int
  | .filter req => req.id
  | .mac req => req.id

def RuleUpdate.Given : RuleUpdate → List UInt8 → Prop
  | .filter req => req.Given
  | .mac req => req.Given

/-- The update, on the package of its filter. -/
def RuleUpdate.run (uci : Libuci) (store : UciStore) : RuleUpdate → UciStore × ApiCode
  | .filter req => fwxApiUpdateFilterRule uci store req
  | .mac req => fwxApiUpdateMacFilterRule uci store req

/-- If the update succeeds, then the addressed rule keeps every option without a key, and all other rules
keep all of theirs. -/
def RuleUpdate.KeepsAbsent (update : RuleUpdate) (uci : Libuci) (store : UciStore) : Prop :=
  (update.run uci store).2 = .success →
    ∀ id index, update.id = some id → findRuleIndexById store.visible id = some index →
      KeepsRest ruleType index update.Given store.visible (update.run uci store).1.visible

/-- For the app filter: the rule has no times that the request leaves out, and no app ids. -/
def RuleUpdate.NothingLeftOut (update : RuleUpdate) (pkg : UciPackage) : Prop :=
  match update with
  | .filter req => ∀ id index s, req.id = some id → findRuleIndexById pkg id = some index →
      (pkg.ofType ruleType)[index]? = some s →
      (req.timeRules = none → s.options (ascii "time_rule") = none) ∧
      (req.appIds = none → s.options (ascii "app_id") = none)
  | .mac _ => True

/-- **Exactly when an update keeps all that it is not given.** -/
theorem update_keeps_iff (uci : Libuci) (store : UciStore) (update : RuleUpdate) :
    update.KeepsAbsent uci store ↔ update.NothingLeftOut store.visible := by
  cases update with
  | mac req =>
    exact iff_of_true (fun _ id index hid hfind => update_keepsRest uci hid hfind) trivial
  | filter req =>
    have hstored : ∀ {id index s}, req.id = some id → findRuleIndexById store.visible id = some index →
        (store.visible.ofType ruleType)[index]? = some s →
        (KeepsRest ruleType index req.Given store.visible
            (fwxApiUpdateFilterRule uci store req).1.visible ↔
          (req.timeRules = none → s.options (ascii "time_rule") = none) ∧
            (req.appIds = none → s.options (ascii "app_id") = none)) := by
      intro id index s hid hfind hs
      rw [fwxApiUpdateFilterRule_eq hid hfind, UciStore.visible_commit, UciStore.visible_edit,
        keepsRest_modifyNth_iff hs]
      have habsent := @filterEdits_absent uci index req s.options
      constructor
      · intro hkeeps
        refine ⟨fun hnone => ?_, fun hnone => ?_⟩
        · rw [← hkeeps _ (fun hgiven => given_timeRule.mp hgiven hnone)]
          exact habsent.1 hnone
        · rw [← hkeeps _ (fun hgiven => given_appId.mp hgiven hnone)]
          exact habsent.2 hnone
      · rintro ⟨htimes, happs⟩ name hname
        by_cases hrule : name = ascii "time_rule"
        · have hnone : req.timeRules = none := by
            by_contra hsome
            exact hname (hrule ▸ given_timeRule.mpr hsome)
          rw [hrule, htimes hnone]
          exact habsent.1 hnone
        · by_cases happ : name = ascii "app_id"
          · have hnone : req.appIds = none := by
              by_contra hsome
              exact hname (happ ▸ given_appId.mpr hsome)
            rw [happ, happs hnone]
            exact habsent.2 hnone
          · exact filterEdits_rest hname hrule happ s.options
    constructor
    · intro h id index s hid hfind hs
      have hsuccess : (fwxApiUpdateFilterRule uci store req).2 = .success := by
        rw [fwxApiUpdateFilterRule_eq hid hfind]
      exact (hstored hid hfind hs).mp (h hsuccess id index hid hfind)
    · intro h _ id index hid hfind
      obtain ⟨s, hs⟩ := findRuleIndexById_some hfind
      exact (hstored hid hfind hs).mpr (h id index s hid hfind hs)

open MacFilter (plainUci optionsOf) in
/-- A rule against one app, in the evening, and a request that renames it. -/
def gameStore : UciStore :=
  let options := optionsOf [(ascii "id", .string (ascii "1")), (ascii "name", .string (ascii "games")),
    (ascii "time_rule", .list [ascii "1,2,20:00,23:00"]), (ascii "app_id", .list [ascii "2001"])]
  ⟨[⟨ruleType, options⟩], [⟨ruleType, options⟩]⟩

def renameRequest : UpdateFilterRuleRequest where
  id := some 1
  name := some (ascii "play")
  mode := none
  userMac := none
  userName := none
  enabled := none
  filterQuic := none
  timeRules := none
  appIds := none

open MacFilter (plainUci) in
/-- **A rule renamed is a rule disarmed**: the request has a name only, and the times and the app ids are
gone. -/
theorem rename_wipes_rule :
    ¬ (RuleUpdate.filter renameRequest).KeepsAbsent plainUci gameStore ∧
    (fwxApiUpdateFilterRule plainUci gameStore renameRequest).2 = .success ∧
    (((fwxApiUpdateFilterRule plainUci gameStore renameRequest).1.committed.ofType ruleType).map
      (fun s => (s.options (ascii "name"), s.options (ascii "time_rule"), s.options (ascii "app_id")))) =
        [(some (.string (ascii "play")), none, none)] := by
  have hsuccess : (fwxApiUpdateFilterRule plainUci gameStore renameRequest).2 = .success := by decide
  have hgone : ((fwxApiUpdateFilterRule plainUci gameStore renameRequest).1.visible.ofType
      ruleType)[0]?.map (fun s => s.options (ascii "time_rule")) = some none := by decide
  refine ⟨fun h => ?_, hsuccess, by decide⟩
  have hkeeps := h hsuccess 1 0 rfl (by decide)
  obtain ⟨s', hs', hnone⟩ := Option.map_eq_some_iff.mp hgone
  have hsame := hkeeps.options _ s' rfl hs' (ascii "time_rule")
    (fun hgiven => given_timeRule.mp hgiven rfl)
  rw [hnone] at hsame
  cases hsame

end Oaf
