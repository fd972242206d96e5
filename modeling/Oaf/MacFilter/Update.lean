/-
# Changing MAC-filter rules

`fwx_api_add_mac_filter_rule`, `fwx_api_update_mac_filter_rule` and `fwx_api_delete_mac_filter_rule`
(`fwx_mac_filter.c`).  Every `fwx_uci_*` call saves its change before it returns, so every later reader sees it,
committed or not.

The add call looks for usable times before its first write.  The update call does so behind its writes: there
it returns an error without a commit, and with the changes saved.

* `update_edits`: what the update call leaves of the rule, whatever its answer.
* `update_atomic_iff`: exactly when a refused update is as if it had not been.
-/
import Oaf.MacFilter.TimeRules

namespace Oaf.MacFilter

open CLib

/-! ## 1. Times of a request -/

/-- An argument that has to be an array: `json_object_is_type(.., json_type_array)`. -/
inductive ArrayArg (α : Type) where
  | array (items : List α)
  | other

/-- An argument that has to be a string. -/
inductive TextArg where
  | text (text : List UInt8)
  | other

/-- An element of `time_rules`. -/
structure TimeRuleArg where
  weekdays : Option (ArrayArg Int)
  startTime : Option (List UInt8)
  endTime : Option (List UInt8)
  durationMinutes : Option Int
  flowMb : Option Int

/-- The keys of a request that say when a rule applies. -/
structure TimeArgs where
  timeRules : Option (ArrayArg TimeRuleArg)
  timeList : Option (ArrayArg (Option (List UInt8)))
  timeLimit : Option TextArg
  flowLimit : Option TextArg

/-- The bytes that a list item and its key may have. -/
def MAX_PARAM_LIST_LEN : Nat := 1024

/-- `macfilter.@rule[%d].name` -/
def ruleKey (index : Int) (name : List UInt8) : List UInt8 :=
  ascii "macfilter.@rule[" ++ printInt index ++ ascii "]." ++ name

/-- `fwx_uci_add_list`, which refuses what is too long. -/
def addListEdit (index : Int) (name value : List UInt8) : List UciEdit :=
  if MAX_PARAM_LIST_LEN - 1 ≤ value.length + (ruleKey index name).length then []
  else [.add name value]

/-- `build_time_list_item_str`; `none` where it returns -1. -/
def buildTimeListItemStr (rule : TimeRuleArg) (strLen : Nat) : Option (List UInt8) :=
  match rule.weekdays, rule.startTime, rule.endTime with
  | some (.array weekdays), some startTime, some endTime =>
    let days := weekdays.filter (fun day => 0 ≤ day ∧ day ≤ 6)
    let text := [44].intercalate (days.map printInt) ++ 44 :: (startTime ++ 44 :: endTime)
    if days = [] then none
    else if text.length < strLen then some text else none
  | _, _, _ => none

/-- One element of the first loop of `build_limit_str_from_time_rules`. -/
def putTimeRule (timeMode : TimeMode) (values : Nat → Int) (rule : TimeRuleArg) : Nat → Int :=
  match rule.weekdays with
  | some (.array weekdays) =>
    let value := match timeMode with
      | .duration => rule.durationMinutes.getD 0
      | _ => rule.flowMb.getD 0
    (weekdays.filter (fun day => 0 ≤ day ∧ day ≤ 6)).foldl
      (fun values day => Function.update values day.toNat (capLimit (getLimitMaxValue timeMode) value))
      values
  | _ => values

/-- `build_limit_str_from_time_rules`; `none` where it returns -1. -/
def buildLimitStrFromTimeRules (timeRules : List TimeRuleArg) (timeMode : TimeMode)
    (outputLen : Nat) : Option (List UInt8) :=
  printLimits (timeRules.foldl (putTimeRule timeMode) (fun _ => 0)) outputLen [] limitOrder

/-- A `time_rules` that is usable: an array with elements. -/
def TimeArgs.usableTimeRules (args : TimeArgs) : Option (List TimeRuleArg) :=
  match args.timeRules with
  | some (.array (rule :: rules)) => some (rule :: rules)
  | _ => none

/-- The limit text that duration and flow mode store; `none` where the request has none. -/
def limitStr (limit : Option TextArg) (args : TimeArgs) (timeMode : TimeMode) :
    Option (List UInt8) :=
  match limit with
  | some (.text text) => some ((normalizeLimitStr text timeMode 512).getD [])
  | _ => args.usableTimeRules.map
      (fun timeRules => (buildLimitStrFromTimeRules timeRules timeMode 512).getD [])

/-- What the request stores for its mode; `none` where the times that the mode requires are missing. -/
def timeEdits (index : Int) (timeMode : TimeMode) (args : TimeArgs) : Option (List UciEdit) :=
  match timeMode with
  | .range =>
    match args.timeList with
    | some (.array (item :: items)) =>
      some ((item :: items).flatMap (fun item =>
        match item with
        | some (c :: text) => addListEdit index (ascii "time_list") (c :: text)
        | _ => []))
    | _ => args.usableTimeRules.map (fun timeRules => timeRules.flatMap (fun rule =>
        match buildTimeListItemStr rule 256 with
        | some text => addListEdit index (ascii "time_list") text
        | none => []))
  | .duration => (limitStr args.timeLimit args .duration).map (fun text =>
      [.set (ascii "time_limit") text])
  | .flow => (limitStr args.flowLimit args .flow).map (fun text => [.set (ascii "flow_limit") text])

/-- `time_mode` as it is stored. -/
def printTimeMode : TimeMode → List UInt8
  | .range => ascii "1"
  | .duration => ascii "2"
  | .flow => ascii "3"

/-- The four options of the times, deleted. -/
def deleteTimes : List UciEdit :=
  [.delete (ascii "time_rule"), .delete (ascii "time_list"), .delete (ascii "time_limit"),
    .delete (ascii "flow_limit")]

/-! ## 2. The calls -/

/-- `API_CODE_SUCCESS` and `API_CODE_ERROR`. -/
inductive ApiCode where
  | success
  | error
deriving DecidableEq

/-- The section type of the rules. -/
def ruleType : List UInt8 := ascii "rule"

/-- `find_mac_filter_rule_index_by_id`, and the like of the app filter. -/
def findRuleIndexById (pkg : UciPackage) (id : Int) : Option Nat :=
  (pkg.ofType ruleType).findIdx? (fun s => ((s.getValue (ascii "id") 32).map atoi) = some id)

/-- A text argument, written if it is there. -/
def setText (name : List UInt8) (arg : Option (List UInt8)) : List UciEdit :=
  (arg.map (fun text => UciEdit.set name text)).toList

/-- A number, written by `%d` if it is there. -/
def setInt (name : List UInt8) (arg : Option Int) : List UciEdit :=
  setText name (arg.map printInt)

/-- A request of `fwx_api_update_mac_filter_rule`; a key with `null` counts as absent. -/
structure UpdateMacRuleRequest where
  id : Option Int
  name : Option (List UInt8)
  mode : Option Int
  timeMode : Option Int
  userMac : Option (List UInt8)
  userName : Option (List UInt8)
  enabled : Option Int
  times : TimeArgs

/-- `has_time_payload`. -/
def UpdateMacRuleRequest.hasTimePayload (req : UpdateMacRuleRequest) : Bool :=
  req.timeMode.isSome || req.times.timeRules.isSome || req.times.timeList.isSome ||
    req.times.timeLimit.isSome || req.times.flowLimit.isSome

/-- `time_mode`: of the request or, without one, of the stored rule. -/
def UpdateMacRuleRequest.effectiveTimeMode (req : UpdateMacRuleRequest) (s : Option UciSection) :
    TimeMode :=
  match req.timeMode with
  | some timeMode => normalizeMacfilterTimeMode timeMode
  | none =>
    normalizeMacfilterTimeMode
      ((s.bind (fun s => s.getValue (ascii "time_mode") 16)).elim 1 atoi)

/-- `fwx_api_update_mac_filter_rule`. -/
def fwxApiUpdateMacFilterRule (uci : Libuci) (store : UciStore) (req : UpdateMacRuleRequest) :
    UciStore × ApiCode :=
  match req.id with
  | none => (store, .error)
  | some id =>
    match findRuleIndexById store.visible id with
    | none => (store, .error)
    | some index =>
      let store := store.edit uci ruleType index
        (setText (ascii "name") req.name ++ setInt (ascii "mode") req.mode)
      let timeMode := req.effectiveTimeMode (store.visible.ofType ruleType)[index]?
      let store := store.edit uci ruleType index
        (if req.hasTimePayload then [.set (ascii "time_mode") (printTimeMode timeMode)] else [])
      let store := store.edit uci ruleType index
        (setText (ascii "user_mac") req.userMac ++ setText (ascii "user_name") req.userName ++
          setInt (ascii "enabled") req.enabled)
      if req.hasTimePayload then
        let store := store.edit uci ruleType index deleteTimes
        match timeEdits index timeMode req.times with
        | none => (store, .error)
        | some edits => ((store.edit uci ruleType index edits).commit, .success)
      else (store.commit, .success)

/-- A request of `fwx_api_add_mac_filter_rule`. -/
structure AddMacRuleRequest where
  name : Option (List UInt8)
  mode : Option Int
  timeMode : Option Int
  userMac : Option (List UInt8)
  userName : Option (List UInt8)
  enabled : Option Int
  times : TimeArgs

/-- `fwx_api_add_mac_filter_rule`, at the time `now`; the new rule is `@rule[-1]`. -/
def fwxApiAddMacFilterRule (uci : Libuci) (now : Int) (store : UciStore) (req : AddMacRuleRequest) :
    UciStore × ApiCode :=
  match req.name, req.mode with
  | some name, some mode =>
    let timeMode := normalizeMacfilterTimeMode (req.timeMode.getD 1)
    match timeEdits (-1) timeMode req.times with
    | none => (store, .error)
    | some edits =>
      let store := store.addSection ruleType
      let index := (store.visible.ofType ruleType).length - 1
      let store := store.edit uci ruleType index
        (setInt (ascii "id") (some now) ++ setText (ascii "name") (some name) ++
          setInt (ascii "mode") (some mode) ++
          setText (ascii "time_mode") (some (printTimeMode timeMode)) ++
          setText (ascii "user_mac") req.userMac ++ setText (ascii "user_name") req.userName ++
          setInt (ascii "enabled") (some (req.enabled.getD 1)))
      let store := store.edit uci ruleType index deleteTimes
      ((store.edit uci ruleType index edits).commit, .success)
  | _, _ => (store, .error)

/-- `fwx_api_delete_mac_filter_rule`. -/
def fwxApiDeleteMacFilterRule (store : UciStore) (id : Option Int) : UciStore × ApiCode :=
  match id with
  | none => (store, .error)
  | some id =>
    match findRuleIndexById store.visible id with
    | none => (store, .error)
    | some index => ((store.deleteSection ruleType index).commit, .success)

/-- A call that can change rules. -/
inductive MacFilterCall where
  | add (now : Int) (req : AddMacRuleRequest)
  | update (req : UpdateMacRuleRequest)
  | delete (id : Option Int)

def MacFilterCall.run (uci : Libuci) (store : UciStore) : MacFilterCall → UciStore × ApiCode
  | .add now req => fwxApiAddMacFilterRule uci now store req
  | .update req => fwxApiUpdateMacFilterRule uci store req
  | .delete id => fwxApiDeleteMacFilterRule store id

/-- One call after the other. -/
def runCalls (uci : Libuci) (store : UciStore) (calls : List MacFilterCall) : UciStore :=
  calls.foldl (fun store call => (call.run uci store).1) store

/-! ## 3. What an update writes -/

/-- The writes before the times are looked at, in order. -/
def UpdateMacRuleRequest.writes (req : UpdateMacRuleRequest) (timeMode : TimeMode) : List UciEdit :=
  setText (ascii "name") req.name ++ setInt (ascii "mode") req.mode ++
    setText (ascii "time_mode") (if req.hasTimePayload then some (printTimeMode timeMode) else none) ++
    (setText (ascii "user_mac") req.userMac ++ setText (ascii "user_name") req.userName ++
      setInt (ascii "enabled") req.enabled) ++
    (if req.hasTimePayload then deleteTimes else [])

theorem setText_names (name : List UInt8) (arg : Option (List UInt8)) :
    ((setText name arg).map UciEdit.name).Sublist [name] := by
  cases arg with
  | none => exact List.nil_sublist _
  | some text => exact List.Sublist.refl _

theorem mem_setText {name n : List UInt8} {arg : Option (List UInt8)} :
    n ∈ (setText name arg).map UciEdit.name ↔ n = name ∧ arg.isSome := by
  cases arg <;> simp [setText, UciEdit.name]

theorem mem_setInt {name n : List UInt8} {arg : Option Int} :
    n ∈ (setInt name arg).map UciEdit.name ↔ n = name ∧ arg.isSome := by
  rw [setInt, mem_setText, Option.isSome_map]

/-- The options that an update writes to, in order. -/
def writtenNames : List (List UInt8) :=
  [ascii "name", ascii "mode", ascii "time_mode", ascii "user_mac", ascii "user_name",
    ascii "enabled", ascii "time_rule", ascii "time_list", ascii "time_limit", ascii "flow_limit"]

/-- No option is written twice before the times are looked at. -/
theorem writes_nodup (req : UpdateMacRuleRequest) (timeMode : TimeMode) :
    ((req.writes timeMode).map UciEdit.name).Nodup := by
  have hdeletes : ((if req.hasTimePayload then deleteTimes else []).map UciEdit.name).Sublist
      [ascii "time_rule", ascii "time_list", ascii "time_limit", ascii "flow_limit"] := by
    split
    · exact List.Sublist.refl _
    · exact List.nil_sublist _
  have hsub : ((req.writes timeMode).map UciEdit.name).Sublist writtenNames := by
    simp only [UpdateMacRuleRequest.writes, List.map_append]
    exact ((((setText_names _ _).append (setText_names _ _)).append (setText_names _ _)).append
      (((setText_names _ _).append (setText_names _ _)).append (setText_names _ _))).append hdeletes
  exact hsub.nodup (by decide)

/-- The mode is read behind the first writes, which leave it alone. -/
theorem effectiveTimeMode_edit {uci : Libuci} {store : UciStore} {req : UpdateMacRuleRequest}
    {index : Nat} {s : UciSection} (hs : (store.visible.ofType ruleType)[index]? = some s) :
    req.effectiveTimeMode ((store.edit uci ruleType index
        (setText (ascii "name") req.name ++ setInt (ascii "mode") req.mode)).visible.ofType
          ruleType)[index]? = req.effectiveTimeMode (some s) := by
  have hkept : ascii "time_mode" ∉
      (setText (ascii "name") req.name ++ setInt (ascii "mode") req.mode).map UciEdit.name := by
    rw [List.map_append, List.mem_append, mem_setText, mem_setInt, not_or]
    exact ⟨fun h => absurd h.1 (by decide), fun h => absurd h.1 (by decide)⟩
  rw [UciStore.visible_edit, ofType_modifyNth, List.getElem?_modify_eq, hs]
  simp only [UpdateMacRuleRequest.effectiveTimeMode, Option.map_eq_map, Option.map_some, Option.bind_some,
    UciSection.getValue, runEdits_of_not_mem hkept]

/-- **The update of a stored rule**: its writes, and then the times. -/
theorem fwxApiUpdateMacFilterRule_eq {uci : Libuci} {store : UciStore} {req : UpdateMacRuleRequest}
    {id : Int} {index : Nat} {s : UciSection} (hid : req.id = some id)
    (hfind : findRuleIndexById store.visible id = some index)
    (hs : (store.visible.ofType ruleType)[index]? = some s) :
    fwxApiUpdateMacFilterRule uci store req =
      let timeMode := req.effectiveTimeMode (some s)
      let written := store.edit uci ruleType index (req.writes timeMode)
      if req.hasTimePayload then
        match timeEdits index timeMode req.times with
        | none => (written, .error)
        | some edits => ((written.edit uci ruleType index edits).commit, .success)
      else (written.commit, .success) := by
  simp only [fwxApiUpdateMacFilterRule, hid, hfind]
  rw [effectiveTimeMode_edit hs]
  have hmode : ∀ timeMode, setText (ascii "time_mode") (some (printTimeMode timeMode)) =
      [.set (ascii "time_mode") (printTimeMode timeMode)] := fun _ => rfl
  by_cases hpayload : req.hasTimePayload = true
  · simp only [hpayload, if_true, UciStore.edit_edit, UpdateMacRuleRequest.writes, hmode]
  · have hnone : setText (ascii "time_mode") none = [] := rfl
    simp only [hpayload, if_false, UciStore.edit_edit, UpdateMacRuleRequest.writes, hnone,
      List.append_nil, Bool.false_eq_true]

/-- The rule that an update finds. -/
theorem findRuleIndexById_some {pkg : UciPackage} {id : Int} {index : Nat}
    (h : findRuleIndexById pkg id = some index) : ∃ s, (pkg.ofType ruleType)[index]? = some s := by
  obtain ⟨hlt, -⟩ := List.findIdx?_eq_some_iff_getElem.mp h
  exact ⟨_, List.getElem?_eq_getElem hlt⟩

/-- The options whose key is in the request; the times count as one. -/
def UpdateMacRuleRequest.Given (req : UpdateMacRuleRequest) (name : List UInt8) : Prop :=
  name = ascii "name" ∧ req.name.isSome ∨ name = ascii "mode" ∧ req.mode.isSome ∨
    name = ascii "user_mac" ∧ req.userMac.isSome ∨ name = ascii "user_name" ∧ req.userName.isSome ∨
    name = ascii "enabled" ∧ req.enabled.isSome ∨
    name ∈ [ascii "time_mode", ascii "time_rule", ascii "time_list", ascii "time_limit",
      ascii "flow_limit"] ∧ req.hasTimePayload = true

/-- The writes name what is given. -/
theorem given_of_mem_writes {req : UpdateMacRuleRequest} {timeMode : TimeMode} {name : List UInt8}
    (h : name ∈ (req.writes timeMode).map UciEdit.name) : req.Given name := by
  simp only [UpdateMacRuleRequest.writes, List.map_append, List.mem_append, mem_setText,
    mem_setInt] at h
  rcases h with (((hname | hmode) | htime) | (hmac | huser) | henabled) | hdelete
  · exact Or.inl hname
  · exact Or.inr (Or.inl hmode)
  · refine Or.inr (Or.inr (Or.inr (Or.inr (Or.inr ⟨by simp [htime.1], ?_⟩))))
    by_contra hnone
    simp [hnone] at htime
  · exact Or.inr (Or.inr (Or.inl hmac))
  · exact Or.inr (Or.inr (Or.inr (Or.inl huser)))
  · exact Or.inr (Or.inr (Or.inr (Or.inr (Or.inl henabled))))
  · by_cases hpayload : req.hasTimePayload = true
    · rw [if_pos hpayload] at hdelete
      exact Or.inr (Or.inr (Or.inr (Or.inr (Or.inr ⟨List.mem_cons_of_mem _ hdelete, hpayload⟩))))
    · simp [hpayload] at hdelete

theorem mem_addListEdit {index : Int} {name value n : List UInt8}
    (h : n ∈ (addListEdit index name value).map UciEdit.name) : n = name := by
  unfold addListEdit at h
  split at h
  · exact absurd h List.not_mem_nil
  · exact List.mem_singleton.mp h

/-- The times that are stored are times. -/
theorem mem_timeEdits {index : Int} {timeMode : TimeMode} {args : TimeArgs} {edits : List UciEdit}
    (h : timeEdits index timeMode args = some edits) {name : List UInt8}
    (hname : name ∈ edits.map UciEdit.name) :
    name ∈ [ascii "time_list", ascii "time_limit", ascii "flow_limit"] := by
  cases timeMode with
  | range =>
    have hlist : name = ascii "time_list" := by
      obtain ⟨edit, hedit, rfl⟩ := List.mem_map.mp hname
      simp only [timeEdits] at h
      split at h
      · obtain rfl := Option.some.inj h
        obtain ⟨item, -, hitem⟩ := List.mem_flatMap.mp hedit
        split at hitem
        · exact mem_addListEdit (List.mem_map_of_mem hitem)
        · exact absurd hitem List.not_mem_nil
      · obtain ⟨timeRules, -, rfl⟩ := Option.map_eq_some_iff.mp h
        obtain ⟨rule, -, hrule⟩ := List.mem_flatMap.mp hedit
        split at hrule
        · exact mem_addListEdit (List.mem_map_of_mem hrule)
        · exact absurd hrule List.not_mem_nil
    simp [hlist]
  | duration =>
    obtain ⟨text, -, rfl⟩ := Option.map_eq_some_iff.mp h
    simp [List.mem_singleton.mp hname, UciEdit.name]
  | flow =>
    obtain ⟨text, -, rfl⟩ := Option.map_eq_some_iff.mp h
    simp [List.mem_singleton.mp hname, UciEdit.name]

/-- **An update keeps what it is not given**, whatever its answer. -/
theorem update_keepsRest (uci : Libuci) {store : UciStore} {req : UpdateMacRuleRequest} {id : Int}
    {index : Nat} (hid : req.id = some id) (hfind : findRuleIndexById store.visible id = some index) :
    KeepsRest ruleType index req.Given store.visible
      (fwxApiUpdateMacFilterRule uci store req).1.visible := by
  obtain ⟨s, hs⟩ := findRuleIndexById_some hfind
  have hwrites : ∀ timeMode, KeepsRest ruleType index req.Given store.visible
      (store.edit uci ruleType index (req.writes timeMode)).visible := fun timeMode =>
    (keepsRest_modifyNth_iff hs).mpr (fun name hname =>
      runEdits_of_not_mem (fun hmem => hname (given_of_mem_writes hmem)) s.options)
  rw [fwxApiUpdateMacFilterRule_eq hid hfind hs]
  dsimp only
  by_cases hpayload : req.hasTimePayload = true
  · rw [if_pos hpayload]
    cases htimes : timeEdits index (req.effectiveTimeMode (some s)) req.times with
    | none => exact hwrites _
    | some edits =>
      dsimp only
      rw [UciStore.visible_commit, UciStore.edit_edit]
      refine (keepsRest_modifyNth_iff hs).mpr (fun name hname => runEdits_of_not_mem ?_ s.options)
      rw [List.map_append, List.mem_append]
      rintro (hmem | hmem)
      · exact hname (given_of_mem_writes hmem)
      · have htime := mem_timeEdits htimes hmem
        exact hname (Or.inr (Or.inr (Or.inr (Or.inr (Or.inr
          ⟨List.mem_cons_of_mem _ (List.mem_cons_of_mem _ htime), hpayload⟩)))))
  · rw [if_neg hpayload]
    exact hwrites _

/-! ## 4. Refused updates -/

/-- What a call leaves to readers depends on what it could read. -/
theorem MacFilterCall.visible_run {uci : Libuci} {store store' : UciStore}
    (h : store.visible = store'.visible) (call : MacFilterCall) :
    (call.run uci store).1.visible = (call.run uci store').1.visible := by
  obtain ⟨committed, visible⟩ := store
  obtain ⟨committed', visible'⟩ := store'
  obtain rfl : visible = visible' := h
  cases call with
  | add now req =>
    simp only [MacFilterCall.run, fwxApiAddMacFilterRule]
    cases req.name with
    | none => rfl
    | some name =>
      cases req.mode with
      | none => rfl
      | some mode => cases timeEdits (-1) (normalizeMacfilterTimeMode (req.timeMode.getD 1)) req.times <;> rfl
  | update req =>
    cases hid : req.id with
    | none => simp [MacFilterCall.run, fwxApiUpdateMacFilterRule, hid]
    | some id =>
      cases hfind : findRuleIndexById visible id with
      | none => simp [MacFilterCall.run, fwxApiUpdateMacFilterRule, hid, hfind]
      | some index =>
        obtain ⟨s, hs⟩ := findRuleIndexById_some hfind
        simp only [MacFilterCall.run]
        rw [fwxApiUpdateMacFilterRule_eq hid hfind hs, fwxApiUpdateMacFilterRule_eq hid hfind hs]
        dsimp only
        cases timeEdits index (req.effectiveTimeMode (some s)) req.times <;> split <;> rfl
  | delete id =>
    cases id with
    | none => rfl
    | some id =>
      simp only [MacFilterCall.run, fwxApiDeleteMacFilterRule]
      cases findRuleIndexById visible id <;> rfl

/-- **Later calls**: what they leave to readers depends on what the first of them could read. -/
theorem visible_runCalls {uci : Libuci} : ∀ (calls : List MacFilterCall) {store store' : UciStore},
    store.visible = store'.visible →
    (runCalls uci store calls).visible = (runCalls uci store' calls).visible
  | [], _, _, h => h
  | call :: calls, _, _, h => visible_runCalls calls (call.visible_run h)

/-- If the update is refused, then every later reader, after any later calls, sees what it would have seen
without it. -/
def AtomicUpdate (uci : Libuci) (store : UciStore) (req : UpdateMacRuleRequest) : Prop :=
  (fwxApiUpdateMacFilterRule uci store req).2 = .error →
    ∀ calls : List MacFilterCall,
      (runCalls uci (fwxApiUpdateMacFilterRule uci store req).1 calls).visible =
        (runCalls uci store calls).visible

/-- If the rule is there and the request has some times but not those that the mode requires, then each of its
writes finds the option as it is to be, and none of the times to delete. -/
def WritesNothingNew (uci : Libuci) (pkg : UciPackage) (req : UpdateMacRuleRequest) : Prop :=
  ∀ id index s, req.id = some id → findRuleIndexById pkg id = some index →
    (pkg.ofType ruleType)[index]? = some s → req.hasTimePayload = true →
    timeEdits index (req.effectiveTimeMode (some s)) req.times = none →
    ∀ edit ∈ req.writes (req.effectiveTimeMode (some s)),
      edit.value uci (s.options edit.name) = s.options edit.name

/-- An update leaves a store as readers see it exactly if it is as if it had not been. -/
theorem atomicUpdate_iff_visible {uci : Libuci} {store : UciStore} {req : UpdateMacRuleRequest} :
    AtomicUpdate uci store req ↔ ((fwxApiUpdateMacFilterRule uci store req).2 = .error →
      (fwxApiUpdateMacFilterRule uci store req).1.visible = store.visible) :=
  forall_congr' (fun _ => ⟨fun h => h [], fun h calls => visible_runCalls calls h⟩)

/-- **Exactly when a refused update is as if it had not been.** -/
theorem update_atomic_iff (uci : Libuci) (store : UciStore) (req : UpdateMacRuleRequest) :
    AtomicUpdate uci store req ↔ WritesNothingNew uci store.visible req := by
  rw [atomicUpdate_iff_visible]
  constructor
  · intro h id index s hid hfind hs hpayload htimes
    have heq := @fwxApiUpdateMacFilterRule_eq uci store req id index s hid hfind hs
    simp only [hpayload, if_true, htimes] at heq
    rw [heq] at h
    have hsame := (modifyNth_eq_self_iff index store.visible).mp (h rfl) s hs
    exact (runEdits_eq_self_iff (writes_nodup req _) s.options).mp hsame
  · intro h herror
    cases hid : req.id with
    | none => simp [fwxApiUpdateMacFilterRule, hid]
    | some id =>
      cases hfind : findRuleIndexById store.visible id with
      | none => simp [fwxApiUpdateMacFilterRule, hid, hfind]
      | some index =>
        obtain ⟨s, hs⟩ := findRuleIndexById_some hfind
        have heq := @fwxApiUpdateMacFilterRule_eq uci store req id index s hid hfind hs
        dsimp only at heq
        by_cases hpayload : req.hasTimePayload = true
        · rw [if_pos hpayload] at heq
          cases htimes : timeEdits index (req.effectiveTimeMode (some s)) req.times with
          | none =>
            rw [htimes] at heq
            have hself := h id index s hid hfind hs hpayload htimes
            rw [heq]
            refine (modifyNth_eq_self_iff index store.visible).mpr (fun s' hs' => ?_)
            obtain rfl := Option.some.inj (hs.symm.trans hs')
            exact (runEdits_eq_self_iff (writes_nodup req _) s.options).mpr hself
          | some edits =>
            rw [htimes] at heq
            rw [heq] at herror
            cases herror
        · rw [if_neg hpayload] at heq
          rw [heq] at herror
          cases herror

/-- libuci on printable texts: an empty text deletes the option, and a string becomes a list when an item is
added. -/
def plainUci : Libuci where
  set _ text := if text = [] then none else some (.string text)
  add
    | none, text => some (.list [text])
    | some (.string first), text => some (.list [first, text])
    | some (.list items), text => some (.list (items ++ [text]))

/-- Options from a list. -/
def optionsOf (l : List (List UInt8 × UciValue)) : UciOptions :=
  fun name => (l.find? (fun option => option.1 = name)).map (·.2)

/-- One rule for every evening. -/
def eveningOptions : UciOptions :=
  optionsOf [(ascii "id", .string (ascii "1")), (ascii "name", .string (ascii "evening")),
    (ascii "mode", .string (ascii "1")), (ascii "time_mode", .string (ascii "1")),
    (ascii "enabled", .string (ascii "1")),
    (ascii "time_list", .list [ascii "0,1,2,3,4,5,6,20:00,23:00"])]

def eveningStore : UciStore := ⟨[⟨ruleType, eveningOptions⟩], [⟨ruleType, eveningOptions⟩]⟩

/-- Duration mode for rule 1, and no limits. -/
def durationRequest : UpdateMacRuleRequest where
  id := some 1
  name := none
  mode := none
  timeMode := some 2
  userMac := none
  userName := none
  enabled := none
  times := ⟨none, none, none, none⟩

/-- The list of times that readers see in the first rule. -/
def visibleTimeList (store : UciStore) : Option UciValue :=
  (store.visible.ofType ruleType).head?.bind (fun s => s.options (ascii "time_list"))

/-- **A refused update that is seen**: the answer is an error, the times are gone for every reader, and with
the next call that succeeds for good. -/
theorem refused_update_seen :
    ¬ AtomicUpdate plainUci eveningStore durationRequest ∧
    (fwxApiUpdateMacFilterRule plainUci eveningStore durationRequest).2 = .error ∧
    visibleTimeList eveningStore = some (.list [ascii "0,1,2,3,4,5,6,20:00,23:00"]) ∧
    visibleTimeList (fwxApiUpdateMacFilterRule plainUci eveningStore durationRequest).1 = none ∧
    (let later := (fwxApiUpdateMacFilterRule plainUci
        (fwxApiUpdateMacFilterRule plainUci eveningStore durationRequest).1
        { durationRequest with timeMode := none, name := some (ascii "night") });
      later.2 = .success ∧ visibleTimeList ⟨later.1.committed, later.1.committed⟩ = none) := by
  have herror : (fwxApiUpdateMacFilterRule plainUci eveningStore durationRequest).2 = .error := by decide
  have hgone : visibleTimeList (fwxApiUpdateMacFilterRule plainUci eveningStore durationRequest).1 =
      none := by decide
  refine ⟨fun h => ?_, herror, by decide, hgone, by decide⟩
  have hsame := congrArg (fun pkg : UciPackage => visibleTimeList ⟨pkg, pkg⟩) (h herror [])
  have hthere : visibleTimeList eveningStore ≠ none := by decide
  exact hthere (hsame.symm.trans hgone)

end Oaf.MacFilter
