/-
# The buffers of rule storage

The texts of a rule come from JSON, so they have any length.  On their way to UCI and back they pass through

    char time_rule_str[256]     strcat
    char param_tmp[2048]        sprintf, of fwx_uci_set_value
    char param_tmp[1024]        sprintf, of fwx_uci_add_list, which looks at the length
    char time_list_buf[2048]    strncat and sprintf, of fwx_uci_get_list_value

Only the third is guarded.  `build_time_list_item_str` of the MAC filter uses `snprintf` where the app filter
uses `strcat`.

* `addFilter_inside_iff`, `updateFilter_inside_iff`, `updateMac_inside_iff`, `read_inside_iff`: one call.
* `rule_writes_inside_iff`: **in a run, all writes stay inside iff every call's texts fit**.
-/
import Oaf.AppFilter.Update

namespace Oaf

open CLib
open MacFilter (ApiCode UpdateMacRuleRequest AddMacRuleRequest MacFilterCall TimeArgs TimeRuleArg
  ArrayArg TimeMode fwxApiUpdateMacFilterRule fwxApiAddMacFilterRule fwxApiDeleteMacFilterRule
  findRuleIndexById ruleType ruleKey setText setInt timeEdits limitStr buildTimeListItemStr
  normalizeMacfilterTimeMode printTimeMode printLimits MAX_PARAM_LIST_LEN)

/-! ## 1. Writes -/

inductive RuleBuffer where
  | timeRuleStr
  | setParam
  | listParam
  | listOutput
deriving DecidableEq

/-- The size that the buffer is declared with. -/
def RuleBuffer.size : RuleBuffer → Nat
  | .timeRuleStr => 256
  | .setParam => 2048
  | .listParam => MAX_PARAM_LIST_LEN
  | .listOutput => 2048

/-- A write that ends in front of the byte `stop` of the buffer. -/
structure BufferWrite where
  buffer : RuleBuffer
  stop : Nat
deriving DecidableEq

def BufferWrite.Inside (w : BufferWrite) : Prop := w.stop ≤ w.buffer.size

/-- All of them stay inside. -/
def AllInside (writes : List BufferWrite) : Prop := ∀ w ∈ writes, w.Inside

/-- `fwx_uci_set_value`: `%s=%s`. -/
def setValueWrites (key value : List UInt8) : List BufferWrite :=
  [⟨.setParam, key.length + 1 + value.length + 1⟩]

/-- `fwx_uci_add_list`. -/
def addListWrites (key value : List UInt8) : List BufferWrite :=
  if MAX_PARAM_LIST_LEN - 1 ≤ value.length + key.length then []
  else [⟨.listParam, key.length + 1 + value.length + 1⟩]

/-- The loop of `fwx_uci_get_list_value`, with a delimiter of one byte behind the first item. -/
def listValueWritesFrom (sep : Bool) (len : Nat) : List (List UInt8) → List BufferWrite
  | [] => []
  | item :: items =>
    let start := if sep then len + 1 else len
    (if sep then [⟨.listOutput, len + 2⟩] else []) ++
      ⟨.listOutput, start + item.length + 1⟩ :: listValueWritesFrom true (start + item.length) items

/-- `fwx_uci_get_list_value`: `memset` first. -/
def listValueWrites (items : List (List UInt8)) : List BufferWrite :=
  ⟨.listOutput, 2048⟩ :: listValueWritesFrom false 0 items

/-- `strcat(time_rule_str, ..)`, one after the other. -/
def strcatWrites (len : Nat) : List (List UInt8) → List BufferWrite
  | [] => []
  | piece :: pieces => ⟨.timeRuleStr, len + piece.length + 1⟩ :: strcatWrites (len + piece.length) pieces

/-- `snprintf(time_rule_str + offset, str_len - offset, ..)`, one after the other, and the last offset. -/
def snprintfWrites (strLen offset : Nat) : List (List UInt8) → List BufferWrite × Option Nat
  | [] => ([], some offset)
  | piece :: pieces =>
    if piece.length < strLen - offset then
      let rest := snprintfWrites strLen (offset + piece.length) pieces
      (⟨.timeRuleStr, offset + piece.length + 1⟩ :: rest.1, rest.2)
    else ([⟨.timeRuleStr, strLen⟩], none)

/-- `%d` of an `int`. -/
def intText (i : Int) : List UInt8 := printInt (Kernel.toInt32 i)

/-- An argument that is written if it is there. -/
def optWrites (key : List UInt8) (arg : Option (List UInt8)) : List BufferWrite :=
  match arg with
  | some text => setValueWrites key text
  | none => []

/-! ## 2. The app filter -/

/-- `appfilter.@rule[%d].name` -/
def appRuleKey (index : Int) (name : List UInt8) : List UInt8 :=
  ascii "appfilter.@rule[" ++ intText index ++ ascii "]." ++ name

/-- The weekdays, with a comma in front of each but the first. -/
def weekdayPieces : List Int → List (List UInt8)
  | [] => []
  | day :: days => printInt day :: days.flatMap (fun day => [[44], printInt day])

/-- What is appended to `time_rule_str`, piece by piece. -/
def timeRulePieces (weekdays : List Int) (startTime endTime : List UInt8) : List (List UInt8) :=
  weekdayPieces weekdays ++ [[44], startTime, [44], endTime]

/-- One element of `time_rules`. -/
def filterTimeWrites (index : Int) (rule : FilterTimeRule) : List BufferWrite :=
  match rule.weekdays, rule.startTime, rule.endTime with
  | some weekdays, some startTime, some endTime =>
    strcatWrites 0 (timeRulePieces weekdays startTime endTime) ++
      addListWrites (appRuleKey index (ascii "time_rule"))
        (timeRulePieces weekdays startTime endTime).flatten
  | _, _, _ => []

/-- One element of `app_ids`. -/
def appIdWrites (index : Int) (raw : Option (List UInt8)) : List BufferWrite :=
  match raw.bind normalizeAppIdToken with
  | some appId => addListWrites (appRuleKey index (ascii "app_id")) appId
  | none => []

/-- A request of `fwx_api_add_filter_rule`. -/
structure AddFilterRuleRequest where
  name : Option (List UInt8)
  mode : Option Int
  userMac : Option (List UInt8)
  userName : Option (List UInt8)
  enabled : Option Int
  filterQuic : Option Int
  timeRules : Option (List FilterTimeRule)
  appIds : Option (List (Option (List UInt8)))

/-- `fwx_uci_add_list` of the new rule, of each text there is. -/
def newTexts (name : List UInt8) (texts : List (Option (List UInt8))) : List UciEdit :=
  texts.flatMap (fun text =>
    match text with
    | some text =>
      if MAX_PARAM_LIST_LEN - 1 ≤ text.length + (appRuleKey (-1) name).length then []
      else [.add name text]
    | none => [])

/-- `fwx_api_add_filter_rule`, at the time `now`. -/
def fwxApiAddFilterRule (uci : Libuci) (now : Int) (store : UciStore) (req : AddFilterRuleRequest) :
    UciStore × ApiCode :=
  match req.name, req.mode, req.timeRules, req.appIds with
  | some name, some mode, some timeRules, some appIds =>
    let store := store.addSection ruleType
    let index := (store.visible.ofType ruleType).length - 1
    let store := store.edit uci ruleType index
      (setInt (ascii "id") (some now) ++ setText (ascii "name") (some name) ++
        setInt (ascii "mode") (some mode) ++ setText (ascii "user_mac") req.userMac ++
        setText (ascii "user_name") req.userName ++
        setInt (ascii "enabled") (some (req.enabled.getD 1)) ++
        setInt (ascii "filter_quic") (some (if req.filterQuic.getD 0 = 0 then 0 else 1)))
    let store := store.edit uci ruleType index
      (newTexts (ascii "time_rule") (timeRules.map FilterTimeRule.text))
    let store := store.edit uci ruleType index
      (newTexts (ascii "app_id") (appIds.map (·.bind normalizeAppIdToken)))
    (store.commit, .success)
  | _, _, _, _ => (store, .error)

/-- The writes of `fwx_api_add_filter_rule`. -/
def AddFilterRuleRequest.writes (now : Int) (req : AddFilterRuleRequest) : List BufferWrite :=
  match req.name, req.mode, req.timeRules, req.appIds with
  | some name, some mode, some timeRules, some appIds =>
    setValueWrites (appRuleKey (-1) (ascii "id")) (intText now) ++
      setValueWrites (appRuleKey (-1) (ascii "name")) name ++
      setValueWrites (appRuleKey (-1) (ascii "mode")) (intText mode) ++
      optWrites (appRuleKey (-1) (ascii "user_mac")) req.userMac ++
      optWrites (appRuleKey (-1) (ascii "user_name")) req.userName ++
      setValueWrites (appRuleKey (-1) (ascii "enabled")) (intText (req.enabled.getD 1)) ++
      setValueWrites (appRuleKey (-1) (ascii "filter_quic"))
        (intText (if req.filterQuic.getD 0 = 0 then 0 else 1)) ++
      timeRules.flatMap (filterTimeWrites (-1)) ++ appIds.flatMap (appIdWrites (-1))
  | _, _, _, _ => []

/-- The writes of `fwx_api_update_filter_rule`. -/
def updateFilterWrites (store : UciStore) (req : UpdateFilterRuleRequest) : List BufferWrite :=
  match req.id.bind (findRuleIndexById store.visible) with
  | none => []
  | some index =>
    optWrites (appRuleKey index (ascii "name")) req.name ++
      optWrites (appRuleKey index (ascii "mode")) (req.mode.map intText) ++
      optWrites (appRuleKey index (ascii "user_mac")) req.userMac ++
      optWrites (appRuleKey index (ascii "user_name")) req.userName ++
      optWrites (appRuleKey index (ascii "enabled")) (req.enabled.map intText) ++
      optWrites (appRuleKey index (ascii "filter_quic"))
        (req.filterQuic.map (fun quic => intText (if quic = 0 then 0 else 1))) ++
      (req.timeRules.getD []).flatMap (filterTimeWrites index) ++
      (req.appIds.getD []).flatMap (appIdWrites index)

/-- `fwx_api_delete_filter_rule` is the same code as that of the MAC filter. -/
def fwxApiDeleteFilterRule (store : UciStore) (id : Option Int) : UciStore × ApiCode :=
  fwxApiDeleteMacFilterRule store id

/-! ## 3. The MAC filter -/

/-- `macfilter.@rule[%d].name` -/
def macRuleKey (index : Int) (name : List UInt8) : List UInt8 := ruleKey (Kernel.toInt32 index) name

/-- `%s%d`, with a comma in front of each but the first. -/
def dayTexts : List Int → List (List UInt8)
  | [] => []
  | day :: days => printInt day :: days.map (fun day => 44 :: printInt day)

/-- `build_time_list_item_str` -/
def timeListItemWrites (rule : TimeRuleArg) (strLen : Nat) : List BufferWrite :=
  match rule.weekdays, rule.startTime, rule.endTime with
  | some (.array weekdays), some startTime, some endTime =>
    let days := weekdays.filter (fun day => 0 ≤ day ∧ day ≤ 6)
    let loop := snprintfWrites strLen 0 (dayTexts days)
    ⟨.timeRuleStr, 1⟩ :: loop.1 ++
      match loop.2 with
      | none => []
      | some offset =>
        if days = [] ∨ strLen ≤ offset + 1 then []
        else ⟨.timeRuleStr, offset + 2⟩ ::
          (snprintfWrites strLen (offset + 1) [startTime ++ 44 :: endTime]).1
  | _, _, _ => []

/-- The writes behind `timeEdits`. -/
def timeWrites (index : Int) (timeMode : TimeMode) (args : TimeArgs) : List BufferWrite :=
  match timeMode with
  | .range =>
    match args.timeList with
    | some (.array (item :: items)) => (item :: items).flatMap (fun item =>
        match item with
        | some (c :: text) => addListWrites (macRuleKey index (ascii "time_list")) (c :: text)
        | _ => [])
    | _ => (args.usableTimeRules.getD []).flatMap (fun rule =>
        timeListItemWrites rule 256 ++
          match buildTimeListItemStr rule 256 with
          | some text => addListWrites (macRuleKey index (ascii "time_list")) text
          | none => [])
  | .duration =>
    optWrites (macRuleKey index (ascii "time_limit")) (limitStr args.timeLimit args .duration)
  | .flow => optWrites (macRuleKey index (ascii "flow_limit")) (limitStr args.flowLimit args .flow)

/-- The writes of `fwx_api_add_mac_filter_rule`. -/
def addMacWrites (now : Int) (req : AddMacRuleRequest) : List BufferWrite :=
  match req.name, req.mode with
  | some name, some mode =>
    let timeMode := normalizeMacfilterTimeMode (req.timeMode.getD 1)
    match timeEdits (-1) timeMode req.times with
    | none => []
    | some _ =>
      setValueWrites (macRuleKey (-1) (ascii "id")) (intText now) ++
        setValueWrites (macRuleKey (-1) (ascii "name")) name ++
        setValueWrites (macRuleKey (-1) (ascii "mode")) (intText mode) ++
        setValueWrites (macRuleKey (-1) (ascii "time_mode")) (printTimeMode timeMode) ++
        optWrites (macRuleKey (-1) (ascii "user_mac")) req.userMac ++
        optWrites (macRuleKey (-1) (ascii "user_name")) req.userName ++
        setValueWrites (macRuleKey (-1) (ascii "enabled")) (intText (req.enabled.getD 1)) ++
        timeWrites (-1) timeMode req.times
  | _, _ => []

/-- The writes of `fwx_api_update_mac_filter_rule`. -/
def updateMacWrites (uci : Libuci) (store : UciStore) (req : UpdateMacRuleRequest) : List BufferWrite :=
  match req.id.bind (findRuleIndexById store.visible) with
  | none => []
  | some index =>
    let store := store.edit uci ruleType index
      (setText (ascii "name") req.name ++ setInt (ascii "mode") req.mode)
    let timeMode := req.effectiveTimeMode (store.visible.ofType ruleType)[index]?
    optWrites (macRuleKey index (ascii "name")) req.name ++
      optWrites (macRuleKey index (ascii "mode")) (req.mode.map intText) ++
      (if req.hasTimePayload then
        setValueWrites (macRuleKey index (ascii "time_mode")) (printTimeMode timeMode) else []) ++
      optWrites (macRuleKey index (ascii "user_mac")) req.userMac ++
      optWrites (macRuleKey index (ascii "user_name")) req.userName ++
      optWrites (macRuleKey index (ascii "enabled")) (req.enabled.map intText) ++
      if req.hasTimePayload then timeWrites index timeMode req.times else []

/-- The items of a list option; `none` where `fwx_uci_get_list_value` returns -1. -/
def listItems : Option UciValue → Option (List (List UInt8))
  | some (.list items) => some items
  | _ => none

/-- The list that `fwx_api_get_mac_filter_rules` joins for a rule. -/
def readList (s : UciSection) : Option (List (List UInt8)) :=
  let limitMissing (name : List UInt8) := (s.getValue name 512).getD [] = []
  match normalizeMacfilterTimeMode (atoi ((s.getValue (ascii "time_mode") 16).getD [49])) with
  | .range => (listItems (s.options (ascii "time_list"))).or (listItems (s.options (ascii "time_rule")))
  | .duration =>
    if limitMissing (ascii "time_limit") then listItems (s.options (ascii "time_rule")) else none
  | .flow =>
    if limitMissing (ascii "flow_limit") then listItems (s.options (ascii "time_rule")) else none

/-- One turn of the loop of `fwx_api_get_mac_filter_rules`. -/
def readRuleWrites (s : UciSection) : List BufferWrite :=
  if s.getValue (ascii "id") 32 = none then [] else ((readList s).map listValueWrites).getD []

/-- The writes of `fwx_api_get_mac_filter_rules`. -/
def getMacRulesWrites (store : UciStore) : List BufferWrite :=
  (store.visible.ofType ruleType).flatMap readRuleWrites

/-! ## 4. What stays inside -/

@[simp] theorem allInside_nil : AllInside [] := fun _ h => absurd h List.not_mem_nil

@[simp] theorem allInside_cons {w : BufferWrite} {writes : List BufferWrite} :
    AllInside (w :: writes) ↔ w.Inside ∧ AllInside writes := List.forall_mem_cons

@[simp] theorem allInside_append {writes writes' : List BufferWrite} :
    AllInside (writes ++ writes') ↔ AllInside writes ∧ AllInside writes' := List.forall_mem_append

theorem allInside_flatMap {α : Type} {l : List α} {f : α → List BufferWrite} :
    AllInside (l.flatMap f) ↔ ∀ x ∈ l, AllInside (f x) := by
  simp only [AllInside, List.forall_mem_flatMap]

/-- What `fwx_uci_set_value` has room for: the key, the value, `=` and the terminator. -/
def SetFits (key : List UInt8) (arg : Option (List UInt8)) : Prop :=
  ∀ text, arg = some text → key.length + text.length ≤ 2046

theorem setValueWrites_inside {key value : List UInt8} :
    AllInside (setValueWrites key value) ↔ key.length + value.length ≤ 2046 := by
  simp only [setValueWrites, allInside_cons, allInside_nil, and_true, BufferWrite.Inside,
    RuleBuffer.size]
  omega

theorem optWrites_inside {key : List UInt8} {arg : Option (List UInt8)} :
    AllInside (optWrites key arg) ↔ SetFits key arg := by
  cases arg with
  | none => exact iff_of_true allInside_nil fun _ h => nomatch h
  | some value =>
    refine setValueWrites_inside.trans ⟨fun h text htext => ?_, fun h => h value rfl⟩
    exact Option.some.inj htext ▸ h

/-- The check of `fwx_uci_add_list` is enough. -/
theorem addListWrites_inside (key value : List UInt8) : AllInside (addListWrites key value) := by
  rw [addListWrites]
  split
  · exact allInside_nil
  · rename_i h
    simp only [allInside_cons, allInside_nil, and_true, BufferWrite.Inside, RuleBuffer.size,
      MAX_PARAM_LIST_LEN] at h ⊢
    omega

theorem intText_length_le (i : Int) : (intText i).length ≤ 11 := by
  refine printInt_length_le (by decide) ?_
  have h1 : -2 ^ 31 ≤ Kernel.toInt32 i := Int.le_bmod (by decide)
  have h2 : Kernel.toInt32 i < 2 ^ 31 := Int.bmod_lt (by decide)
  omega

theorem appRuleKey_length_le (index : Int) (name : List UInt8) :
    (appRuleKey index name).length ≤ name.length + 29 := by
  have h1 : (ascii "appfilter.@rule[").length = 16 := by decide
  have h2 : (ascii "].").length = 2 := by decide
  have h3 := intText_length_le index
  simp only [appRuleKey, List.length_append, h1, h2]
  omega

theorem macRuleKey_length_le (index : Int) (name : List UInt8) :
    (macRuleKey index name).length ≤ name.length + 29 := by
  have h1 : (ascii "macfilter.@rule[").length = 16 := by decide
  have h2 : (ascii "].").length = 2 := by decide
  have h3 := intText_length_le index
  rw [intText] at h3
  simp only [macRuleKey, ruleKey, List.length_append, h1, h2]
  omega

/-- A number fits behind the key of any option. -/
theorem setFits_int {key : List UInt8} (hkey : key.length ≤ 1500) (arg : Option Int) :
    SetFits key (arg.map intText) := by
  intro text htext
  obtain ⟨i, -, rfl⟩ := Option.map_eq_some_iff.mp htext
  have := intText_length_le i
  omega

/-! ## 5. The times -/

theorem strcatWrites_inside : ∀ (pieces : List (List UInt8)) {len : Nat}, len ≤ 255 →
    (AllInside (strcatWrites len pieces) ↔ len + pieces.flatten.length ≤ 255)
  | [], len, hlen => iff_of_true allInside_nil (by simpa using hlen)
  | piece :: pieces, len, hlen => by
    rw [strcatWrites, allInside_cons, List.flatten_cons, List.length_append]
    simp only [BufferWrite.Inside, RuleBuffer.size]
    by_cases hfit : len + piece.length ≤ 255
    · rw [strcatWrites_inside pieces hfit]
      omega
    · exact iff_of_false (fun h => by omega) (by omega)

theorem weekdayPieces_flatten : ∀ weekdays : List Int,
    (weekdayPieces weekdays).flatten = [44].intercalate (weekdays.map printInt)
  | [] => rfl
  | [day] => by simp [weekdayPieces]
  | day :: day' :: days => by
    rw [List.map_cons, List.map_cons, List.intercalate_cons_cons, ← List.map_cons,
      ← weekdayPieces_flatten (day' :: days)]
    simp [weekdayPieces]

/-- The pieces are those of `FilterTimeRule.text`. -/
theorem timeRulePieces_flatten (weekdays : List Int) (startTime endTime : List UInt8) :
    (timeRulePieces weekdays startTime endTime).flatten =
      [44].intercalate (weekdays.map printInt) ++ 44 :: (startTime ++ 44 :: endTime) := by
  rw [timeRulePieces, List.flatten_append, weekdayPieces_flatten]
  simp

theorem filterTimeWrites_inside {index : Int} {rule : FilterTimeRule} :
    AllInside (filterTimeWrites index rule) ↔ ∀ text, rule.text = some text → text.length ≤ 255 := by
  rcases rule with ⟨weekdays, startTime, endTime⟩
  rcases weekdays with - | weekdays
  · exact iff_of_true allInside_nil fun _ h => nomatch h
  rcases startTime with - | startTime
  · exact iff_of_true allInside_nil fun _ h => nomatch h
  rcases endTime with - | endTime
  · exact iff_of_true allInside_nil fun _ h => nomatch h
  simp only [filterTimeWrites, FilterTimeRule.text, allInside_append, addListWrites_inside, and_true,
    strcatWrites_inside _ (Nat.zero_le _), Nat.zero_add, timeRulePieces_flatten, Option.some.injEq,
    forall_eq']

theorem appIdWrites_inside (index : Int) (raw : Option (List UInt8)) :
    AllInside (appIdWrites index raw) := by
  rw [appIdWrites]
  split
  · exact addListWrites_inside _ _
  · exact allInside_nil

theorem snprintfWrites_inside {strLen : Nat} (hlen : strLen ≤ 256) : ∀ (pieces : List (List UInt8))
    (offset : Nat), AllInside (snprintfWrites strLen offset pieces).1
  | [], _ => allInside_nil
  | piece :: pieces, offset => by
    rw [snprintfWrites]
    split
    · refine allInside_cons.mpr ⟨?_, snprintfWrites_inside hlen pieces _⟩
      simp only [BufferWrite.Inside, RuleBuffer.size]
      omega
    · exact allInside_cons.mpr ⟨hlen, allInside_nil⟩

/-- `snprintf` keeps the item inside. -/
theorem timeListItemWrites_inside (rule : TimeRuleArg) : AllInside (timeListItemWrites rule 256) := by
  rw [timeListItemWrites]
  split
  · dsimp only
    refine allInside_append.mpr ⟨allInside_cons.mpr ⟨(by decide : 1 ≤ 256), snprintfWrites_inside (by decide) _ _⟩, ?_⟩
    split
    · exact allInside_nil
    · split
      · exact allInside_nil
      · rename_i hroom
        simp only [not_or] at hroom
        refine allInside_cons.mpr ⟨?_, snprintfWrites_inside (by decide) _ _⟩
        simp only [BufferWrite.Inside, RuleBuffer.size]
        omega
  · exact allInside_nil

theorem printLimits_length {values : Nat → Int} {outputLen : Nat} : ∀ (days : List Nat)
    {output text : List UInt8}, output.length < outputLen →
    printLimits values outputLen output days = some text → text.length < outputLen
  | [], output, text, hlen, h => by
    rw [printLimits] at h
    exact Option.some.inj h ▸ hlen
  | day :: days, output, text, hlen, h => by
    rw [printLimits] at h
    split at h
    · cases h
    · rename_i hpair
      rw [not_le] at hpair
      split at h
      · rw [← Option.some.inj h, List.length_append]
        omega
      · split at h
        · cases h
        · rename_i hroom
          refine printLimits_length days ?_ h
          rw [List.length_append, List.length_singleton]
          omega

theorem limitStr_length {limit : Option MacFilter.TextArg} {args : TimeArgs} {timeMode : TimeMode}
    {text : List UInt8} (h : limitStr limit args timeMode = some text) : text.length < 512 := by
  have hgetD : ∀ {values : Nat → Int} {days : List Nat},
      ((printLimits values 512 [] days).getD []).length < 512 := by
    intro values days
    cases hprint : printLimits values 512 [] days with
    | none => decide
    | some text => exact printLimits_length days (by decide) hprint
  unfold limitStr at h
  split at h
  · rw [← Option.some.inj h]
    exact hgetD
  · obtain ⟨rules, -, rfl⟩ := Option.map_eq_some_iff.mp h
    exact hgetD

/-- The times of the MAC filter always stay inside. -/
theorem timeWrites_inside (index : Int) (timeMode : TimeMode) (args : TimeArgs) :
    AllInside (timeWrites index timeMode args) := by
  have hlimit : ∀ (name : List UInt8) (limit : Option MacFilter.TextArg) (timeMode : TimeMode),
      name.length ≤ 100 → AllInside (optWrites (macRuleKey index name) (limitStr limit args timeMode)) := by
    intro name limit timeMode hname
    refine optWrites_inside.mpr fun text htext => ?_
    have h1 := limitStr_length htext
    have h2 := macRuleKey_length_le index name
    omega
  cases timeMode with
  | range =>
    rw [timeWrites]
    split
    · refine allInside_flatMap.mpr fun item _ => ?_
      split
      · exact addListWrites_inside _ _
      · exact allInside_nil
    · refine allInside_flatMap.mpr fun rule _ => ?_
      refine allInside_append.mpr ⟨timeListItemWrites_inside rule, ?_⟩
      split
      · exact addListWrites_inside _ _
      · exact allInside_nil
  | duration => exact hlimit _ _ _ (by decide)
  | flow => exact hlimit _ _ _ (by decide)

/-! ## 6. The reader -/

theorem listValueWritesFrom_inside : ∀ (items : List (List UInt8)) {len : Nat}, len ≤ 2047 →
    (AllInside (listValueWritesFrom true len items) ↔
      len + (items.flatMap (fun item => 32 :: item)).length ≤ 2047)
  | [], len, hlen => iff_of_true allInside_nil (by simpa using hlen)
  | item :: items, len, hlen => by
    simp only [listValueWritesFrom, if_true, List.singleton_append, allInside_cons, List.flatMap_cons,
      List.length_append, List.length_cons, BufferWrite.Inside, RuleBuffer.size]
    by_cases hfit : len + 1 + item.length ≤ 2047
    · rw [listValueWritesFrom_inside items hfit]
      omega
    · exact iff_of_false (fun h => by omega) (by omega)

theorem listValueWrites_inside (items : List (List UInt8)) :
    AllInside (listValueWrites items) ↔ ([32].intercalate items).length ≤ 2047 := by
  rw [listValueWrites, allInside_cons]
  cases items with
  | nil => exact iff_of_true ⟨Nat.le_refl _, allInside_nil⟩ (by simp)
  | cons item items =>
    rw [intercalate_cons_eq, List.length_append, listValueWritesFrom]
    simp only [Bool.false_eq_true, if_false, List.nil_append, allInside_cons, Nat.zero_add,
      BufferWrite.Inside, RuleBuffer.size, Nat.le_refl, true_and]
    by_cases hfit : item.length ≤ 2047
    · rw [listValueWritesFrom_inside items hfit]
      omega
    · exact iff_of_false (fun h => by omega) (by omega)

/-! ## 7. The calls -/

/-- The texts of a request of the app filter have room. -/
structure FilterTextsFit (index : Int) (name userMac userName : Option (List UInt8))
    (timeRules : List FilterTimeRule) : Prop where
  name : SetFits (appRuleKey index (ascii "name")) name
  userMac : SetFits (appRuleKey index (ascii "user_mac")) userMac
  userName : SetFits (appRuleKey index (ascii "user_name")) userName
  times : ∀ rule ∈ timeRules, ∀ text, rule.text = some text → text.length ≤ 255

/-- The texts of a request of the MAC filter have room. -/
structure MacTextsFit (index : Int) (name userMac userName : Option (List UInt8)) : Prop where
  name : SetFits (macRuleKey index (ascii "name")) name
  userMac : SetFits (macRuleKey index (ascii "user_mac")) userMac
  userName : SetFits (macRuleKey index (ascii "user_name")) userName

theorem appInt_inside (index : Int) {name : List UInt8} (hname : name.length ≤ 100) (i : Int) :
    AllInside (setValueWrites (appRuleKey index name) (intText i)) := by
  have h1 := appRuleKey_length_le index name
  have h2 := intText_length_le i
  exact setValueWrites_inside.mpr (by omega)

theorem appOptInt_inside (index : Int) {name : List UInt8} (hname : name.length ≤ 100)
    (arg : Option Int) : AllInside (optWrites (appRuleKey index name) (arg.map intText)) := by
  have h := appRuleKey_length_le index name
  exact optWrites_inside.mpr (setFits_int (by omega) arg)

theorem macInt_inside (index : Int) {name : List UInt8} (hname : name.length ≤ 100) (i : Int) :
    AllInside (setValueWrites (macRuleKey index name) (intText i)) := by
  have h1 := macRuleKey_length_le index name
  have h2 := intText_length_le i
  exact setValueWrites_inside.mpr (by omega)

theorem macOptInt_inside (index : Int) {name : List UInt8} (hname : name.length ≤ 100)
    (arg : Option Int) : AllInside (optWrites (macRuleKey index name) (arg.map intText)) := by
  have h := macRuleKey_length_le index name
  exact optWrites_inside.mpr (setFits_int (by omega) arg)

theorem macTimeMode_inside (index : Int) (timeMode : TimeMode) :
    AllInside (setValueWrites (macRuleKey index (ascii "time_mode")) (printTimeMode timeMode)) := by
  have h1 := macRuleKey_length_le index (ascii "time_mode")
  have h2 : (ascii "time_mode").length = 9 := by decide
  have h3 : (printTimeMode timeMode).length = 1 := by cases timeMode <;> decide
  exact setValueWrites_inside.mpr (by omega)

theorem filterTextsFit_iff {index : Int} {name userMac userName : Option (List UInt8)}
    {timeRules : List FilterTimeRule} :
    FilterTextsFit index name userMac userName timeRules ↔
      AllInside (optWrites (appRuleKey index (ascii "name")) name) ∧
        AllInside (optWrites (appRuleKey index (ascii "user_mac")) userMac) ∧
        AllInside (optWrites (appRuleKey index (ascii "user_name")) userName) ∧
        AllInside (timeRules.flatMap (filterTimeWrites index)) := by
  simp only [optWrites_inside, allInside_flatMap, filterTimeWrites_inside]
  exact ⟨fun h => ⟨h.1, h.2, h.3, h.4⟩, fun h => ⟨h.1, h.2.1, h.2.2.1, h.2.2.2⟩⟩

theorem macTextsFit_iff {index : Int} {name userMac userName : Option (List UInt8)} :
    MacTextsFit index name userMac userName ↔
      AllInside (optWrites (macRuleKey index (ascii "name")) name) ∧
        AllInside (optWrites (macRuleKey index (ascii "user_mac")) userMac) ∧
        AllInside (optWrites (macRuleKey index (ascii "user_name")) userName) := by
  simp only [optWrites_inside]
  exact ⟨fun h => ⟨h.1, h.2, h.3⟩, fun h => ⟨h.1, h.2.1, h.2.2⟩⟩

theorem appIds_inside (index : Int) (appIds : List (Option (List UInt8))) :
    AllInside (appIds.flatMap (appIdWrites index)) :=
  allInside_flatMap.mpr fun raw _ => appIdWrites_inside index raw

/-- A request that `fwx_api_add_filter_rule` accepts has texts that fit. -/
def AddFilterRuleRequest.Fits (req : AddFilterRuleRequest) : Prop :=
  match req.name, req.mode, req.timeRules, req.appIds with
  | some name, some _, some timeRules, some _ =>
    FilterTextsFit (-1) (some name) req.userMac req.userName timeRules
  | _, _, _, _ => True

theorem addFilter_inside_iff (now : Int) (req : AddFilterRuleRequest) :
    AllInside (req.writes now) ↔ req.Fits := by
  rw [AddFilterRuleRequest.writes, AddFilterRuleRequest.Fits]
  split
  · rename_i name mode timeRules appIds _ _ _ _
    have hid := appInt_inside (-1) (by decide : (ascii "id").length ≤ 100) now
    have hmode := appInt_inside (-1) (by decide : (ascii "mode").length ≤ 100) mode
    have henabled := appInt_inside (-1) (by decide : (ascii "enabled").length ≤ 100)
      (req.enabled.getD 1)
    have hquic := appInt_inside (-1) (by decide : (ascii "filter_quic").length ≤ 100)
      (if req.filterQuic.getD 0 = 0 then 0 else 1)
    have hids := appIds_inside (-1) appIds
    have hname : optWrites (appRuleKey (-1) (ascii "name")) (some name) =
        setValueWrites (appRuleKey (-1) (ascii "name")) name := rfl
    simp only [filterTextsFit_iff, allInside_append, hid, hmode, henabled, hquic, hids, hname,
      true_and, and_true, and_assoc]
  · exact iff_of_true allInside_nil trivial

/-- A request that `fwx_api_update_filter_rule` accepts has texts that fit. -/
def UpdateFilterRuleRequest.Fits (req : UpdateFilterRuleRequest) (store : UciStore) : Prop :=
  ∀ index, req.id.bind (findRuleIndexById store.visible) = some index →
    FilterTextsFit index req.name req.userMac req.userName (req.timeRules.getD [])

theorem updateFilter_inside_iff (store : UciStore) (req : UpdateFilterRuleRequest) :
    AllInside (updateFilterWrites store req) ↔ req.Fits store := by
  rw [updateFilterWrites, UpdateFilterRuleRequest.Fits]
  split
  · rename_i hnone
    exact iff_of_true allInside_nil fun _ h => by rw [hnone] at h; cases h
  · rename_i index hindex
    have hmode := appOptInt_inside index (by decide : (ascii "mode").length ≤ 100) req.mode
    have henabled := appOptInt_inside index (by decide : (ascii "enabled").length ≤ 100) req.enabled
    have hquic := appOptInt_inside index (by decide : (ascii "filter_quic").length ≤ 100)
      (req.filterQuic.map (fun quic => if quic = 0 then 0 else 1))
    rw [Option.map_map] at hquic
    have hids := appIds_inside index (req.appIds.getD [])
    simp only [hindex, Option.some.injEq, forall_eq', filterTextsFit_iff, allInside_append, hmode,
      henabled, hids, and_true, and_assoc, and_congr_right_iff]
    exact fun _ _ _ => and_iff_right hquic

/-- A request that `fwx_api_add_mac_filter_rule` accepts has texts that fit. -/
def addMacFits (req : AddMacRuleRequest) : Prop :=
  match req.name, req.mode with
  | some name, some _ =>
    match timeEdits (-1) (normalizeMacfilterTimeMode (req.timeMode.getD 1)) req.times with
    | some _ => MacTextsFit (-1) (some name) req.userMac req.userName
    | none => True
  | _, _ => True

theorem addMac_inside_iff (now : Int) (req : AddMacRuleRequest) :
    AllInside (addMacWrites now req) ↔ addMacFits req := by
  rw [addMacWrites, addMacFits]
  split
  · rename_i name mode _ _
    dsimp only
    cases timeEdits (-1) (normalizeMacfilterTimeMode (req.timeMode.getD 1)) req.times with
    | none => exact iff_of_true allInside_nil trivial
    | some edits =>
      have hid := macInt_inside (-1) (by decide : (ascii "id").length ≤ 100) now
      have hmode := macInt_inside (-1) (by decide : (ascii "mode").length ≤ 100) mode
      have hmodes := macTimeMode_inside (-1) (normalizeMacfilterTimeMode (req.timeMode.getD 1))
      have henabled := macInt_inside (-1) (by decide : (ascii "enabled").length ≤ 100)
        (req.enabled.getD 1)
      have htimes := timeWrites_inside (-1) (normalizeMacfilterTimeMode (req.timeMode.getD 1)) req.times
      have hname : optWrites (macRuleKey (-1) (ascii "name")) (some name) =
          setValueWrites (macRuleKey (-1) (ascii "name")) name := rfl
      simp only [macTextsFit_iff, allInside_append, hid, hmode, hmodes, henabled, htimes, hname,
        true_and, and_true, and_assoc]
  · exact iff_of_true allInside_nil trivial

/-- A request that `fwx_api_update_mac_filter_rule` accepts has texts that fit. -/
def updateMacFits (store : UciStore) (req : UpdateMacRuleRequest) : Prop :=
  ∀ index, req.id.bind (findRuleIndexById store.visible) = some index →
    MacTextsFit index req.name req.userMac req.userName

theorem updateMac_inside_iff (uci : Libuci) (store : UciStore) (req : UpdateMacRuleRequest) :
    AllInside (updateMacWrites uci store req) ↔ updateMacFits store req := by
  rw [updateMacWrites, updateMacFits]
  split
  · rename_i hnone
    exact iff_of_true allInside_nil fun _ h => by rw [hnone] at h; cases h
  · rename_i index hindex
    have hmode := macOptInt_inside index (by decide : (ascii "mode").length ≤ 100) req.mode
    have henabled := macOptInt_inside index (by decide : (ascii "enabled").length ≤ 100) req.enabled
    simp only [hindex, Option.some.injEq, forall_eq', macTextsFit_iff, allInside_append, hmode,
      henabled, and_true, and_assoc]
    by_cases hpayload : req.hasTimePayload = true
    · simp only [if_pos hpayload, macTimeMode_inside, timeWrites_inside, true_and, and_true]
    · simp only [if_neg hpayload, allInside_nil, true_and, and_true]

/-- Every list that `fwx_api_get_mac_filter_rules` joins has room. -/
def ListsFit (store : UciStore) : Prop :=
  ∀ s ∈ store.visible.ofType ruleType, s.getValue (ascii "id") 32 ≠ none →
    ∀ items, readList s = some items → ([32].intercalate items).length ≤ 2047

theorem read_inside_iff (store : UciStore) : AllInside (getMacRulesWrites store) ↔ ListsFit store := by
  rw [getMacRulesWrites, allInside_flatMap, ListsFit]
  refine forall₂_congr fun s _ => ?_
  rw [readRuleWrites]
  by_cases hid : s.getValue (ascii "id") 32 = none
  · rw [if_pos hid]
    exact iff_of_true allInside_nil fun h => absurd hid h
  · rw [if_neg hid]
    simp only [ne_eq, hid, not_false_eq_true, forall_const]
    cases readList s with
    | none => exact iff_of_true allInside_nil fun _ h => nomatch h
    | some items =>
      refine (listValueWrites_inside items).trans ⟨fun h _ hitems => ?_, fun h => h items rfl⟩
      exact Option.some.inj hitems ▸ h

/-! ## 8. Runs -/

/-- The packages `appfilter` and `macfilter`. -/
structure RuleStores where
  appfilter : UciStore
  macfilter : UciStore

/-- A call of the API. -/
inductive RuleCall where
  | addFilterRule (now : Int) (req : AddFilterRuleRequest)
  | updateFilterRule (req : UpdateFilterRuleRequest)
  | deleteFilterRule (id : Option Int)
  | macFilterRule (call : MacFilterCall)
  | getMacFilterRules

def RuleCall.run (uci : Libuci) (s : RuleStores) : RuleCall → RuleStores
  | .addFilterRule now req => { s with appfilter := (fwxApiAddFilterRule uci now s.appfilter req).1 }
  | .updateFilterRule req => { s with appfilter := (fwxApiUpdateFilterRule uci s.appfilter req).1 }
  | .deleteFilterRule id => { s with appfilter := (fwxApiDeleteFilterRule s.appfilter id).1 }
  | .macFilterRule call => { s with macfilter := (call.run uci s.macfilter).1 }
  | .getMacFilterRules => s

/-- What the call writes into the buffers. -/
def RuleCall.writes (uci : Libuci) (s : RuleStores) : RuleCall → List BufferWrite
  | .addFilterRule now req => req.writes now
  | .updateFilterRule req => updateFilterWrites s.appfilter req
  | .deleteFilterRule _ => []
  | .macFilterRule (.add now req) => addMacWrites now req
  | .macFilterRule (.update req) => updateMacWrites uci s.macfilter req
  | .macFilterRule (.delete _) => []
  | .getMacFilterRules => getMacRulesWrites s.macfilter

/-- The texts of the call, or the lists that it reads, have room. -/
def RuleCall.Fits (s : RuleStores) : RuleCall → Prop
  | .addFilterRule _ req => req.Fits
  | .updateFilterRule req => req.Fits s.appfilter
  | .deleteFilterRule _ => True
  | .macFilterRule (.add _ req) => addMacFits req
  | .macFilterRule (.update req) => updateMacFits s.macfilter req
  | .macFilterRule (.delete _) => True
  | .getMacFilterRules => ListsFit s.macfilter

/-- One call, at any packages. -/
theorem call_inside_iff (uci : Libuci) (s : RuleStores) (call : RuleCall) :
    AllInside (call.writes uci s) ↔ call.Fits s := by
  cases call with
  | addFilterRule now req => exact addFilter_inside_iff now req
  | updateFilterRule req => exact updateFilter_inside_iff s.appfilter req
  | deleteFilterRule id => exact iff_of_true allInside_nil trivial
  | macFilterRule call =>
    cases call with
    | add now req => exact addMac_inside_iff now req
    | update req => exact updateMac_inside_iff uci s.macfilter req
    | delete id => exact iff_of_true allInside_nil trivial
  | getMacFilterRules => exact read_inside_iff s.macfilter

/-- At every call of the run, the property holds of the packages that it finds. -/
def AtEveryCall (uci : Libuci) (p : RuleStores → RuleCall → Prop) (s : RuleStores) :
    List RuleCall → Prop
  | [] => True
  | call :: calls => p s call ∧ AtEveryCall uci p (call.run uci s) calls

/-- **In every run, from any packages, all writes stay inside iff every call fits.** -/
theorem rule_writes_inside_iff (uci : Libuci) (s : RuleStores) (calls : List RuleCall) :
    AtEveryCall uci (fun s call => AllInside (call.writes uci s)) s calls ↔
      AtEveryCall uci (fun s call => call.Fits s) s calls := by
  induction calls generalizing s with
  | nil => exact Iff.rfl
  | cons call calls ih => exact and_congr (call_inside_iff uci s call) (ih _)

/-- A rule that lists one weekday two hundred times. -/
def manyWeekdaysRequest : AddFilterRuleRequest where
  name := some (ascii "games")
  mode := some 1
  userMac := none
  userName := none
  enabled := none
  filterQuic := none
  timeRules := some [⟨some (List.replicate 200 1), some (ascii "08:00"), some (ascii "12:00")⟩]
  appIds := some [some (ascii "1001")]

/-- The rule is accepted and written past the end of `time_rule_str`. -/
theorem weekdays_overrun_time_rule :
    (fwxApiAddFilterRule MacFilter.plainUci 0 ⟨[], []⟩ manyWeekdaysRequest).2 = .success ∧
      ¬ AtEveryCall MacFilter.plainUci (fun s call => AllInside (call.writes MacFilter.plainUci s))
        ⟨⟨[], []⟩, ⟨[], []⟩⟩ [.addFilterRule 0 manyWeekdaysRequest] := by
  refine ⟨rfl, fun h => ?_⟩
  have hfits : manyWeekdaysRequest.Fits := (addFilter_inside_iff 0 _).mp h.1
  exact absurd (hfits.times _ List.mem_cons_self _ rfl) (by decide +kernel)

end Oaf
