/-
# The rule manager

`rule_manager.lua` turns the rules and whitelists of UCI into requests to `/dev/fwx`.  A function
of it that writes is a program whose requests are the writes, under its name; a write answers
whether `write_to_dev_fwx` returned true.

* `DevStep`: what can become of a write.
* `process_appfilter_rules`: the rules that are to be in force, and the table of those that are.
* `sync_effective_mac_rule`: the same for one list of addresses.

A rule is what `load_appfilter_rules` makes of a section.  Names, the status and detail files and
the log are left out; numbers are integers, ids C `int`s.
-/
import Mathlib.Data.List.AList
import Oaf.Filter.AppIdLists
import Oaf.Lib.Prog
import Oaf.Manager.TimeRange

namespace Oaf

open CLib Prog

/-! ## 1. Tables, rules, time -/

/-- A Lua table whose keys are rule ids. -/
abbrev LuaTable (α : Type) := AList fun _ : Int => α

/-- A rule of `load_appfilter_rules`. -/
structure AppRule where
  id : Int
  mode : Int := 1
  enabled : Int := 1
  filterQuic : Int := 0
  userMac : CStr := .empty
  timeRules : List (TimeRule Int) := []
  appIds : List CStr := []
deriving DecidableEq

/-- `get_current_time_info`. -/
structure TimeInfo where
  weekday : Int
  minutes : Nat

/-- `should_active`. -/
def AppRule.shouldActive (rule : AppRule) (now : TimeInfo) : Bool :=
  rule.enabled == 1 && isTimeInRange rule.timeRules now.weekday now.minutes

/-- The `mac_list` of a rule: the address of its user, and empty for all users. -/
def AppRule.macList (rule : AppRule) : List CStr :=
  if rule.mode = 2 ∧ rule.userMac ≠ .empty then [rule.userMac] else []

/-! ## 2. Writes -/

/-- A write to `/dev/fwx`: its request, whether the kernel's JSON parser reads the texts of the
request as they are, and for a request that creates a rule, the rule of UCI that it is for. -/
structure DevWrite where
  call : FilterCall
  readable : Bool := true
  createdFor : Option AppRule := none

/-- A function of the manager. -/
abbrev Manager (α : Type) := Prog DevWrite Bool α

/-- What becomes of a write.  An ignored one is not carried out, and `write_to_dev_fwx` does not
notice: it does not look at what `file:write` returns. -/
inductive Outcome
  | done
  | failed
  | ignored
deriving DecidableEq

/-- One write.  What the kernel makes of a text that ends its JSON string is left open: it may be
any request.  So is what a request leaves whose app ids go up to the largest `int`: its loop goes on
outside of the table of the rule. -/
inductive DevStep : Outcome → FilterKernel → DevWrite → Bool → FilterKernel → Prop
  | done {k k' : FilterKernel} {w : DevWrite} {call : FilterCall} :
      (w.readable = true → call = w.call) →
      (call.belowTop = true → fwxConfigHandle k call = some k') →
      DevStep .done k w true k'
  | failed (k : FilterKernel) (w : DevWrite) : DevStep .failed k w false k
  | ignored (k : FilterKernel) (w : DevWrite) : DevStep .ignored k w true k

/-- Printable ASCII: the characters that `parse_string` reads, but for the two that it escapes. -/
def jsonText (text : CStr) : Bool := text.bytes.all fun c => 32 ≤ c && c < 127

/-- A text that stands in a JSON string without escapes. -/
def jsonPlain (text : CStr) : Bool := jsonText text && !text.strchr 34 && !text.strchr 92

/-! ## 3. Requests for app-filter rules -/

/-- `delete_appfilter_rule`. -/
def deleteAppfilterRule (ruleId : Int) : Manager Bool :=
  request { call := .delAppFilterRule { ruleId := ruleId } }

/-- `create_appfilter_rule`. -/
def createAppfilterRule (rule : AppRule) : Manager Bool :=
  request { call := .addAppFilterRule { ruleId := rule.id }, createdFor := rule }

/-- `set_appfilter_rule_mac_list`. -/
def setAppfilterRuleMacList (ruleId : Int) (macList : List CStr) : Manager Bool :=
  request {
    call := .modAppFilterRule {
      ruleId := ruleId, macAction := some 1, macList := some (macList.map some) }
    readable := macList.all jsonPlain }

/-- A text as an item of an array. -/
def textToken (text : CStr) : CJson := { type := .string, valuestring := some text }

/-- `set_appfilter_rule_app_id_list`: here quotes and backslashes are escaped. -/
def setAppfilterRuleAppIdList (ruleId : Int) (appIdList : List CStr) : Manager Bool :=
  request {
    call := .modAppFilterRule {
      ruleId := ruleId, appAction := some 1, appIdList := some (appIdList.map textToken) }
    readable := appIdList.all jsonText }

/-- `set_appfilter_rule_filter_quic`. -/
def setAppfilterRuleFilterQuic (ruleId filterQuic : Int) : Manager Bool :=
  request {
    call := .modAppFilterRule {
      ruleId := ruleId, filterQuic := some (if filterQuic = 1 then 1 else 0) } }

/-! ## 4. App-filter rules -/

/-- An entry of `appfilter_rules_state`. -/
structure AppRuleState where
  active : Bool := false
  filterQuic : Option Int := none
  macList : Option (List CStr) := none
  appIdList : Option (List CStr) := none
deriving DecidableEq

/-- The comparison of two lists: the lengths, and whether the new one is contained in the old. -/
def listChanged (new : List CStr) (old : Option (List CStr)) : Bool :=
  new.length != (old.getD []).length || new.any fun text => !(old.getD []).contains text

/-- `config_changed`. -/
def configChanged (rule : AppRule) : Option AppRuleState → Bool
  | none => true
  | some state =>
    listChanged rule.macList state.macList || listChanged rule.appIds state.appIdList ||
      rule.filterQuic != state.filterQuic.getD 0

/-- `is_active`. -/
def isActive (table : LuaTable AppRuleState) (ruleId : Int) : Bool :=
  ((table.lookup ruleId).map (·.active)).getD false

/-- The creation of a rule and the three writes after it, whose failures keep what was stored. -/
def activateAppfilterRule (table : LuaTable AppRuleState) (rule : AppRule) :
    Manager (LuaTable AppRuleState) := do
  if ← createAppfilterRule rule then
    let state := (table.lookup rule.id).getD {}
    let macsSet ← setAppfilterRuleMacList rule.id rule.macList
    let appsSet ← setAppfilterRuleAppIdList rule.id rule.appIds
    let quicSet ← setAppfilterRuleFilterQuic rule.id rule.filterQuic
    return table.insert rule.id {
      active := true
      macList := if macsSet then some rule.macList else state.macList
      appIdList := if appsSet then some rule.appIds else state.appIdList
      filterQuic := if quicSet then some rule.filterQuic else state.filterQuic }
  else
    return table

/-- The first loop of `process_appfilter_rules`, for one rule. -/
def processAppfilterRule (now : TimeInfo) (table : LuaTable AppRuleState) (rule : AppRule) :
    Manager (LuaTable AppRuleState) :=
  if rule.shouldActive now then
    if isActive table rule.id then
      if configChanged rule (table.lookup rule.id) then do
        let _ ← deleteAppfilterRule rule.id
        activateAppfilterRule table rule
      else return table
    else activateAppfilterRule table rule
  else if isActive table rule.id then do
    if ← deleteAppfilterRule rule.id then
      return table.insert rule.id { (table.lookup rule.id).getD {} with active := false }
    else return table
  else return table

/-- Its second loop, for one entry: a rule that UCI no longer has is deleted. -/
def dropAppfilterRule (rules : List AppRule) (table : LuaTable AppRuleState) (ruleId : Int) :
    Manager (LuaTable AppRuleState) :=
  if rules.any fun rule => rule.id == ruleId then return table
  else if isActive table ruleId then do
    if ← deleteAppfilterRule ruleId then return table.erase ruleId else return table
  else return table.erase ruleId

/-- An order in which `pairs` goes through a table. -/
def PairsOk (pairs : LuaTable AppRuleState → List Int) : Prop :=
  ∀ table, (pairs table).Perm table.keys

/-- `process_appfilter_rules`. -/
def processAppfilterRules (pairs : LuaTable AppRuleState → List Int) (now : TimeInfo)
    (rules : List AppRule) (table : LuaTable AppRuleState) : Manager (LuaTable AppRuleState) := do
  let table ← rules.foldlM (processAppfilterRule now) table
  (pairs table).foldlM (dropAppfilterRule rules) table

/-- The loop of `initialize_rules` that sets up `appfilter_rules_state`. -/
def initAppfilterState (rules : List AppRule) : LuaTable AppRuleState :=
  rules.foldl (fun table rule => table.insert rule.id { filterQuic := some rule.filterQuic }) ∅

/-- `flush_appfilter_rules`. -/
def flushAppfilterRules : Manager Bool := request { call := .flushAppFilterRule }

/-! ## 5. MAC-filter rules -/

def SINGLE_MAC_FILTER_RULE_ID : Int := 101
def BLACKLIST_MAC_FILTER_RULE_ID : Int := 102

/-- `create_macfilter_rule`. -/
def createMacfilterRule (ruleId mode : Int) : Manager Bool :=
  request { call := .addMacFilterRule { ruleId := ruleId, mode := some (macFilterMode mode) } }

/-- `init_effective_mac_rules`. -/
def initEffectiveMacRules : Manager Bool := do
  let okRegular ← createMacfilterRule SINGLE_MAC_FILTER_RULE_ID MAC_FILTER_MODE_SINGLE_USER
  let okBlacklist ← createMacfilterRule BLACKLIST_MAC_FILTER_RULE_ID MAC_FILTER_MODE_SINGLE_USER
  return okRegular && okBlacklist

/-- `set_macfilter_rule_mac_list`: the list is emptied, and then set if it is not to be empty. -/
def setMacfilterRuleMacList (ruleId : Int) (macList : List CStr) (mode : Int) : Manager Bool := do
  if ← request { call := .modMacFilterRule {
      ruleId := ruleId, mode := some (macFilterMode mode), macAction := some 0 } } then
    if macList = [] then return true
    else
      request {
        call := .modMacFilterRule {
          ruleId := ruleId, mode := some (macFilterMode mode), macAction := some 1
          macList := some (macList.map some) }
        readable := macList.all jsonPlain }
  else return false

/-- An entry of `macfilter_rules_state`, as far as it is looked at here. -/
structure MacRuleState where
  active : Bool := false
  macList : Option (List CStr) := none
deriving DecidableEq

/-- `mac_list_changed`. -/
def macListChanged (state : Option MacRuleState) (macList : List CStr) : Bool :=
  match state.bind (·.macList) with
  | none => true
  | some old => macList.length != old.length || macList.any fun mac => !old.contains mac

/-- `need_update`. -/
def needUpdate (state : Option MacRuleState) (macList : List CStr) : Bool :=
  if (state.map (·.active)).getD false then macListChanged state macList
  else 0 < macList.length || macListChanged state macList

/-- `sync_effective_mac_rule`: its result, and the table. -/
def syncEffectiveMacRule (table : LuaTable MacRuleState) (ruleId : Int) (macList : List CStr) :
    Manager (Bool × LuaTable MacRuleState) :=
  if needUpdate (table.lookup ruleId) macList then do
    if ← setMacfilterRuleMacList ruleId macList MAC_FILTER_MODE_SINGLE_USER then
      return (true, table.insert ruleId { active := 0 < macList.length, macList := some macList })
    else return (false, table)
  else return (true, table)

/-! ## 6. Whitelists -/

/-- `load_appfilter_whitelist`, from the addresses of the sections. -/
def loadAppfilterWhitelist (sections : List CStr) : List CStr := sections.filter (· ≠ .empty)

/-- The `apply_..._whitelist` functions: a flush, and the addition of what is to be in the list. -/
def applyWhitelist (flush : FilterCall) (add : RuleRequest → FilterCall) (macList : List CStr) :
    Manager Bool := do
  let _ ← request { call := flush }
  if macList = [] then return true
  else
    request { call := add { macList := some (macList.map some) }, readable := macList.all jsonPlain }

/-- `apply_appfilter_whitelist`. -/
def applyAppfilterWhitelist : List CStr → Manager Bool :=
  applyWhitelist .flushAppFilterWhitelist .addAppFilterWhitelist

/-- `apply_macfilter_whitelist`. -/
def applyMacfilterWhitelist : List CStr → Manager Bool :=
  applyWhitelist .flushMacFilterWhitelist .addMacFilterWhitelist

/-! ## 7. The start -/

/-- `flush_all_rules`. -/
def flushAllRules : Manager Unit := do
  let _ ← request { call := .flushMacFilterRule }
  let _ ← request { call := .flushAppFilterRule }
  let _ ← request { call := .flushMacFilterWhitelist }
  let _ ← request { call := .flushAppFilterWhitelist }

/-- `initialize_rules`, up to what it writes to `/proc`: the enable flags and the record whitelist. -/
def initializeRules (rules : List AppRule) (appfilterWhitelist macfilterWhitelist : List CStr) :
    Manager (LuaTable AppRuleState) := do
  flushAllRules
  let _ ← initEffectiveMacRules
  let table := initAppfilterState rules
  let _ ← applyAppfilterWhitelist appfilterWhitelist
  let _ ← applyMacfilterWhitelist macfilterWhitelist
  return table

end Oaf
