/-
# The configuration interface of the kernel module

Requests to `/dev/fwx` change the rules and whitelists (`fwx_app_filter.c`, `fwx_mac_filter.c`,
`fwx_client.c`, `fwx_config.c`).  `fwxConfigHandle` is one request: its `api` and what the handler
finds in its `data`.

* `macStrToBin`, `tokenRange`: how addresses and app-id tokens are read.
* `fwxConfigHandle`: the handlers by their names; `none` is a read in front of a hash table.

The dump requests only print, and are left out.  A handler's return value is not looked at.
-/
import Oaf.Hook.Rules
import Oaf.Lib.Chains
import Oaf.Lib.KScan
import Oaf.Lib.Kmem

namespace Oaf

open CLib Chains

/-! ## 1. Items of a request -/

inductive CJsonType
  | number
  | string
  | other
deriving DecidableEq

/-- A `cJSON` item, as far as the handlers look at it. -/
structure CJson where
  type : CJsonType
  valueint : Int := 0
  valuestring : Option CStr := none

/-- What `cJSON_GetObjectItem` finds in the `data` of a request.  Of a number only `valueint` is
looked at, of an address only `valuestring`, which is missing in an item that is no string. -/
structure RuleRequest where
  ruleId : Option Int := none
  mode : Option Int := none
  enable : Option Int := none
  filterQuic : Option Int := none
  macAction : Option Int := none
  macList : Option (List (Option CStr)) := none
  mac : Option (Option CStr) := none
  appAction : Option Int := none
  appIdList : Option (List CJson) := none
  appId : Option CJson := none

/-! ## 2. Addresses and app ids -/

/-- `sscanf(p, "%2hhx", ..)`: at most two hexadecimal digits; `0x` is a prefix and fills both. -/
def scanHexByte (p : List UInt8) : Option UInt8 :=
  match p.dropWhile Kernel.isspace with
  | [] => none
  | c :: rest =>
    if !isxdigit c then none
    else if c = 48 ∧ (rest.head?.map tolower) = some 120 then some 0
    else some (Kernel.ofDigits 16 ((c :: rest.take 1).takeWhile isxdigit)).toUInt8

/-- The loop of `mac_str_to_bin`, for the bytes still missing. -/
def macBytes : Nat → List UInt8 → Option (List UInt8)
  | 0, _ => some []
  | _ + 1, [] => none
  | n + 1, p => do
    let byte ← scanHexByte p
    return byte :: (← macBytes n (p.dropWhile (· != 58)).tail)

/-- `mac_str_to_bin`. -/
def macStrToBin (macStr : Option CStr) : Option Mac := do
  let bytes ← macBytes 6 (← macStr).bytes
  if h : bytes.toArray.size = 6 then some ⟨bytes.toArray, h⟩ else none

example : macStrToBin (some (.lit "02:00:00:00:00:a7")) = some #v[2, 0, 0, 0, 0, 0xa7] := by decide

/-- `kstrtoint(s, 10, ..)`. -/
def kstrtoint10 (s : CStr) : Option Int :=
  (Kernel.kstrtol10 s.bytes).filter fun v => -2 ^ 31 ≤ v && v < 2 ^ 31

/-- The ids that a text token stands for: from the first to the second. -/
def textRange (token : CStr) : Option (Nat × Nat) :=
  match Kernel.vsscanf Kernel.isspace [.d, .lit 45, .d] token.bytes with
  | [startId, endId] =>
    if startId ≤ 0 ∨ endId < startId then none else some (startId.toNat, endId.toNat)
  | _ =>
    match kstrtoint10 token with
    | some singleId => if 0 < singleId then some (singleId.toNat, singleId.toNat) else none
    | none => none

/-- The ids that a token adds to a rule. -/
def tokenRange (token : CJson) : Option (Nat × Nat) :=
  match token.type with
  | .number =>
    if 0 < token.valueint then some (token.valueint.toNat, token.valueint.toNat) else none
  | .string => token.valuestring.bind textRange
  | .other => none

example : textRange (.lit "1001-1003") = some (1001, 1003) ∧ textRange (.lit "7") = some (7, 7) := by
  decide

/-- The ids of a range, in order, if it does not go up to the largest `int`. -/
def idsOf (range : Option (Nat × Nat)) : List Nat :=
  match range with
  | some (startId, endId) => List.range' startId (endId + 1 - startId)
  | none => []

/-! ## 3. Lists of a rule -/

/-- `fwx_add_mac_node`: nothing is added when there is no memory. -/
def addMacNode (kmem : Kmem) (config : MacConfig) (mac : Mac) : MacConfig × Kmem :=
  if kmem.kzalloc.1 then (fwxAddMacNode config mac, kmem.kzalloc.2) else (config, kmem.kzalloc.2)

/-- The loop over a `mac_list`: addresses that do not parse are passed over. -/
def addMacList : Kmem → MacConfig → List (Option CStr) → MacConfig × Kmem
  | kmem, config, [] => (config, kmem)
  | kmem, config, macStr :: rest =>
    match macStrToBin macStr with
    | none => addMacList kmem config rest
    | some mac =>
      let (config, kmem) := addMacNode kmem config mac
      addMacList kmem config rest

/-- `fwx_find_mac_node` and `hlist_del`: the first node of the address. -/
def delMacNode (config : MacConfig) (mac : Mac) : MacConfig :=
  ⟨Table.modify config.hashTable (macHash mac) fun chain => chain.erase mac⟩

/-- The `mac_action` of a modification: 1 replaces the list, 2 and 3 add to it, anything else
empties it. -/
def macAction (kmem : Kmem) (config : MacConfig) (req : RuleRequest) : MacConfig × Kmem :=
  match req.macAction with
  | none => (config, kmem)
  | some action =>
    if action = 1 ∨ action = 2 then
      match req.macList with
      | none => (config, kmem)
      | some macArray => addMacList kmem (if action = 1 then fwxMacConfigInit else config) macArray
    else if action = 3 then
      match req.mac with
      | none => (config, kmem)
      | some macStr => addMacList kmem config [macStr]
    else (fwxMacConfigInit, kmem)

def MAX_APP_ID_PER_RULE : Int := 1024

/-- `add_app_id_node`: whether it returned 0, and what it left. -/
def addAppIdNode (kmem : Kmem) (config : AppIdConfig) (appId : Nat) : Bool × AppIdConfig × Kmem :=
  if findAppIdNode config appId then (true, config, kmem)
  else if MAX_APP_ID_PER_RULE ≤ config.count then (false, config, kmem)
  else if kmem.kzalloc.1 then
    let hash : Fin APPID_HASH_SIZE := ⟨appId % APPID_HASH_SIZE, appId_mod_lt appId⟩
    (true, { hashTable := Table.modify config.hashTable hash (appId :: ·)
             count := config.count + 1 }, kmem.kzalloc.2)
  else (false, config, kmem.kzalloc.2)

/-- The loop of `add_app_id_token_to_rule`: it ends at the first id that is not added.  Up to the largest
`int` it has no other end; `AddState.addAppIdTokenToRule` is the call with the signs. -/
def addAppIds : Kmem → AppIdConfig → List Nat → AppIdConfig × Kmem
  | kmem, config, [] => (config, kmem)
  | kmem, config, appId :: rest =>
    match addAppIdNode kmem config appId with
    | (true, config, kmem) => addAppIds kmem config rest
    | (false, config, kmem) => (config, kmem)

/-- The loop over an `app_id_list`. -/
def addAppIdList : Kmem → AppIdConfig → List CJson → AppIdConfig × Kmem
  | kmem, config, [] => (config, kmem)
  | kmem, config, token :: rest =>
    let (config, kmem) := addAppIds kmem config (idsOf (tokenRange token))
    addAppIdList kmem config rest

/-- The `app_action` of a modification, with the same four cases. -/
def appAction (kmem : Kmem) (config : AppIdConfig) (req : RuleRequest) : AppIdConfig × Kmem :=
  match req.appAction with
  | none => (config, kmem)
  | some action =>
    if action = 1 ∨ action = 2 then
      match req.appIdList with
      | none => (config, kmem)
      | some appIdArray => addAppIdList kmem (if action = 1 then {} else config) appIdArray
    else if action = 3 then
      match req.appId with
      | none => (config, kmem)
      | some token => addAppIdList kmem config [token]
    else ({}, kmem)

/-- The deletion of one app id from the list of a rule, for an id that is not negative. -/
def delAppIdNode (config : AppIdConfig) (appId : Nat) : AppIdConfig :=
  if findAppIdNode config appId then
    let hash : Fin APPID_HASH_SIZE := ⟨appId % APPID_HASH_SIZE, appId_mod_lt appId⟩
    { hashTable := Table.modify config.hashTable hash (·.erase appId)
      count := config.count - 1 }
  else config

/-! ## 4. The state -/

/-- The rules and whitelists, their counters, and what the handlers use. -/
structure FilterKernel where
  config : FilterConfig := {}
  gAppRuleCount : Int := 0
  gMacRuleCount : Int := 0
  gRecordWhitelist : MacConfig := fwxMacConfigInit
  jiffies : Nat := 0
  kmem : Kmem

def FilterKernel.setAppRules (k : FilterKernel) (rules : List AppFilterRule) : FilterKernel :=
  { k with config := { k.config with appFilterRuleList := rules } }

def FilterKernel.setMacRules (k : FilterKernel) (rules : List MacFilterRule) : FilterKernel :=
  { k with config := { k.config with macFilterRuleList := rules } }

/-- `fwx_update_appfilter_jiffies`. -/
def FilterKernel.stamp (k : FilterKernel) : FilterKernel :=
  { k with config := { k.config with gAppfilterUpdateJiffies := k.jiffies.toUInt32 } }

/-! ## 5. App-filter requests -/

def MAX_APP_FILTER_RULE_NUM : Int := 64

/-- `fwx_find_app_filter_rule`. -/
def fwxFindAppFilterRule (k : FilterKernel) (ruleId : Int) : Option AppFilterRule :=
  k.config.appFilterRuleList.find? fun rule => rule.ruleId == ruleId

/-- `fwx_add_app_filter_rule`. -/
def fwxAddAppFilterRule (k : FilterKernel) (ruleId : Int) : FilterKernel :=
  if MAX_APP_FILTER_RULE_NUM ≤ k.gAppRuleCount then k
  else if (fwxFindAppFilterRule k ruleId).isSome then k
  else
    let granted := k.kmem.kzalloc.1
    let k := { k with kmem := k.kmem.kzalloc.2 }
    if granted then
      { k.setAppRules ({ ruleId := ruleId } :: k.config.appFilterRuleList) with
        gAppRuleCount := k.gAppRuleCount + 1 }
    else k

/-- `fwx_del_app_filter_rule`. -/
def fwxDelAppFilterRule (k : FilterKernel) (ruleId : Int) : FilterKernel :=
  if (fwxFindAppFilterRule k ruleId).isSome then
    { k.setAppRules (k.config.appFilterRuleList.eraseP fun rule => rule.ruleId == ruleId) with
      gAppRuleCount := k.gAppRuleCount - 1 }
  else k

/-- What a modification does to a rule. -/
def modAppRule (kmem : Kmem) (rule : AppFilterRule) (req : RuleRequest) : AppFilterRule × Kmem :=
  let (macList, kmem) := macAction kmem rule.macList req
  let (appIdList, kmem) := appAction kmem rule.appIdList req
  ({ rule with
      macList := macList
      appIdList := appIdList
      enable := req.enable.getD rule.enable
      filterQuic := match req.filterQuic with
        | some quic => if quic = 1 then 1 else 0
        | none => rule.filterQuic }, kmem)

/-- `fwx_api_add_app_filter_rule`. -/
def fwxApiAddAppFilterRule (k : FilterKernel) (req : RuleRequest) : FilterKernel :=
  match req.ruleId with
  | none => k
  | some ruleId => fwxAddAppFilterRule k.stamp ruleId

/-- `fwx_api_mod_app_filter_rule`. -/
def fwxApiModAppFilterRule (k : FilterKernel) (req : RuleRequest) : FilterKernel :=
  match req.ruleId with
  | none => k
  | some ruleId =>
    match fwxFindAppFilterRule k ruleId with
    | none => k
    | some rule =>
      let (rule, kmem) := modAppRule k.kmem rule req
      ({ k with kmem := kmem }.setAppRules
        (updateFirst (fun r => r.ruleId == ruleId) (fun _ => rule) k.config.appFilterRuleList)).stamp

/-- `fwx_del_app_id_from_rule`.  `none`: the remainder of a negative id is no index. -/
def fwxDelAppIdFromRule (k : FilterKernel) (ruleId appId : Int) : Option FilterKernel :=
  match fwxFindAppFilterRule k ruleId with
  | none => some k
  | some rule =>
    if Int.tmod appId APPID_HASH_SIZE < 0 then none
    else if appId < 0 then some k
    else
      let rule := { rule with appIdList := delAppIdNode rule.appIdList appId.toNat }
      some (k.setAppRules
        (updateFirst (fun r => r.ruleId == ruleId) (fun _ => rule) k.config.appFilterRuleList))

/-- `del_app_id_token_from_rule`: a number is taken as it is. -/
def delAppIdTokenFromRule (k : FilterKernel) (ruleId : Int) (token : CJson) : Option FilterKernel :=
  match token.type with
  | .number => fwxDelAppIdFromRule k ruleId token.valueint
  | _ => (idsOf (tokenRange token)).foldlM (fun k (appId : Nat) => fwxDelAppIdFromRule k ruleId appId) k

/-- `fwx_api_del_app_filter_rule`. -/
def fwxApiDelAppFilterRule (k : FilterKernel) (req : RuleRequest) : Option FilterKernel :=
  match req.ruleId with
  | none => some k
  | some ruleId =>
    match req.appId with
    | some token => delAppIdTokenFromRule k.stamp ruleId token
    | none => some (fwxDelAppFilterRule k.stamp ruleId)

/-- `fwx_api_flush_app_filter_rule`. -/
def fwxApiFlushAppFilterRule (k : FilterKernel) : FilterKernel :=
  ({ k.setAppRules [] with gAppRuleCount := 0 }).stamp

/-- `fwx_api_add_app_filter_whitelist`. -/
def fwxApiAddAppFilterWhitelist (k : FilterKernel) (req : RuleRequest) : FilterKernel :=
  match req.macList with
  | none => k
  | some macArray =>
    let (whitelist, kmem) := addMacList k.kmem k.config.gAppFilterWhitelist macArray
    { k with kmem := kmem, config := { k.config with gAppFilterWhitelist := whitelist } }.stamp

/-- `fwx_api_flush_app_filter_whitelist`. -/
def fwxApiFlushAppFilterWhitelist (k : FilterKernel) : FilterKernel :=
  { k with config := { k.config with gAppFilterWhitelist := fwxMacConfigInit } }.stamp

/-! ## 6. MAC-filter requests -/

def MAX_MAC_FILTER_RULE_NUM : Int := 64

/-- `fwx_find_mac_filter_rule`. -/
def fwxFindMacFilterRule (k : FilterKernel) (ruleId : Int) : Option MacFilterRule :=
  k.config.macFilterRuleList.find? fun rule => rule.ruleId == ruleId

/-- Every mode but the one for single users is the one for all of them. -/
def macFilterMode (mode : Int) : Int :=
  if mode = MAC_FILTER_MODE_SINGLE_USER then MAC_FILTER_MODE_SINGLE_USER
  else MAC_FILTER_MODE_ALL_USERS

/-- `fwx_add_mac_filter_rule`. -/
def fwxAddMacFilterRule (k : FilterKernel) (ruleId mode : Int) : FilterKernel :=
  if MAX_MAC_FILTER_RULE_NUM ≤ k.gMacRuleCount then k
  else if (fwxFindMacFilterRule k ruleId).isSome then k
  else
    let granted := k.kmem.kzalloc.1
    let k := { k with kmem := k.kmem.kzalloc.2 }
    if granted then
      let rule := { ruleId := ruleId, mode := macFilterMode mode }
      { k.setMacRules (rule :: k.config.macFilterRuleList) with
        gMacRuleCount := k.gMacRuleCount + 1 }
    else k

/-- `fwx_del_mac_filter_rule`. -/
def fwxDelMacFilterRule (k : FilterKernel) (ruleId : Int) : FilterKernel :=
  if (fwxFindMacFilterRule k ruleId).isSome then
    { k.setMacRules (k.config.macFilterRuleList.eraseP fun rule => rule.ruleId == ruleId) with
      gMacRuleCount := k.gMacRuleCount - 1 }
  else k

/-- `fwx_del_mac_from_rule`. -/
def fwxDelMacFromRule (k : FilterKernel) (ruleId : Int) (mac : Mac) : FilterKernel :=
  match fwxFindMacFilterRule k ruleId with
  | none => k
  | some rule =>
    let rule := { rule with macList := delMacNode rule.macList mac }
    k.setMacRules
      (updateFirst (fun r => r.ruleId == ruleId) (fun _ => rule) k.config.macFilterRuleList)

/-- `fwx_api_add_mac_filter_rule`. -/
def fwxApiAddMacFilterRule (k : FilterKernel) (req : RuleRequest) : FilterKernel :=
  match req.ruleId with
  | none => k
  | some ruleId =>
    fwxAddMacFilterRule k ruleId (macFilterMode (req.mode.getD MAC_FILTER_MODE_ALL_USERS))

/-- `fwx_api_mod_mac_filter_rule`. -/
def fwxApiModMacFilterRule (k : FilterKernel) (req : RuleRequest) : FilterKernel :=
  match req.ruleId with
  | none => k
  | some ruleId =>
    match fwxFindMacFilterRule k ruleId with
    | none => k
    | some rule =>
      let (macList, kmem) := macAction k.kmem rule.macList req
      let rule := { rule with
        mode := (req.mode.map macFilterMode).getD rule.mode
        macList := macList }
      { k with kmem := kmem }.setMacRules
        (updateFirst (fun r => r.ruleId == ruleId) (fun _ => rule) k.config.macFilterRuleList)

/-- `fwx_api_del_mac_filter_rule`: with a `mac`, only that is deleted. -/
def fwxApiDelMacFilterRule (k : FilterKernel) (req : RuleRequest) : FilterKernel :=
  match req.ruleId with
  | none => k
  | some ruleId =>
    match req.mac with
    | some macStr =>
      match macStrToBin macStr with
      | some mac => fwxDelMacFromRule k ruleId mac
      | none => k
    | none => fwxDelMacFilterRule k ruleId

/-- `fwx_api_flush_mac_filter_rule`. -/
def fwxApiFlushMacFilterRule (k : FilterKernel) : FilterKernel :=
  { k.setMacRules [] with gMacRuleCount := 0 }

/-! ## 7. Whitelists -/

/-- The loop of an addition to a whitelist. -/
def addWhitelist (kmem : Kmem) (config : MacConfig) (req : RuleRequest) : MacConfig × Kmem :=
  match req.macList with
  | none => (config, kmem)
  | some macArray => addMacList kmem config macArray

/-- The deletion of one address from a whitelist. -/
def delWhitelist (config : MacConfig) (req : RuleRequest) : MacConfig :=
  match req.mac.bind macStrToBin with
  | some mac => delMacNode config mac
  | none => config

/-- `fwx_api_add_mac_filter_whitelist`. -/
def fwxApiAddMacFilterWhitelist (k : FilterKernel) (req : RuleRequest) : FilterKernel :=
  let (whitelist, kmem) := addWhitelist k.kmem k.config.gMacFilterWhitelist req
  { k with kmem := kmem, config := { k.config with gMacFilterWhitelist := whitelist } }

/-- `fwx_api_del_mac_filter_whitelist`. -/
def fwxApiDelMacFilterWhitelist (k : FilterKernel) (req : RuleRequest) : FilterKernel :=
  let whitelist := delWhitelist k.config.gMacFilterWhitelist req
  { k with config := { k.config with gMacFilterWhitelist := whitelist } }

/-- `fwx_api_flush_mac_filter_whitelist`. -/
def fwxApiFlushMacFilterWhitelist (k : FilterKernel) : FilterKernel :=
  { k with config := { k.config with gMacFilterWhitelist := fwxMacConfigInit } }

/-- `fwx_api_add_record_whitelist`. -/
def fwxApiAddRecordWhitelist (k : FilterKernel) (req : RuleRequest) : FilterKernel :=
  let (whitelist, kmem) := addWhitelist k.kmem k.gRecordWhitelist req
  { k with kmem := kmem, gRecordWhitelist := whitelist }

/-- `fwx_api_del_record_whitelist`. -/
def fwxApiDelRecordWhitelist (k : FilterKernel) (req : RuleRequest) : FilterKernel :=
  { k with gRecordWhitelist := delWhitelist k.gRecordWhitelist req }

/-- `fwx_api_flush_record_whitelist`. -/
def fwxApiFlushRecordWhitelist (k : FilterKernel) : FilterKernel :=
  { k with gRecordWhitelist := fwxMacConfigInit }

/-! ## 8. Requests -/

/-- The requests for rules and whitelists, by their `api`. -/
inductive FilterCall
  | addAppFilterRule (req : RuleRequest)
  | modAppFilterRule (req : RuleRequest)
  | delAppFilterRule (req : RuleRequest)
  | flushAppFilterRule
  | addAppFilterWhitelist (req : RuleRequest)
  | flushAppFilterWhitelist
  | addMacFilterRule (req : RuleRequest)
  | modMacFilterRule (req : RuleRequest)
  | delMacFilterRule (req : RuleRequest)
  | flushMacFilterRule
  | addMacFilterWhitelist (req : RuleRequest)
  | delMacFilterWhitelist (req : RuleRequest)
  | flushMacFilterWhitelist
  | addRecordWhitelist (req : RuleRequest)
  | delRecordWhitelist (req : RuleRequest)
  | flushRecordWhitelist

/-- `fwx_config_handle`, for these requests. -/
def fwxConfigHandle (k : FilterKernel) : FilterCall → Option FilterKernel
  | .addAppFilterRule req => some (fwxApiAddAppFilterRule k req)
  | .modAppFilterRule req => some (fwxApiModAppFilterRule k req)
  | .delAppFilterRule req => fwxApiDelAppFilterRule k req
  | .flushAppFilterRule => some (fwxApiFlushAppFilterRule k)
  | .addAppFilterWhitelist req => some (fwxApiAddAppFilterWhitelist k req)
  | .flushAppFilterWhitelist => some (fwxApiFlushAppFilterWhitelist k)
  | .addMacFilterRule req => some (fwxApiAddMacFilterRule k req)
  | .modMacFilterRule req => some (fwxApiModMacFilterRule k req)
  | .delMacFilterRule req => some (fwxApiDelMacFilterRule k req)
  | .flushMacFilterRule => some (fwxApiFlushMacFilterRule k)
  | .addMacFilterWhitelist req => some (fwxApiAddMacFilterWhitelist k req)
  | .delMacFilterWhitelist req => some (fwxApiDelMacFilterWhitelist k req)
  | .flushMacFilterWhitelist => some (fwxApiFlushMacFilterWhitelist k)
  | .addRecordWhitelist req => some (fwxApiAddRecordWhitelist k req)
  | .delRecordWhitelist req => some (fwxApiDelRecordWhitelist k req)
  | .flushRecordWhitelist => some (fwxApiFlushRecordWhitelist k)

end Oaf
