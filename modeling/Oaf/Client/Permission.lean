/-
# What a client is allowed

Round by round the rule manager writes the status of every client, to a text file and to a JSON file
(`write_user_parental_control_status`).  fwxd answers twice from them: `get_pc_status_for_mac` reads the text
for the list of clients, and `fwx_api_get_parental_control_detail` the JSON for the page of one client.

The list takes the blacklist first, of which it keeps 64 entries, and then the first line of the address,
ignoring case.  The page takes the very spelling first; it puts the blacklist above what the round says,
unless the client is whitelisted; and where the round has no app rule for the client it looks at the rules
themselves, and what they say replaces what it had, a block too.

* `listPermission_eq`, `detailPermission_eq`: the two answers in terms of what the round was given.
* `permissions_agree_iff`: exactly when they agree and a client that is to be blocked is blocked in both.

The encoding of the JSON file is not looked at: its `users` come back in some order.
-/
import Oaf.AppFilter.TimeRules
import Oaf.Lib.Lines
import Oaf.MacFilter.Enforced
import Oaf.Manager.Model
import Oaf.Network.LanAddress
import Mathlib.Data.List.Sort

namespace Oaf

open CLib
open MacFilter (TimeRuleObj TimeRuleValue pcIsTimeRuleMatched pcIsRuleApplicable)

/-! ## 1. The round -/

/-- `PC_STATUS_UNLIMITED`, `PC_STATUS_APP_LIMITED` and `PC_STATUS_MAC_BLOCKED`. -/
inductive PcPermission
  | unlimited
  | appLimited
  | macBlocked
deriving DecidableEq

def PcPermission.text : PcPermission → List UInt8
  | .unlimited => ascii "unlimited"
  | .appLimited => ascii "app_limited"
  | .macBlocked => ascii "mac_blocked"

/-- An app rule as it is shown with a client. -/
structure AppRuleDetail where
  ruleId : Int
  ruleName : List UInt8
  mode : Int
  userMac : List UInt8
  timeRules : List ReportedTimeRule
  categoryIds : List Int
  categoryStats : List (Int × Int)
  categoryCount : Int
  appCount : Int

/-- A MAC rule as it is shown with a client, without its times. -/
structure MacRuleDetail where
  ruleId : Int
  ruleName : List UInt8
  mode : Int
  timeMode : Int
  userMac : List UInt8
  matchType : List UInt8

/-- An address as a word of a line: it fits `%31s`. -/
structure MacWord (mac : List UInt8) : Prop where
  nonempty : mac ≠ []
  length_le : mac.length ≤ 31
  noBlank : ∀ c ∈ mac, isspace c = false

/-- The arguments of `write_user_parental_control_status`, and the addresses that
`get_all_user_macs_for_status` brings.  A table used as a set is the list of its keys. -/
structure PcRound where
  allMacSet : List (List UInt8)
  appfilterMacSet : List (List UInt8)
  appfilterAllUsersActive : Bool
  macfilterBlockSet : List (List UInt8)
  appfilterDetailMap : List UInt8 → List AppRuleDetail
  appfilterAllUserRuleDetails : List AppRuleDetail
  macfilterAllUserRuleDetails : List MacRuleDetail
  macfilterDetailMap : List UInt8 → List MacRuleDetail
  macWord : ∀ mac ∈ allMacSet ++ appfilterMacSet ++ macfilterBlockSet, MacWord mac

namespace PcRound

variable (round : PcRound)

def finalMacSet : List (List UInt8) :=
  (round.allMacSet ++ round.appfilterMacSet ++ round.macfilterBlockSet).dedup

/-- `output_mac_list`, sorted. -/
def outputMacList : List (List UInt8) := round.finalMacSet.insertionSort (· ≤ ·)

/-- `#app_rules > 0 or appfilter_all_users_active or app_set[mac]`. -/
def appLimits (mac : List UInt8) : Bool :=
  !(round.appfilterDetailMap mac).isEmpty || round.appfilterAllUsersActive ||
    decide (mac ∈ round.appfilterMacSet)

/-- `status`; a MAC rule comes last. -/
def status (mac : List UInt8) : PcPermission :=
  if mac ∈ round.macfilterBlockSet then .macBlocked
  else if round.appLimits mac then .appLimited
  else .unlimited

/-- A line of the status file, without its line feed. -/
def statusLine (mac : List UInt8) : List UInt8 := mac ++ 32 :: (round.status mac).text

/-- The status file. -/
def statusText : List UInt8 := (round.outputMacList.map round.statusLine).flatMap (· ++ [10])

end PcRound

/-- An entry of `users`. -/
structure UserDetail where
  pcStatus : List UInt8
  appfilterRules : List AppRuleDetail
  macfilterRules : List MacRuleDetail

/-- `detail_data`. -/
structure DetailData where
  appfilterAllUserRules : List AppRuleDetail
  macfilterAllUserRules : List MacRuleDetail
  users : List (List UInt8 × UserDetail)

/-- What the two files hold. -/
structure PcFiles where
  statusFile : List UInt8
  detailFile : DetailData

def PcRound.userDetail (round : PcRound) (mac : List UInt8) : UserDetail :=
  ⟨(round.status mac).text, round.appfilterDetailMap mac, round.macfilterDetailMap mac⟩

/-- `write_user_parental_control_status`.  A table is written in an order of its own. -/
structure PcRound.Writes (round : PcRound) (files : PcFiles) : Prop where
  statusFile : files.statusFile = round.statusText
  appRules : files.detailFile.appfilterAllUserRules = round.appfilterAllUserRuleDetails
  macRules : files.detailFile.macfilterAllUserRules = round.macfilterAllUserRuleDetails
  users : files.detailFile.users.Perm
    (round.outputMacList.map fun mac => (mac, round.userDetail mac))

/-! ## 2. What both answers ask -/

def MAX_SUPPORT_DEV_NUM : Nat := 64

/-- `map_pc_status_key`. -/
def mapPcStatusKey (statusToken : List UInt8) : PcPermission :=
  if statusToken = PcPermission.macBlocked.text then .macBlocked
  else if statusToken = PcPermission.appLimited.text then .appLimited
  else .unlimited

/-- `apply_whitelist_pc_status`. -/
def applyWhitelistPcStatus (statusKey : PcPermission) (afWhitelist mfWhitelist : Bool) :
    PcPermission :=
  if afWhitelist ∧ statusKey = .appLimited then .unlimited
  else if mfWhitelist ∧ statusKey = .macBlocked then .unlimited
  else statusKey

/-- The UCI configuration: the list `mac_blacklist.base.mac_list`, the `mac` of each `whitelist_mac` of the
two whitelists, and the package `appfilter`. -/
structure PcConfig where
  blacklist : Option UciValue
  appfilterWhitelist : List (List UInt8)
  macfilterWhitelist : List (List UInt8)
  appfilter : UciPackage

/-- `is_mac_in_whitelist_config`, with 32 bytes for an address. -/
def isMacInWhitelistConfig (macs : List (List UInt8)) (mac : List UInt8) : Bool :=
  mac ≠ [] && macs.any fun macStr => !(macStr.take 31).isEmpty && caseEq (macStr.take 31) mac

/-- `is_appfilter_whitelist_mac` and `is_macfilter_whitelist_mac`. -/
def PcConfig.isAppfilterWhitelistMac (config : PcConfig) (mac : List UInt8) : Bool :=
  isMacInWhitelistConfig config.appfilterWhitelist mac

def PcConfig.isMacfilterWhitelistMac (config : PcConfig) (mac : List UInt8) : Bool :=
  isMacInWhitelistConfig config.macfilterWhitelist mac

/-! ## 3. The list -/

def toupper (c : UInt8) : UInt8 := if 97 ≤ c && c ≤ 122 then c - 32 else c

/-- `normalize_mac_value` into 32 bytes. -/
def normalizeMacValue (mac : List UInt8) : List UInt8 := ((trimSpaces mac).take 31).map toupper

/-- One turn of the loop of `load_mac_blacklist_items`. -/
def loadBlacklistItem (maxCount : Nat) (macs : List (List UInt8)) (token : List UInt8) :
    List (List UInt8) :=
  let normalizedMac := normalizeMacValue token
  if macs.length < maxCount ∧ normalizedMac ≠ [] ∧ macs.any (caseEq · normalizedMac) = false then
    macs ++ [normalizedMac]
  else macs

/-- The items that are loaded, sorted by `compare_mac_value`. -/
def blacklistItems (maxCount : Nat) (tokens : List (List UInt8)) : List (List UInt8) :=
  (tokens.foldl (loadBlacklistItem maxCount) []).insertionSort
    fun a b => a.map tolower ≤ b.map tolower

/-- `load_mac_blacklist_items`. -/
def loadMacBlacklistItems (blacklist : Option UciValue) (maxCount : Nat) :
    Except LanFault (List (List UInt8)) := do
  let listBuf ← uciGetListValue .listBuf 4096 blacklist
  return blacklistItems maxCount (words 32 (listBuf.getD []))

/-- `pc_status_items`. -/
structure PcStatusItem where
  mac : List UInt8
  status : List UInt8

/-- One turn of the loop of `load_parental_control_status`. -/
def pcStatusItem (line : List UInt8) : Option PcStatusItem :=
  match scanWords [31, 31] line with
  | some [mac, status] => some ⟨mac, status⟩
  | _ => none

/-- `load_parental_control_status`. -/
def loadParentalControlStatus (statusFile : List UInt8) : List PcStatusItem :=
  ((fgetsLines 128 statusFile).filterMap pcStatusItem).take MAX_SUPPORT_DEV_NUM

/-- `all_users_info_t`, as far as it is used here. -/
structure AllUsersInfo where
  pcStatusItems : List PcStatusItem
  blacklistMacs : List (List UInt8)

/-- `is_blacklist_mac`. -/
def isBlacklistMac (blacklistMacs : List (List UInt8)) (mac : List UInt8) : Bool :=
  mac ≠ [] && blacklistMacs.any (caseEq · mac)

/-- `get_pc_status_for_mac`. -/
def getPcStatusForMac (auInfo : AllUsersInfo) (mac : List UInt8) : PcPermission :=
  if mac = [] then .unlimited
  else if isBlacklistMac auInfo.blacklistMacs mac then .macBlocked
  else
    match auInfo.pcStatusItems.find? fun item => caseEq item.mac mac with
    | some item => mapPcStatusKey item.status
    | none => .unlimited

/-- `pc_status` of a client in `all_users_callback`. -/
def listPermission (config : PcConfig) (files : PcFiles) (mac : List UInt8) :
    Except LanFault PcPermission := do
  let blacklistMacs ← loadMacBlacklistItems config.blacklist MAX_SUPPORT_DEV_NUM
  let auInfo : AllUsersInfo := ⟨loadParentalControlStatus files.statusFile, blacklistMacs⟩
  return applyWhitelistPcStatus (getPcStatusForMac auInfo mac) (config.isAppfilterWhitelistMac mac)
    (config.isMacfilterWhitelistMac mac)

/-! ## 4. The page of a client -/

/-- `is_mac_in_blacklist_uci`. -/
def isMacInBlacklistUci (blacklist : Option UciValue) (mac : List UInt8) : Except LanFault Bool :=
  if mac = [] then .ok false
  else do
    let listBuf ← uciGetListValue .listBuf 4096 blacklist
    return (words 32 (listBuf.getD [])).any (caseEq · mac)

/-- `find_user_detail_by_mac`. -/
def findUserDetailByMac (users : List (List UInt8 × UserDetail)) (mac : List UInt8) :
    Option UserDetail :=
  match users.find? fun user => user.1 = mac with
  | some user => some user.2
  | none => (users.find? fun user => caseEq user.1 mac).map Prod.snd

/-- `get_option_value`. -/
def getOptionValue (options : UciOptions) (name : String) : Option (List UInt8) :=
  match options (ascii name) with
  | some (.string text) => some text
  | _ => none

/-- An element of the `list` that `fwx_api_get_filter_rules` answers. -/
structure FilterRule where
  id : Int
  name : List UInt8
  mode : Int
  userMac : List UInt8
  userName : List UInt8
  enabled : Int
  filterQuic : Int
  timeRules : List ReportedTimeRule
  appIds : List (List UInt8)

/-- One section; without an `id` it is passed over. -/
def filterRuleOf (options : UciOptions) : Option FilterRule :=
  (getOptionValue options "id").map fun id =>
    { id := atoi id
      name := (getOptionValue options "name").getD []
      mode := (getOptionValue options "mode").elim 1 atoi
      userMac := (getOptionValue options "user_mac").getD []
      userName := (getOptionValue options "user_name").getD []
      enabled := (getOptionValue options "enabled").elim 1 atoi
      filterQuic := (getOptionValue options "filter_quic").elim 0 atoi
      timeRules := reportTimeRules (options (ascii "time_rule"))
      appIds := storedItems (options (ascii "app_id")) }

/-- `fwx_api_get_filter_rules`. -/
def getFilterRules (appfilter : UciPackage) : List FilterRule :=
  (appfilter.ofType (ascii "rule")).filterMap fun s => filterRuleOf s.options

/-- A time rule with both of its times, as `pc_is_time_rule_matched` wants it. -/
def ReportedTimeRule.timed (rule : ReportedTimeRule) : Option TimeRuleObj :=
  match rule.startTime, rule.endTime with
  | some startTime, some endTime => some ⟨rule.weekdays, .times startTime endTime⟩
  | _, _ => none

/-- `pc_is_rule_enabled`, `pc_is_rule_applicable` and `pc_is_time_rule_matched`. -/
def FilterRule.live (rule : FilterRule) (currentWeekday currentMinutes : Int) (mac : List UInt8) :
    Bool :=
  rule.enabled = 1 && pcIsRuleApplicable rule.mode rule.userMac mac &&
    pcIsTimeRuleMatched (rule.timeRules.filterMap ReportedTimeRule.timed) currentWeekday currentMinutes

/-- `pc_build_appfilter_rule_detail_summary`. -/
def FilterRule.summary (rule : FilterRule) : AppRuleDetail :=
  ⟨rule.id, rule.name, rule.mode, rule.userMac, rule.timeRules, [], [], 0, rule.appIds.length⟩

def BLACKLIST_RULE_NAME : List UInt8 := ascii "Internet Blacklist"

/-- `build_blacklist_rule_detail`. -/
def blacklistRuleDetail (mac : List UInt8) : MacRuleDetail :=
  ⟨BLACKLIST_MAC_FILTER_RULE_ID, BLACKLIST_RULE_NAME, 2, 1, mac, ascii "blacklist"⟩

/-- What `fwx_api_get_parental_control_detail` answers. -/
structure PcDetail where
  pcStatus : PcPermission
  afWhitelist : Bool
  mfWhitelist : Bool
  appfilterRules : List AppRuleDetail
  macfilterRules : List MacRuleDetail

/-- `fwx_api_get_parental_control_detail`. -/
def getParentalControlDetail (config : PcConfig) (files : PcFiles)
    (currentWeekday currentMinutes : Int) (mac : List UInt8) : Except LanFault PcDetail :=
  if mac = [] then .ok ⟨.unlimited, false, false, [], []⟩
  else do
    let afWhitelist := config.isAppfilterWhitelistMac mac
    let mfWhitelist := config.isMacfilterWhitelistMac mac
    let blacklistHit ← isMacInBlacklistUci config.blacklist mac
    let user := findUserDetailByMac files.detailFile.users mac
    let statusKey := user.elim .unlimited fun user => mapPcStatusKey user.pcStatus
    let appRules := if afWhitelist then [] else
      user.elim [] UserDetail.appfilterRules ++ files.detailFile.appfilterAllUserRules
    let macRules := if mfWhitelist then [] else
      user.elim [] UserDetail.macfilterRules ++ files.detailFile.macfilterAllUserRules
    let blacklisted := blacklistHit && !mfWhitelist
    let statusKey := if blacklisted then .macBlocked else statusKey
    let macRules := if blacklisted then [blacklistRuleDetail mac] else macRules
    -- the rules themselves are asked where the files have none, and their answer is the last word
    let liveRules := if !afWhitelist && appRules.isEmpty then
      (getFilterRules config.appfilter).filter fun rule =>
        rule.live currentWeekday currentMinutes mac
      else []
    let statusKey := if liveRules.isEmpty then statusKey else .appLimited
    return ⟨applyWhitelistPcStatus statusKey afWhitelist mfWhitelist, afWhitelist, mfWhitelist,
      appRules ++ liveRules.map FilterRule.summary, macRules⟩

/-- `pc_status` of the answer. -/
def detailPermission (config : PcConfig) (files : PcFiles) (currentWeekday currentMinutes : Int)
    (mac : List UInt8) : Except LanFault PcPermission :=
  (getParentalControlDetail config files currentWeekday currentMinutes mac).map PcDetail.pcStatus

/-! ## 5. The addresses that are found -/

/-- The words of the blacklist.  An item without a blank is its own word. -/
def blacklistTokens (blacklist : Option UciValue) : List (List UInt8) :=
  words 32 ([32].intercalate (storedItems blacklist))

/-- The address whose line the list takes. -/
def PcRound.listedMac (round : PcRound) (mac : List UInt8) : Option (List UInt8) :=
  (round.outputMacList.take MAX_SUPPORT_DEV_NUM).find? (caseEq · mac)

/-- The address whose entry the page takes. -/
def detailedMac (keys : List (List UInt8)) (mac : List UInt8) : Option (List UInt8) :=
  if mac ∈ keys then some mac else keys.find? (caseEq · mac)

def PcRound.statusOf (round : PcRound) (found : Option (List UInt8)) : PcPermission :=
  found.elim .unlimited round.status

theorem mapPcStatusKey_text (s : PcPermission) : mapPcStatusKey s.text = s := by
  cases s <;> decide

theorem caseEq_self (mac : List UInt8) : caseEq mac mac = true := by simp [caseEq]

theorem caseEq_of_listedMac {round : PcRound} {mac k : List UInt8}
    (h : round.listedMac mac = some k) : caseEq k mac = true := by
  simpa using List.find?_some h

theorem caseEq_of_detailedMac {keys : List (List UInt8)} {mac k : List UInt8}
    (h : detailedMac keys mac = some k) : caseEq k mac = true := by
  rw [detailedMac] at h
  split at h
  · rw [← Option.some.inj h]
    exact caseEq_self mac
  · simpa using List.find?_some h

theorem PcRound.macWord_of_mem (round : PcRound) {mac : List UInt8}
    (h : mac ∈ round.outputMacList) : MacWord mac := by
  refine round.macWord mac ?_
  have hmem := (List.perm_insertionSort _ _).mem_iff.mp h
  exact List.mem_dedup.mp hmem

/-! ## 6. What the list says -/

theorem isspace_text (s : PcPermission) : s.text ≠ [] ∧ s.text.length ≤ 31 ∧
    ∀ c ∈ s.text, isspace c = false := by
  have hall : s.text.all (fun c => !isspace c) = true := by cases s <;> decide
  refine ⟨by cases s <;> decide, by cases s <;> decide, fun c hc => ?_⟩
  simpa using List.all_eq_true.mp hall c hc

/-- A line is read back. -/
theorem pcStatusItem_line (round : PcRound) {mac : List UInt8} (h : MacWord mac) :
    pcStatusItem (round.statusLine mac ++ [10]) = some ⟨mac, (round.status mac).text⟩ := by
  obtain ⟨hne, hlen, htext⟩ := isspace_text (round.status mac)
  have hmac : scanWord 31 (mac ++ 32 :: ((round.status mac).text ++ [10])) =
      some (mac, 32 :: ((round.status mac).text ++ [10])) :=
    scanWord_word h.nonempty h.noBlank h.length_le (by decide)
  have hstatus : scanWord 31 (32 :: ((round.status mac).text ++ [10])) =
      some ((round.status mac).text, [10]) := by
    rw [CLib.scanWord_blank (by decide)]
    exact scanWord_word hne htext hlen (by decide)
  have hline : round.statusLine mac ++ [10] = mac ++ 32 :: ((round.status mac).text ++ [10]) := by
    rw [PcRound.statusLine, List.append_assoc, List.cons_append]
  rw [pcStatusItem, hline, scanWords, hmac]
  simp only [scanWords, hstatus, Option.map_some]

/-- **The file is read back**, up to 64 lines. -/
theorem loadParentalControlStatus_statusText (round : PcRound) :
    loadParentalControlStatus round.statusText =
      (round.outputMacList.take MAX_SUPPORT_DEV_NUM).map fun mac =>
        ⟨mac, (round.status mac).text⟩ := by
  have hlines : fgetsLines 128 round.statusText =
      (round.outputMacList.map round.statusLine).map (· ++ [10]) := by
    refine fgetsLines_flatMap ?_
    intro line hline
    obtain ⟨mac, hmem, rfl⟩ := List.mem_map.mp hline
    have hmac := round.macWord_of_mem hmem
    obtain ⟨-, hlen, htext⟩ := isspace_text (round.status mac)
    constructor
    · intro h10
      rcases List.mem_append.mp h10 with h10 | h10
      · exact absurd (hmac.noBlank 10 h10) (by decide)
      · rcases List.mem_cons.mp h10 with h10 | h10
        · exact absurd h10 (by decide)
        · exact absurd (htext 10 h10) (by decide)
    · have := hmac.length_le
      rw [PcRound.statusLine, List.length_append, List.length_cons]
      omega
  rw [loadParentalControlStatus, hlines, List.map_map, List.filterMap_map, List.map_take]
  congr 1
  rw [← List.filterMap_eq_map]
  refine List.filterMap_congr ?_
  intro mac hmem
  exact pcStatusItem_line round (round.macWord_of_mem hmem)

variable {round : PcRound} {files : PcFiles} {config : PcConfig} {mac : List UInt8}

/-- **The list**: the blacklist, or else what the round says of the first address. -/
theorem listPermission_eq (hw : round.Writes files) (hmac : mac ≠ [])
    (hfits : ([32].intercalate (storedItems config.blacklist)).length < 4096) :
    listPermission config files mac = .ok (applyWhitelistPcStatus
      (if isBlacklistMac (blacklistItems MAX_SUPPORT_DEV_NUM (blacklistTokens config.blacklist)) mac
        then .macBlocked else round.statusOf (round.listedMac mac))
      (config.isAppfilterWhitelistMac mac) (config.isMacfilterWhitelistMac mac)) := by
  obtain ⟨text, hget, htext⟩ := (uciGetListValue_eq .listBuf (by decide) config.blacklist).1 hfits
  have hitems : loadMacBlacklistItems config.blacklist MAX_SUPPORT_DEV_NUM =
      .ok (blacklistItems MAX_SUPPORT_DEV_NUM (blacklistTokens config.blacklist)) := by
    rw [loadMacBlacklistItems, hget, blacklistTokens, ← htext]
    rfl
  have hfound : ((loadParentalControlStatus files.statusFile).find? fun item => caseEq item.mac mac) =
      (round.listedMac mac).map fun k => ⟨k, (round.status k).text⟩ := by
    rw [hw.statusFile, loadParentalControlStatus_statusText, List.find?_map]
    rfl
  rw [listPermission, hitems]
  simp only [bind, Except.bind, pure, Except.pure, getPcStatusForMac, if_neg hmac, hfound]
  cases round.listedMac mac with
  | none => rfl
  | some k => simp only [Option.map_some, mapPcStatusKey_text, PcRound.statusOf, Option.elim_some]

/-! ## 7. What the page says -/

/-- What is said of keys, found with a key. -/
theorem find_snd {α : Type} {g : List UInt8 → α} {users : List (List UInt8 × α)}
    (h : ∀ user ∈ users, user.2 = g user.1) (p : List UInt8 → Bool) :
    (users.find? fun user => p user.1).map Prod.snd = ((users.map Prod.fst).find? p).map g := by
  rw [List.find?_map]
  cases hfind : users.find? (p ∘ Prod.fst) with
  | none => rw [show (users.find? fun user => p user.1) = none from hfind]; rfl
  | some user =>
    rw [show (users.find? fun user => p user.1) = some user from hfind]
    exact congrArg some (h user (List.mem_of_find?_eq_some hfind))

theorem find_self {keys : List (List UInt8)} {mac : List UInt8} :
    (keys.find? fun k => k = mac) = if mac ∈ keys then some mac else none := by
  split
  · rename_i hmem
    cases hfind : keys.find? fun k => decide (k = mac) with
    | none => exact absurd (decide_eq_true rfl) (List.find?_eq_none.mp hfind mac hmem)
    | some k => exact congrArg some (by simpa using List.find?_some hfind)
  · rename_i hmem
    rw [List.find?_eq_none]
    rintro k hk hkey
    exact hmem (of_decide_eq_true hkey ▸ hk)

/-- **The entry of a client** is what the round says of the address that is found. -/
theorem findUserDetailByMac_eq (hw : round.Writes files) (mac : List UInt8) :
    findUserDetailByMac files.detailFile.users mac =
      (detailedMac (files.detailFile.users.map Prod.fst) mac).map round.userDetail := by
  have huser : ∀ user ∈ files.detailFile.users, user.2 = round.userDetail user.1 := by
    intro user hmem
    obtain ⟨k, -, rfl⟩ := List.mem_map.mp (hw.users.mem_iff.mp hmem)
    rfl
  have hself := find_snd huser (fun k => decide (k = mac))
  rw [find_self] at hself
  rw [findUserDetailByMac, detailedMac]
  split
  · rename_i user hfind
    rw [hfind] at hself
    split at hself
    · rename_i hmem
      rw [if_pos hmem]
      exact hself
    · cases hself
  · rename_i hfind
    rw [hfind] at hself
    split at hself
    · cases hself
    · rename_i hmem
      rw [if_neg hmem]
      exact find_snd huser (caseEq · mac)

/-- The app rules that the files have for a client. -/
def PcRound.cachedAppRules (round : PcRound) (found : Option (List UInt8)) : List AppRuleDetail :=
  found.elim [] round.appfilterDetailMap ++ round.appfilterAllUserRuleDetails

/-- The rules themselves are asked, and one of them is in force. -/
def RuleTakesOver (round : PcRound) (files : PcFiles) (config : PcConfig)
    (currentWeekday currentMinutes : Int) (mac : List UInt8) : Bool :=
  !config.isAppfilterWhitelistMac mac &&
    (round.cachedAppRules (detailedMac (files.detailFile.users.map Prod.fst) mac)).isEmpty &&
    (getFilterRules config.appfilter).any fun rule => rule.live currentWeekday currentMinutes mac

/-- **The page**: a rule that takes over, or else the blacklist, or else what the round says. -/
theorem detailPermission_eq (hw : round.Writes files) (hmac : mac ≠ [])
    (hfits : ([32].intercalate (storedItems config.blacklist)).length < 4096)
    (currentWeekday currentMinutes : Int) :
    detailPermission config files currentWeekday currentMinutes mac = .ok (applyWhitelistPcStatus
      (if RuleTakesOver round files config currentWeekday currentMinutes mac then .appLimited
        else if (blacklistTokens config.blacklist).any (caseEq · mac) &&
          !config.isMacfilterWhitelistMac mac then .macBlocked
        else round.statusOf (detailedMac (files.detailFile.users.map Prod.fst) mac))
      (config.isAppfilterWhitelistMac mac) (config.isMacfilterWhitelistMac mac)) := by
  obtain ⟨text, hget, htext⟩ := (uciGetListValue_eq .listBuf (by decide) config.blacklist).1 hfits
  have hhit : isMacInBlacklistUci config.blacklist mac =
      .ok ((blacklistTokens config.blacklist).any (caseEq · mac)) := by
    rw [isMacInBlacklistUci, if_neg hmac, hget, blacklistTokens, ← htext]
    rfl
  have huser := findUserDetailByMac_eq hw mac
  generalize hfound : detailedMac (files.detailFile.users.map Prod.fst) mac = found at huser ⊢
  have hkey : ((found.map round.userDetail).elim .unlimited fun user =>
      mapPcStatusKey user.pcStatus) = round.statusOf found := by
    cases found with
    | none => rfl
    | some k => exact mapPcStatusKey_text _
  have hrules : (found.map round.userDetail).elim [] UserDetail.appfilterRules ++
      round.appfilterAllUserRuleDetails = round.cachedAppRules found := by
    cases found <;> rfl
  have hasked : (!config.isAppfilterWhitelistMac mac && (if config.isAppfilterWhitelistMac mac = true
      then [] else round.cachedAppRules found).isEmpty) =
      (!config.isAppfilterWhitelistMac mac && (round.cachedAppRules found).isEmpty) := by
    cases config.isAppfilterWhitelistMac mac <;> rfl
  have hlive : ∀ asked : Bool, (if asked = true then (getFilterRules config.appfilter).filter fun rule =>
      rule.live currentWeekday currentMinutes mac else []).isEmpty =
      !(asked && (getFilterRules config.appfilter).any fun rule =>
        rule.live currentWeekday currentMinutes mac) := by
    intro asked
    cases asked with
    | false => rfl
    | true =>
      rw [Bool.eq_iff_iff]
      simp [List.filter_eq_nil_iff]
  rw [detailPermission, getParentalControlDetail, if_neg hmac, hhit]
  simp only [bind, Except.bind, pure, Except.pure, Except.map, huser, hw.appRules, hkey, hrules,
    RuleTakesOver, hfound, hasked, hlive]
  congr 2
  generalize (!config.isAppfilterWhitelistMac mac && (round.cachedAppRules found).isEmpty &&
    (getFilterRules config.appfilter).any fun rule =>
      rule.live currentWeekday currentMinutes mac) = takesOver
  cases takesOver <;> rfl

/-! ## 8. Where they agree -/

/-- The client is on the blacklist or in `macfilter_block_set`, in whatever case. -/
def ToBeBlocked (round : PcRound) (config : PcConfig) (mac : List UInt8) : Bool :=
  (blacklistTokens config.blacklist).any (caseEq · mac) ||
    round.macfilterBlockSet.any (caseEq · mac)

/-- **The two answers agree**, and block a client that is to be blocked and is not whitelisted. -/
def PermissionsAgree (round : PcRound) (files : PcFiles) (config : PcConfig)
    (currentWeekday currentMinutes : Int) (mac : List UInt8) : Prop :=
  ∃ s, listPermission config files mac = .ok s ∧
    detailPermission config files currentWeekday currentMinutes mac = .ok s ∧
    (config.isMacfilterWhitelistMac mac = false → ToBeBlocked round config mac = true →
      s = .macBlocked)

/-- The address that is found is in `macfilter_block_set`. -/
def PcRound.Blocks (round : PcRound) (found : Option (List UInt8)) : Prop :=
  ∃ k, found = some k ∧ k ∈ round.macfilterBlockSet

/-- The address that is found is not in `macfilter_block_set` and has app rules. -/
def PcRound.Limits (round : PcRound) (found : Option (List UInt8)) : Prop :=
  ∃ k, found = some k ∧ k ∉ round.macfilterBlockSet ∧ round.appLimits k = true

/-- What the round, the blacklist, the whitelists and the rules have to be like. -/
structure PermissionsClear (round : PcRound) (files : PcFiles) (config : PcConfig)
    (currentWeekday currentMinutes : Int) (mac : List UInt8) : Prop where
  /-- The blacklist fits `list_buf`. -/
  fits : ([32].intercalate (storedItems config.blacklist)).length < 4096
  /-- A client to be blocked: the first 64 entries of the blacklist have it or its first line is blocked,
  the blacklist has it or its entry is blocked, and no rule takes over. -/
  blocked : config.isMacfilterWhitelistMac mac = false → ToBeBlocked round config mac = true →
    (isBlacklistMac (blacklistItems MAX_SUPPORT_DEV_NUM (blacklistTokens config.blacklist)) mac = true ∨
      round.Blocks (round.listedMac mac)) ∧
    ((blacklistTokens config.blacklist).any (caseEq · mac) = true ∨
      round.Blocks (detailedMac (files.detailFile.users.map Prod.fst) mac)) ∧
    RuleTakesOver round files config currentWeekday currentMinutes mac = false
  /-- Another client is not taken for one on the blacklist. -/
  unblocked : config.isMacfilterWhitelistMac mac = false → ToBeBlocked round config mac = false →
    isBlacklistMac (blacklistItems MAX_SUPPORT_DEV_NUM (blacklistTokens config.blacklist)) mac = false
  /-- Without a block to show, the first line has app rules exactly if a rule takes over or the entry
  has app rules; the list does not look at the line of a client on the blacklist. -/
  limited : config.isMacfilterWhitelistMac mac = true ∨ ToBeBlocked round config mac = false →
    (isBlacklistMac (blacklistItems MAX_SUPPORT_DEV_NUM (blacklistTokens config.blacklist)) mac = false ∧
        config.isAppfilterWhitelistMac mac = false ∧ round.Limits (round.listedMac mac) ↔
      RuleTakesOver round files config currentWeekday currentMinutes mac = true ∨
        config.isAppfilterWhitelistMac mac = false ∧
          round.Limits (detailedMac (files.detailFile.users.map Prod.fst) mac))

theorem statusOf_eq_macBlocked_iff {found : Option (List UInt8)} :
    round.statusOf found = .macBlocked ↔ round.Blocks found := by
  cases found with
  | none => simp [PcRound.statusOf, PcRound.Blocks]
  | some k =>
    simp only [PcRound.statusOf, Option.elim_some, PcRound.status, PcRound.Blocks, Option.some.injEq,
      exists_eq_left']
    split
    · rename_i hblock
      exact iff_of_true rfl hblock
    · rename_i hblock
      refine iff_of_false ?_ hblock
      split <;> simp

theorem statusOf_eq_appLimited_iff {found : Option (List UInt8)} :
    round.statusOf found = .appLimited ↔ round.Limits found := by
  cases found with
  | none => simp [PcRound.statusOf, PcRound.Limits]
  | some k =>
    simp only [PcRound.statusOf, Option.elim_some, PcRound.status, PcRound.Limits, Option.some.injEq,
      exists_eq_left']
    split
    · rename_i hblock
      exact iff_of_false (by simp) fun h => h.1 hblock
    · rename_i hblock
      split
      · rename_i hlimits
        exact iff_of_true rfl ⟨hblock, hlimits⟩
      · rename_i hlimits
        exact iff_of_false (by simp) fun h => hlimits h.2

/-- A block that is found is that of a client to be blocked. -/
theorem toBeBlocked_of_blocks {found : Option (List UInt8)}
    (hsame : ∀ k, found = some k → caseEq k mac = true) (h : round.Blocks found) :
    ToBeBlocked round config mac = true := by
  obtain ⟨k, hk, hmem⟩ := h
  rw [ToBeBlocked, Bool.or_eq_true]
  exact .inr (List.any_eq_true.mpr ⟨k, hmem, hsame k hk⟩)

theorem applyWhitelist_eq_macBlocked {s : PcPermission} {af mf : Bool} :
    applyWhitelistPcStatus s af mf = .macBlocked ↔ s = .macBlocked ∧ mf = false := by
  cases s <;> cases af <;> cases mf <;> decide

theorem applyWhitelist_eq_appLimited {s : PcPermission} {af mf : Bool} :
    applyWhitelistPcStatus s af mf = .appLimited ↔ s = .appLimited ∧ af = false := by
  cases s <;> cases af <;> cases mf <;> decide

theorem permission_eq_iff {s t : PcPermission} :
    s = t ↔ (s = .macBlocked ↔ t = .macBlocked) ∧ (s = .appLimited ↔ t = .appLimited) := by
  cases s <;> cases t <;> decide

/-- **Both verdicts** by what they are made of: whether the list and the page find the client on the
blacklist, whether a rule takes over, and what the round says of the two addresses. -/
theorem verdicts_agree_iff (listed hit takesOver block af mf : Bool) (s t : PcPermission)
    (hhit : hit = true → block = true) (hs : s = .macBlocked → block = true)
    (ht : t = .macBlocked → block = true) (htakes : takesOver = true → af = false) :
    (applyWhitelistPcStatus (if listed then .macBlocked else s) af mf =
        applyWhitelistPcStatus (if takesOver then .appLimited
          else if hit && !mf then .macBlocked else t) af mf ∧
      (mf = false → block = true →
        applyWhitelistPcStatus (if listed then .macBlocked else s) af mf = .macBlocked)) ↔
    (mf = false → block = true → (listed = true ∨ s = .macBlocked) ∧
        (hit = true ∨ t = .macBlocked) ∧ takesOver = false) ∧
      (mf = false → block = false → listed = false) ∧
      (mf = true ∨ block = false → (listed = false ∧ af = false ∧ s = .appLimited ↔
        takesOver = true ∨ af = false ∧ t = .appLimited)) := by
  rw [permission_eq_iff, applyWhitelist_eq_macBlocked, applyWhitelist_eq_macBlocked,
    applyWhitelist_eq_appLimited, applyWhitelist_eq_appLimited]
  cases mf with
  | true => cases listed <;> cases takesOver <;> cases af <;> simp_all
  | false =>
    cases block with
    | true => cases listed <;> cases takesOver <;> cases hit <;> cases s <;> cases t <;> simp_all
    | false => cases listed <;> cases takesOver <;> simp_all

theorem not_whitelisted_of_takesOver {currentWeekday currentMinutes : Int}
    (h : RuleTakesOver round files config currentWeekday currentMinutes mac = true) :
    config.isAppfilterWhitelistMac mac = false := by
  rw [RuleTakesOver, Bool.and_eq_true, Bool.and_eq_true] at h
  simpa using h.1.1

/-- **The two answers agree** exactly under the conditions of `PermissionsClear`. -/
theorem permissions_agree_iff (hw : round.Writes files) (hmac : mac ≠ [])
    (currentWeekday currentMinutes : Int) :
    PermissionsAgree round files config currentWeekday currentMinutes mac ↔
      PermissionsClear round files config currentWeekday currentMinutes mac := by
  by_cases hfits : ([32].intercalate (storedItems config.blacklist)).length < 4096
  · have hlist := @listPermission_eq round files config mac hw hmac hfits
    have hdetail := @detailPermission_eq round files config mac hw hmac hfits currentWeekday
      currentMinutes
    have hverdicts := verdicts_agree_iff
      (isBlacklistMac (blacklistItems MAX_SUPPORT_DEV_NUM (blacklistTokens config.blacklist)) mac)
      ((blacklistTokens config.blacklist).any (caseEq · mac))
      (RuleTakesOver round files config currentWeekday currentMinutes mac)
      (ToBeBlocked round config mac) (config.isAppfilterWhitelistMac mac)
      (config.isMacfilterWhitelistMac mac) (round.statusOf (round.listedMac mac))
      (round.statusOf (detailedMac (files.detailFile.users.map Prod.fst) mac))
      (fun hhit => by rw [ToBeBlocked, hhit, Bool.true_or])
      (fun hs => toBeBlocked_of_blocks (fun _ => caseEq_of_listedMac) (statusOf_eq_macBlocked_iff.mp hs))
      (fun ht => toBeBlocked_of_blocks (fun _ => caseEq_of_detailedMac)
        (statusOf_eq_macBlocked_iff.mp ht))
      not_whitelisted_of_takesOver
    rw [statusOf_eq_macBlocked_iff, statusOf_eq_macBlocked_iff, statusOf_eq_appLimited_iff,
      statusOf_eq_appLimited_iff] at hverdicts
    constructor
    · rintro ⟨s, hs, ht, hblock⟩
      rw [hlist] at hs
      rw [hdetail] at ht
      obtain ⟨h1, h2, h3⟩ := hverdicts.mp ⟨Except.ok.inj (hs.trans ht.symm),
        fun hmf htb => (Except.ok.inj hs).trans (hblock hmf htb)⟩
      exact ⟨hfits, h1, h2, h3⟩
    · rintro ⟨-, h1, h2, h3⟩
      obtain ⟨hsame, hblock⟩ := hverdicts.mpr ⟨h1, h2, h3⟩
      exact ⟨_, hlist, hdetail.trans (congrArg Except.ok hsame.symm), hblock⟩
  · -- the list does not answer at all
    have hfault := (uciGetListValue_eq .listBuf (by decide) config.blacklist).2 (Nat.not_lt.mp hfits)
    refine iff_of_false ?_ fun h => hfits h.fits
    rintro ⟨s, hs, -⟩
    rw [listPermission, loadMacBlacklistItems, hfault] at hs
    exact absurd hs (by simp [bind, Except.bind])

/-! ## 9. A blacklisted client -/

def cameraMac : List UInt8 := ascii "02:00:00:00:00:A7"

theorem cameraMac_word : MacWord cameraMac where
  nonempty := by decide
  length_le := by decide
  noBlank := by
    have hall : cameraMac.all (fun c => !isspace c) = true := by decide
    intro c hc
    simpa using List.all_eq_true.mp hall c hc

/-- A round that blocks one client, and has no app rule. -/
def blockingRound : PcRound where
  allMacSet := [cameraMac]
  appfilterMacSet := []
  appfilterAllUsersActive := false
  macfilterBlockSet := [cameraMac]
  appfilterDetailMap _ := []
  appfilterAllUserRuleDetails := []
  macfilterAllUserRuleDetails := []
  macfilterDetailMap _ := []
  macWord := by
    intro mac hmem
    have hcamera : mac = cameraMac := by simpa using hmem
    rw [hcamera]
    exact cameraMac_word

def blockingFiles : PcFiles where
  statusFile := blockingRound.statusText
  detailFile := ⟨[], [], [(cameraMac, blockingRound.userDetail cameraMac)]⟩

theorem outputMacList_blocking : blockingRound.outputMacList = [cameraMac] := by decide +kernel

theorem blocking_writes : blockingRound.Writes blockingFiles where
  statusFile := rfl
  appRules := rfl
  macRules := rfl
  users := by rw [outputMacList_blocking]; exact List.Perm.refl _

/-- An app rule for all users, all day. -/
def allDayOptions : UciOptions := fun name =>
  if name = ascii "id" then some (.string (ascii "1"))
  else if name = ascii "time_rule" then some (.list [ascii "0,1,2,3,4,5,6,00:00,23:59"])
  else none

/-- The client is on the blacklist, and there are `rules`. -/
def blacklistConfig (rules : UciPackage) : PcConfig where
  blacklist := some (.list [cameraMac])
  appfilterWhitelist := []
  macfilterWhitelist := []
  appfilter := rules

/-- Without app rules both say that the client is blocked. -/
theorem permissions_agree_blocked :
    PermissionsAgree blockingRound blockingFiles (blacklistConfig []) 1 600 cameraMac := by
  refine (permissions_agree_iff blocking_writes cameraMac_word.nonempty 1 600).mpr ?_
  have hlisted : isBlacklistMac (blacklistItems MAX_SUPPORT_DEV_NUM
      (blacklistTokens (blacklistConfig []).blacklist)) cameraMac = true := by decide +kernel
  have hhit : (blacklistTokens (blacklistConfig []).blacklist).any (caseEq · cameraMac) = true := by
    decide +kernel
  have htakes : RuleTakesOver blockingRound blockingFiles (blacklistConfig []) 1 600 cameraMac = false := by
    decide +kernel
  have hblock : ToBeBlocked blockingRound (blacklistConfig []) cameraMac = true := by
    rw [ToBeBlocked, hhit, Bool.true_or]
  refine ⟨by decide +kernel, fun _ _ => ⟨.inl hlisted, .inl hhit, htakes⟩, fun _ hfree => ?_, ?_⟩
  · exact absurd (hblock.symm.trans hfree) (by decide)
  · rintro (hmf | hfree)
    · exact absurd hmf (by decide)
    · exact absurd (hblock.symm.trans hfree) (by decide)

/-- A rule that is live and not in the round unblocks a client on the blacklist, on its page. -/
theorem live_rule_unblocks : blockingRound.Writes blockingFiles ∧
    ¬ PermissionsAgree blockingRound blockingFiles (blacklistConfig [⟨ascii "rule", allDayOptions⟩])
      1 600 cameraMac := by
  refine ⟨blocking_writes, ?_⟩
  rintro ⟨s, hs, ht, -⟩
  have hlist : listPermission (blacklistConfig [⟨ascii "rule", allDayOptions⟩]) blockingFiles cameraMac =
      .ok .macBlocked := by decide +kernel
  have hdetail : detailPermission (blacklistConfig [⟨ascii "rule", allDayOptions⟩]) blockingFiles 1 600
      cameraMac = .ok .appLimited := by decide +kernel
  rw [hlist] at hs
  rw [hdetail, ← Except.ok.inj hs] at ht
  exact absurd (Except.ok.inj ht) (by decide)

end Oaf
