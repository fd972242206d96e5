/-
# App-filter and MAC-filter rules

What the hooks ask of the two filters (`fwx_mac.c`, `fwx_app_filter.c`, `fwx_mac_filter.c`): rule
lists whose rules hold hash tables of MAC addresses and app ids, a whitelist each, an enable flag
each, and for the app filter the time of its last change.

An app id is a positive C `int`, here a `Nat`.
-/
import Oaf.Feature

namespace Oaf

/-! ## 1. MAC tables -/

abbrev Mac := Vector UInt8 6

def MAC_HASH_SIZE : Nat := 128

/-- `mac_config_t`: a chain of addresses for every hash value. -/
structure MacConfig where
  hashTable : Fin MAC_HASH_SIZE → List Mac

/-- `mac_hash`: the sum of the six bytes. -/
def macHash (mac : Mac) : Fin MAC_HASH_SIZE :=
  ⟨(mac.toList.map UInt8.toNat).sum % MAC_HASH_SIZE, Nat.mod_lt _ (by decide)⟩

/-- `fwx_mac_config_init`. -/
def fwxMacConfigInit : MacConfig := ⟨fun _ => []⟩

/-- `fwx_add_mac_node`, when its allocation succeeds. -/
def fwxAddMacNode (config : MacConfig) (mac : Mac) : MacConfig :=
  ⟨fun h => if h = macHash mac then mac :: config.hashTable h else config.hashTable h⟩

/-- `fwx_find_mac_node(config, mac) != NULL`. -/
def fwxFindMacNode (config : MacConfig) (mac : Mac) : Bool :=
  (config.hashTable (macHash mac)).contains mac

/-- The loop over all chains that looks for a non-empty one. -/
def macListEmpty (config : MacConfig) : Bool :=
  (List.finRange MAC_HASH_SIZE).all fun i => (config.hashTable i).isEmpty

/-! ## 2. Rules -/

def APPID_HASH_SIZE : Nat := 256
def MAC_FILTER_MODE_ALL_USERS : Int := 1
def MAC_FILTER_MODE_SINGLE_USER : Int := 2

/-- `app_id_config_t`. -/
structure AppIdConfig where
  hashTable : Fin APPID_HASH_SIZE → List Nat := fun _ => []
  count : Int := 0

/-- `app_id % APPID_HASH_SIZE` is a bucket. -/
theorem appId_mod_lt (appId : Nat) : appId % APPID_HASH_SIZE < APPID_HASH_SIZE := Nat.mod_lt _ (by decide)

/-- `find_app_id_node(config, app_id) != NULL`. -/
def findAppIdNode (config : AppIdConfig) (appId : Nat) : Bool :=
  (config.hashTable ⟨appId % APPID_HASH_SIZE, appId_mod_lt appId⟩).contains appId

/-- `app_filter_rule_t`. -/
structure AppFilterRule where
  ruleId : Int
  enable : Int := 1
  filterQuic : Int := 0
  macList : MacConfig := fwxMacConfigInit
  appIdList : AppIdConfig := {}

/-- `mac_filter_rule_t`. -/
structure MacFilterRule where
  ruleId : Int
  mode : Int := MAC_FILTER_MODE_ALL_USERS
  macList : MacConfig := fwxMacConfigInit

/-- The configuration of both filters.  `g_appfilter_update_jiffies` keeps 32 bits of the time
of the last change of the app-filter rules or whitelist. -/
structure FilterConfig where
  gAppfilterEnable : Bool := false
  appFilterRuleList : List AppFilterRule := []
  gAppFilterWhitelist : MacConfig := fwxMacConfigInit
  gAppfilterUpdateJiffies : UInt32 := 0
  gMacFilterEnable : Bool := false
  macFilterRuleList : List MacFilterRule := []
  gMacFilterWhitelist : MacConfig := fwxMacConfigInit

/-! ## 3. Matching -/

/-- `fwx_match_app_filter_rule`: the first enabled rule for this MAC, or for all of them, that
has the app id; a rule has the QUIC id by its `filter_quic`. -/
def fwxMatchAppFilterRule (config : FilterConfig) (appId : Nat) (mac : Mac) :
    Option AppFilterRule :=
  config.appFilterRuleList.find? fun rule =>
    rule.enable != 0 && (fwxFindMacNode rule.macList mac || macListEmpty rule.macList) &&
      if appId = FWX_QUIC_PROTO.toNat then rule.filterQuic == 1 else findAppIdNode rule.appIdList appId

/-- `fwx_match_mac_filter_rule`. -/
def fwxMatchMacFilterRule (config : FilterConfig) (mac : Mac) : Option MacFilterRule :=
  config.macFilterRuleList.find? fun rule =>
    rule.mode == MAC_FILTER_MODE_ALL_USERS || fwxFindMacNode rule.macList mac

/-- `match_app_filter_rule`. -/
def matchAppFilterRule (config : FilterConfig) (appId : Nat) (mac : Mac) : Bool :=
  if !config.gAppfilterEnable then false
  else if fwxFindMacNode config.gAppFilterWhitelist mac then false
  else (fwxMatchAppFilterRule config appId mac).isSome

/-- `match_mac_filter_rule`. -/
def matchMacFilterRule (config : FilterConfig) (mac : Mac) : Bool :=
  if !config.gMacFilterEnable then false
  else if fwxFindMacNode config.gMacFilterWhitelist mac then false
  else (fwxMatchMacFilterRule config mac).isSome

/-! ## 4. Re-evaluation of a decided connection -/

/-- The time since the last change of the app filter, in 32 bits, is below 30 seconds. -/
def windowOpen (config : FilterConfig) (jiffies hz : Nat) : Bool :=
  (jiffies.toUInt32 - config.gAppfilterUpdateJiffies).toNat < 30 * hz

/-- `check_app_action_changed`: inside the window, the stored action is not what the rules
say now. -/
def checkAppActionChanged (config : FilterConfig) (jiffies hz : Nat) (action : Bool) (appId : Nat)
    (mac : Mac) : Bool :=
  windowOpen config jiffies hz && (matchAppFilterRule config appId mac != action)

/-- The action after the check, which every caller flips when it has changed. -/
theorem flip_of_changed (config : FilterConfig) (jiffies hz : Nat) (action : Bool) (appId : Nat)
    (mac : Mac) :
    (if checkAppActionChanged config jiffies hz action appId mac then !action else action) =
      if windowOpen config jiffies hz then matchAppFilterRule config appId mac else action := by
  rw [checkAppActionChanged]
  cases windowOpen config jiffies hz <;> cases matchAppFilterRule config appId mac <;>
    cases action <;> rfl

end Oaf
