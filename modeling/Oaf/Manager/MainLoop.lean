/-
# The main loop of the rule manager

`main_loop` (`rule_manager.lua`) starts with `initialize_rules`, and then makes one turn after another: it looks
at the state files that fwxd writes, reloads what they name, and processes the rules of both filters.

`Wanted` is what the configuration asks for after a turn: the app-filter rules whose time has come, the addresses
that the MAC filter is to block, and the whitelists that were loaded last.  The kernel has four things of its own
for it, and each stage of a turn writes to one of them.

* `wp_processMacfilterRules`: the two effective rules have the addresses that the MAC-filter rules and the blacklist
  come to.
* `main_loop_enforces`: after every turn, both filters of the kernel give the verdicts that are wanted.

The conditions are those of `rounds_reconcile`: the writes are carried out, their texts can stand in JSON strings, no
app ids go up to the largest `int`, a rule is created while there is room for it, and no change of a rule's app ids is
missed.  The enable flags and the
record whitelist are written to `/proc` and are left out here, as are the status and detail files.
-/
import Oaf.Filter.Parts
import Oaf.MacFilter.Enforced
import Oaf.Manager.MacSync
import Oaf.Manager.Reconcile
import Mathlib.Data.List.Sort

namespace Oaf

open CLib Chains Prog Runs

/-! ## 1. MAC-filter rules -/

/-- A rule of `load_macfilter_rules`. -/
structure MacRule where
  id : Int
  rule : MacFilter.LuaMacRule

/-- `table.sort` of the keys of a table. -/
def sortedKeys (texts : List CStr) : List CStr :=
  texts.dedup.insertionSort fun a b => a.bytes ≤ b.bytes

/-- `upper` of a character. -/
def luaUpper (c : UInt8) : UInt8 := if 97 ≤ c && c ≤ 122 then c - 32 else c

theorem luaUpper_ne_zero (c : UInt8) : c ≠ 0 → luaUpper c ≠ 0 :=
  forall_byte (p := fun c => c ≠ 0 → luaUpper c ≠ 0) (by decide +kernel) c

/-- `mac:upper()` -/
def upper (text : CStr) : CStr :=
  ⟨text.bytes.map luaUpper, fun h => by
    obtain ⟨c, hc, h0⟩ := List.mem_map.mp h
    exact luaUpper_ne_zero c (fun hc0 => text.noNul (hc0 ▸ hc)) h0⟩

/-- `load_mac_blacklist`, from the list of UCI. -/
def loadMacBlacklist (macList : List CStr) : List CStr :=
  sortedKeys ((macList.map upper).filter (· ≠ .empty))

/-- `regular_mac_set`.  When there are no statistics, what needs them is passed over: rules for all users, and rules
with limits. -/
def regularMacSet (rules : List MacRule) (info : MacFilter.CurrentInfo)
    (stats : Option (List MacFilter.UserStat)) : List CStr :=
  match stats with
  | some stats => (MacFilter.processMacfilterRules (rules.map MacRule.rule) info stats).map CStr.ofBytes
  | none =>
    let single := (rules.map MacRule.rule).filter fun rule =>
      rule.times.timeMode ≠ 2 ∧ rule.times.timeMode ≠ 3 ∧ rule.mode = 2
    (MacFilter.processMacfilterRules single info []).map CStr.ofBytes

/-- The last loop of `process_macfilter_rules`: entries of rules that UCI no longer has go. -/
def dropMacfilterRules (rules : List MacRule) (table : LuaTable MacRuleState) : LuaTable MacRuleState :=
  table.keys.foldl (fun table ruleId =>
    if ruleId = SINGLE_MAC_FILTER_RULE_ID ∨ ruleId = BLACKLIST_MAC_FILTER_RULE_ID ∨
        (rules.any fun rule => rule.id == ruleId) = true then table
    else table.erase ruleId) table

/-- `process_macfilter_rules`. -/
def processMacfilterRules (info : MacFilter.CurrentInfo) (stats : Option (List MacFilter.UserStat))
    (rules : List MacRule) (blacklist : List CStr) (table : LuaTable MacRuleState) :
    Manager (LuaTable MacRuleState) := do
  let (_, table) ← syncEffectiveMacRule table SINGLE_MAC_FILTER_RULE_ID (sortedKeys (regularMacSet rules info stats))
  let (_, table) ← syncEffectiveMacRule table BLACKLIST_MAC_FILTER_RULE_ID (sortedKeys (loadMacBlacklist blacklist))
  return dropMacfilterRules rules table

/-- `macfilter_rules_state` after the rules have been loaded. -/
def initMacfilterState (rules : List MacRule) : LuaTable MacRuleState :=
  rules.foldl (fun table rule => table.insert rule.id {}) ∅

/-- `flush_macfilter_rules`. -/
def flushMacfilterRules : Manager Bool := request { call := .flushMacFilterRule }

/-! ## 2. The loop -/

/-- `appfilter_rules_state` and `macfilter_rules_state`. -/
structure RuleTables where
  app : LuaTable AppRuleState
  mac : LuaTable MacRuleState

/-- What UCI holds at the start. -/
structure Start where
  rules : List AppRule
  macRules : List MacRule
  appfilterWhitelist : List CStr
  macfilterWhitelist : List CStr

/-- What a turn finds: the state files that say `1`, with what is loaded for them, and then the rules, the blacklist,
the time and the statistics. -/
structure Turn where
  appfilterWhitelist : Option (List CStr) := none
  macfilterWhitelist : Option (List CStr) := none
  appfilterReinit : Option (List AppRule) := none
  macfilterReinit : Option (List MacRule) := none
  pairs : LuaTable AppRuleState → List Int
  weekday : Fin 7
  minutes : Nat
  rules : List AppRule
  macRules : List MacRule
  blacklist : List CStr
  stats : Option (List MacFilter.UserStat)

def Turn.now (turn : Turn) : TimeInfo := { weekday := turn.weekday.val, minutes := turn.minutes }

def Turn.info (turn : Turn) : MacFilter.CurrentInfo := { weekday := turn.weekday.val, minutes := turn.minutes }

/-- `initialize_rules`. -/
def Start.program (start : Start) : Manager RuleTables := do
  let app ← initializeRules start.rules (loadAppfilterWhitelist start.appfilterWhitelist)
    (loadAppfilterWhitelist start.macfilterWhitelist)
  return ⟨app, initMacfilterState start.macRules⟩

/-- A whitelist is applied when its state file says so. -/
def reloadWhitelist (apply : List CStr → Manager Bool) : Option (List CStr) → Manager Unit
  | none => return ()
  | some sections => do
    let _ ← apply (loadAppfilterWhitelist sections)
    return ()

/-- The branch for `appfilter_reinit`. -/
def reinitAppfilterRules (table : LuaTable AppRuleState) :
    Option (List AppRule) → Manager (LuaTable AppRuleState)
  | none => return table
  | some rules => do
    let _ ← flushAppfilterRules
    return initAppfilterState rules

/-- The branch for `macfilter_reinit`. -/
def reinitMacfilterRules (table : LuaTable MacRuleState) :
    Option (List MacRule) → Manager (LuaTable MacRuleState)
  | none => return table
  | some rules => do
    let _ ← flushMacfilterRules
    let _ ← initEffectiveMacRules
    return initMacfilterState rules

/-- One turn of `main_loop`. -/
def Turn.program (turn : Turn) (tables : RuleTables) : Manager RuleTables := do
  reloadWhitelist applyAppfilterWhitelist turn.appfilterWhitelist
  reloadWhitelist applyMacfilterWhitelist turn.macfilterWhitelist
  let app ← reinitAppfilterRules tables.app turn.appfilterReinit
  let mac ← reinitMacfilterRules tables.mac turn.macfilterReinit
  let app ← processAppfilterRules turn.pairs turn.now turn.rules app
  let mac ← processMacfilterRules turn.info turn.stats turn.macRules turn.blacklist mac
  return ⟨app, mac⟩

/-! ## 3. What is wanted -/

structure Wanted where
  policy : Policy
  macs : Set Mac
  appWhitelist : Set Mac
  macWhitelist : Set Mac

/-- At the start no rule is in force. -/
def Start.wanted (start : Start) : Wanted where
  policy := fun _ => none
  macs := ∅
  appWhitelist := macSet start.appfilterWhitelist
  macWhitelist := macSet start.macfilterWhitelist

/-- After a turn: the rules of now, and the whitelists that were loaded last. -/
def Turn.wanted (turn : Turn) (before : Wanted) : Wanted where
  policy := wantedPolicy turn.rules turn.now
  macs := macSet (regularMacSet turn.macRules turn.info turn.stats) ∪ macSet turn.blacklist
  appWhitelist := (turn.appfilterWhitelist.map macSet).getD before.appWhitelist
  macWhitelist := (turn.macfilterWhitelist.map macSet).getD before.macWhitelist

/-- Both filters give the verdicts that are wanted. -/
structure Enforced (k : FilterKernel) (w : Wanted) : Prop where
  app : ∀ appId mac, matchAppFilterRule k.config appId mac = true ↔
    k.config.gAppfilterEnable = true ∧ mac ∉ w.appWhitelist ∧ w.policy.Matches appId mac
  mac : ∀ mac, matchMacFilterRule k.config mac = true ↔
    k.config.gMacFilterEnable = true ∧ mac ∉ w.macWhitelist ∧ mac ∈ w.macs

/-- The manager and the kernel between two turns. -/
structure LoopState where
  kernel : FilterKernel
  tables : RuleTables

/-- A turn all of whose writes are carried out. -/
def turnStep (s : LoopState) (turn : Turn) (t : LoopState) : Prop :=
  Ends (roundWrite RoomForRule) (turn.program s.tables) s.kernel t.tables t.kernel

/-- The table that the app-filter rules of a turn are processed with. -/
def Turn.appTable (turn : Turn) (table : LuaTable AppRuleState) : LuaTable AppRuleState :=
  (turn.appfilterReinit.map initAppfilterState).getD table

def Turn.round (turn : Turn) : Round := ⟨turn.pairs, turn.now, turn.rules⟩

/-- **The condition on a turn**: its rules are in the domain, and no change is missed. -/
def TurnOk (s : LoopState) (turn : Turn) : Prop :=
  turn.round.Valid ∧ ∀ rule ∈ turn.rules, NoMissedChange turn.now (turn.appTable s.tables.app) rule

/-! ## 4. Lists of addresses -/

theorem isspace_luaUpper (c : UInt8) : Kernel.isspace (luaUpper c) = Kernel.isspace c :=
  forall_byte (p := fun c => Kernel.isspace (luaUpper c) = Kernel.isspace c) (by decide +kernel) c

theorem hexDigit_luaUpper (c : UInt8) :
    isxdigit (luaUpper c) = isxdigit c ∧ (isxdigit c = true → Kernel.digitVal (luaUpper c) = Kernel.digitVal c) :=
  forall_byte (p := fun c => isxdigit (luaUpper c) = isxdigit c ∧
    (isxdigit c = true → Kernel.digitVal (luaUpper c) = Kernel.digitVal c)) (by decide +kernel) c

theorem tolower_luaUpper (c : UInt8) : tolower (luaUpper c) = tolower c :=
  forall_byte (p := fun c => tolower (luaUpper c) = tolower c) (by decide +kernel) c

theorem luaUpper_eq_zero_digit (c : UInt8) : luaUpper c = 48 ↔ c = 48 :=
  forall_byte (p := fun c => luaUpper c = 48 ↔ c = 48) (by decide +kernel) c

theorem luaUpper_bne_colon (c : UInt8) : (luaUpper c != 58) = (c != 58) :=
  forall_byte (p := fun c => (luaUpper c != 58) = (c != 58)) (by decide +kernel) c

theorem ofDigits_luaUpper {ds : List UInt8} (h : ∀ d ∈ ds, isxdigit d = true) :
    Kernel.ofDigits 16 (ds.map luaUpper) = Kernel.ofDigits 16 ds := by
  simp only [Kernel.ofDigits, List.foldl_map]
  refine List.foldl_ext _ _ _ fun n d hd => ?_
  rw [(hexDigit_luaUpper d).2 (h d hd)]

theorem takeWhile_luaUpper {q : UInt8 → Bool} (hq : ∀ c, q (luaUpper c) = q c) (s : List UInt8) :
    (s.map luaUpper).takeWhile q = (s.takeWhile q).map luaUpper := by
  rw [List.takeWhile_map]
  congr 2
  exact funext hq

theorem dropWhile_luaUpper {q : UInt8 → Bool} (hq : ∀ c, q (luaUpper c) = q c) (s : List UInt8) :
    (s.map luaUpper).dropWhile q = (s.dropWhile q).map luaUpper := by
  rw [List.dropWhile_map]
  congr 2
  exact funext hq

theorem scanHexByte_luaUpper (p : List UInt8) : scanHexByte (p.map luaUpper) = scanHexByte p := by
  rw [scanHexByte, scanHexByte, dropWhile_luaUpper isspace_luaUpper]
  cases hdrop : p.dropWhile Kernel.isspace with
  | nil => rfl
  | cons c rest =>
    have hprefix : ((rest.map luaUpper).head?.map tolower) = rest.head?.map tolower := by
      cases rest with
      | nil => rfl
      | cons d rest => exact congrArg some (tolower_luaUpper d)
    have hdigits : ((luaUpper c :: (rest.map luaUpper).take 1).takeWhile isxdigit) =
        ((c :: rest.take 1).takeWhile isxdigit).map luaUpper := by
      rw [← takeWhile_luaUpper fun c => (hexDigit_luaUpper c).1, List.map_cons, List.map_take]
    simp only [List.map_cons, (hexDigit_luaUpper c).1, luaUpper_eq_zero_digit, hprefix, hdigits]
    rw [ofDigits_luaUpper fun d hd => List.mem_takeWhile_imp hd]

theorem macBytes_luaUpper (n : Nat) (p : List UInt8) : macBytes n (p.map luaUpper) = macBytes n p := by
  induction n generalizing p with
  | zero => rfl
  | succ n ih =>
    cases p with
    | nil => rfl
    | cons c p =>
      have hrest : (((c :: p).map luaUpper).dropWhile (· != 58)).tail =
          (((c :: p).dropWhile (· != 58)).tail).map luaUpper := by
        rw [dropWhile_luaUpper luaUpper_bne_colon, List.map_tail]
      have hbyte := scanHexByte_luaUpper (c :: p)
      rw [List.map_cons] at hbyte hrest
      simp only [List.map_cons, macBytes, hbyte, hrest, ih]

/-- An address is the same in upper case. -/
theorem macStrToBin_upper (text : CStr) : macStrToBin (some (upper text)) = macStrToBin (some text) := by
  simp only [macStrToBin, upper, Option.bind_eq_bind, Option.bind_some, macBytes_luaUpper]

theorem macSet_congr {macs macs' : List CStr} (h : ∀ text, text ∈ macs ↔ text ∈ macs') :
    macSet macs = macSet macs' :=
  Set.ext fun _ => exists_congr fun text => and_congr (h text) Iff.rfl

theorem sortedKeys_perm (texts : List CStr) : (sortedKeys texts).Perm texts.dedup :=
  List.perm_insertionSort _ _

theorem nodup_sortedKeys (texts : List CStr) : (sortedKeys texts).Nodup :=
  (sortedKeys_perm texts).nodup_iff.mpr (List.nodup_dedup texts)

theorem macSet_sortedKeys (texts : List CStr) : macSet (sortedKeys texts) = macSet texts :=
  macSet_congr fun _ => (sortedKeys_perm texts).mem_iff.trans List.mem_dedup

/-- The empty text is no address. -/
theorem macSet_filter_nonempty (texts : List CStr) : macSet (texts.filter (· ≠ .empty)) = macSet texts := by
  refine Set.ext fun mac => exists_congr fun text => ?_
  rw [List.mem_filter, decide_eq_true_eq, and_assoc]
  refine and_congr Iff.rfl (and_iff_right_of_imp ?_)
  have hempty : macStrToBin (some .empty) = none := by decide
  rintro hmac rfl
  exact absurd (hempty.symm.trans hmac) (Option.some_ne_none mac).symm

theorem macSet_loadAppfilterWhitelist (sections : List CStr) :
    macSet (loadAppfilterWhitelist sections) = macSet sections := macSet_filter_nonempty sections

theorem macSet_loadMacBlacklist (macList : List CStr) : macSet (loadMacBlacklist macList) = macSet macList := by
  rw [loadMacBlacklist, macSet_sortedKeys, macSet_filter_nonempty]
  ext mac
  constructor
  · rintro ⟨text, htext, hmac⟩
    obtain ⟨raw, hraw, rfl⟩ := List.mem_map.mp htext
    exact ⟨raw, hraw, (macStrToBin_upper raw).symm.trans hmac⟩
  · rintro ⟨raw, hraw, hmac⟩
    exact ⟨upper raw, List.mem_map_of_mem hraw, (macStrToBin_upper raw).trans hmac⟩

/-! ## 5. The effective rules -/

variable {k k' : FilterKernel} {ruleId : Int}

/-- The kernel has the two rules of the manager, and the addresses of each are these. -/
structure EffectiveRules (k : FilterKernel) (sets : Int → Set Mac) : Prop where
  ids : k.config.macFilterRuleList.map MacFilterRule.ruleId =
    [BLACKLIST_MAC_FILTER_RULE_ID, SINGLE_MAC_FILTER_RULE_ID]
  single : ∀ i rule, fwxFindMacFilterRule k i = some rule → rule.mode = MAC_FILTER_MODE_SINGLE_USER
  lists : ∀ i rule, fwxFindMacFilterRule k i = some rule → Represents rule.macList (sets i)

namespace EffectiveRules

variable {sets : Int → Set Mac}

theorem nodup (h : EffectiveRules k sets) : (k.config.macFilterRuleList.map MacFilterRule.ruleId).Nodup := by
  rw [h.ids]
  decide

theorem of_same (h : EffectiveRules k sets)
    (hsame : k'.config.macFilterRuleList = k.config.macFilterRuleList) : EffectiveRules k' sets := by
  have hfind : ∀ i, fwxFindMacFilterRule k' i = fwxFindMacFilterRule k i := fun i => by
    rw [fwxFindMacFilterRule, hsame, fwxFindMacFilterRule]
  exact ⟨hsame ▸ h.ids, fun i rule => hfind i ▸ h.single i rule, fun i rule => hfind i ▸ h.lists i rule⟩

/-- A rule is matched when one of the two has the address. -/
theorem matches_iff (h : EffectiveRules k sets) (mac : Mac) :
    (fwxMatchMacFilterRule k.config mac).isSome = true ↔
      mac ∈ sets SINGLE_MAC_FILTER_RULE_ID ∪ sets BLACKLIST_MAC_FILTER_RULE_ID := by
  have hmember : ∀ rule ∈ k.config.macFilterRuleList,
      (rule.mode == MAC_FILTER_MODE_ALL_USERS || fwxFindMacNode rule.macList mac) = true ↔
        mac ∈ sets rule.ruleId := by
    intro rule hrule
    have hfind : fwxFindMacFilterRule k rule.ruleId = some rule :=
      (lookup_eq_some_iff h.nodup).mpr ⟨hrule, rfl⟩
    rw [h.single _ _ hfind, ← h.lists _ _ hfind mac]
    exact Iff.rfl
  have hhas : ∀ i, i = BLACKLIST_MAC_FILTER_RULE_ID ∨ i = SINGLE_MAC_FILTER_RULE_ID ↔
      ∃ rule ∈ k.config.macFilterRuleList, rule.ruleId = i := by
    intro i
    rw [← List.mem_map, h.ids]
    simp
  rw [fwxMatchMacFilterRule, List.find?_isSome]
  constructor
  · rintro ⟨rule, hrule, hmatch⟩
    have hin := (hmember rule hrule).mp hmatch
    rcases (hhas rule.ruleId).mpr ⟨rule, hrule, rfl⟩ with hid | hid
    · exact .inr (hid ▸ hin)
    · exact .inl (hid ▸ hin)
  · have hof : ∀ i, (i = BLACKLIST_MAC_FILTER_RULE_ID ∨ i = SINGLE_MAC_FILTER_RULE_ID) → mac ∈ sets i →
        ∃ rule ∈ k.config.macFilterRuleList,
          (rule.mode == MAC_FILTER_MODE_ALL_USERS || fwxFindMacNode rule.macList mac) = true := by
      intro i hi hin
      obtain ⟨rule, hrule, rfl⟩ := (hhas i).mp hi
      exact ⟨rule, hrule, (hmember rule hrule).mpr hin⟩
    exact fun hin => hin.elim (hof _ (.inr rfl)) (hof _ (.inl rfl))

/-- One of the lists is written. -/
theorem of_mod (h : EffectiveRules k sets) {req : RuleRequest} {macs : Set Mac} (hid : req.ruleId = some ruleId)
    (hmode : req.mode = some MAC_FILTER_MODE_SINGLE_USER)
    (hmacs : ∀ config, Represents (macAction k.kmem config req).1 macs)
    (hcall : fwxConfigHandle k (.modMacFilterRule req) = some k') :
    EffectiveRules k' (Function.update sets ruleId macs) := by
  have hfind := find_modMacFilterRule hid hcall
  refine ⟨?_, fun i rule hrule => ?_, fun i rule hrule => ?_⟩
  · obtain rfl := Option.some.inj hcall
    rw [fwxApiModMacFilterRule, hid]
    dsimp only
    cases hold : fwxFindMacFilterRule k ruleId with
    | none => exact h.ids
    | some rule =>
      refine (map_updateFirst _ (fun other hother => ?_) _).trans h.ids
      exact (ruleId_of_find hold).trans (eq_of_beq hother).symm
  · rw [hfind] at hrule
    split at hrule
    · obtain ⟨old, -, rfl⟩ := Option.map_eq_some_iff.mp hrule
      rw [hmode]
      rfl
    · exact h.single i rule hrule
  · rw [hfind] at hrule
    split at hrule
    · rename_i hi
      obtain ⟨old, -, rfl⟩ := Option.map_eq_some_iff.mp hrule
      rw [hi, Function.update_self]
      exact hmacs old.macList
    · rename_i hi
      rw [Function.update_of_ne hi]
      exact h.lists i rule hrule

end EffectiveRules

/-- The lists of the kernel are the stored ones. -/
structure MacsHold (table : LuaTable MacRuleState) (k : FilterKernel) (sets : Int → Set Mac) : Prop where
  memory : k.kmem.AllOk
  rules : EffectiveRules k sets
  stored : ∀ i state old, table.lookup i = some state → state.macList = some old → sets i = macSet old

/-- `set_macfilter_rule_mac_list` with its writes carried out. -/
theorem wp_setEffectiveRule {sets : Int → Set Mac} (macList : List CStr) (hmem : k.kmem.AllOk)
    (h : EffectiveRules k sets) :
    wp (roundWrite RoomForRule) (fun _ => True)
      (setMacfilterRuleMacList ruleId macList MAC_FILTER_MODE_SINGLE_USER)
      (fun r k' => r = true ∧ k'.kmem.AllOk ∧ EffectiveRules k' (Function.update sets ruleId (macSet macList))) k := by
  rw [setMacfilterRuleMacList, wp_bind]
  refine wp_roundWrite fun k1 _ h1 => ?_
  have hmem1 := fwxConfigHandle_allOk hmem h1
  have hclear : EffectiveRules k1 (Function.update sets ruleId ∅) := by
    refine h.of_mod rfl rfl (fun _ => ?_) h1
    exact represents_init
  rw [if_pos rfl]
  split
  · rename_i hnil
    subst hnil
    have hempty : macSet [] = ∅ := by
      refine Set.eq_empty_of_forall_notMem fun _ hmac => ?_
      obtain ⟨_, htext, _⟩ := hmac
      exact absurd htext List.not_mem_nil
    rw [hempty]
    exact ⟨rfl, hmem1, hclear⟩
  · refine wp_roundWrite fun k2 _ h2 => ⟨rfl, fwxConfigHandle_allOk hmem1 h2, ?_⟩
    have hset : EffectiveRules k2 (Function.update (Function.update sets ruleId ∅) ruleId (macSet macList)) := by
      refine hclear.of_mod rfl rfl (fun _ => ?_) h2
      exact represents_addMacList hmem1 macList
    rwa [Function.update_idem] at hset

/-- **One effective rule**: after `sync_effective_mac_rule` its addresses are those of the list. -/
theorem wp_syncEffectiveMacRule {sets : Int → Set Mac} {table : LuaTable MacRuleState} {macList : List CStr}
    (hnodup : macList.Nodup) (h : MacsHold table k sets) :
    wp (roundWrite RoomForRule) (fun _ => True) (syncEffectiveMacRule table ruleId macList)
      (fun p k' => MacsHold p.2 k' (Function.update sets ruleId (macSet macList))) k := by
  rw [syncEffectiveMacRule]
  split
  · rw [wp_bind]
    refine wp_mono (wp_setEffectiveRule macList h.memory h.rules) (fun _ => id) fun r k' hset => ?_
    obtain ⟨rfl, hmem, hrules⟩ := hset
    refine ⟨hmem, hrules, fun i state old hstate hlist => ?_⟩
    by_cases hi : i = ruleId
    · subst hi
      rw [AList.lookup_insert] at hstate
      obtain rfl := Option.some.inj hstate
      obtain rfl := Option.some.inj hlist
      exact Function.update_self _ _ _
    · rw [AList.lookup_insert_ne hi] at hstate
      rw [Function.update_of_ne hi]
      exact h.stored i state old hstate hlist
  · rename_i hneed
    obtain ⟨state, old, hstate, hlist, hsame⟩ :=
      macSet_of_unchanged hnodup (macListChanged_of_needUpdate (Bool.eq_false_iff.mpr hneed))
    rw [hsame, ← h.stored ruleId state old hstate hlist, Function.update_eq_self]
    exact h

theorem lookup_dropMacfilterRules {rules : List MacRule} {table : LuaTable MacRuleState} {i : Int}
    {state : MacRuleState} (h : (dropMacfilterRules rules table).lookup i = some state) :
    table.lookup i = some state := by
  rw [dropMacfilterRules] at h
  generalize table.keys = ids at h
  induction ids generalizing table with
  | nil => exact h
  | cons ruleId ids ih =>
    rw [List.foldl_cons] at h
    have hrest := ih h
    split at hrest
    · exact hrest
    · by_cases hi : i = ruleId
      · rw [hi, AList.lookup_erase] at hrest
        exact absurd hrest (Option.some_ne_none state).symm
      · rwa [AList.lookup_erase_ne hi] at hrest

/-- **The MAC-filter rules of a turn**: the effective rules have the addresses of the rules and the blacklist. -/
theorem wp_processMacfilterRules {sets : Int → Set Mac} {table : LuaTable MacRuleState}
    (info : MacFilter.CurrentInfo) (stats : Option (List MacFilter.UserStat)) (rules : List MacRule)
    (blacklist : List CStr) (h : MacsHold table k sets) :
    wp (roundWrite RoomForRule) (fun _ => True) (processMacfilterRules info stats rules blacklist table)
      (fun table' k' => ∃ sets', MacsHold table' k' sets' ∧
        sets' SINGLE_MAC_FILTER_RULE_ID = macSet (regularMacSet rules info stats) ∧
        sets' BLACKLIST_MAC_FILTER_RULE_ID = macSet blacklist) k := by
  rw [processMacfilterRules, wp_bind]
  refine wp_mono (wp_syncEffectiveMacRule (nodup_sortedKeys _) h) (fun _ => id) fun p k1 h1 => ?_
  obtain ⟨r1, table1⟩ := p
  rw [wp_bind]
  refine wp_mono (wp_syncEffectiveMacRule (nodup_sortedKeys _) h1) (fun _ => id) fun p k2 h2 => ?_
  obtain ⟨r2, table2⟩ := p
  refine ⟨_, ⟨h2.memory, h2.rules, fun i state old hstate hlist => ?_⟩, ?_, ?_⟩
  · exact h2.stored i state old (lookup_dropMacfilterRules hstate) hlist
  · rw [Function.update_of_ne (by decide), Function.update_self, macSet_sortedKeys]
  · rw [Function.update_self, macSet_sortedKeys, macSet_loadMacBlacklist]

/-! ## 6. The stages -/

/-- The writes about one part. -/
def About (part : FilterPart) (w : DevWrite) : Prop := w.call.part = part

theorem makes_activateAppfilterRule (table : LuaTable AppRuleState) (rule : AppRule) :
    Makes (About .appRules) (activateAppfilterRule table rule) := by
  rw [activateAppfilterRule]
  refine makes_bind (makes_request rfl) fun r => ?_
  split
  · exact makes_bind (makes_request rfl) fun _ => makes_bind (makes_request rfl) fun _ =>
      makes_bind (makes_request rfl) fun _ => makes_pure _
  · exact makes_pure _

theorem makes_processAppfilterRules (pairs : LuaTable AppRuleState → List Int) (now : TimeInfo)
    (rules : List AppRule) (table : LuaTable AppRuleState) :
    Makes (About .appRules) (processAppfilterRules pairs now rules table) := by
  have hdelete : ∀ (ruleId : Int) (yes no : LuaTable AppRuleState), Makes (About .appRules)
      (do if ← deleteAppfilterRule ruleId then return yes else return no :
        Manager (LuaTable AppRuleState)) := by
    intro ruleId yes no
    refine makes_bind (makes_request rfl) fun r => ?_
    split <;> exact makes_pure _
  rw [processAppfilterRules]
  refine makes_bind (makes_foldlM (fun table rule => ?_) _ _) fun table => makes_foldlM (fun table ruleId => ?_) _ _
  · rw [processAppfilterRule]
    split
    · split
      · split
        · exact makes_bind (makes_request rfl) fun _ => makes_activateAppfilterRule table rule
        · exact makes_pure _
      · exact makes_activateAppfilterRule table rule
    · split
      · exact hdelete _ _ _
      · exact makes_pure _
  · rw [dropAppfilterRule]
    split
    · exact makes_pure _
    · split
      · exact hdelete _ _ _
      · exact makes_pure _

theorem makes_syncEffectiveMacRule (table : LuaTable MacRuleState) (ruleId : Int) (macList : List CStr) :
    Makes (About .macRules) (syncEffectiveMacRule table ruleId macList) := by
  rw [syncEffectiveMacRule]
  split
  · refine makes_bind ?_ fun r => ?_
    · rw [setMacfilterRuleMacList]
      refine makes_bind (makes_request rfl) fun r => ?_
      split
      · split
        · exact makes_pure _
        · exact makes_request rfl
      · exact makes_pure _
    · split <;> exact makes_pure _
  · exact makes_pure _

theorem makes_processMacfilterRules (info : MacFilter.CurrentInfo) (stats : Option (List MacFilter.UserStat))
    (rules : List MacRule) (blacklist : List CStr) (table : LuaTable MacRuleState) :
    Makes (About .macRules) (processMacfilterRules info stats rules blacklist table) := by
  rw [processMacfilterRules]
  exact makes_bind (makes_syncEffectiveMacRule _ _ _) fun _ =>
    makes_bind (makes_syncEffectiveMacRule _ _ _) fun _ => makes_pure _

theorem makes_reinitAppfilterRules (table : LuaTable AppRuleState) (reinit : Option (List AppRule)) :
    Makes (About .appRules) (reinitAppfilterRules table reinit) := by
  cases reinit with
  | none => exact makes_pure _
  | some rules => exact makes_bind (makes_request rfl) fun _ => makes_pure _

theorem makes_initEffectiveMacRules : Makes (About .macRules) initEffectiveMacRules :=
  makes_bind (makes_request rfl) fun _ => makes_bind (makes_request rfl) fun _ => makes_pure _

theorem makes_reinitMacfilterRules (table : LuaTable MacRuleState) (reinit : Option (List MacRule)) :
    Makes (About .macRules) (reinitMacfilterRules table reinit) := by
  cases reinit with
  | none => exact makes_pure _
  | some rules => exact makes_bind (makes_request rfl) fun _ => makes_bind makes_initEffectiveMacRules fun _ => makes_pure _

theorem makes_applyWhitelist {part : FilterPart} {flush : FilterCall} {add : RuleRequest → FilterCall}
    (hflush : flush.part = part) (hadd : ∀ req, (add req).part = part) (macList : List CStr) :
    Makes (About part) (applyWhitelist flush add macList) := by
  rw [applyWhitelist]
  refine makes_bind (makes_request hflush) fun _ => ?_
  split
  · exact makes_pure _
  · exact makes_request (hadd _)

theorem makes_applyAppfilterWhitelist (macList : List CStr) :
    Makes (About .appWhitelist) (applyAppfilterWhitelist macList) := by
  rw [applyAppfilterWhitelist]
  refine makes_applyWhitelist ?_ (fun _ => ?_) macList <;> rfl

theorem makes_applyMacfilterWhitelist (macList : List CStr) :
    Makes (About .macWhitelist) (applyMacfilterWhitelist macList) := by
  rw [applyMacfilterWhitelist]
  refine makes_applyWhitelist ?_ (fun _ => ?_) macList <;> rfl

/-- **A stage**: what is shown of its own part, with memory and the other parts as they were. -/
theorem wp_stage {α : Type} {part : FilterPart} {p : Manager α} {Q : α → FilterKernel → Prop}
    (hp : Makes (About part) p) (hmem : k.kmem.AllOk)
    (hown : wp (roundWrite RoomForRule) (fun _ => True) p Q k) :
    wp (roundWrite RoomForRule) (fun _ => True) p
      (fun a k' => Q a k' ∧ k'.kmem.AllOk ∧ k'.without part = k.without part) k := by
  have hkeeps : wp (roundWrite RoomForRule) (fun k' => k'.kmem.AllOk ∧ k'.without part = k.without part) p
      (fun _ k' => k'.kmem.AllOk ∧ k'.without part = k.without part) k := by
    refine wp_of_makes hp ?_ ⟨hmem, rfl⟩
    rintro k1 w r k2 hw ⟨hmem1, h1⟩ ⟨⟨hcall, hhandle⟩, hroom⟩
    rw [hcall hroom.1] at hhandle
    replace hhandle := hhandle hroom.2.1
    have hpart := fwxConfigHandle_without hhandle
    rw [hw] at hpart
    exact ⟨fwxConfigHandle_allOk hmem1 hhandle, hpart.trans h1⟩
  exact wp_and hown hkeeps

/-! ## 7. What holds between the stages -/

/-- The kernel has the rules of both tables, these addresses and these whitelists. -/
structure LoopHolds (k : FilterKernel) (tables : RuleTables) (sets : Int → Set Mac) (appWhitelist macWhitelist : Set Mac) :
    Prop where
  policy : Holds (tablePolicy tables.app) k
  macs : MacsHold tables.mac k sets
  appWhitelist : Represents k.config.gAppFilterWhitelist appWhitelist
  macWhitelist : Represents k.config.gMacFilterWhitelist macWhitelist

namespace LoopHolds

variable {tables : RuleTables} {sets : Int → Set Mac} {A M : Set Mac}

theorem of_appRules (h : LoopHolds k tables sets A M) {app : LuaTable AppRuleState}
    (hpolicy : Holds (tablePolicy app) k') (hwithout : k'.without .appRules = k.without .appRules) :
    LoopHolds k' { tables with app } sets A M where
  policy := hpolicy
  macs := ⟨hpolicy.2, h.macs.rules.of_same (congrArg (·.config.macFilterRuleList) hwithout), h.macs.stored⟩
  appWhitelist := (congrArg (·.config.gAppFilterWhitelist) hwithout : _ = _) ▸ h.appWhitelist
  macWhitelist := (congrArg (·.config.gMacFilterWhitelist) hwithout : _ = _) ▸ h.macWhitelist

theorem of_macRules (h : LoopHolds k tables sets A M) {mac : LuaTable MacRuleState} {sets' : Int → Set Mac}
    (hmacs : MacsHold mac k' sets') (hwithout : k'.without .macRules = k.without .macRules) :
    LoopHolds k' { tables with mac } sets' A M where
  policy := ⟨h.policy.1.of_same (congrArg (·.config.appFilterRuleList) hwithout) (congrArg (·.gAppRuleCount) hwithout),
    hmacs.memory⟩
  macs := hmacs
  appWhitelist := (congrArg (·.config.gAppFilterWhitelist) hwithout : _ = _) ▸ h.appWhitelist
  macWhitelist := (congrArg (·.config.gMacFilterWhitelist) hwithout : _ = _) ▸ h.macWhitelist

theorem of_appWhitelist (h : LoopHolds k tables sets A M) {A' : Set Mac} (hmem : k'.kmem.AllOk)
    (hlist : Represents k'.config.gAppFilterWhitelist A') (hwithout : k'.without .appWhitelist = k.without .appWhitelist) :
    LoopHolds k' tables sets A' M where
  policy := ⟨h.policy.1.of_same (congrArg (·.config.appFilterRuleList) hwithout) (congrArg (·.gAppRuleCount) hwithout),
    hmem⟩
  macs := ⟨hmem, h.macs.rules.of_same (congrArg (·.config.macFilterRuleList) hwithout), h.macs.stored⟩
  appWhitelist := hlist
  macWhitelist := (congrArg (·.config.gMacFilterWhitelist) hwithout : _ = _) ▸ h.macWhitelist

theorem of_macWhitelist (h : LoopHolds k tables sets A M) {M' : Set Mac} (hmem : k'.kmem.AllOk)
    (hlist : Represents k'.config.gMacFilterWhitelist M') (hwithout : k'.without .macWhitelist = k.without .macWhitelist) :
    LoopHolds k' tables sets A M' where
  policy := ⟨h.policy.1.of_same (congrArg (·.config.appFilterRuleList) hwithout) (congrArg (·.gAppRuleCount) hwithout),
    hmem⟩
  macs := ⟨hmem, h.macs.rules.of_same (congrArg (·.config.macFilterRuleList) hwithout), h.macs.stored⟩
  appWhitelist := (congrArg (·.config.gAppFilterWhitelist) hwithout : _ = _) ▸ h.appWhitelist
  macWhitelist := hlist

end LoopHolds

/-! ## 8. What each stage does -/

variable {tables : RuleTables} {sets : Int → Set Mac} {A M : Set Mac}

/-- A whitelist that is applied has the addresses of its texts. -/
theorem wp_applyWhitelist_represents {flush : FilterCall} {add : RuleRequest → FilterCall}
    {get : FilterKernel → MacConfig} (hflush : ∀ k k', fwxConfigHandle k flush = some k' → get k' = fwxMacConfigInit)
    (hadd : ∀ k k' macs, fwxConfigHandle k (add { macList := some macs }) = some k' →
      get k' = (addMacList k.kmem (get k) macs).1)
    (macList : List CStr) (hmem : k.kmem.AllOk) :
    wp (roundWrite RoomForRule) (fun _ => True) (applyWhitelist flush add macList)
      (fun _ k' => Represents (get k') (macSet macList)) k := by
  rw [applyWhitelist, wp_bind]
  refine wp_roundWrite fun k1 _ h1 => ?_
  have hempty := hflush k k1 h1
  split
  · rename_i hnil
    subst hnil
    rw [wp_pure, hempty]
    exact represents_macSet_nil
  · refine wp_roundWrite fun k2 _ h2 => ?_
    rw [hadd k1 k2 _ h2, hempty]
    exact represents_addMacList (fwxConfigHandle_allOk hmem h1) macList

theorem wp_applyAppfilterWhitelist_represents (macList : List CStr) (hmem : k.kmem.AllOk) :
    wp (roundWrite RoomForRule) (fun _ => True) (applyAppfilterWhitelist macList)
      (fun _ k' => Represents k'.config.gAppFilterWhitelist (macSet macList)) k := by
  refine wp_applyWhitelist_represents (fun k k' h => ?_) (fun k k' macs h => ?_) macList hmem <;>
  · obtain rfl := Option.some.inj h
    rfl

theorem wp_applyMacfilterWhitelist_represents (macList : List CStr) (hmem : k.kmem.AllOk) :
    wp (roundWrite RoomForRule) (fun _ => True) (applyMacfilterWhitelist macList)
      (fun _ k' => Represents k'.config.gMacFilterWhitelist (macSet macList)) k := by
  refine wp_applyWhitelist_represents (fun k k' h => ?_) (fun k k' macs h => ?_) macList hmem <;>
  · obtain rfl := Option.some.inj h
    rfl

/-- A whitelist stage: the whitelist becomes the one that is loaded, if one is. -/
theorem wp_reloadWhitelist {apply : List CStr → Manager Bool} {part : FilterPart} {get : FilterKernel → MacConfig}
    (hmakes : ∀ macs, Makes (About part) (apply macs))
    (happly : ∀ k macs, k.kmem.AllOk → wp (roundWrite RoomForRule) (fun _ => True) (apply macs)
      (fun _ k' => Represents (get k') (macSet macs)) k)
    (sections : Option (List CStr)) (hmem : k.kmem.AllOk) (h : Represents (get k) A) :
    wp (roundWrite RoomForRule) (fun _ => True) (reloadWhitelist apply sections)
      (fun _ k' => Represents (get k') ((sections.map macSet).getD A) ∧ k'.kmem.AllOk ∧
        k'.without part = k.without part) k := by
  cases sections with
  | none => exact ⟨h, hmem, rfl⟩
  | some sections =>
    rw [reloadWhitelist, wp_bind]
    refine wp_mono (wp_stage (hmakes _) hmem (happly k _ hmem)) (fun _ => id) fun _ k' hdone => ?_
    rw [macSet_loadAppfilterWhitelist] at hdone
    exact hdone

theorem wp_reloadAppfilterWhitelist (h : LoopHolds k tables sets A M) (sections : Option (List CStr)) :
    wp (roundWrite RoomForRule) (fun _ => True) (reloadWhitelist applyAppfilterWhitelist sections)
      (fun _ k' => LoopHolds k' tables sets ((sections.map macSet).getD A) M) k := by
  refine wp_mono (wp_reloadWhitelist makes_applyAppfilterWhitelist (fun k macs hk => wp_applyAppfilterWhitelist_represents macs hk) sections
    h.policy.2 h.appWhitelist) (fun _ => id) fun _ k' hdone => ?_
  exact h.of_appWhitelist hdone.2.1 hdone.1 hdone.2.2

theorem wp_reloadMacfilterWhitelist (h : LoopHolds k tables sets A M) (sections : Option (List CStr)) :
    wp (roundWrite RoomForRule) (fun _ => True) (reloadWhitelist applyMacfilterWhitelist sections)
      (fun _ k' => LoopHolds k' tables sets A ((sections.map macSet).getD M)) k := by
  refine wp_mono (wp_reloadWhitelist makes_applyMacfilterWhitelist (fun k macs hk => wp_applyMacfilterWhitelist_represents macs hk) sections
    h.policy.2 h.macWhitelist) (fun _ => id) fun _ k' hdone => ?_
  exact h.of_macWhitelist hdone.2.1 hdone.1 hdone.2.2

/-- After `flush_appfilter_rules` the kernel has no app-filter rule. -/
theorem holds_flush (hmem : k.kmem.AllOk) (hcall : fwxConfigHandle k .flushAppFilterRule = some k') :
    Holds (fun _ => none) k' := by
  refine ⟨?_, fwxConfigHandle_allOk hmem hcall⟩
  obtain rfl := Option.some.inj hcall
  exact ⟨List.nodup_nil, rfl, fun _ => .none⟩

theorem wp_reinitAppfilterRules (h : LoopHolds k tables sets A M) (reinit : Option (List AppRule)) :
    wp (roundWrite RoomForRule) (fun _ => True) (reinitAppfilterRules tables.app reinit)
      (fun app k' => app = (reinit.map initAppfilterState).getD tables.app ∧
        LoopHolds k' { tables with app } sets A M) k := by
  have hown : wp (roundWrite RoomForRule) (fun _ => True) (reinitAppfilterRules tables.app reinit)
      (fun app k' => app = (reinit.map initAppfilterState).getD tables.app ∧ Holds (tablePolicy app) k') k := by
    cases reinit with
    | none => exact ⟨rfl, h.policy⟩
    | some rules =>
      rw [reinitAppfilterRules, flushAppfilterRules, wp_bind]
      refine wp_roundWrite fun k1 _ h1 => ⟨rfl, ?_⟩
      rw [tablePolicy_initAppfilterState]
      exact holds_flush h.policy.2 h1
  refine wp_mono (wp_stage (makes_reinitAppfilterRules _ _) h.policy.2 hown) (fun _ => id) fun app k' hdone => ?_
  exact ⟨hdone.1.1, h.of_appRules hdone.1.2 hdone.2.2⟩

/-- No list has been stored. -/
theorem lookup_initMacfilterState (rules : List MacRule) :
    ∀ i state, (initMacfilterState rules).lookup i = some state → state.macList = none := by
  have hfold : ∀ table : LuaTable MacRuleState,
      (∀ i state, table.lookup i = some state → state.macList = none) →
      ∀ i state, (rules.foldl (fun table rule => table.insert rule.id {}) table).lookup i = some state →
        state.macList = none := by
    induction rules with
    | nil => exact fun _ h => h
    | cons rule rest ih =>
      intro table h
      refine ih (table.insert rule.id {}) fun i state hstate => ?_
      by_cases hi : i = rule.id
      · rw [hi, AList.lookup_insert] at hstate
        obtain rfl := Option.some.inj hstate
        rfl
      · rw [AList.lookup_insert_ne hi] at hstate
        exact h i state hstate
  exact hfold ∅ fun _ _ h => absurd h (Option.some_ne_none _).symm

/-- A rule is created, with memory and room. -/
theorem addMacFilterRule_of_room (hmem : k.kmem.AllOk) (hroom : k.gMacRuleCount < MAX_MAC_FILTER_RULE_NUM)
    (hnew : ruleId ∉ k.config.macFilterRuleList.map MacFilterRule.ruleId)
    (hcall : fwxConfigHandle k (.addMacFilterRule {
      ruleId := ruleId, mode := some (macFilterMode MAC_FILTER_MODE_SINGLE_USER) }) = some k') :
    k'.config.macFilterRuleList = { ruleId := ruleId, mode := MAC_FILTER_MODE_SINGLE_USER } ::
      k.config.macFilterRuleList ∧ k'.gMacRuleCount = k.gMacRuleCount + 1 := by
  have hfind : fwxFindMacFilterRule k ruleId = none := by
    rw [fwxFindMacFilterRule, List.find?_eq_none]
    exact fun rule hrule heq => hnew (List.mem_map.mpr ⟨rule, hrule, eq_of_beq heq⟩)
  have hgranted : k.kmem.kzalloc.1 = true := hmem _
  obtain rfl := Option.some.inj hcall
  simp only [fwxApiAddMacFilterRule, fwxAddMacFilterRule, if_neg (not_le.mpr hroom), hfind, Option.isSome_none,
    Bool.false_eq_true, if_false, hgranted, if_true]
  exact ⟨rfl, trivial⟩

/-- The two effective rules are created where no rule is. -/
theorem wp_initEffectiveMacRules (hmem : k.kmem.AllOk) (hnil : k.config.macFilterRuleList = [])
    (hcount : k.gMacRuleCount = 0) (rules : List MacRule) :
    wp (roundWrite RoomForRule) (fun _ => True) initEffectiveMacRules
      (fun _ k' => MacsHold (initMacfilterState rules) k' fun _ => ∅) k := by
  rw [initEffectiveMacRules, createMacfilterRule, createMacfilterRule, wp_bind]
  refine wp_roundWrite fun k1 _ h1 => ?_
  rw [wp_bind]
  refine wp_roundWrite fun k2 _ h2 => ?_
  have hmem1 := fwxConfigHandle_allOk hmem h1
  obtain ⟨hrules1, hcount1⟩ := addMacFilterRule_of_room hmem (by rw [hcount]; decide) (by rw [hnil]; decide) h1
  obtain ⟨hrules2, -⟩ := addMacFilterRule_of_room hmem1 (by rw [hcount1, hcount]; decide)
    (by rw [hrules1, hnil]; decide) h2
  rw [hrules1, hnil] at hrules2
  have hnew : ∀ i rule, fwxFindMacFilterRule k2 i = some rule →
      rule.mode = MAC_FILTER_MODE_SINGLE_USER ∧ rule.macList = fwxMacConfigInit := by
    intro i rule hrule
    have hmem := List.mem_of_find?_eq_some hrule
    rw [hrules2] at hmem
    rcases List.mem_cons.mp hmem with rfl | hmem
    · exact ⟨rfl, rfl⟩
    · rw [List.mem_singleton.mp hmem]
      exact ⟨rfl, rfl⟩
  rw [wp_pure]
  refine ⟨fwxConfigHandle_allOk hmem1 h2, ⟨?_, fun i rule h => (hnew i rule h).1, fun i rule h => ?_⟩, ?_⟩
  · rw [hrules2]
    rfl
  · rw [(hnew i rule h).2]
    exact represents_init
  · intro i state old hstate hold
    rw [lookup_initMacfilterState rules i state hstate] at hold
    exact absurd hold (Option.some_ne_none old).symm

theorem wp_reinitMacfilterRules (h : LoopHolds k tables sets A M) (reinit : Option (List MacRule)) :
    wp (roundWrite RoomForRule) (fun _ => True) (reinitMacfilterRules tables.mac reinit)
      (fun mac k' => ∃ sets', LoopHolds k' { tables with mac } sets' A M) k := by
  have hown : wp (roundWrite RoomForRule) (fun _ => True) (reinitMacfilterRules tables.mac reinit)
      (fun mac k' => ∃ sets', MacsHold mac k' sets') k := by
    cases reinit with
    | none => exact ⟨sets, h.macs⟩
    | some rules =>
      rw [reinitMacfilterRules, flushMacfilterRules, wp_bind]
      refine wp_roundWrite fun k1 _ h1 => ?_
      have hmem1 := fwxConfigHandle_allOk h.policy.2 h1
      obtain rfl := Option.some.inj h1
      rw [wp_bind]
      exact wp_mono (wp_initEffectiveMacRules hmem1 rfl rfl rules) (fun _ => id) fun _ _ hdone => ⟨_, hdone⟩
  refine wp_mono (wp_stage (makes_reinitMacfilterRules _ _) h.policy.2 hown) (fun _ => id) ?_
  rintro mac k' ⟨⟨sets', hmacs⟩, -, hwithout⟩
  exact ⟨sets', h.of_macRules hmacs hwithout⟩

theorem wp_processAppfilterRules_loop (h : LoopHolds k tables sets A M) {turn : Turn} (hvalid : turn.round.Valid)
    (hmissed : ∀ rule ∈ turn.rules, NoMissedChange turn.now tables.app rule) :
    wp (roundWrite RoomForRule) (fun _ => True) (processAppfilterRules turn.pairs turn.now turn.rules tables.app)
      (fun app k' => LoopHolds k' { tables with app } sets A M ∧
        tablePolicy app = wantedPolicy turn.rules turn.now) k := by
  have hround : RoundOk ⟨k, tables.app⟩ turn.round := ⟨hvalid, hmissed⟩
  refine wp_mono (wp_stage (makes_processAppfilterRules _ _ _ _) h.policy.2
    (wp_processAppfilterRules hround h.policy)) (fun _ => id) fun app k' hdone => ?_
  exact ⟨h.of_appRules hdone.1.1 hdone.2.2, hdone.1.2⟩

theorem wp_processMacfilterRules_loop (h : LoopHolds k tables sets A M) (turn : Turn) :
    wp (roundWrite RoomForRule) (fun _ => True)
      (processMacfilterRules turn.info turn.stats turn.macRules turn.blacklist tables.mac)
      (fun mac k' => ∃ sets', LoopHolds k' { tables with mac } sets' A M ∧
        sets' SINGLE_MAC_FILTER_RULE_ID = macSet (regularMacSet turn.macRules turn.info turn.stats) ∧
        sets' BLACKLIST_MAC_FILTER_RULE_ID = macSet turn.blacklist) k := by
  refine wp_mono (wp_stage (makes_processMacfilterRules _ _ _ _ _) h.policy.2
    (wp_processMacfilterRules turn.info turn.stats turn.macRules turn.blacklist h.macs)) (fun _ => id) ?_
  rintro mac k' ⟨⟨sets', hmacs, hsingle, hblack⟩, -, hwithout⟩
  exact ⟨sets', h.of_macRules hmacs hwithout, hsingle, hblack⟩

/-! ## 9. Turns -/

/-- The state after a turn: what is wanted is what the kernel has. -/
structure StateWanted (k : FilterKernel) (tables : RuleTables) (w : Wanted) : Prop where
  sets : ∃ sets, LoopHolds k tables sets w.appWhitelist w.macWhitelist ∧
    sets SINGLE_MAC_FILTER_RULE_ID ∪ sets BLACKLIST_MAC_FILTER_RULE_ID = w.macs
  policy : tablePolicy tables.app = w.policy

/-- **One turn.** -/
theorem wp_turn {w : Wanted} {turn : Turn} (h : StateWanted k tables w) (hok : TurnOk ⟨k, tables⟩ turn) :
    wp (roundWrite RoomForRule) (fun _ => True) (turn.program tables)
      (fun tables' k' => StateWanted k' tables' (turn.wanted w)) k := by
  obtain ⟨hvalid, hmissed⟩ := hok
  obtain ⟨sets, h, -⟩ := h.sets
  rw [Turn.program, wp_bind]
  refine wp_mono (wp_reloadAppfilterWhitelist h _) (fun _ => id) fun _ k1 h1 => ?_
  rw [wp_bind]
  refine wp_mono (wp_reloadMacfilterWhitelist h1 _) (fun _ => id) fun _ k2 h2 => ?_
  rw [wp_bind]
  refine wp_mono (wp_reinitAppfilterRules h2 _) (fun _ => id) ?_
  rintro app k3 ⟨rfl, h3⟩
  rw [wp_bind]
  refine wp_mono (wp_reinitMacfilterRules h3 _) (fun _ => id) ?_
  rintro mac k4 ⟨sets4, h4⟩
  rw [wp_bind]
  refine wp_mono (wp_processAppfilterRules_loop h4 hvalid hmissed) (fun _ => id) ?_
  rintro app k5 ⟨h5, hpolicy⟩
  rw [wp_bind]
  refine wp_mono (wp_processMacfilterRules_loop h5 turn) (fun _ => id) ?_
  rintro mac k6 ⟨sets6, h6, hsingle, hblack⟩
  rw [wp_pure]
  refine ⟨⟨sets6, h6, ?_⟩, hpolicy⟩
  rw [hsingle, hblack]
  rfl

/-- **The start.** -/
theorem wp_start {start : Start} (hmem : k.kmem.AllOk) :
    wp (roundWrite RoomForRule) (fun _ => True) start.program
      (fun tables k' => StateWanted k' tables start.wanted) k := by
  rw [Start.program, initializeRules, flushAllRules, wp_bind, wp_bind, wp_bind]
  refine wp_roundWrite fun k1 _ h1 => ?_
  rw [wp_bind]
  refine wp_roundWrite fun k2 _ h2 => ?_
  rw [wp_bind]
  refine wp_roundWrite fun k3 _ h3 => ?_
  rw [wp_bind]
  refine wp_roundWrite fun k4 _ h4 => ?_
  have hmem4 : k4.kmem.AllOk :=
    fwxConfigHandle_allOk (fwxConfigHandle_allOk (fwxConfigHandle_allOk (fwxConfigHandle_allOk hmem h1) h2) h3) h4
  have hclear : PolicyOk (k4, fun _ => none) ∧ k4.config.macFilterRuleList = [] ∧ k4.gMacRuleCount = 0 ∧
      k4.config.gAppFilterWhitelist = fwxMacConfigInit ∧ k4.config.gMacFilterWhitelist = fwxMacConfigInit := by
    obtain rfl := Option.some.inj h1
    obtain rfl := Option.some.inj h2
    obtain rfl := Option.some.inj h3
    obtain rfl := Option.some.inj h4
    exact ⟨⟨List.nodup_nil, rfl, fun _ => .none⟩, rfl, rfl, rfl, rfl⟩
  obtain ⟨hpolicy4, hnil4, hcount4, happ4, hmac4⟩ := hclear
  rw [wp_pure, wp_bind]
  refine wp_mono (wp_stage makes_initEffectiveMacRules hmem4
    (wp_initEffectiveMacRules hmem4 hnil4 hcount4 start.macRules)) (fun _ => id) ?_
  rintro _ k5 ⟨hmacs, hmem5, hwithout⟩
  -- the kernel has the two effective rules, and nothing else
  have h5 : LoopHolds k5 ⟨initAppfilterState start.rules, initMacfilterState start.macRules⟩ (fun _ => ∅) ∅ ∅ := by
    refine ⟨⟨?_, hmem5⟩, hmacs, ?_, ?_⟩
    · rw [tablePolicy_initAppfilterState]
      exact hpolicy4.of_same (congrArg (·.config.appFilterRuleList) hwithout) (congrArg (·.gAppRuleCount) hwithout)
    · have hsame : k5.config.gAppFilterWhitelist = _ := congrArg (·.config.gAppFilterWhitelist) hwithout
      rw [hsame]
      exact happ4 ▸ represents_init
    · have hsame : k5.config.gMacFilterWhitelist = _ := congrArg (·.config.gMacFilterWhitelist) hwithout
      rw [hsame]
      exact hmac4 ▸ represents_init
  rw [wp_bind]
  refine wp_mono (wp_stage (makes_applyAppfilterWhitelist _) hmem5
    (wp_applyAppfilterWhitelist_represents _ hmem5)) (fun _ => id) ?_
  rintro _ k6 ⟨hlist6, hmem6, hwithout6⟩
  have h6 := h5.of_appWhitelist hmem6 hlist6 hwithout6
  rw [wp_bind]
  refine wp_mono (wp_stage (makes_applyMacfilterWhitelist _) hmem6
    (wp_applyMacfilterWhitelist_represents _ hmem6)) (fun _ => id) ?_
  rintro _ k7 ⟨hlist7, hmem7, hwithout7⟩
  have h7 := h6.of_macWhitelist hmem7 hlist7 hwithout7
  rw [macSet_loadAppfilterWhitelist, macSet_loadAppfilterWhitelist] at h7
  rw [wp_pure, wp_pure]
  exact ⟨⟨_, h7, Set.union_empty _⟩, tablePolicy_initAppfilterState start.rules⟩

theorem StateWanted.enforced {w : Wanted} (h : StateWanted k tables w) : Enforced k w := by
  obtain ⟨sets, hholds, hmacs⟩ := h.sets
  have hpolicy := h.policy ▸ hholds.policy.1
  refine ⟨fun appId mac => ?_, fun mac => ?_⟩
  · rw [matchAppFilterRule, ← hpolicy.matches_iff appId mac, ← hholds.appWhitelist mac]
    cases k.config.gAppfilterEnable <;> cases fwxFindMacNode k.config.gAppFilterWhitelist mac <;> simp
  · rw [matchMacFilterRule, ← hmacs, ← hholds.macs.rules.matches_iff mac, ← hholds.macWhitelist mac]
    cases k.config.gMacFilterEnable <;> cases fwxFindMacNode k.config.gMacFilterWhitelist mac <;> simp

/-! ## 10. Runs -/

/-- **The main loop enforces the configuration.**  In every run of turns whose writes are carried out, both filters
of the kernel give after each turn the verdicts that the rules, the blacklist and the whitelists ask for. -/
theorem main_loop_enforces {k : FilterKernel} {start : Start} {s t : LoopState} {turns : List Turn}
    (hmem : k.kmem.AllOk) (hstart : Ends (roundWrite RoomForRule) start.program k s.tables s.kernel)
    (hrun : Path turnStep TurnOk s turns t) :
    Enforced t.kernel (turns.foldl (fun w turn => turn.wanted w) start.wanted) := by
  have hinit : StateWanted s.kernel s.tables start.wanted := hstart.wp (wp_start hmem)
  clear hstart
  generalize start.wanted = w at hinit ⊢
  have hend : StateWanted t.kernel t.tables (turns.foldl (fun w turn => turn.wanted w) w) := by
    induction hrun generalizing w with
    | nil s => exact hinit
    | cons hok hstep _ ih => exact ih _ (hstep.wp (wp_turn hinit hok))
  exact hend.enforced

/-! ## 11. A rule for Mondays, and a guest on the blacklist -/

def emptyStart : Start := ⟨[], [], [], []⟩

theorem monday_lt : 1 < 7 := by decide

def blacklistTurn : Turn where
  pairs := AList.keys
  weekday := ⟨1, monday_lt⟩
  minutes := 600
  rules := [mondayApps [.lit "1001", .lit "1002"]]
  macRules := []
  blacklist := [.lit "02:00:00:00:00:a7"]
  stats := none

/-- The kernel of a request that sets the list of a rule. -/
def setRuleMacs (k : FilterKernel) (ruleId : Int) (macList : List CStr) : FilterKernel :=
  let k := fwxApiModMacFilterRule k { ruleId := ruleId, mode := some 2, macAction := some 0 }
  if macList = [] then k
  else fwxApiModMacFilterRule k {
    ruleId := ruleId, mode := some 2, macAction := some 1, macList := some (macList.map some) }

theorem ends_setMacfilterRuleMacList (k : FilterKernel) (ruleId : Int) {macList : List CStr}
    (hplain : macList.all jsonPlain = true) :
    Ends (roundWrite RoomForRule) (setMacfilterRuleMacList ruleId macList MAC_FILTER_MODE_SINGLE_USER) k true
      (setRuleMacs k ruleId macList) := by
  rw [setRuleMacs]
  refine .ask ⟨.done (fun _ => rfl) fun _ => rfl, rfl, rfl, fun _ h => by cases h⟩ ?_
  change Ends _ (if macList = [] then pure true else _) _ _ _
  split
  · exact .ret _ _
  · exact .ask ⟨.done (fun _ => rfl) fun _ => rfl, hplain, rfl, fun _ h => by cases h⟩ (.ret _ _)

theorem ends_syncEffectiveMacRule (k : FilterKernel) {table : LuaTable MacRuleState} {macList : List CStr}
    (hneed : needUpdate (table.lookup ruleId) macList = true) (hplain : macList.all jsonPlain = true) :
    Ends (roundWrite RoomForRule) (syncEffectiveMacRule table ruleId macList) k
      (true, table.insert ruleId { active := 0 < macList.length, macList := some macList })
      (setRuleMacs k ruleId macList) := by
  rw [syncEffectiveMacRule, if_pos hneed]
  exact Ends.bind (ends_setMacfilterRuleMacList k ruleId hplain) (.ret _ _)

def blacklisted : LoopState where
  kernel := setRuleMacs (setRuleMacs bothBlocked.kernel 101 []) 102 [.lit "02:00:00:00:00:A7"]
  tables := ⟨bothBlocked.table, (AList.insert 101 ⟨false, some []⟩ ∅).insert 102 ⟨true, some [.lit "02:00:00:00:00:A7"]⟩⟩

theorem blacklistTurn_step : turnStep ⟨initialized, ⟨∅, ∅⟩⟩ blacklistTurn blacklisted := by
  have hsync : ∀ k, Ends (roundWrite RoomForRule) (processMacfilterRules blacklistTurn.info none []
      blacklistTurn.blacklist ∅) k blacklisted.tables.mac
      (setRuleMacs (setRuleMacs k 101 []) 102 [.lit "02:00:00:00:00:A7"]) := by
    intro k
    have hregular : sortedKeys (regularMacSet [] blacklistTurn.info none) = [] := by decide
    have hblack : sortedKeys (loadMacBlacklist blacklistTurn.blacklist) = [.lit "02:00:00:00:00:A7"] := by decide
    rw [processMacfilterRules, hregular, hblack]
    exact Ends.bind (ends_syncEffectiveMacRule k (by decide) (by decide))
      (Ends.bind (ends_syncEffectiveMacRule _ (by decide) (by decide)) (.ret _ _))
  have happ : Ends (roundWrite RoomForRule) (processAppfilterRules blacklistTurn.pairs blacklistTurn.now
      blacklistTurn.rules ∅) initialized bothBlocked.table bothBlocked.kernel := bothBlocked_step
  exact Ends.bind (.ret _ _) (Ends.bind (.ret _ _) (Ends.bind (.ret _ _) (Ends.bind (.ret _ _)
    (Ends.bind happ (Ends.bind (hsync _) (.ret _ _))))))

theorem main_loop_enforces_blacklist :
    Enforced blacklisted.kernel (blacklistTurn.wanted emptyStart.wanted) := by
  have hstart : Ends (roundWrite RoomForRule) emptyStart.program { kmem := freeMemory } ⟨∅, ∅⟩ initialized :=
    Ends.bind ends_initializeRules (.ret _ _)
  have hok : TurnOk ⟨initialized, ⟨∅, ∅⟩⟩ blacklistTurn :=
    ⟨@mondayRound_valid [.lit "1001", .lit "1002"] (by decide), fun rule _ state hstate =>
      absurd hstate (Option.some_ne_none state).symm⟩
  exact main_loop_enforces (s := ⟨initialized, ⟨∅, ∅⟩⟩) (fun _ => rfl) hstart (.cons hok blacklistTurn_step (.nil _))

end Oaf
