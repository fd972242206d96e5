/-
# What is shown and what is enforced

A MAC-filter rule is evaluated twice: by fwxd for the status page (`pc_is_rule_applicable`, then
`pc_build_macfilter_rule`) and by the rule manager for the kernel (`process_macfilter_rules`).  Both see the
rule, the moment, and how long each client was active today.

They part in five places.  A window over midnight belongs to yesterday's weekday behind midnight for fwxd,
and to today's for the rule manager.  fwxd refuses a time that is no clock time, such as 24:00, and the rule
manager takes it, or takes a time out of the middle of a text.  A mode other than 1 and 2 is for all or for
one user in fwxd, and for nobody in the rule manager.  The rule manager looks up the minutes of a single user
under the rule's own spelling of the address.  And fwxd's minutes are an `int`.

Both are taken to have loaded the same rule; where their readers differ is the matter of `Limits` and
`TimeRules`.

* `pcMacBlocked_iff`, `enforcedBlocked_iff`: the verdict of either side in terms of the rule.
* `shown_iff_enforced`: exactly when the two agree.
* `LoadedRange.Reads.onlyShown`, `LoadedRange.Reads.onlyEnforced`: the two mornings they dispute.
-/
import Oaf.MacFilter.TimeRules

namespace Oaf.MacFilter

open CLib

/-! ## 1. fwxd -/

/-- `%d` of `sscanf`. -/
def sscanfInt (text : List UInt8) : Option (Int × List UInt8) :=
  let r := strtol10 text
  if r.rest = text then none else some (Kernel.toInt32 r.value, r.rest)

/-- `pc_parse_time_minutes`. -/
def pcParseTimeMinutes (timeStr : List UInt8) : Option Int :=
  match sscanfInt timeStr with
  | some (hour, 58 :: rest) =>
    match sscanfInt rest with
    | some (minute, _) =>
      if hour < 0 ∨ 23 < hour ∨ minute < 0 ∨ 59 < minute then none else some (hour * 60 + minute)
    | none => none
  | _ => none

/-- One element of the loop of `pc_is_time_rule_matched`. -/
def pcTimeRuleMatches (rule : TimeRuleObj) (currentWeekday currentMinutes : Int) : Bool :=
  let prevWeekday := (currentWeekday + 6) % 7
  match rule.value with
  | .times startTime endTime =>
    match pcParseTimeMinutes startTime, pcParseTimeMinutes endTime with
    | some startMinutes, some endMinutes =>
      if startMinutes ≤ endMinutes then
        decide (currentWeekday ∈ rule.weekdays) && decide (startMinutes ≤ currentMinutes) &&
          decide (currentMinutes ≤ endMinutes)
      else
        (decide (currentWeekday ∈ rule.weekdays) && decide (startMinutes ≤ currentMinutes)) ||
          (decide (prevWeekday ∈ rule.weekdays) && decide (currentMinutes ≤ endMinutes))
    | _, _ => false
  | _ => false

/-- `pc_is_time_rule_matched`. -/
def pcIsTimeRuleMatched (timeRules : List TimeRuleObj) (currentWeekday currentMinutes : Int) : Bool :=
  timeRules.any (fun rule => pcTimeRuleMatches rule currentWeekday currentMinutes)

/-- What `pc_get_today_limit` brings back. -/
structure TodayLimit where
  hasTodayRule : Bool
  limitValue : Int
  hasUnlimited : Bool
deriving DecidableEq

/-- The loop of `pc_get_today_limit`; `minLimit` is what was found so far. -/
def pcTodayLimitFrom (field : TimeRuleValue → Int) (currentWeekday : Int) (hasTodayRule : Bool)
    (minLimit : Option Int) : List TimeRuleObj → TodayLimit
  | [] => ⟨hasTodayRule, minLimit.getD 0, false⟩
  | rule :: timeRules =>
    if currentWeekday ∈ rule.weekdays then
      let value := field rule.value
      if value ≤ 0 then ⟨true, 0, true⟩
      else
        let minLimit := match minLimit with
          | some limit => if value < limit then value else limit
          | none => value
        pcTodayLimitFrom field currentWeekday true (some minLimit) timeRules
    else pcTodayLimitFrom field currentWeekday hasTodayRule minLimit timeRules

/-- `pc_get_today_limit`. -/
def pcGetTodayLimit (field : TimeRuleValue → Int) (timeRules : List TimeRuleObj)
    (currentWeekday : Int) : TodayLimit := pcTodayLimitFrom field currentWeekday false none timeRules

/-- `duration_minutes` and `flow_mb` of an element; an absent field is 0. -/
def durationField : TimeRuleValue → Int
  | .durationMinutes minutes => minutes
  | _ => 0

def flowField : TimeRuleValue → Int
  | .flowMb mb => mb
  | _ => 0

/-- What a client has used today. -/
structure TodayUsage where
  activeTime : Nat
  upBytes : Nat
  downBytes : Nat

/-- `used_flow_mb`, in hundredths. -/
def usedFlowCentiMb (usage : TodayUsage) : Nat :=
  ((usage.upBytes + usage.downBytes) * 100 + 2 ^ 19) / 2 ^ 20

/-- The permission of `pc_build_macfilter_rule` is `mac_blocked`. -/
def pcMacBlocked (timeMode : TimeMode) (timeRules : List TimeRuleObj) (usage : TodayUsage)
    (currentWeekday currentMinutes : Int) : Bool :=
  match timeMode with
  | .duration =>
    let limit := pcGetTodayLimit durationField timeRules currentWeekday
    let usedMinutes := Kernel.toInt32 (usage.activeTime / 60 : Nat)
    let limitMinutes := Kernel.toInt32 limit.limitValue
    limit.hasTodayRule && !limit.hasUnlimited && decide (0 < limitMinutes) &&
      decide (limitMinutes < usedMinutes)
  | .flow =>
    let limit := pcGetTodayLimit flowField timeRules currentWeekday
    limit.hasTodayRule && !limit.hasUnlimited && decide (0 < limit.limitValue) &&
      decide (limit.limitValue * 100 < usedFlowCentiMb usage)
  | .range => pcIsTimeRuleMatched timeRules currentWeekday currentMinutes

/-- `pc_is_rule_applicable`. -/
def pcIsRuleApplicable (mode : Int) (userMac targetMac : List UInt8) : Bool :=
  if targetMac = [] then false
  else if mode = 1 then true
  else if mode = 2 then decide (userMac ≠ []) && caseEq userMac targetMac
  else decide (userMac = []) || caseEq userMac targetMac

/-! ## 2. The rule manager -/

/-- `get_current_time_info`, as far as it is used. -/
structure CurrentInfo where
  weekday : Nat
  minutes : Nat

/-- `is_time_in_range` at this time. -/
def isTimeInRange (timeRules : List LuaTimeRule) (info : CurrentInfo) : Bool :=
  Oaf.isTimeInRange timeRules (info.weekday : Rat) info.minutes

/-- The loop over the limits of one rule, for one client. -/
def luaExceeded (weekday : Nat) (used : Rat) : List LuaLimitRule → Bool
  | [] => false
  | rule :: rules =>
    if (weekday : Rat) ∈ rule.weekdays then
      if rule.limit ≤ 0 then false
      else if rule.limit < used then true
      else luaExceeded weekday used rules
    else luaExceeded weekday used rules

/-- An entry of `get_user_stat`. -/
structure UserStat where
  mac : List UInt8
  activeTime : Nat
  flowBytes : Nat

/-- `user_active_map[mac] or 0`: the last entry of that very name. -/
def userActive (stats : List UserStat) (mac : List UInt8) : Nat :=
  (lastEntry (fun stat : UserStat => some (stat.mac, stat.activeTime / 60)) mac stats).getD 0

/-- `user_flow_bytes_map[mac] or 0`. -/
def userFlowBytes (stats : List UserStat) (mac : List UInt8) : Nat :=
  (lastEntry (fun stat : UserStat => some (stat.mac, stat.flowBytes)) mac stats).getD 0

/-- `user_mac_list`. -/
def userMacList (stats : List UserStat) : List (List UInt8) :=
  (stats.map UserStat.mac).filter (· ≠ [])

/-- A rule of `load_macfilter_rules`. -/
structure LuaMacRule where
  enabled : Rat
  mode : Rat
  userMac : List UInt8
  times : LuaRuleTimes

/-- The addresses that a rule is about. -/
def LuaMacRule.targetMacs (rule : LuaMacRule) (stats : List UserStat) : List (List UInt8) :=
  if rule.mode = 1 then userMacList stats
  else if rule.mode = 2 ∧ rule.userMac ≠ [] then [rule.userMac]
  else []

/-- The addresses that an enabled rule adds to `regular_mac_set`. -/
def LuaMacRule.addedMacs (rule : LuaMacRule) (info : CurrentInfo) (stats : List UserStat) :
    List (List UInt8) :=
  if rule.times.timeMode = 2 then
    (rule.targetMacs stats).filter (fun mac =>
      luaExceeded info.weekday (userActive stats mac) rule.times.durationRules)
  else if rule.times.timeMode = 3 then
    (rule.targetMacs stats).filter (fun mac =>
      luaExceeded info.weekday ((userFlowBytes stats mac : Rat) / (1024 * 1024))
        rule.times.flowRules)
  else if isTimeInRange rule.times.timeRules info then rule.targetMacs stats
  else []

/-- `process_macfilter_rules`: the addresses in force, less the blacklist, with the statistics at hand. -/
def processMacfilterRules (rules : List LuaMacRule) (info : CurrentInfo) (stats : List UserStat) :
    List (List UInt8) :=
  (rules.filter (·.enabled = 1)).flatMap (fun rule => rule.addedMacs info stats)

/-! ## 3. A rule, as both sides have loaded it -/

/-- A window of a rule in range mode.  Its two texts can be anything. -/
structure LoadedRange where
  weekdays : List (Fin 7)
  startTime : List UInt8
  endTime : List UInt8

/-- A limit of a rule in duration mode. -/
structure LoadedLimit where
  weekdays : List (Fin 7)
  minutes : Nat
  minutes_lt : minutes < 2 ^ 31

inductive LoadedTimes where
  | range (windows : List LoadedRange)
  | duration (limits : List LoadedLimit)

def LoadedRange.fwxd (window : LoadedRange) : TimeRuleObj :=
  ⟨window.weekdays.map (fun d => (d.val : Int)), .times window.startTime window.endTime⟩

def LoadedRange.lua (window : LoadedRange) : LuaTimeRule :=
  ⟨window.weekdays.map (fun d => (d.val : Rat)), window.startTime, window.endTime⟩

def LoadedLimit.fwxd (limit : LoadedLimit) : TimeRuleObj :=
  ⟨limit.weekdays.map (fun d => (d.val : Int)), .durationMinutes limit.minutes⟩

def LoadedLimit.lua (limit : LoadedLimit) : LuaLimitRule :=
  ⟨limit.weekdays.map (fun d => (d.val : Rat)), limit.minutes⟩

/-- `time_mode` and `time_rules` for fwxd. -/
def LoadedTimes.fwxd : LoadedTimes → TimeMode × List TimeRuleObj
  | .range windows => (.range, windows.map LoadedRange.fwxd)
  | .duration limits => (.duration, limits.map LoadedLimit.fwxd)

/-- The same for the rule manager. -/
def LoadedTimes.lua : LoadedTimes → LuaRuleTimes
  | .range windows => ⟨1, windows.map LoadedRange.lua, [], []⟩
  | .duration limits => ⟨2, [], limits.map LoadedLimit.lua, []⟩

/-- An enabled rule, whose options both sides have loaded alike. -/
structure LoadedRule where
  options : TimeOptions
  mode : Int
  userMac : List UInt8
  times : LoadedTimes
  shown : getTimeRules options = times.fwxd
  enforced : loadTimeRules options = times.lua

/-- The rule in `load_macfilter_rules`. -/
def LoadedRule.lua (rule : LoadedRule) : LuaMacRule :=
  ⟨1, rule.mode, rule.userMac, loadTimeRules rule.options⟩

/-- The status page shows `mac_blocked` for the client `mac` because of the rule. -/
def ShownBlocked (rule : LoadedRule) (mac : List UInt8) (usage : TodayUsage) (weekday : Fin 7)
    (minutes : Nat) : Prop :=
  pcIsRuleApplicable rule.mode rule.userMac mac = true ∧
    pcMacBlocked (getTimeRules rule.options).1 (getTimeRules rule.options).2 usage
      (weekday.val : Nat) minutes = true

/-- The rule manager puts the address `mac`, in some spelling, in force because of the rule. -/
def EnforcedBlocked (rule : LoadedRule) (mac : List UInt8) (stats : List UserStat)
    (weekday : Fin 7) (minutes : Nat) : Prop :=
  ∃ added ∈ processMacfilterRules [rule.lua] ⟨weekday.val, minutes⟩ stats, caseEq added mac = true

/-! ## 4. Windows -/

/-- The window is open for fwxd: behind midnight it is yesterday's. -/
def LoadedRange.OpenForFwxd (window : LoadedRange) (weekday : Fin 7) (minutes : Nat) : Prop :=
  ∃ s e : Int, pcParseTimeMinutes window.startTime = some s ∧
    pcParseTimeMinutes window.endTime = some e ∧
    (s ≤ e ∧ weekday ∈ window.weekdays ∧ s ≤ minutes ∧ minutes ≤ e ∨
      e < s ∧ (weekday ∈ window.weekdays ∧ s ≤ minutes ∨
        weekday - 1 ∈ window.weekdays ∧ minutes ≤ e))

/-- The window is open for the rule manager: behind midnight it is today's. -/
def LoadedRange.OpenForManager (window : LoadedRange) (weekday : Fin 7) (minutes : Nat) : Prop :=
  ∃ s e : Nat, parseTime window.startTime = some s ∧ parseTime window.endTime = some e ∧
    weekday ∈ window.weekdays ∧
    (s ≤ e ∧ s ≤ minutes ∧ minutes ≤ e ∨ e < s ∧ (s ≤ minutes ∨ minutes ≤ e))

theorem weekday_mem_int (weekdays : List (Fin 7)) (d : Fin 7) :
    (d.val : Int) ∈ weekdays.map (fun d : Fin 7 => (d.val : Int)) ↔ d ∈ weekdays :=
  List.mem_map_of_injective (fun a b h => Fin.ext (by simpa using h))

theorem weekday_mem_rat (weekdays : List (Fin 7)) (d : Fin 7) :
    (d.val : Rat) ∈ weekdays.map (fun d : Fin 7 => (d.val : Rat)) ↔ d ∈ weekdays :=
  List.mem_map_of_injective (fun a b h => Fin.ext (by simpa using h))

theorem prevWeekday (d : Fin 7) : ((d.val : Int) + 6) % 7 = ((d - 1 : Fin 7).val : Int) := by
  revert d
  decide

theorem pcTimeRuleMatches_iff (window : LoadedRange) (weekday : Fin 7) (minutes : Nat) :
    pcTimeRuleMatches window.fwxd (weekday.val : Nat) minutes = true ↔
      window.OpenForFwxd weekday minutes := by
  unfold pcTimeRuleMatches LoadedRange.OpenForFwxd LoadedRange.fwxd
  dsimp only
  rw [prevWeekday]
  cases pcParseTimeMinutes window.startTime with
  | none => simp
  | some s =>
    cases pcParseTimeMinutes window.endTime with
    | none => simp
    | some e =>
      by_cases hse : s ≤ e
      · simp [weekday_mem_int, hse, not_lt.mpr hse, and_assoc]
      · simp [weekday_mem_int, hse, not_le.mp hse]

/-- **The windows of the status page.** -/
theorem pcIsTimeRuleMatched_iff (windows : List LoadedRange) (weekday : Fin 7) (minutes : Nat) :
    pcIsTimeRuleMatched (windows.map LoadedRange.fwxd) (weekday.val : Nat) minutes = true ↔
      ∃ window ∈ windows, window.OpenForFwxd weekday minutes := by
  rw [pcIsTimeRuleMatched, List.any_map, List.any_eq_true]
  exact exists_congr (fun w => and_congr_right (fun _ => pcTimeRuleMatches_iff w weekday minutes))

theorem timeRuleMatches_lua_iff (window : LoadedRange) (weekday : Fin 7) (minutes : Nat) :
    timeRuleMatches (weekday.val : Rat) minutes window.lua = true ↔ window.OpenForManager weekday minutes := by
  rw [timeRuleMatches_iff, LoadedRange.OpenForManager]
  simp only [LoadedRange.lua, weekday_mem_rat]

/-- **The windows of the rule manager.** -/
theorem isTimeInRange_iff (windows : List LoadedRange) (weekday : Fin 7) (minutes : Nat) :
    isTimeInRange (windows.map LoadedRange.lua) ⟨weekday.val, minutes⟩ = true ↔
      ∃ window ∈ windows, window.OpenForManager weekday minutes := by
  rw [isTimeInRange, Oaf.isTimeInRange, List.any_map, List.any_eq_true]
  exact exists_congr (fun w => and_congr_right (fun _ => timeRuleMatches_lua_iff w weekday minutes))

/-! ## 5. Limits -/

/-- Some limit of the day is exceeded. -/
def OverLimit (limits : List LoadedLimit) (weekday : Fin 7) (used : Int) : Prop :=
  ∃ limit ∈ limits, weekday ∈ limit.weekdays ∧ 0 < limit.minutes ∧ (limit.minutes : Int) < used

/-- No limit of the day is 0. -/
def NoneUnlimited (limits : List LoadedLimit) (weekday : Fin 7) : Prop :=
  ∀ limit ∈ limits, weekday ∈ limit.weekdays → 0 < limit.minutes

/-- Limits with no weekday in common: a weekday has one at most. -/
theorem limit_unique {weekday : Fin 7} : ∀ {limits : List LoadedLimit},
    limits.Pairwise (fun a b => ∀ d ∈ a.weekdays, d ∉ b.weekdays) →
    ∀ a ∈ limits, ∀ b ∈ limits, weekday ∈ a.weekdays → weekday ∈ b.weekdays → a = b
  | [], _, a, ha, _, _, _, _ => absurd ha List.not_mem_nil
  | limit :: limits, h, a, ha, b, hb, hda, hdb => by
    obtain ⟨hhead, htail⟩ := List.pairwise_cons.mp h
    rcases List.mem_cons.mp ha with rfl | haTail
    · rcases List.mem_cons.mp hb with rfl | hbTail
      · rfl
      · exact absurd hdb (hhead b hbTail weekday hda)
    · rcases List.mem_cons.mp hb with rfl | hbTail
      · exact absurd hda (hhead a haTail weekday hdb)
      · exact limit_unique htail a haTail b hbTail hda hdb

/-- The older form of a limit gives positive limits only. -/
def PositiveLimits (times : LuaRuleTimes) : Prop := ∀ rule ∈ times.durationRules, 0 < rule.limit

theorem PositiveLimits.mode {times : LuaRuleTimes} (h : PositiveLimits times) (timeMode : Rat) :
    PositiveLimits { times with timeMode := timeMode } := h

theorem addLimit_positive {times : LuaRuleTimes} (h : PositiveLimits times) (flow : Bool)
    (weekdays : List Rat) (value : List UInt8) : PositiveLimits (times.addLimit flow weekdays value) := by
  unfold LuaRuleTimes.addLimit
  dsimp only
  split_ifs with hpos hflow
  · exact h
  · intro rule hrule
    rcases List.mem_append.mp hrule with hold | hnew
    · exact h rule hold
    · rw [List.mem_singleton.mp hnew]
      exact hpos.1
  · exact h

theorem parseFields_positive {times : LuaRuleTimes} (h : PositiveLimits times)
    (weekdayPart modePart valuePart : List UInt8) :
    PositiveLimits (parseFields times weekdayPart modePart valuePart) := by
  unfold parseFields
  dsimp only
  split_ifs
  · exact h
  · exact addLimit_positive (h.mode 2) _ _ _
  · exact addLimit_positive (h.mode 3) _ _ _
  · split <;> exact h

theorem parseMacfilterTimeRule_positive {times : LuaRuleTimes} (h : PositiveLimits times)
    (text : List UInt8) : PositiveLimits (parseMacfilterTimeRule times text) := by
  unfold parseMacfilterTimeRule
  split
  · exact parseFields_positive h _ _ _
  · dsimp only
    generalize (if (if 3 ≤ (words 44 text).length then _ else _) = ascii "duration" then (2 : Rat)
      else _) = timeMode
    split_ifs
    · exact h
    · exact addLimit_positive (h.mode timeMode) _ _ _
    · exact addLimit_positive (h.mode timeMode) _ _ _
    · exact h

theorem foldl_positive : ∀ (items : List (List UInt8)) {times : LuaRuleTimes}, PositiveLimits times →
    PositiveLimits (items.foldl parseMacfilterTimeRule times)
  | [], _, h => h
  | text :: items, _, h => foldl_positive items (parseMacfilterTimeRule_positive h text)

/-- A limit text gives one limit for each weekday. -/
theorem weekLimitRules_disjoint (text : List UInt8) (max : Nat) :
    (weekLimitRules text max).Pairwise (fun a b => ∀ d ∈ a.weekdays, d ∉ b.weekdays) := by
  have hnodup : limitOrder.Pairwise (· ≠ ·) := by decide
  rw [weekLimitRules, parseWeekLimitRules, List.map_map, List.pairwise_map]
  refine hnodup.imp (fun hne d hd hd' => hne ?_)
  simp only [Function.comp_apply, List.mem_singleton] at hd hd'
  exact_mod_cast hd.symm.trans hd'

/-- No two limits share a weekday, or none of them is 0. -/
theorem loadTimeRules_limits {options : TimeOptions} {limits : List LoadedLimit}
    (h : loadTimeRules options = (LoadedTimes.duration limits).lua) :
    (∀ limit ∈ limits, 0 < limit.minutes) ∨
      limits.Pairwise (fun a b => ∀ d ∈ a.weekdays, d ∉ b.weekdays) := by
  have hrules : (loadTimeRules options).durationRules = limits.map LoadedLimit.lua := by rw [h]; rfl
  have hpositive : PositiveLimits (loadTimeRules options) → ∀ limit ∈ limits, 0 < limit.minutes := by
    intro hpos limit hlimit
    have hlimitPos : (0 : Rat) < (limit.minutes : Rat) :=
      hpos limit.lua (hrules ▸ List.mem_map_of_mem hlimit)
    exact_mod_cast hlimitPos
  have hempty : PositiveLimits ⟨(options.timeMode.bind luaTonumber).getD 1, [], [], []⟩ := by
    simp [PositiveLimits]
  revert hrules hpositive
  rw [loadTimeRules]
  dsimp only
  split_ifs
  · exact fun _ hpositive => Or.inl (hpositive (foldl_positive _ hempty))
  · intro hrules _
    have hdisjoint := weekLimitRules_disjoint (options.timeLimit.getD []) 1440
    rw [show weekLimitRules (options.timeLimit.getD []) 1440 = limits.map LoadedLimit.lua from hrules,
      List.pairwise_map] at hdisjoint
    refine Or.inr (hdisjoint.imp (fun {a b} hab d ha hb => ?_))
    exact hab (d.val : Rat) (List.mem_map_of_mem ha) (List.mem_map_of_mem hb)
  · exact fun _ hpositive => Or.inl (hpositive (by simp [PositiveLimits]))
  · exact fun _ hpositive => Or.inl (hpositive (foldl_positive _ hempty))

/-- Where a limit of the day is exceeded, none of the day is 0. -/
theorem noneUnlimited {options : TimeOptions} {limits : List LoadedLimit}
    (hload : loadTimeRules options = (LoadedTimes.duration limits).lua) {weekday : Fin 7} {used : Int}
    (h : OverLimit limits weekday used) : NoneUnlimited limits weekday := by
  intro limit hlimit hday
  rcases loadTimeRules_limits hload with hpos | hdisjoint
  · exact hpos limit hlimit
  · obtain ⟨limit', hlimit', hday', hpos, -⟩ := h
    rwa [limit_unique hdisjoint limit hlimit limit' hlimit' hday hday']

theorem overLimit_cons {limit : LoadedLimit} {limits : List LoadedLimit} {weekday : Fin 7}
    {used : Int} : OverLimit (limit :: limits) weekday used ↔
      (weekday ∈ limit.weekdays ∧ 0 < limit.minutes ∧ (limit.minutes : Int) < used) ∨
        OverLimit limits weekday used := by
  simp [OverLimit]

theorem noneUnlimited_cons {limit : LoadedLimit} {limits : List LoadedLimit} {weekday : Fin 7} :
    NoneUnlimited (limit :: limits) weekday ↔
      (weekday ∈ limit.weekdays → 0 < limit.minutes) ∧ NoneUnlimited limits weekday := by
  simp [NoneUnlimited]

/-- The loop of the rule manager stops at a limit of 0. -/
theorem luaExceeded_iff {weekday : Fin 7} {used : Nat} : ∀ {limits : List LoadedLimit},
    (OverLimit limits weekday used → NoneUnlimited limits weekday) →
    (luaExceeded weekday.val used (limits.map LoadedLimit.lua) = true ↔
      OverLimit limits weekday used)
  | [], _ => by simp [luaExceeded, OverLimit]
  | limit :: limits, h => by
    have hrest : OverLimit limits weekday used → NoneUnlimited limits weekday := fun hover =>
      (noneUnlimited_cons.mp (h (overLimit_cons.mpr (Or.inr hover)))).2
    have hzero : limit.lua.limit ≤ 0 ↔ limit.minutes = 0 := by
      simp [LoadedLimit.lua]
    have hlt : limit.lua.limit < (used : Rat) ↔ (limit.minutes : Int) < used := by
      simp [LoadedLimit.lua]
    have hmem : (weekday.val : Rat) ∈ limit.lua.weekdays ↔ weekday ∈ limit.weekdays :=
      weekday_mem_rat limit.weekdays weekday
    rw [List.map_cons, luaExceeded]
    simp only [hmem, hzero, hlt, overLimit_cons]
    by_cases hday : weekday ∈ limit.weekdays
    · rw [if_pos hday]
      by_cases h0 : limit.minutes = 0
      · rw [if_pos h0]
        refine iff_of_false (by simp) (fun hover => ?_)
        have := (noneUnlimited_cons.mp (h (overLimit_cons.mpr hover))).1 hday
        omega
      · rw [if_neg h0]
        by_cases hover : (limit.minutes : Int) < used
        · rw [if_pos hover]
          exact iff_of_true rfl (Or.inl ⟨hday, by omega, hover⟩)
        · rw [if_neg hover, luaExceeded_iff hrest]
          simp [hover]
    · rw [if_neg hday, luaExceeded_iff hrest]
      simp [hday]

/-- The client has used more than the limit of the day. -/
def TodayLimit.exceeded (limit : TodayLimit) (used : Int) : Bool :=
  limit.hasTodayRule && !limit.hasUnlimited && decide (0 < Kernel.toInt32 limit.limitValue) &&
    decide (Kernel.toInt32 limit.limitValue < used)

/-- The loop of fwxd stops at a limit of 0 too, and else keeps the smallest: `minLimit` is the smallest so
far. -/
theorem exceeded_todayLimitFrom {weekday : Fin 7} {used : Int} : ∀ {limits : List LoadedLimit}
    {minLimit : Option Int}, (∀ v, minLimit = some v → 0 < v ∧ v < 2 ^ 31) →
    ((pcTodayLimitFrom durationField (weekday.val : Nat) minLimit.isSome minLimit
        (limits.map LoadedLimit.fwxd)).exceeded used = true ↔
      NoneUnlimited limits weekday ∧
        ((∃ v, minLimit = some v ∧ v < used) ∨ OverLimit limits weekday used))
  | [], none, _ => by simp [pcTodayLimitFrom, TodayLimit.exceeded, OverLimit]
  | [], some v, hmin => by
    have hv := hmin v rfl
    have hself : Kernel.toInt32 v = v := Kernel.toInt32_self (by omega) (by omega)
    simp [pcTodayLimitFrom, TodayLimit.exceeded, OverLimit, NoneUnlimited, hself, hv.1]
  | limit :: limits, minLimit, hmin => by
    have hmem : (weekday.val : Int) ∈ limit.fwxd.weekdays ↔ weekday ∈ limit.weekdays :=
      weekday_mem_int limit.weekdays weekday
    have hfield : durationField limit.fwxd.value = limit.minutes := rfl
    rw [List.map_cons, pcTodayLimitFrom, hfield, noneUnlimited_cons, overLimit_cons]
    simp only [hmem]
    by_cases hday : weekday ∈ limit.weekdays
    · rw [if_pos hday]
      by_cases h0 : (limit.minutes : Int) ≤ 0
      · rw [if_pos h0]
        have hpos : ¬ 0 < limit.minutes := by omega
        simp [TodayLimit.exceeded, hday, hpos]
      · have hpos : 0 < limit.minutes := by omega
        have hlt := limit.minutes_lt
        rw [if_neg h0]
        cases minLimit with
        | none =>
          have hrec := @exceeded_todayLimitFrom weekday used limits (some (limit.minutes : Int)) (by
            rintro v ⟨⟩
            omega)
          refine hrec.trans ?_
          simp [hday, hpos]
        | some m =>
          have hm := hmin m rfl
          have hrec := @exceeded_todayLimitFrom weekday used limits
            (some (if (limit.minutes : Int) < m then (limit.minutes : Int) else m)) (by
              intro v hv
              obtain rfl := Option.some.inj hv
              split <;> omega)
          have hless : (if (limit.minutes : Int) < m then (limit.minutes : Int) else m) < used ↔
              m < used ∨ (limit.minutes : Int) < used := by
            split <;> omega
          refine hrec.trans ?_
          simp [hday, hpos, hless, or_assoc]
    · rw [if_neg hday, exceeded_todayLimitFrom hmin]
      simp [hday]

/-- **The limits of the status page.** -/
theorem pcDurationBlocked_iff {options : TimeOptions} {limits : List LoadedLimit}
    (hload : loadTimeRules options = (LoadedTimes.duration limits).lua) (usage : TodayUsage)
    (weekday : Fin 7) (minutes : Int) :
    pcMacBlocked .duration (limits.map LoadedLimit.fwxd) usage (weekday.val : Nat) minutes = true ↔
      OverLimit limits weekday (Kernel.toInt32 (usage.activeTime / 60 : Nat)) := by
  have hexceeded := @exceeded_todayLimitFrom weekday (Kernel.toInt32 (usage.activeTime / 60 : Nat))
    limits none (fun v hv => nomatch hv)
  simp only [reduceCtorEq, false_and, exists_false, false_or] at hexceeded
  exact hexceeded.trans (and_iff_right_of_imp (fun h => noneUnlimited hload h))

/-! ## 6. The clients -/

/-- A user-stat table that lists every client by the address that `add_client_node` has stored. -/
structure StatTable (stats : List UserStat) : Prop where
  nodup : (stats.map UserStat.mac).Nodup
  lower : ∀ stat ∈ stats, stat.mac.map tolower = stat.mac
  nonempty : ∀ stat ∈ stats, stat.mac ≠ []

/-- A listed client has its own minutes under its own name. -/
theorem userActive_of_mem {stats : List UserStat} (h : StatTable stats) {client : UserStat}
    (hclient : client ∈ stats) : userActive stats client.mac = client.activeTime / 60 := by
  have hentry : lastEntry (fun stat : UserStat => some (stat.mac, stat.activeTime / 60)) client.mac
      stats = some (client.activeTime / 60) := by
    refine lastEntry_of_mem hclient rfl (fun other hother w hw => ?_)
    obtain ⟨hmac, rfl⟩ := Prod.mk.inj (Option.some.inj hw)
    rw [List.inj_on_of_nodup_map h.nodup hother hclient hmac]
  rw [userActive, hentry, Option.getD_some]

/-- A name that is not in lower case has none. -/
theorem userActive_of_ne {stats : List UserStat} (h : StatTable stats) {mac : List UInt8}
    (hmac : mac.map tolower ≠ mac) : userActive stats mac = 0 := by
  have hentry : lastEntry (fun stat : UserStat => some (stat.mac, stat.activeTime / 60)) mac stats =
      none := by
    refine lastEntry_eq_none (fun stat hstat w hw => hmac ?_)
    obtain ⟨rfl, -⟩ := Prod.mk.inj (Option.some.inj hw)
    exact h.lower stat hstat
  rw [userActive, hentry, Option.getD_none]

/-- Two spellings of a listed address: it is that address, or it has capitals. -/
theorem caseEq_client {stats : List UserStat} (h : StatTable stats) {client : UserStat}
    (hclient : client ∈ stats) {mac : List UInt8} (hmac : caseEq mac client.mac = true) :
    mac = client.mac ∨ mac.map tolower ≠ mac := by
  have hlower : mac.map tolower = client.mac := by
    rw [← h.lower client hclient]
    exact of_decide_eq_true hmac
  by_cases hself : mac.map tolower = mac
  · exact Or.inl (hself.symm.trans hlower)
  · exact Or.inr hself

/-- The rule says that the rule manager adds a target of this many minutes. -/
def LoadedTimes.ForManager (times : LoadedTimes) (weekday : Fin 7) (minutes used : Nat) : Prop :=
  match times with
  | .range windows => ∃ window ∈ windows, window.OpenForManager weekday minutes
  | .duration limits => OverLimit limits weekday used

/-- The rule says that fwxd shows an applicable client blocked, with this many minutes. -/
def LoadedTimes.ForFwxd (times : LoadedTimes) (weekday : Fin 7) (minutes : Nat) (used : Int) : Prop :=
  match times with
  | .range windows => ∃ window ∈ windows, window.OpenForFwxd weekday minutes
  | .duration limits => OverLimit limits weekday used

theorem pcMacBlocked_iff (rule : LoadedRule) (usage : TodayUsage) (weekday : Fin 7) (minutes : Nat) :
    pcMacBlocked (getTimeRules rule.options).1 (getTimeRules rule.options).2 usage
      (weekday.val : Nat) minutes = true ↔
    rule.times.ForFwxd weekday minutes (Kernel.toInt32 (usage.activeTime / 60 : Nat)) := by
  have hload := rule.enforced
  rw [rule.shown]
  cases htimes : rule.times with
  | range windows => exact pcIsTimeRuleMatched_iff windows weekday minutes
  | duration limits =>
    rw [htimes] at hload
    exact pcDurationBlocked_iff hload usage weekday minutes

/-- What a rule adds: its targets for which its times say so. -/
theorem mem_addedMacs (rule : LoadedRule) (stats : List UserStat) (weekday : Fin 7) (minutes : Nat)
    (mac : List UInt8) :
    mac ∈ rule.lua.addedMacs ⟨weekday.val, minutes⟩ stats ↔
      mac ∈ rule.lua.targetMacs stats ∧
        rule.times.ForManager weekday minutes (userActive stats mac) := by
  have hload := rule.enforced
  cases htimes : rule.times with
  | range windows =>
    rw [htimes] at hload
    have hopen := isTimeInRange_iff windows weekday minutes
    simp only [LuaMacRule.addedMacs, LoadedRule.lua, hload, LoadedTimes.lua, LoadedTimes.ForManager]
    rw [if_neg (by norm_num), if_neg (by norm_num), ← hopen]
    split <;> simp_all
  | duration limits =>
    rw [htimes] at hload
    simp only [LuaMacRule.addedMacs, LoadedRule.lua, hload, LoadedTimes.lua, LoadedTimes.ForManager,
      if_true, List.mem_filter]
    exact and_congr_right (fun _ => luaExceeded_iff (noneUnlimited hload))

/-- The rules of a run add what each adds by itself. -/
theorem mem_processMacfilterRules (rules : List LuaMacRule) (info : CurrentInfo)
    (stats : List UserStat) (mac : List UInt8) :
    mac ∈ processMacfilterRules rules info stats ↔
      ∃ rule ∈ rules, rule.enabled = 1 ∧ mac ∈ rule.addedMacs info stats := by
  simp [processMacfilterRules, and_assoc]

/-- The modes that the rule manager knows: all users, and a single one. -/
def LoadedRule.KnownMode (rule : LoadedRule) : Prop := rule.mode = 1 ∨ rule.mode = 2

/-- The minutes that the rule manager finds for a client: a single user has them under the rule's own
spelling only. -/
def LoadedRule.managerMinutes (rule : LoadedRule) (client : UserStat) : Nat :=
  if rule.mode = 1 ∨ rule.userMac = client.mac then client.activeTime / 60 else 0

/-- The rule manager writes the address of a client that the rule is for, and whose times are met by
the minutes of that address. -/
theorem enforcedBlocked_targets (rule : LoadedRule) (mac : List UInt8) (stats : List UserStat)
    (weekday : Fin 7) (minutes : Nat) :
    EnforcedBlocked rule mac stats weekday minutes ↔
      ∃ added, added ∈ rule.lua.targetMacs stats ∧ caseEq added mac = true ∧
        rule.times.ForManager weekday minutes (userActive stats added) := by
  have hone : rule.lua.enabled = 1 := rfl
  simp only [EnforcedBlocked, mem_processMacfilterRules, List.mem_singleton, exists_eq_left, hone,
    true_and, mem_addedMacs]
  exact exists_congr (fun added => by tauto)

/-- For one client's rule the minutes are those of the rule's spelling of its address. -/
theorem managerMinutes_user {rule : LoadedRule} {stats : List UserStat} (h : StatTable stats)
    {client : UserStat} (hclient : client ∈ stats) (hmode : rule.mode ≠ 1)
    (hcase : caseEq rule.userMac client.mac = true) :
    rule.managerMinutes client = userActive stats rule.userMac := by
  rw [LoadedRule.managerMinutes]
  rcases caseEq_client h hclient hcase with heq | hcapital
  · rw [if_pos (Or.inr heq), heq, userActive_of_mem h hclient]
  · have hother : rule.userMac ≠ client.mac := fun heq =>
      hcapital (heq ▸ h.lower client hclient)
    rw [if_neg (by simp [hmode, hother]), userActive_of_ne h hcapital]

/-- **What is enforced**, for a client of the table. -/
theorem enforcedBlocked_iff (rule : LoadedRule) {stats : List UserStat} (h : StatTable stats)
    {client : UserStat} (hclient : client ∈ stats) (weekday : Fin 7) (minutes : Nat) :
    EnforcedBlocked rule client.mac stats weekday minutes ↔
      pcIsRuleApplicable rule.mode rule.userMac client.mac = true ∧ rule.KnownMode ∧
        rule.times.ForManager weekday minutes (rule.managerMinutes client) := by
  have hne := h.nonempty client hclient
  have hself : caseEq client.mac client.mac = true := by simp [caseEq]
  rw [enforcedBlocked_targets]
  by_cases h1 : rule.mode = 1
  · have htargets : rule.lua.targetMacs stats = userMacList stats := by
      simp [LuaMacRule.targetMacs, LoadedRule.lua, h1]
    have happlicable : pcIsRuleApplicable rule.mode rule.userMac client.mac = true := by
      simp [pcIsRuleApplicable, hne, h1]
    have hminutes : rule.managerMinutes client = userActive stats client.mac := by
      rw [LoadedRule.managerMinutes, if_pos (Or.inl h1), userActive_of_mem h hclient]
    have hlisted : client.mac ∈ userMacList stats :=
      List.mem_filter.mpr ⟨List.mem_map_of_mem hclient, by simpa using hne⟩
    rw [htargets, hminutes]
    constructor
    · rintro ⟨added, hadded, hcase, htimes⟩
      obtain ⟨stat, hstat, rfl⟩ := List.mem_map.mp (List.mem_of_mem_filter hadded)
      rcases caseEq_client h hclient hcase with heq | hcapital
      · exact ⟨happlicable, Or.inl h1, heq ▸ htimes⟩
      · exact absurd (h.lower stat hstat) hcapital
    · rintro ⟨-, -, htimes⟩
      exact ⟨client.mac, hlisted, hself, htimes⟩
  · by_cases h2 : rule.mode = 2
    · by_cases huser : rule.userMac = []
      · simp [LuaMacRule.targetMacs, LoadedRule.lua, h2, huser, pcIsRuleApplicable]
      · have htargets : rule.lua.targetMacs stats = [rule.userMac] := by
          simp [LuaMacRule.targetMacs, LoadedRule.lua, h2, huser]
        have happlicable : pcIsRuleApplicable rule.mode rule.userMac client.mac = true ↔
            caseEq rule.userMac client.mac = true := by
          simp [pcIsRuleApplicable, hne, h2, huser]
        simp only [htargets, List.mem_singleton, exists_eq_left, happlicable]
        refine and_congr_right (fun hcase => ?_)
        rw [managerMinutes_user h hclient h1 hcase]
        exact (and_iff_right (Or.inr h2)).symm
    · have hnone : rule.lua.targetMacs stats = [] := by
        have hm2 : (rule.mode : Rat) ≠ 2 := by exact_mod_cast h2
        simp [LuaMacRule.targetMacs, LoadedRule.lua, h1, hm2]
      have hmode : ¬ rule.KnownMode := by simp [LoadedRule.KnownMode, h1, h2]
      simp [hnone, hmode]

/-! ## 7. Shown and enforced -/

/-- The minutes that fwxd shows for a client. -/
def shownMinutes (client : UserStat) : Int := Kernel.toInt32 (client.activeTime / 60 : Nat)

/-- The window is open for fwxd only. -/
def LoadedRange.OnlyShown (weekday : Fin 7) (minutes : Nat) (window : LoadedRange) : Prop :=
  window.OpenForFwxd weekday minutes ∧ ¬ window.OpenForManager weekday minutes

/-- The window is open for the rule manager only. -/
def LoadedRange.OnlyEnforced (weekday : Fin 7) (minutes : Nat) (window : LoadedRange) : Prop :=
  window.OpenForManager weekday minutes ∧ ¬ window.OpenForFwxd weekday minutes

/-- The window is open for both. -/
def LoadedRange.OpenForBoth (weekday : Fin 7) (minutes : Nat) (window : LoadedRange) : Prop :=
  window.OpenForFwxd weekday minutes ∧ window.OpenForManager weekday minutes

/-- Both sides read the two texts of the window as the minutes `s` and `e`. -/
structure LoadedRange.Reads (window : LoadedRange) (s e : Nat) : Prop where
  fwxdStart : pcParseTimeMinutes window.startTime = some (s : Int)
  fwxdEnd : pcParseTimeMinutes window.endTime = some (e : Int)
  managerStart : parseTime window.startTime = some s
  managerEnd : parseTime window.endTime = some e

theorem LoadedRange.Reads.openForFwxd {window : LoadedRange} {s e : Nat} (h : window.Reads s e)
    (weekday : Fin 7) (minutes : Nat) : window.OpenForFwxd weekday minutes ↔
      (s ≤ e ∧ weekday ∈ window.weekdays ∧ s ≤ minutes ∧ minutes ≤ e ∨
        e < s ∧ (weekday ∈ window.weekdays ∧ s ≤ minutes ∨
          weekday - 1 ∈ window.weekdays ∧ minutes ≤ e)) := by
  simp [LoadedRange.OpenForFwxd, h.fwxdStart, h.fwxdEnd]

theorem LoadedRange.Reads.openForManager {window : LoadedRange} {s e : Nat} (h : window.Reads s e)
    (weekday : Fin 7) (minutes : Nat) : window.OpenForManager weekday minutes ↔
      weekday ∈ window.weekdays ∧
        (s ≤ e ∧ s ≤ minutes ∧ minutes ≤ e ∨ e < s ∧ (s ≤ minutes ∨ minutes ≤ e)) := by
  simp [LoadedRange.OpenForManager, h.managerStart, h.managerEnd]

/-- **The morning after**: the window of yesterday is shown there and not enforced. -/
theorem LoadedRange.Reads.onlyShown {window : LoadedRange} {s e : Nat} (h : window.Reads s e)
    (weekday : Fin 7) (minutes : Nat) : window.OnlyShown weekday minutes ↔
      e < s ∧ minutes ≤ e ∧ weekday ∉ window.weekdays ∧ weekday - 1 ∈ window.weekdays := by
  rw [LoadedRange.OnlyShown, h.openForFwxd, h.openForManager]
  by_cases hday : weekday ∈ window.weekdays
  · simp only [hday, true_and, not_true_eq_false, false_and, and_false, iff_false]
    omega
  · simp only [hday, false_and, and_false, false_or, not_false_eq_true, and_true, true_and]
    tauto

/-- **The morning before**: the window of today is enforced there and not shown. -/
theorem LoadedRange.Reads.onlyEnforced {window : LoadedRange} {s e : Nat} (h : window.Reads s e)
    (weekday : Fin 7) (minutes : Nat) : window.OnlyEnforced weekday minutes ↔
      e < s ∧ minutes ≤ e ∧ weekday ∈ window.weekdays ∧ weekday - 1 ∉ window.weekdays := by
  rw [LoadedRange.OnlyEnforced, h.openForFwxd, h.openForManager]
  by_cases hday : weekday ∈ window.weekdays
  · by_cases hyesterday : weekday - 1 ∈ window.weekdays
    · simp only [hday, hyesterday, true_and, not_true_eq_false, and_false, iff_false]
      omega
    · simp only [hday, hyesterday, true_and, not_false_eq_true, and_true, false_and, or_false]
      omega
  · simp [hday]

/-- Where the rule is for the client at all: some window is open for both, or no window is open for one side
only without another that is for the other side only; the two minutes exceed a limit of the day or both do
not; and in a mode that the rule manager does not know there is nothing to show. -/
def LoadedRule.AgreesAt (rule : LoadedRule) (client : UserStat) (weekday : Fin 7) (minutes : Nat) :
    Prop :=
  pcIsRuleApplicable rule.mode rule.userMac client.mac = true →
    match rule.times with
    | .range windows =>
      (rule.KnownMode →
        (∃ window ∈ windows, window.OpenForBoth weekday minutes) ∨
        ((∃ window ∈ windows, window.OnlyShown weekday minutes) ↔
          ∃ window ∈ windows, window.OnlyEnforced weekday minutes)) ∧
      (¬ rule.KnownMode → ∀ window ∈ windows, ¬ window.OpenForFwxd weekday minutes)
    | .duration limits =>
      (rule.KnownMode →
        (OverLimit limits weekday (shownMinutes client) ↔
          OverLimit limits weekday (rule.managerMinutes client))) ∧
      (¬ rule.KnownMode → ¬ OverLimit limits weekday (shownMinutes client))

/-- A union, by what is in another one too and what is not. -/
theorem exists_mem_split {α : Type} (l : List α) (p q : α → Prop) :
    (∃ a ∈ l, p a) ↔ (∃ a ∈ l, p a ∧ q a) ∨ ∃ a ∈ l, p a ∧ ¬ q a := by
  simp only [← exists_or, ← and_or_left, em, and_true]

/-- Two unions are both empty or both not, by what is in both and what is in one only. -/
theorem open_iff_open (windows : List LoadedRange) (weekday : Fin 7) (minutes : Nat) :
    ((∃ window ∈ windows, window.OpenForFwxd weekday minutes) ↔
      ∃ window ∈ windows, window.OpenForManager weekday minutes) ↔
    ((∃ window ∈ windows, window.OpenForBoth weekday minutes) ∨
      ((∃ window ∈ windows, window.OnlyShown weekday minutes) ↔
        ∃ window ∈ windows, window.OnlyEnforced weekday minutes)) := by
  have hshown : (∃ window ∈ windows, window.OpenForFwxd weekday minutes) ↔
      (∃ window ∈ windows, window.OpenForBoth weekday minutes) ∨
        ∃ window ∈ windows, window.OnlyShown weekday minutes :=
    exists_mem_split windows (fun w => w.OpenForFwxd weekday minutes)
      (fun w => w.OpenForManager weekday minutes)
  have henforced : (∃ window ∈ windows, window.OpenForManager weekday minutes) ↔
      (∃ window ∈ windows, window.OpenForBoth weekday minutes) ∨
        ∃ window ∈ windows, window.OnlyEnforced weekday minutes := by
    rw [exists_mem_split windows (fun w => w.OpenForManager weekday minutes)
      (fun w => w.OpenForFwxd weekday minutes)]
    simp only [LoadedRange.OpenForBoth, LoadedRange.OnlyEnforced, and_comm]
  rw [hshown, henforced]
  by_cases hboth : ∃ window ∈ windows, window.OpenForBoth weekday minutes
  · simp only [hboth, true_or]
  · simp only [hboth, false_or]

/-- **Exactly when what is shown is enforced.** -/
theorem shown_iff_enforced (rule : LoadedRule) {stats : List UserStat} (h : StatTable stats)
    {client : UserStat} (hclient : client ∈ stats) (upBytes downBytes : Nat) (weekday : Fin 7)
    (minutes : Nat) :
    (ShownBlocked rule client.mac ⟨client.activeTime, upBytes, downBytes⟩ weekday minutes ↔
      EnforcedBlocked rule client.mac stats weekday minutes) ↔
    rule.AgreesAt client weekday minutes := by
  rw [enforcedBlocked_iff rule h hclient, ShownBlocked, pcMacBlocked_iff, LoadedRule.AgreesAt]
  by_cases happlicable : pcIsRuleApplicable rule.mode rule.userMac client.mac = true
  · simp only [happlicable, true_and, true_implies]
    cases htimes : rule.times with
    | range windows =>
      by_cases hknown : rule.KnownMode
      · simp only [hknown, true_and, true_implies, not_true_eq_false, false_implies, and_true]
        exact open_iff_open windows weekday minutes
      · simp [hknown, LoadedTimes.ForFwxd]
    | duration limits =>
      by_cases hknown : rule.KnownMode
      · simp [hknown, LoadedTimes.ForFwxd, LoadedTimes.ForManager, shownMinutes]
      · simp [hknown, LoadedTimes.ForFwxd, shownMinutes]
  · simp [happlicable]

/-- A rule of the usual kind: in a mode that both know, with the single user in lower case, and without a
window over midnight. -/
structure LoadedRule.Ordinary (rule : LoadedRule) : Prop where
  known : rule.KnownMode
  spelling : rule.userMac.map tolower = rule.userMac
  daytime : ∀ windows, rule.times = .range windows →
    ∀ window ∈ windows, ∃ s e, window.Reads s e ∧ s ≤ e

/-- A rule of the usual kind is enforced as it is shown. -/
theorem LoadedRule.Ordinary.agreesAt {rule : LoadedRule} (hrule : rule.Ordinary)
    {stats : List UserStat} (h : StatTable stats) {client : UserStat} (hclient : client ∈ stats)
    (hactive : client.activeTime / 60 < 2 ^ 31) (weekday : Fin 7) (minutes : Nat) :
    rule.AgreesAt client weekday minutes := by
  intro happlicable
  have hminutes : rule.managerMinutes client = client.activeTime / 60 := by
    refine if_pos (hrule.known.imp_right (fun h2 => ?_))
    have hcase : caseEq rule.userMac client.mac = true := by
      rw [pcIsRuleApplicable, if_neg (h.nonempty client hclient), if_neg (by omega), if_pos h2] at happlicable
      exact (Bool.and_eq_true_iff.mp happlicable).2
    exact (caseEq_client h hclient hcase).resolve_right (fun hcapital => hcapital hrule.spelling)
  cases htimes : rule.times with
  | range windows =>
    refine ⟨fun _ => Or.inr (iff_of_false ?_ ?_), fun hother => absurd hrule.known hother⟩
    · rintro ⟨window, hwindow, honly⟩
      obtain ⟨s, e, hreads, hse⟩ := hrule.daytime windows htimes window hwindow
      exact absurd (hreads.onlyShown weekday minutes |>.mp honly).1 (by omega)
    · rintro ⟨window, hwindow, honly⟩
      obtain ⟨s, e, hreads, hse⟩ := hrule.daytime windows htimes window hwindow
      exact absurd (hreads.onlyEnforced weekday minutes |>.mp honly).1 (by omega)
  | duration limits =>
    refine ⟨fun _ => ?_, fun hother => absurd hrule.known hother⟩
    rw [hminutes, shownMinutes, Kernel.toInt32_self (by omega) (by omega)]

/-- A section with one text. -/
def windowSection (text : List UInt8) : TimeOptions where
  timeMode := none
  timeList := some (.list [text])
  timeRule := none
  timeLimit := none
  flowLimit := none

theorem windowSection_range {text : List UInt8} (h : IsTimeWord text) :
    RangeSection (windowSection text) [text] where
  list := rfl
  nonempty := List.cons_ne_nil _ _
  isWord := by simpa using h
  fits := by
    have hlen := h.short
    simp only [List.intercalate_singleton]
    unfold RULE_LEN at hlen
    omega
  mode := rfl
  luaMode := rfl

/-- For all users, on Mondays. -/
def mondayRule (text startTime endTime : List UInt8) (h : IsTimeWord text)
    (hparts : timeParts (words 44 text) = some ⟨[ascii "1"], startTime, endTime, []⟩) :
    LoadedRule where
  options := windowSection text
  mode := 1
  userMac := []
  times := .range [⟨[1], startTime, endTime⟩]
  shown := by
    have hone : weekdayToken (ascii "1") = some 1 := by decide
    refine Prod.ext (windowSection_range h).mode ?_
    rw [getTimeRules_range (windowSection_range h)]
    simp [rangeRuleOfParts_eq, hparts, hone, LoadedTimes.fwxd, LoadedRange.fwxd]
  enforced := by
    have hone : luaWeekday (ascii "1") = some 1 := by
      have hvalue : tonumber (ascii "1") = 1 := by decide
      rw [luaWeekday_number (by decide) (List.all_eq_true.mp (by decide)), hvalue]
      rfl
    rw [loadTimeRules_eq (windowSection_range h)]
    simp [luaRangeRule_eq, hparts, hone, numberParts, lastTime, LoadedTimes.lua, LoadedRange.lua]

def someone : UserStat := ⟨ascii "aa:bb:cc:dd:ee:ff", 0, 0⟩

theorem someone_table : StatTable [someone] where
  nodup := List.nodup_singleton _
  lower := by
    simp only [List.mem_singleton, forall_eq]
    decide
  nonempty := by
    simp only [List.mem_singleton, forall_eq]
    decide

/-- From 8 to 12. -/
def morningRule : LoadedRule :=
  mondayRule (ascii "1,08:00,12:00") (ascii "08:00") (ascii "12:00")
    (.of_all (by decide) (by decide) (by decide) (by decide)) (by decide)

theorem shown_iff_enforced_morning :
    ShownBlocked morningRule someone.mac ⟨0, 0, 0⟩ 1 540 ↔
      EnforcedBlocked morningRule someone.mac [someone] 1 540 := by
  refine (shown_iff_enforced morningRule someone_table (List.mem_singleton_self _) 0 0 1 540).mpr ?_
  have hordinary : morningRule.Ordinary := by
    refine ⟨Or.inl rfl, rfl, fun windows hwindows window hwindow => ?_⟩
    obtain rfl := (LoadedTimes.range.inj hwindows).symm
    rw [List.mem_singleton.mp hwindow]
    exact ⟨480, 720, ⟨by decide, by decide, by decide, by decide⟩, by omega⟩
  exact hordinary.agreesAt someone_table (List.mem_singleton_self _) (by decide) 1 540

/-- From 22 to 6. -/
def nightRule : LoadedRule :=
  mondayRule (ascii "1,22:00,06:00") (ascii "22:00") (ascii "06:00")
    (.of_all (by decide) (by decide) (by decide) (by decide)) (by decide)

/-- **The night from Sunday to Monday and the night after**: at two on Monday the rule manager blocks the
client and the status page does not say so; at two on Tuesday it is the other way round. -/
theorem night_shown_enforced_differ :
    ¬ (ShownBlocked nightRule someone.mac ⟨0, 0, 0⟩ 1 120 ↔
      EnforcedBlocked nightRule someone.mac [someone] 1 120) ∧
    ¬ (ShownBlocked nightRule someone.mac ⟨0, 0, 0⟩ 2 120 ↔
      EnforcedBlocked nightRule someone.mac [someone] 2 120) := by
  have hwindow : (⟨[1], ascii "22:00", ascii "06:00"⟩ : LoadedRange).Reads 1320 360 :=
    ⟨by decide, by decide, by decide, by decide⟩
  have happlicable : pcIsRuleApplicable nightRule.mode nightRule.userMac someone.mac = true := by
    decide
  have henforced : ∀ weekday : Fin 7, EnforcedBlocked nightRule someone.mac [someone] weekday 120 ↔
      weekday = 1 := by
    intro weekday
    rw [enforcedBlocked_iff nightRule someone_table (List.mem_singleton_self _)]
    have htimes : nightRule.times = .range [⟨[1], ascii "22:00", ascii "06:00"⟩] := rfl
    have hknown : nightRule.KnownMode := Or.inl rfl
    simp [happlicable, hknown, htimes, LoadedTimes.ForManager, hwindow.openForManager]
  have hshown : ∀ weekday : Fin 7, ShownBlocked nightRule someone.mac ⟨0, 0, 0⟩ weekday 120 ↔
      weekday - 1 = 1 := by
    intro weekday
    rw [ShownBlocked, pcMacBlocked_iff]
    have htimes : nightRule.times = .range [⟨[1], ascii "22:00", ascii "06:00"⟩] := rfl
    simp [happlicable, htimes, LoadedTimes.ForFwxd, hwindow.openForFwxd]
  rw [henforced, hshown, henforced, hshown]
  decide

end Oaf.MacFilter
