/-
# Time rules of a MAC-filter rule

A rule in range mode keeps its times as a list of texts such as `1,2,3,08:00,12:00`: weekdays, a start and
an end.  fwxd shows them through `append_time_rule_obj`; the rule manager enforces what
`parse_macfilter_time_rule` makes of them.  The API stores the texts as it gets them, so both have to read
anything.

The two differ in what they do with text behind the second time: fwxd stops there, the rule manager goes on,
takes more weekdays and a later end.  And fwxd's weekdays are 32-bit and wrap.

* `appendTimeRuleObj_word`, `parseMacfilterTimeRule_word`: what each makes of a word over digits, commas and
  colons, in terms of its parts before and behind the second time.
* `time_rules_agree_iff`: exactly when the two lists are the same.
-/
import Oaf.MacFilter.Limits
import Oaf.Manager.TimeRange
import Oaf.Uci.Model
import Mathlib.Data.Rat.Defs

namespace Oaf.MacFilter

open CLib

/-! ## 1. fwxd -/

/-- The value of an element of `time_rules`. -/
inductive TimeRuleValue where
  | times (startTime endTime : List UInt8)
  | durationMinutes (minutes : Int)
  | flowMb (mb : Int)
deriving DecidableEq

/-- An element of `time_rules`. -/
structure TimeRuleObj where
  weekdays : List Int
  value : TimeRuleValue
deriving DecidableEq

/-- `macfilter_rule_mode_to_time_mode`. -/
def macfilterRuleModeToTimeMode (ruleMode : Int) (fallback : TimeMode) : TimeMode :=
  if ruleMode = 1 then .duration
  else if ruleMode = 2 then .flow
  else if ruleMode = 0 then .range
  else fallback

/-- `parse_uint_token(..) && weekday >= 0 && weekday <= 6`. -/
def weekdayToken (token : List UInt8) : Option Int :=
  match parseUintToken token with
  | some weekday => if 0 ≤ weekday ∧ weekday ≤ 6 then some weekday else none
  | none => none

/-- The bytes of `sem_buf` and `rule_buf`, and of `weekday_buf` and `value_copy`; the pointers of `parts`. -/
def RULE_LEN : Nat := 255
def PART_LEN : Nat := 127
def MAX_PARTS : Nat := 32

/-- The first branch of `append_time_rule_obj`: `weekdays;mode;value`. -/
def timeRuleOfFields (weekdayPart modePart valuePart : List UInt8) (fallback : TimeMode) :
    Option (TimeRuleObj × TimeMode) :=
  let timeMode := macfilterRuleModeToTimeMode (atoi modePart) fallback
  let weekdays := (words 44 (weekdayPart.take PART_LEN)).filterMap weekdayToken
  if weekdays = [] then none
  else
    match timeMode with
    | .duration =>
      if atoi valuePart ≤ 0 then none
      else some (⟨weekdays, .durationMinutes (atoi valuePart)⟩, timeMode)
    | .flow =>
      if atoi valuePart ≤ 0 then none else some (⟨weekdays, .flowMb (atoi valuePart)⟩, timeMode)
    | .range =>
      match strchrSplit 45 (valuePart.take PART_LEN) with
      | none => none
      | some (startTime, endTime) =>
        if startTime = [] ∨ endTime = [] then none
        else some (⟨weekdays, .times startTime endTime⟩, timeMode)

/-- The branches for duration and flow: weekdays, possibly `ruleMode`, and the limit. -/
def limitRuleOfParts (ruleMode : Int) (value : Int → TimeRuleValue) (timeMode : TimeMode)
    (parts : List (List UInt8)) : Option (TimeRuleObj × TimeMode) :=
  let weekdayEnd :=
    if 3 ≤ parts.length ∧ parseUintToken (parts.getD (parts.length - 2) []) = some ruleMode then
      parts.length - 2
    else parts.length - 1
  match parseUintToken (parts.getD (parts.length - 1) []) with
  | none => none
  | some limit =>
    if limit ≤ 0 then none
    else
      let weekdays := (parts.take weekdayEnd).filterMap weekdayToken
      if weekdays = [] then none else some (⟨weekdays, value limit⟩, timeMode)

/-- The loop of the range branch, which a second time ends: the start, the end and the weekdays. -/
def scanTimes (startTime : Option (List UInt8)) (weekdays : List Int) :
    List (List UInt8) → Option (List UInt8) × Option (List UInt8) × List Int
  | [] => (startTime, none, weekdays)
  | part :: parts =>
    if 58 ∈ part then
      match startTime with
      | none => scanTimes (some part) weekdays parts
      | some startTime => (some startTime, some part, weekdays)
    else scanTimes startTime (weekdays ++ (weekdayToken part).toList) parts

/-- The range branch. -/
def rangeRuleOfParts (parts : List (List UInt8)) : Option (TimeRuleObj × TimeMode) :=
  if 3 ≤ parts.length then
    match scanTimes none [] parts with
    | (some startTime, some endTime, weekdays) =>
      if weekdays = [] then none else some (⟨weekdays, .times startTime endTime⟩, .range)
    | _ => none
  else none

/-- The three fields of a text with a semicolon. -/
def semicolonFields (ruleStr : List UInt8) : Option (List UInt8 × List UInt8 × List UInt8) :=
  if 59 ∈ ruleStr then
    match words 59 (ruleStr.take RULE_LEN) with
    | weekdayPart :: modePart :: valuePart :: _ => some (weekdayPart, modePart, valuePart)
    | _ => none
  else none

/-- What `append_time_rule_obj` reads off a text: the element and the mode it returns; `none` where it
returns 0. -/
def readTimeRule (ruleStr : List UInt8) (fallback : TimeMode) : Option (TimeRuleObj × TimeMode) :=
  match semicolonFields ruleStr with
  | some (weekdayPart, modePart, valuePart) =>
    timeRuleOfFields weekdayPart modePart valuePart fallback
  | none =>
    let parts := (words 44 (ruleStr.take RULE_LEN)).take MAX_PARTS
    if parts = [] then none
    else
      match fallback with
      | .duration => limitRuleOfParts 1 .durationMinutes .duration parts
      | .flow => limitRuleOfParts 2 .flowMb .flow parts
      | .range => rangeRuleOfParts parts

/-- `append_time_rule_obj`. -/
def appendTimeRuleObj (timeRules : List TimeRuleObj) (ruleStr : List UInt8) (fallback : TimeMode) :
    List TimeRuleObj :=
  timeRules ++ ((readTimeRule ruleStr fallback).map (·.1)).toList

/-- `append_limit_rules_to_array`. -/
def appendLimitRules (limitStr : List UInt8) (value : Int → TimeRuleValue) : List TimeRuleObj :=
  (words 44 (limitStr.take LIMIT_LEN)).filterMap (fun token =>
    (readLimit token).map (fun p => ⟨[p.1], value (if p.2 < 0 then 0 else p.2)⟩))

/-- The options of a `macfilter` rule that say when it applies. -/
structure TimeOptions where
  timeMode : Option (List UInt8)
  timeList : Option UciValue
  timeRule : Option UciValue
  timeLimit : Option (List UInt8)
  flowLimit : Option (List UInt8)

/-- `normalize_macfilter_time_mode`. -/
def normalizeMacfilterTimeMode (timeMode : Int) : TimeMode :=
  if timeMode = 2 then .duration else if timeMode = 3 then .flow else .range

/-- A list option, as `fwx_uci_get_list_value` and `strtok` bring it: joined with blanks and cut at
blanks.  Each of its words is appended. -/
def appendUciList (option : Option UciValue) (timeMode : TimeMode) : Option (List TimeRuleObj) :=
  match option with
  | some (.list items) =>
    some ((words 32 ([32].intercalate items)).foldl (fun l p => appendTimeRuleObj l p timeMode) [])
  | _ => none

/-- The limits of duration and flow mode: the limit text or, without one, the old `time_rule`. -/
def limitTimeRules (limit : Option (List UInt8)) (timeRule : Option UciValue) (timeMode : TimeMode)
    (value : Int → TimeRuleValue) : List TimeRuleObj :=
  let limitBuf := (limit.getD []).take LIMIT_LEN
  if limitBuf = [] then (appendUciList timeRule timeMode).getD []
  else appendLimitRules ((normalizeLimitStr limitBuf timeMode 512).getD limitBuf) value

/-- `time_mode` and `time_rules` of a rule in the answer of `fwx_api_get_mac_filter_rules`. -/
def getTimeRules (options : TimeOptions) : TimeMode × List TimeRuleObj :=
  let timeMode := normalizeMacfilterTimeMode (atoi ((options.timeMode.getD [49]).take 15))
  (timeMode,
    match timeMode with
    | .range =>
      match appendUciList options.timeList .range with
      | some timeRules => timeRules
      | none => (appendUciList options.timeRule .range).getD []
    | .duration =>
      limitTimeRules options.timeLimit options.timeRule .duration .durationMinutes
    | .flow => limitTimeRules options.flowLimit options.timeRule .flow .flowMb)

/-! ## 2. The rule manager -/

/-- The exponent of a decimal number, if that is all there is. -/
def luaExponent (text : List UInt8) : Option Int :=
  match text with
  | [] => some 0
  | c :: text =>
    let (neg, digits) := takeSign text
    if tolower c = 101 ∧ digits ≠ [] ∧ digits.all isdigit then
      some (if neg then -(tonumber digits : Int) else tonumber digits)
    else none

/-- A number without its sign: decimal, with a fraction and an exponent or without, or hexadecimal. -/
def luaUnsigned (text : List UInt8) : Option Rat :=
  match text with
  | 48 :: x :: digits =>
    if tolower x = 120 ∧ digits ≠ [] ∧ digits.all isxdigit then
      some (Kernel.ofDigits 16 digits : Nat)
    else luaDecimal text
  | _ => luaDecimal text
where
  luaDecimal (text : List UInt8) : Option Rat :=
    let whole := text.takeWhile isdigit
    let (fraction, rest) :=
      match text.dropWhile isdigit with
      | 46 :: rest => (rest.takeWhile isdigit, rest.dropWhile isdigit)
      | rest => ([], rest)
    if whole ++ fraction = [] then none
    else
      (luaExponent rest).map (fun e =>
        (tonumber (whole ++ fraction) : Rat) / (10 : Rat) ^ fraction.length *
          (if e < 0 then 1 / (10 : Rat) ^ e.natAbs else (10 : Rat) ^ e.natAbs))

/-- `tonumber` of a string, with exact numbers for `double`s, and without infinities. -/
def luaTonumber (text : List UInt8) : Option Rat :=
  let (neg, text) := takeSign (trimSpaces text)
  (luaUnsigned text).map (fun v => if neg then -v else v)

/-- An element of `rule.time_rules`: its weekdays are numbers that `tonumber` gave. -/
abbrev LuaTimeRule := TimeRule Rat

/-- An element of `rule.duration_rules` or `rule.flow_rules`. -/
structure LuaLimitRule where
  weekdays : List Rat
  limit : Rat
deriving DecidableEq

/-- What `load_macfilter_rules` keeps of a rule's times. -/
structure LuaRuleTimes where
  timeMode : Rat
  timeRules : List LuaTimeRule
  durationRules : List LuaLimitRule
  flowRules : List LuaLimitRule
deriving DecidableEq

/-- `wd and wd >= 0 and wd <= 6`. -/
def luaWeekday (text : List UInt8) : Option Rat :=
  match luaTonumber text with
  | some wd => if 0 ≤ wd ∧ wd ≤ 6 then some wd else none
  | none => none

/-- `parse_weekdays_csv`. -/
def parseWeekdaysCsv (text : List UInt8) : List Rat := (words 44 text).filterMap luaWeekday

/-- `s:match("^([^d]+)d(.+)$")`. -/
def luaCut (d : UInt8) (text : List UInt8) : Option (List UInt8 × List UInt8) :=
  match strchrSplit d text with
  | some (a, b) => if a = [] ∨ b = [] then none else some (a, b)
  | none => none

/-- A limit goes to the rules of its mode if it is positive. -/
def LuaRuleTimes.addLimit (rule : LuaRuleTimes) (flow : Bool) (weekdays : List Rat)
    (value : List UInt8) : LuaRuleTimes :=
  let limit := (luaTonumber value).getD 0
  if 0 < limit ∧ weekdays ≠ [] then
    if flow then { rule with flowRules := rule.flowRules ++ [⟨weekdays, limit⟩] }
    else { rule with durationRules := rule.durationRules ++ [⟨weekdays, limit⟩] }
  else rule

/-- The first branch of `parse_macfilter_time_rule`: `weekdays;mode;value`. -/
def parseFields (rule : LuaRuleTimes) (weekdayPart modePart valuePart : List UInt8) : LuaRuleTimes :=
  let ruleMode := (luaTonumber modePart).getD 0
  let weekdays := parseWeekdaysCsv weekdayPart
  if weekdays = [] then rule
  else if ruleMode = 1 then { rule with timeMode := 2 }.addLimit false weekdays valuePart
  else if ruleMode = 2 then { rule with timeMode := 3 }.addLimit true weekdays valuePart
  else
    match luaCut 45 valuePart with
    | some (startTime, endTime) =>
      { rule with timeMode := 1, timeRules := rule.timeRules ++ [⟨weekdays, startTime, endTime⟩] }
    | none => { rule with timeMode := 1 }

/-- The branches for duration and flow; `word` may stand before the limit. -/
def parseLimitParts (rule : LuaRuleTimes) (flow : Bool) (word : List UInt8)
    (parts : List (List UInt8)) : LuaRuleTimes :=
  let lastWeekday :=
    if 3 ≤ parts.length ∧ parts.getD (parts.length - 2) [] = word then parts.length - 2
    else parts.length - 1
  rule.addLimit flow ((parts.take lastWeekday).filterMap luaWeekday)
    (parts.getD (parts.length - 1) [])

/-- The loop of the range branch, over all parts: the start, the end and the weekdays. -/
def luaScanTimes (startTime endTime : Option (List UInt8)) (weekdays : List Rat) :
    List (List UInt8) → Option (List UInt8) × Option (List UInt8) × List Rat
  | [] => (startTime, endTime, weekdays)
  | part :: parts =>
    if 58 ∈ part then
      match startTime with
      | none => luaScanTimes (some part) endTime weekdays parts
      | some startTime => luaScanTimes (some startTime) (some part) weekdays parts
    else luaScanTimes startTime endTime (weekdays ++ (luaWeekday part).toList) parts

/-- The range branch. -/
def luaRangeRule (parts : List (List UInt8)) : Option LuaTimeRule :=
  if 3 ≤ parts.length then
    match luaScanTimes none none [] parts with
    | (some startTime, some endTime, weekdays) =>
      if weekdays = [] then none else some ⟨weekdays, startTime, endTime⟩
    | _ => none
  else none

/-- `parse_macfilter_time_rule`. -/
def parseMacfilterTimeRule (rule : LuaRuleTimes) (timeRuleStr : List UInt8) : LuaRuleTimes :=
  match (luaCut 59 timeRuleStr).bind (fun p => (luaCut 59 p.2).map (fun q => (p.1, q.1, q.2))) with
  | some (weekdayPart, modePart, valuePart) => parseFields rule weekdayPart modePart valuePart
  | none =>
    let parts := words 44 timeRuleStr
    if parts = [] then rule
    else
      let word := if 3 ≤ parts.length then parts.getD (parts.length - 2) [] else []
      let timeMode := if word = ascii "duration" then 2 else if word = ascii "flow" then 3
        else rule.timeMode
      let rule := { rule with timeMode := timeMode }
      if timeMode = 2 then parseLimitParts rule false (ascii "duration") parts
      else if timeMode = 3 then parseLimitParts rule true (ascii "flow") parts
      else { rule with timeRules := rule.timeRules ++ (luaRangeRule parts).toList }

/-- An option that may be a list or a string, as a list. -/
def UciValue.items : UciValue → List (List UInt8)
  | .string text => [text]
  | .list items => items

/-- The rules of `parse_week_limit_rules`. -/
def weekLimitRules (limitStr : List UInt8) (max : Nat) : List LuaLimitRule :=
  (parseWeekLimitRules limitStr max).map (fun p => ⟨[(p.1 : Rat)], p.2⟩)

/-- The times of a rule that `load_macfilter_rules` has read. -/
def loadTimeRules (options : TimeOptions) : LuaRuleTimes :=
  let timeMode := (options.timeMode.bind luaTonumber).getD 1
  let rule : LuaRuleTimes := ⟨timeMode, [], [], []⟩
  let timeList := ((options.timeList.map UciValue.items).getD []).filter (· ≠ [])
  let timeLimit := options.timeLimit.getD []
  let flowLimit := options.flowLimit.getD []
  if timeMode = 1 ∧ timeList ≠ [] then timeList.foldl parseMacfilterTimeRule rule
  else if timeMode = 2 ∧ timeLimit ≠ [] then
    { rule with durationRules := weekLimitRules timeLimit 1440 }
  else if timeMode = 3 ∧ flowLimit ≠ [] then
    { rule with flowRules := weekLimitRules flowLimit 1048576 }
  else ((options.timeRule.map UciValue.items).getD []).foldl parseMacfilterTimeRule rule

/-! ## 3. The two times of a word -/

/-- The parts before the first time, that time, and the parts behind it. -/
def cutTime : List (List UInt8) → Option (List (List UInt8) × List UInt8 × List (List UInt8))
  | [] => none
  | part :: parts =>
    if 58 ∈ part then some ([], part, parts)
    else (cutTime parts).map (fun p => (part :: p.1, p.2.1, p.2.2))

/-- The parts that are no times. -/
def numberParts (parts : List (List UInt8)) : List (List UInt8) := parts.filter (58 ∉ ·)

/-- The last time among the parts. -/
def lastTime (parts : List (List UInt8)) : Option (List UInt8) := (parts.filter (58 ∈ ·)).getLast?

/-- A word with two times: the numbers before the second, the two, and the parts behind. -/
structure TimeParts where
  before : List (List UInt8)
  startTime : List UInt8
  endTime : List UInt8
  behind : List (List UInt8)
deriving DecidableEq

def timeParts (parts : List (List UInt8)) : Option TimeParts :=
  match cutTime parts with
  | none => none
  | some (before, startTime, rest) =>
    match cutTime rest with
    | none => none
    | some (between, endTime, behind) => some ⟨before ++ between, startTime, endTime, behind⟩

theorem cutTime_eq_none {parts : List (List UInt8)} (h : cutTime parts = none) :
    ∀ part ∈ parts, 58 ∉ part := by
  induction parts with
  | nil => exact fun _ h => absurd h List.not_mem_nil
  | cons part parts ih =>
    rw [cutTime] at h
    split at h
    · cases h
    · rename_i hpart
      rw [Option.map_eq_none_iff] at h
      exact List.forall_mem_cons.mpr ⟨hpart, ih h⟩

theorem cutTime_eq_some {parts before behind : List (List UInt8)} {time : List UInt8}
    (h : cutTime parts = some (before, time, behind)) :
    parts = before ++ time :: behind ∧ 58 ∈ time ∧ ∀ part ∈ before, 58 ∉ part := by
  induction parts generalizing before with
  | nil => cases h
  | cons part parts ih =>
    rw [cutTime] at h
    split at h
    · rename_i hpart
      cases h
      exact ⟨rfl, hpart, fun _ h => absurd h List.not_mem_nil⟩
    · rename_i hpart
      obtain ⟨⟨b, t, a⟩, hcut, heq⟩ := Option.map_eq_some_iff.mp h
      cases heq
      obtain ⟨h1, h2, h3⟩ := ih hcut
      exact ⟨by rw [h1]; rfl, h2, List.forall_mem_cons.mpr ⟨hpart, h3⟩⟩

section Scans

variable {β : Type} (read : List UInt8 → Option β)

/-- A loop over the parts that the second time ends, with any reading of the numbers. -/
def scanUntilSecond (startTime : Option (List UInt8)) (weekdays : List β) :
    List (List UInt8) → Option (List UInt8) × Option (List UInt8) × List β
  | [] => (startTime, none, weekdays)
  | part :: parts =>
    if 58 ∈ part then
      match startTime with
      | none => scanUntilSecond (some part) weekdays parts
      | some startTime => (some startTime, some part, weekdays)
    else scanUntilSecond startTime (weekdays ++ (read part).toList) parts

/-- A loop over all parts, where the last time wins. -/
def scanToLast (startTime endTime : Option (List UInt8)) (weekdays : List β) :
    List (List UInt8) → Option (List UInt8) × Option (List UInt8) × List β
  | [] => (startTime, endTime, weekdays)
  | part :: parts =>
    if 58 ∈ part then
      match startTime with
      | none => scanToLast (some part) endTime weekdays parts
      | some startTime => scanToLast (some startTime) (some part) weekdays parts
    else scanToLast startTime endTime (weekdays ++ (read part).toList) parts

variable {read}

theorem scanUntilSecond_number {part : List UInt8} (hpart : 58 ∉ part) (start : Option (List UInt8))
    (weekdays : List β) (parts : List (List UInt8)) :
    scanUntilSecond read start weekdays (part :: parts) =
      scanUntilSecond read start (weekdays ++ (read part).toList) parts := by
  cases start <;> exact if_neg hpart

theorem scanToLast_number {part : List UInt8} (hpart : 58 ∉ part)
    (start endTime : Option (List UInt8)) (weekdays : List β) (parts : List (List UInt8)) :
    scanToLast read start endTime weekdays (part :: parts) =
      scanToLast read start endTime (weekdays ++ (read part).toList) parts := by
  cases start <;> exact if_neg hpart

/-- Parts without a time only give weekdays. -/
theorem scanUntilSecond_numbers {start : Option (List UInt8)} : ∀ {parts : List (List UInt8)}
    {weekdays : List β} {rest : List (List UInt8)}, (∀ part ∈ parts, 58 ∉ part) →
    scanUntilSecond read start weekdays (parts ++ rest) =
      scanUntilSecond read start (weekdays ++ parts.filterMap read) rest
  | [], weekdays, rest, _ => by simp
  | part :: parts, weekdays, rest, h => by
    obtain ⟨hpart, hparts⟩ := List.forall_mem_cons.mp h
    rw [List.cons_append, scanUntilSecond_number hpart, scanUntilSecond_numbers hparts,
      List.filterMap_cons]
    cases read part <;> simp

theorem scanToLast_numbers {start endTime : Option (List UInt8)} : ∀ {parts : List (List UInt8)}
    {weekdays : List β} {rest : List (List UInt8)}, (∀ part ∈ parts, 58 ∉ part) →
    scanToLast read start endTime weekdays (parts ++ rest) =
      scanToLast read start endTime (weekdays ++ parts.filterMap read) rest
  | [], weekdays, rest, _ => by simp
  | part :: parts, weekdays, rest, h => by
    obtain ⟨hpart, hparts⟩ := List.forall_mem_cons.mp h
    rw [List.cons_append, scanToLast_number hpart, scanToLast_numbers hparts, List.filterMap_cons]
    cases read part <;> simp

/-- After a start time, every weekday is taken and the last time kept. -/
theorem scanToLast_some (start : List UInt8) : ∀ (parts : List (List UInt8))
    (endTime : Option (List UInt8)) (weekdays : List β),
    scanToLast read (some start) endTime weekdays parts =
      (some start, (lastTime parts).or endTime, weekdays ++ (numberParts parts).filterMap read)
  | [], endTime, weekdays => by simp [scanToLast, lastTime, numberParts]
  | part :: parts, endTime, weekdays => by
    rw [scanToLast]
    by_cases hpart : 58 ∈ part
    · have hlast : (lastTime (part :: parts)).or endTime = (lastTime parts).or (some part) := by
        unfold lastTime
        rw [List.filter_cons_of_pos (by simpa using hpart), List.getLast?_cons]
        cases (parts.filter (58 ∈ ·)).getLast? <;> rfl
      have hnum : numberParts (part :: parts) = numberParts parts :=
        List.filter_cons_of_neg (by simpa using hpart)
      rw [if_pos hpart, scanToLast_some start parts, hlast, hnum]
    · have hlast : lastTime (part :: parts) = lastTime parts :=
        congrArg List.getLast? (List.filter_cons_of_neg (by simpa using hpart))
      have hnum : numberParts (part :: parts) = part :: numberParts parts :=
        List.filter_cons_of_pos (by simpa using hpart)
      rw [if_neg hpart, scanToLast_some start parts, hlast, hnum, List.filterMap_cons]
      cases read part <;> simp

/-- What the first loop makes of the parts. -/
theorem scanUntilSecond_eq (parts : List (List UInt8)) :
    match timeParts parts with
    | some p => scanUntilSecond read none [] parts =
        (some p.startTime, some p.endTime, p.before.filterMap read)
    | none => (scanUntilSecond read none [] parts).2.1 = none := by
  unfold timeParts
  cases hcut : cutTime parts with
  | none =>
    have h := @scanUntilSecond_numbers β read none parts [] [] (cutTime_eq_none hcut)
    rw [List.append_nil] at h
    rw [h]
    rfl
  | some p =>
    obtain ⟨before, startTime, rest⟩ := p
    obtain ⟨rfl, hstart, hbefore⟩ := cutTime_eq_some hcut
    dsimp only
    rw [scanUntilSecond_numbers hbefore, scanUntilSecond, if_pos hstart]
    cases hcut2 : cutTime rest with
    | none =>
      have h := @scanUntilSecond_numbers β read (some startTime) rest ([] ++ before.filterMap read) []
        (cutTime_eq_none hcut2)
      rw [List.append_nil] at h
      dsimp only
      rw [h]
      rfl
    | some q =>
      obtain ⟨between, endTime, behind⟩ := q
      obtain ⟨rfl, hend, hbetween⟩ := cutTime_eq_some hcut2
      dsimp only
      rw [scanUntilSecond_numbers hbetween, scanUntilSecond, if_pos hend]
      simp

/-- What the second loop makes of the parts. -/
theorem scanToLast_eq (parts : List (List UInt8)) :
    match timeParts parts with
    | some p => scanToLast read none none [] parts =
        (some p.startTime, some ((lastTime p.behind).getD p.endTime),
          (p.before ++ numberParts p.behind).filterMap read)
    | none => (scanToLast read none none [] parts).2.1 = none := by
  unfold timeParts
  cases hcut : cutTime parts with
  | none =>
    have h := @scanToLast_numbers β read none none parts [] [] (cutTime_eq_none hcut)
    rw [List.append_nil] at h
    rw [h]
    rfl
  | some p =>
    obtain ⟨before, startTime, rest⟩ := p
    obtain ⟨rfl, hstart, hbefore⟩ := cutTime_eq_some hcut
    dsimp only
    rw [scanToLast_numbers hbefore, scanToLast, if_pos hstart, scanToLast_some]
    cases hcut2 : cutTime rest with
    | none =>
      have hnone : lastTime rest = none := by
        rw [lastTime, List.filter_eq_nil_iff.mpr]
        · rfl
        · exact fun part hpart => by simpa using cutTime_eq_none hcut2 part hpart
      dsimp only
      rw [hnone]
      rfl
    | some q =>
      obtain ⟨between, endTime, behind⟩ := q
      obtain ⟨rfl, hend, hbetween⟩ := cutTime_eq_some hcut2
      have htimes : between.filter (58 ∈ ·) = [] :=
        List.filter_eq_nil_iff.mpr (fun part hpart => by simpa using hbetween part hpart)
      have hnumbers : between.filter (58 ∉ ·) = between :=
        List.filter_eq_self.mpr (fun part hpart => by simpa using hbetween part hpart)
      have hlast : lastTime (between ++ endTime :: behind) =
          some ((lastTime behind).getD endTime) := by
        rw [lastTime, List.filter_append, htimes, List.filter_cons_of_pos (by simpa using hend),
          List.nil_append, List.getLast?_cons, lastTime]
      have hnum : numberParts (between ++ endTime :: behind) = between ++ numberParts behind := by
        rw [numberParts, List.filter_append, hnumbers, List.filter_cons_of_neg (by simpa using hend),
          numberParts]
      dsimp only
      rw [hlast, hnum]
      simp

end Scans

/-- fwxd's loop is of the first kind. -/
theorem scanTimes_eq_scanUntilSecond : ∀ (parts : List (List UInt8)) (start : Option (List UInt8))
    (weekdays : List Int),
    scanTimes start weekdays parts = scanUntilSecond weekdayToken start weekdays parts
  | [], _, _ => rfl
  | part :: parts, start, weekdays => by
    cases start <;> simp only [scanTimes, scanUntilSecond, scanTimes_eq_scanUntilSecond parts]

/-- That of the rule manager is of the second. -/
theorem luaScanTimes_eq_scanToLast : ∀ (parts : List (List UInt8)) (start endTime : Option (List UInt8))
    (weekdays : List Rat),
    luaScanTimes start endTime weekdays parts = scanToLast luaWeekday start endTime weekdays parts
  | [], _, _, _ => rfl
  | part :: parts, start, endTime, weekdays => by
    cases start <;> simp only [luaScanTimes, scanToLast, luaScanTimes_eq_scanToLast parts]

/-! ## 4. Words over digits, commas and colons -/

/-- A text of a time list, as both sides have room for it. -/
structure IsTimeWord (text : List UInt8) : Prop where
  nonempty : text ≠ []
  alphabet : ∀ c ∈ text, isdigit c = true ∨ c = 44 ∨ c = 58
  short : text.length ≤ RULE_LEN
  parts : (words 44 text).length < MAX_PARTS

/-- The bytes of a time word, as a check. -/
def isTimeByte (c : UInt8) : Bool := isdigit c || c == 44 || c == 58

theorem IsTimeWord.of_all {text : List UInt8} (nonempty : text ≠ []) (h : text.all isTimeByte = true)
    (short : text.length ≤ RULE_LEN) (parts : (words 44 text).length < MAX_PARTS) :
    IsTimeWord text where
  nonempty := nonempty
  alphabet := fun c hc => by simpa [isTimeByte, or_assoc] using List.all_eq_true.mp h c hc
  short := short
  parts := parts

theorem IsTimeWord.not_mem {text : List UInt8} (h : IsTimeWord text) {c : UInt8}
    (hdigit : isdigit c = false) (h1 : c ≠ 44) (h2 : c ≠ 58) : c ∉ text := by
  intro hc
  rcases h.alphabet c hc with h0 | h0 | h0
  · rw [hdigit] at h0
    cases h0
  · exact h1 h0
  · exact h2 h0

theorem IsTimeWord.not_mem_of_all {text out : List UInt8} (h : IsTimeWord text)
    (hall : out.all (fun c => !isTimeByte c) = true) : ∀ c ∈ out, c ∉ text := by
  intro c hc
  have hno := List.all_eq_true.mp hall c hc
  simp only [isTimeByte, Bool.not_eq_true', Bool.or_eq_false_iff, beq_eq_false_iff_ne] at hno
  exact h.not_mem hno.1.1 hno.1.2 hno.2

/-- A part that is no time is a number. -/
theorem number_of_alphabet {text part : List UInt8}
    (h : ∀ c ∈ text, isdigit c = true ∨ c = 44 ∨ c = 58) (hpart : part ∈ words 44 text)
    (hcolon : 58 ∉ part) : part ≠ [] ∧ ∀ c ∈ part, isdigit c = true := by
  obtain ⟨hne, hsub⟩ := mem_words hpart
  refine ⟨hne, fun c hc => ?_⟩
  rcases h c (hsub c hc) with h0 | rfl | rfl
  · exact h0
  · exact absurd hc (not_mem_of_mem_words hpart)
  · exact absurd hc hcolon

theorem IsTimeWord.number {text part : List UInt8} (h : IsTimeWord text)
    (hpart : part ∈ words 44 text) (hcolon : 58 ∉ part) :
    part ≠ [] ∧ ∀ c ∈ part, isdigit c = true := number_of_alphabet h.alphabet hpart hcolon

/-- fwxd's weekday of a number. -/
theorem weekdayToken_number {part : List UInt8} (hne : part ≠ [])
    (hdigits : ∀ c ∈ part, isdigit c = true) :
    weekdayToken part =
      if 0 ≤ wrap32 part ∧ wrap32 part ≤ 6 then some (wrap32 part) else none := by
  rw [weekdayToken, parseUintToken_eq, if_pos ⟨hne, List.all_eq_true.mpr hdigits⟩]
  rfl

theorem tolower_of_isdigit {c : UInt8} (h : isdigit c = true) : tolower c = c := by
  have hb := isdigit_bounds h
  refine if_neg ?_
  simp only [Bool.and_eq_true, decide_eq_true_eq, UInt8.le_iff_toNat_le, not_and]
  intro h
  exact absurd (h.trans hb.2) (by decide)

/-- Digits have no sign and no blanks. -/
theorem takeSign_number {part : List UInt8} (hne : part ≠ []) (hdigits : ∀ c ∈ part, isdigit c = true) :
    takeSign (trimSpaces part) = (false, part) := by
  obtain ⟨c, l, rfl⟩ := List.exists_cons_of_ne_nil hne
  have hc := hdigits c (List.mem_cons_self ..)
  rw [trimSpaces_of_forall (fun c hc => isspace_of_isdigit (hdigits c hc))]
  unfold takeSign
  split
  · rename_i heq
    cases heq
    exact absurd hc (by decide)
  · rename_i heq
    cases heq
    exact absurd hc (by decide)
  · rfl

theorem luaTonumber_number {part : List UInt8} (hne : part ≠ [])
    (hdigits : ∀ c ∈ part, isdigit c = true) : luaTonumber part = some (tonumber part : Rat) := by
  have htake : part.takeWhile isdigit = part := List.takeWhile_eq_self_iff.mpr hdigits
  have hdrop : part.dropWhile isdigit = [] := List.dropWhile_eq_nil_iff.mpr hdigits
  have hdecimal : luaUnsigned.luaDecimal part = some (tonumber part : Rat) := by
    simp [luaUnsigned.luaDecimal, htake, hdrop, hne, luaExponent]
  have hunsigned : luaUnsigned part = some (tonumber part : Rat) := by
    unfold luaUnsigned
    split
    · rename_i x digits
      -- an `x` is no digit
      have hx : ¬ tolower x = 120 := by
        intro hx
        have hdigit := hdigits x (by simp)
        rw [← tolower_of_isdigit hdigit, hx] at hdigit
        exact absurd hdigit (by decide)
      rw [if_neg (by simp [hx])]
      exact hdecimal
    · exact hdecimal
  simp only [luaTonumber, takeSign_number hne hdigits, hunsigned]
  rfl

/-- The rule manager's weekday of a number. -/
theorem luaWeekday_number {part : List UInt8} (hne : part ≠ [])
    (hdigits : ∀ c ∈ part, isdigit c = true) :
    luaWeekday part = if tonumber part ≤ 6 then some (tonumber part : Rat) else none := by
  have h0 : (0 : Rat) ≤ (tonumber part : Rat) := Nat.cast_nonneg _
  have h6 : (tonumber part : Rat) ≤ 6 ↔ tonumber part ≤ 6 := by
    exact_mod_cast Iff.rfl
  simp only [luaWeekday, luaTonumber_number hne hdigits, h0, h6, true_and]

/-! ## 5. What each side makes of a word -/

/-- What the rule manager reads off a text in range mode. -/
def luaReadRange (text : List UInt8) : List LuaTimeRule :=
  (parseMacfilterTimeRule ⟨1, [], [], []⟩ text).timeRules

theorem readTimeRule_word {text : List UInt8} (h : IsTimeWord text) :
    readTimeRule text .range = rangeRuleOfParts (words 44 text) := by
  have hsemi : semicolonFields text = none :=
    if_neg (h.not_mem (by decide) (by decide) (by decide))
  have hparts : (words 44 (text.take RULE_LEN)).take MAX_PARTS = words 44 text := by
    rw [List.take_of_length_le h.short, List.take_of_length_le h.parts.le]
  rw [readTimeRule, hsemi]
  dsimp only
  rw [hparts]
  split
  · rename_i hnil
    rw [hnil]
    rfl
  · rfl

theorem parseMacfilterTimeRule_word {text : List UInt8} (h : IsTimeWord text) {rule : LuaRuleTimes}
    (hmode : rule.timeMode = 1) :
    parseMacfilterTimeRule rule text =
      { rule with timeRules := rule.timeRules ++ (luaRangeRule (words 44 text)).toList } := by
  have hsemi : luaCut 59 text = none := by
    rw [luaCut, strchrSplit_eq_none (h.not_mem (by decide) (by decide) (by decide))]
  have hword : ∀ w : List UInt8, w ≠ [] → (∀ c ∈ w, c ∉ text) →
      (if 3 ≤ (words 44 text).length then (words 44 text).getD ((words 44 text).length - 2) [] else [])
        ≠ w := by
    intro w hw hout heq
    subst heq
    obtain ⟨c, hc⟩ := List.exists_mem_of_ne_nil _ hw
    refine hout c hc ?_
    split at hc
    · rename_i hlen
      have hlt : (words 44 text).length - 2 < (words 44 text).length := by omega
      rw [List.getD_eq_getElem?_getD, List.getElem?_eq_getElem hlt, Option.getD_some] at hc
      exact (mem_words (List.getElem_mem hlt)).2 c hc
    · exact absurd hc List.not_mem_nil
  have hduration := hword (ascii "duration") (by decide) (h.not_mem_of_all (by decide))
  have hflow := hword (ascii "flow") (by decide) (h.not_mem_of_all (by decide))
  rw [parseMacfilterTimeRule, hsemi]
  dsimp only [Option.bind_none]
  split
  · rename_i hnil
    simp [hnil, luaRangeRule]
  · simp only [hmode]
    rw [if_neg (by decide), if_neg (by decide)]

theorem timeParts_length {parts : List (List UInt8)} {p : TimeParts}
    (h : timeParts parts = some p) :
    parts.length = p.before.length + 2 + p.behind.length ∧
      (∀ part ∈ p.before, part ∈ parts ∧ 58 ∉ part) ∧
      ∀ part ∈ numberParts p.behind, part ∈ parts ∧ 58 ∉ part := by
  unfold timeParts at h
  cases hcut : cutTime parts with
  | none => simp [hcut] at h
  | some q =>
    obtain ⟨before, startTime, rest⟩ := q
    rw [hcut] at h
    obtain ⟨rfl, -, hbefore⟩ := cutTime_eq_some hcut
    cases hcut2 : cutTime rest with
    | none => simp [hcut2] at h
    | some q =>
      obtain ⟨between, endTime, behind⟩ := q
      obtain ⟨rfl, -, hbetween⟩ := cutTime_eq_some hcut2
      simp only [hcut2, Option.some.injEq] at h
      subst h
      refine ⟨?_, ?_, ?_⟩
      · simp only [List.length_append, List.length_cons]
        omega
      · intro part hpart
        rcases List.mem_append.mp hpart with hpart | hpart
        · exact ⟨by simp [hpart], hbefore part hpart⟩
        · exact ⟨by simp [hpart], hbetween part hpart⟩
      · intro part hpart
        have hmem := List.mem_filter.mp hpart
        exact ⟨by simp [hmem.1], by simpa using hmem.2⟩

/-- The range branches of both, with the length check that the weekdays make up for. -/
theorem rangeRuleOfParts_eq (parts : List (List UInt8)) :
    rangeRuleOfParts parts =
      match timeParts parts with
      | none => none
      | some p =>
        if p.before.filterMap weekdayToken = [] then none
        else some (⟨p.before.filterMap weekdayToken, .times p.startTime p.endTime⟩, .range) := by
  have hscan := @scanUntilSecond_eq _ weekdayToken parts
  simp only [← scanTimes_eq_scanUntilSecond] at hscan
  unfold rangeRuleOfParts
  cases hp : timeParts parts with
  | none =>
    rw [hp] at hscan
    generalize scanTimes none [] parts = r at hscan ⊢
    obtain ⟨a, b, c⟩ := r
    obtain rfl : b = none := hscan
    cases a <;> simp
  | some p =>
    rw [hp] at hscan
    have hlen := (timeParts_length hp).1
    rw [show scanTimes none [] parts = _ from hscan]
    by_cases hshort : 3 ≤ parts.length
    · rw [if_pos hshort]
    · have hbefore : p.before = [] := List.length_eq_zero_iff.mp (by omega)
      rw [if_neg hshort]
      simp [hbefore]

theorem luaRangeRule_eq (parts : List (List UInt8)) :
    luaRangeRule parts =
      match timeParts parts with
      | none => none
      | some p =>
        if (p.before ++ numberParts p.behind).filterMap luaWeekday = [] then none
        else some ⟨(p.before ++ numberParts p.behind).filterMap luaWeekday, p.startTime,
          (lastTime p.behind).getD p.endTime⟩ := by
  have hscan := @scanToLast_eq _ luaWeekday parts
  simp only [← luaScanTimes_eq_scanToLast] at hscan
  unfold luaRangeRule
  cases hp : timeParts parts with
  | none =>
    rw [hp] at hscan
    generalize luaScanTimes none none [] parts = r at hscan ⊢
    obtain ⟨a, b, c⟩ := r
    obtain rfl : b = none := hscan
    cases a <;> simp
  | some p =>
    rw [hp] at hscan
    have hlen := (timeParts_length hp).1
    rw [show luaScanTimes none none [] parts = _ from hscan]
    by_cases hshort : 3 ≤ parts.length
    · rw [if_pos hshort]
    · have hbefore : p.before = [] := List.length_eq_zero_iff.mp (by omega)
      have hbehind : p.behind = [] := List.length_eq_zero_iff.mp (by omega)
      rw [if_neg hshort]
      simp [hbefore, hbehind, numberParts]

/-! ## 6. The same times on both sides -/

/-- The same weekdays, start and end. -/
def SameTimeRule (rule : TimeRuleObj) (luaRule : LuaTimeRule) : Prop :=
  rule.value = .times luaRule.startTime luaRule.endTime ∧
    ∀ wd : Rat, wd ∈ rule.weekdays.map (fun d : Int => (d : Rat)) ↔ wd ∈ luaRule.weekdays

/-- The condition on a text, if it has two times: the weekdays before the second, modulo `2 ^ 32`, are the
weekdays of the whole text as they are written; and if there are any, then no later time follows, or
the last is the second again. -/
def WordAgrees (text : List UInt8) : Prop :=
  ∀ p ∈ timeParts (words 44 text),
    (∀ d : Nat, d ≤ 6 → ((∃ part ∈ p.before, wrap32 part = d) ↔
      ∃ part ∈ p.before ++ numberParts p.behind, tonumber part = d)) ∧
    ((lastTime p.behind).getD p.endTime = p.endTime ∨
      ∀ part ∈ p.before ++ numberParts p.behind, 6 < tonumber part)

instance (text : List UInt8) : Decidable (WordAgrees text) :=
  match h : timeParts (words 44 text) with
  | none => isTrue (fun p hp => by rw [h] at hp; cases hp)
  | some p =>
    decidable_of_iff
      ((∀ d : Nat, d ≤ 6 → ((∃ part ∈ p.before, wrap32 part = d) ↔
          ∃ part ∈ p.before ++ numberParts p.behind, tonumber part = d)) ∧
        ((lastTime p.behind).getD p.endTime = p.endTime ∨
          ∀ part ∈ p.before ++ numberParts p.behind, 6 < tonumber part))
      ⟨fun hp q hq => by rw [h] at hq; cases hq; exact hp, fun hall => hall p h⟩

/-- The weekdays of numbers, read by either side. -/
theorem mem_weekdays {parts : List (List UInt8)}
    (h : ∀ part ∈ parts, part ≠ [] ∧ ∀ c ∈ part, isdigit c = true) (wd : Rat) :
    (wd ∈ (parts.filterMap weekdayToken).map (fun d : Int => (d : Rat)) ↔
      ∃ d : Nat, d ≤ 6 ∧ (∃ part ∈ parts, wrap32 part = d) ∧ wd = d) ∧
    (wd ∈ parts.filterMap luaWeekday ↔
      ∃ d : Nat, d ≤ 6 ∧ (∃ part ∈ parts, tonumber part = d) ∧ wd = d) := by
  constructor
  · constructor
    · intro hmem
      obtain ⟨d, hd, rfl⟩ := List.mem_map.mp hmem
      obtain ⟨part, hpart, htoken⟩ := List.mem_filterMap.mp hd
      rw [weekdayToken_number (h part hpart).1 (h part hpart).2] at htoken
      generalize hwrap : wrap32 part = v at htoken
      split at htoken
      · rename_i hrange
        obtain rfl := Option.some.inj htoken
        have hcast : (v.toNat : Int) = v := Int.toNat_of_nonneg hrange.1
        refine ⟨v.toNat, by omega, ⟨part, hpart, by rw [hwrap, hcast]⟩, ?_⟩
        rw [← Int.cast_natCast, hcast]
      · cases htoken
    · rintro ⟨d, hd, ⟨part, hpart, hwrap⟩, rfl⟩
      refine List.mem_map.mpr ⟨(d : Int), List.mem_filterMap.mpr ⟨part, hpart, ?_⟩, by simp⟩
      rw [weekdayToken_number (h part hpart).1 (h part hpart).2, hwrap, if_pos (by omega)]
  · constructor
    · intro hmem
      obtain ⟨part, hpart, htoken⟩ := List.mem_filterMap.mp hmem
      rw [luaWeekday_number (h part hpart).1 (h part hpart).2] at htoken
      split at htoken
      · rename_i hrange
        cases htoken
        exact ⟨tonumber part, hrange, ⟨part, hpart, rfl⟩, rfl⟩
      · cases htoken
    · rintro ⟨d, hd, ⟨part, hpart, rfl⟩, rfl⟩
      refine List.mem_filterMap.mpr ⟨part, hpart, ?_⟩
      rw [luaWeekday_number (h part hpart).1 (h part hpart).2, if_pos hd]

/-- The weekdays read by the two sides off their parts are the same set. -/
theorem sameWeekdays_iff {parts luaParts : List (List UInt8)}
    (h : ∀ part ∈ parts, part ≠ [] ∧ ∀ c ∈ part, isdigit c = true)
    (hlua : ∀ part ∈ luaParts, part ≠ [] ∧ ∀ c ∈ part, isdigit c = true) :
    (∀ wd : Rat, wd ∈ (parts.filterMap weekdayToken).map (fun d : Int => (d : Rat)) ↔
        wd ∈ luaParts.filterMap luaWeekday) ↔
      ∀ d : Nat, d ≤ 6 →
        ((∃ part ∈ parts, wrap32 part = d) ↔ ∃ part ∈ luaParts, tonumber part = d) := by
  constructor
  · intro hall d hd
    have h1 := (mem_weekdays h (d : Rat)).1
    have h2 := (mem_weekdays hlua (d : Rat)).2
    simp only [Nat.cast_inj] at h1 h2
    constructor
    · intro hex
      obtain ⟨d', -, hex', heq⟩ := h2.mp ((hall _).mp (h1.mpr ⟨d, hd, hex, rfl⟩))
      rwa [heq]
    · intro hex
      obtain ⟨d', -, hex', heq⟩ := h1.mp ((hall _).mpr (h2.mpr ⟨d, hd, hex, rfl⟩))
      rwa [heq]
  · intro hall wd
    rw [(mem_weekdays h wd).1, (mem_weekdays hlua wd).2]
    exact exists_congr (fun d => ⟨fun ⟨hd, hex, heq⟩ => ⟨hd, (hall d hd).mp hex, heq⟩,
      fun ⟨hd, hex, heq⟩ => ⟨hd, (hall d hd).mpr hex, heq⟩⟩)

/-- Two entries with one start: none without weekdays, else the same weekdays and the same end. -/
theorem rel_entries_iff (l1 : List Int) (l2 : List Rat) (startTime endTime endTime' : List UInt8) :
    Option.Rel (fun (rule : TimeRuleObj × TimeMode) luaRule => SameTimeRule rule.1 luaRule)
      (if l1 = [] then none else some (⟨l1, .times startTime endTime⟩, .range))
      (if l2 = [] then none else some ⟨l2, startTime, endTime'⟩) ↔
    (∀ wd : Rat, wd ∈ l1.map (fun d : Int => (d : Rat)) ↔ wd ∈ l2) ∧
      (endTime' = endTime ∨ l2 = []) := by
  by_cases h1 : l1 = []
  · by_cases h2 : l2 = []
    · simp [h1, h2]
    · obtain ⟨wd, hwd⟩ := List.exists_mem_of_ne_nil _ h2
      rw [if_pos h1, if_neg h2]
      constructor
      · rintro ⟨⟩
      · rintro ⟨hall, -⟩
        have := (hall wd).mpr hwd
        simp [h1] at this
  · rw [if_neg h1]
    by_cases h2 : l2 = []
    · obtain ⟨d, hd⟩ := List.exists_mem_of_ne_nil _ h1
      rw [if_pos h2]
      constructor
      · rintro ⟨⟩
      · rintro ⟨hall, -⟩
        have := (hall (d : Rat)).mp (List.mem_map_of_mem hd)
        simp [h2] at this
    · rw [if_neg h2, Option.rel_some_some]
      simp only [SameTimeRule, TimeRuleValue.times.injEq, true_and, h2, or_false]
      exact ⟨fun ⟨he, hall⟩ => ⟨hall, he.symm⟩, fun ⟨hall, he⟩ => ⟨he.symm, hall⟩⟩

/-- **One text**: the two sides agree on it exactly under the condition. -/
theorem word_agrees_iff {text : List UInt8} (h : IsTimeWord text) :
    Option.Rel (fun (rule : TimeRuleObj × TimeMode) luaRule => SameTimeRule rule.1 luaRule)
      (rangeRuleOfParts (words 44 text)) (luaRangeRule (words 44 text)) ↔ WordAgrees text := by
  rw [rangeRuleOfParts_eq, luaRangeRule_eq, WordAgrees]
  cases hp : timeParts (words 44 text) with
  | none => simp
  | some p =>
    obtain ⟨-, hbefore, hbehind⟩ := timeParts_length hp
    have hnum1 : ∀ part ∈ p.before, part ≠ [] ∧ ∀ c ∈ part, isdigit c = true := fun part hpart =>
      h.number (hbefore part hpart).1 (hbefore part hpart).2
    have hnum2 : ∀ part ∈ p.before ++ numberParts p.behind,
        part ≠ [] ∧ ∀ c ∈ part, isdigit c = true := by
      intro part hpart
      rcases List.mem_append.mp hpart with hpart | hpart
      · exact hnum1 part hpart
      · exact h.number (hbehind part hpart).1 (hbehind part hpart).2
    have hnone : (p.before ++ numberParts p.behind).filterMap luaWeekday = [] ↔
        ∀ part ∈ p.before ++ numberParts p.behind, 6 < tonumber part := by
      rw [List.filterMap_eq_nil_iff]
      refine forall₂_congr (fun part hpart => ?_)
      rw [luaWeekday_number (hnum2 part hpart).1 (hnum2 part hpart).2]
      simp
    dsimp only
    rw [rel_entries_iff, sameWeekdays_iff hnum1 hnum2, hnone]
    simp only [Option.mem_some_iff, forall_eq']

/-- A section in range mode with a time list, as both sides take it. -/
structure RangeSection (options : TimeOptions) (items : List (List UInt8)) : Prop where
  list : options.timeList = some (.list items)
  /-- UCI has no empty lists. -/
  nonempty : items ≠ []
  isWord : ∀ text ∈ items, IsTimeWord text
  fits : ([32].intercalate items).length < 2048
  mode : (getTimeRules options).1 = .range
  luaMode : (options.timeMode.bind luaTonumber).getD 1 = 1

theorem foldl_appendTimeRuleObj (timeMode : TimeMode) : ∀ (items : List (List UInt8))
    (timeRules : List TimeRuleObj),
    items.foldl (fun l p => appendTimeRuleObj l p timeMode) timeRules =
      timeRules ++ items.filterMap (fun p => (readTimeRule p timeMode).map (·.1))
  | [], timeRules => by simp
  | p :: items, timeRules => by
    rw [List.foldl_cons, foldl_appendTimeRuleObj timeMode items, appendTimeRuleObj,
      List.filterMap_cons]
    cases readTimeRule p timeMode <;> simp

theorem foldl_parseMacfilterTimeRule : ∀ {items : List (List UInt8)} {rule : LuaRuleTimes},
    (∀ text ∈ items, IsTimeWord text) → rule.timeMode = 1 →
    items.foldl parseMacfilterTimeRule rule =
      { rule with
        timeRules := rule.timeRules ++ items.filterMap (fun p => luaRangeRule (words 44 p)) }
  | [], rule, _, _ => by simp
  | p :: items, rule, h, hmode => by
    obtain ⟨hp, hitems⟩ := List.forall_mem_cons.mp h
    have hrest := @foldl_parseMacfilterTimeRule items
      { rule with timeRules := rule.timeRules ++ (luaRangeRule (words 44 p)).toList } hitems hmode
    rw [List.foldl_cons, parseMacfilterTimeRule_word hp hmode, hrest, List.filterMap_cons]
    cases luaRangeRule (words 44 p) <;> simp

/-- The rules that fwxd shows. -/
theorem getTimeRules_range {options : TimeOptions} {items : List (List UInt8)}
    (h : RangeSection options items) :
    (getTimeRules options).2 =
      items.filterMap (fun p => (rangeRuleOfParts (words 44 p)).map (·.1)) := by
  have hwords : words 32 ([32].intercalate items) = items := by
    refine words_intercalate (fun text htext => ?_) (fun text htext => (h.isWord text htext).nonempty)
    exact (h.isWord text htext).not_mem (by decide) (by decide) (by decide)
  have hmode := h.mode
  simp only [getTimeRules] at hmode ⊢
  rw [hmode]
  simp only [h.list, appendUciList, hwords, foldl_appendTimeRuleObj, List.nil_append]
  exact List.filterMap_congr (fun text htext => by rw [readTimeRule_word (h.isWord text htext)])

/-- What the rule manager loads. -/
theorem loadTimeRules_eq {options : TimeOptions} {items : List (List UInt8)}
    (h : RangeSection options items) :
    loadTimeRules options = ⟨1, items.filterMap (fun p => luaRangeRule (words 44 p)), [], []⟩ := by
  have hfilter : items.filter (· ≠ []) = items :=
    List.filter_eq_self.mpr (fun text htext => by simpa using (h.isWord text htext).nonempty)
  simp only [loadTimeRules, h.luaMode, h.list, Option.map_some, UciValue.items, Option.getD_some,
    hfilter]
  rw [if_pos ⟨trivial, h.nonempty⟩, foldl_parseMacfilterTimeRule h.isWord rfl, List.nil_append]

/-- The rules that the rule manager enforces. -/
theorem loadTimeRules_range {options : TimeOptions} {items : List (List UInt8)}
    (h : RangeSection options items) :
    (loadTimeRules options).timeRules = items.filterMap (fun p => luaRangeRule (words 44 p)) := by
  rw [loadTimeRules_eq h]

/-- **Exactly when the times mean the same**: the two lists are the same, entry by entry, and the same
texts are rejected, if and only if every text meets the condition. -/
theorem time_rules_agree_iff {options : TimeOptions} {items : List (List UInt8)}
    (h : RangeSection options items) :
    (List.Forall₂ SameTimeRule (getTimeRules options).2 (loadTimeRules options).timeRules ∧
      ∀ text ∈ items, readTimeRule text .range = none ↔ luaReadRange text = []) ↔
    ∀ text ∈ items, WordAgrees text := by
  have hreject : (∀ text ∈ items, readTimeRule text .range = none ↔ luaReadRange text = []) ↔
      ∀ text ∈ items, (rangeRuleOfParts (words 44 text)).map (·.1) = none ↔
        luaRangeRule (words 44 text) = none := by
    refine forall₂_congr (fun text htext => ?_)
    rw [readTimeRule_word (h.isWord text htext), luaReadRange,
      parseMacfilterTimeRule_word (h.isWord text htext) rfl, Option.map_eq_none_iff]
    simp
  rw [hreject, getTimeRules_range h, loadTimeRules_range h, forall₂_filterMap_iff]
  refine forall₂_congr (fun text htext => ?_)
  rw [← word_agrees_iff (h.isWord text htext)]
  cases rangeRuleOfParts (words 44 text) <;> cases luaRangeRule (words 44 text) <;> simp

/-- A section of the API's own making: two working days in the morning. -/
def morningSection : TimeOptions where
  timeMode := none
  timeList := some (.list [ascii "1,2,08:00,12:00"])
  timeRule := none
  timeLimit := none
  flowLimit := none

theorem morningSection_range : RangeSection morningSection [ascii "1,2,08:00,12:00"] where
  list := rfl
  nonempty := by decide
  isWord := by
    intro text htext
    rw [List.mem_singleton.mp htext]
    exact .of_all (by decide) (by decide) (by decide) (by decide)
  fits := by decide
  mode := by decide
  luaMode := rfl

theorem time_rules_agree_morning :
    List.Forall₂ SameTimeRule (getTimeRules morningSection).2
        (loadTimeRules morningSection).timeRules ∧
      ∀ text ∈ [ascii "1,2,08:00,12:00"],
        readTimeRule text .range = none ↔ luaReadRange text = [] :=
  (time_rules_agree_iff morningSection_range).mpr (by decide)

/-- A third time, and a weekday behind the times. -/
def longEvening : List UInt8 := ascii "1,08:00,09:00,23:00"
def lateWeekday : List UInt8 := ascii "08:00,09:00,1"

def eveningSection : TimeOptions :=
  { morningSection with timeList := some (.list [longEvening, lateWeekday]) }

theorem eveningSection_range : RangeSection eveningSection [longEvening, lateWeekday] where
  list := rfl
  nonempty := by decide
  isWord := by
    intro text htext
    simp only [List.mem_cons, List.not_mem_nil, or_false] at htext
    rcases htext with rfl | rfl
    · exact .of_all (by decide) (by decide) (by decide) (by decide)
    · exact .of_all (by decide) (by decide) (by decide) (by decide)
  fits := by decide
  mode := by decide
  luaMode := rfl

/-- **Text behind the second time**: fwxd shows Monday from 8 to 9 and nothing else, the rule manager
enforces Monday from 8 to 23, and from 8 to 9 by the text that fwxd rejects. -/
theorem time_rules_differ :
    RangeSection eveningSection [longEvening, lateWeekday] ∧
    (getTimeRules eveningSection).2 = [⟨[1], .times (ascii "08:00") (ascii "09:00")⟩] ∧
    (loadTimeRules eveningSection).timeRules =
      [⟨[1], ascii "08:00", ascii "23:00"⟩, ⟨[1], ascii "08:00", ascii "09:00"⟩] ∧
    ¬ List.Forall₂ SameTimeRule (getTimeRules eveningSection).2
      (loadTimeRules eveningSection).timeRules ∧
    readTimeRule lateWeekday .range = none := by
  have hshown : (getTimeRules eveningSection).2 =
      [⟨[1], .times (ascii "08:00") (ascii "09:00")⟩] := by
    rw [getTimeRules_range eveningSection_range]
    decide
  have henforced : (loadTimeRules eveningSection).timeRules =
      [⟨[1], ascii "08:00", ascii "23:00"⟩, ⟨[1], ascii "08:00", ascii "09:00"⟩] := by
    have hone : luaWeekday (ascii "1") = some 1 := by
      have hvalue : tonumber (ascii "1") = 1 := by decide
      rw [luaWeekday_number (by decide) (List.all_eq_true.mp (by decide)), hvalue]
      rfl
    have hlong : timeParts (words 44 longEvening) =
        some ⟨[ascii "1"], ascii "08:00", ascii "09:00", [ascii "23:00"]⟩ := by decide
    have hlate : timeParts (words 44 lateWeekday) =
        some ⟨[], ascii "08:00", ascii "09:00", [ascii "1"]⟩ := by decide
    have hnum : numberParts [ascii "23:00"] = [] ∧ numberParts [ascii "1"] = [ascii "1"] := by decide
    have hlast : lastTime [ascii "23:00"] = some (ascii "23:00") ∧ lastTime [ascii "1"] = none := by
      decide
    rw [loadTimeRules_range eveningSection_range]
    simp [luaRangeRule_eq, hlong, hlate, hnum, hlast, hone]
  refine ⟨eveningSection_range, hshown, henforced, ?_, by decide⟩
  rw [hshown, henforced]
  simp

end Oaf.MacFilter
