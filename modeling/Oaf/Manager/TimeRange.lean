/-
# Time rules of the rule manager

`rule_manager.lua` asks `is_time_in_range` for the rules of both filters.  A time rule has weekdays, and a start
and an end that `parse_time` reads.

The weekdays are Lua numbers: integers for the loaded rules of the app filter, and whatever `tonumber` made of a
text for those of the MAC filter.  Nothing but equality is asked of them.

* `timeRuleMatches_iff`: what one time rule decides.
-/
import Oaf.Lib.CText

namespace Oaf

open CLib

/-- An element of `rule.time_rules`. -/
structure TimeRule (day : Type) where
  weekdays : List day
  startTime : List UInt8
  endTime : List UInt8
deriving DecidableEq

/-- `match("(%d+):(%d+)")` at the start of a text. -/
def luaClockHere (text : List UInt8) : Option (List UInt8 × List UInt8) :=
  match text.dropWhile isdigit with
  | 58 :: rest =>
    if text.takeWhile isdigit = [] ∨ rest.takeWhile isdigit = [] then none
    else some (text.takeWhile isdigit, rest.takeWhile isdigit)
  | _ => none

/-- `parse_time`: the first place where the pattern matches. -/
def parseTime : List UInt8 → Option Nat
  | [] => none
  | c :: text =>
    match luaClockHere (c :: text) with
    | some (hour, min) => some (Kernel.ofDigits 10 hour * 60 + Kernel.ofDigits 10 min)
    | none => parseTime text

example : parseTime (ascii "08:30") = some 510 ∧ parseTime (ascii "at 7:05h") = some 425 := by decide

variable {day : Type} [DecidableEq day]

/-- One time rule.  A window whose start is after its end goes over midnight. -/
def timeRuleMatches (weekday : day) (minutes : Nat) (timeRule : TimeRule day) : Bool :=
  decide (weekday ∈ timeRule.weekdays) &&
    match parseTime timeRule.startTime, parseTime timeRule.endTime with
    | some startMinutes, some endMinutes =>
      if startMinutes ≤ endMinutes then decide (startMinutes ≤ minutes) && decide (minutes ≤ endMinutes)
      else decide (startMinutes ≤ minutes) || decide (minutes ≤ endMinutes)
    | _, _ => false

/-- `is_time_in_range`. -/
def isTimeInRange (timeRules : List (TimeRule day)) (weekday : day) (minutes : Nat) : Bool :=
  timeRules.any (timeRuleMatches weekday minutes)

/-- **One time rule** is in force from its start to its end on the days that it selects, or, when its start is
later, from its start on and up to its end. -/
theorem timeRuleMatches_iff {weekday : day} {minutes : Nat} {timeRule : TimeRule day} :
    timeRuleMatches weekday minutes timeRule = true ↔
      ∃ s e : Nat, parseTime timeRule.startTime = some s ∧ parseTime timeRule.endTime = some e ∧
        weekday ∈ timeRule.weekdays ∧ (s ≤ e ∧ s ≤ minutes ∧ minutes ≤ e ∨ e < s ∧ (s ≤ minutes ∨ minutes ≤ e)) := by
  rw [timeRuleMatches]
  cases parseTime timeRule.startTime with
  | none => simp
  | some s =>
    cases parseTime timeRule.endTime with
    | none => simp
    | some e =>
      by_cases hse : s ≤ e
      · simp [hse, not_lt.mpr hse]
      · simp [hse, not_le.mp hse]

end Oaf
