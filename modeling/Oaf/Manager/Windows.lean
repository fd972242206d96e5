/-
# When a time rule is in force

`is_time_in_range` decides whether a rule of either filter is in force.  A time rule selects weekdays and
has a start and an end `HH:MM`; with the end before the start it goes over midnight.

The function compares the weekday of the moment only.  Behind midnight a window that began yesterday is
still open, but it is taken for today's: it is closed if today is not selected, and where today is selected
the hours before its own window are open too.  fwxd (`pc_is_time_rule_matched`) asks for yesterday's weekday
there.

* `inWindow_iff`: a window, by the weekday of the moment and by the one before.
* `isTimeInRange_clock_iff`: what the function decides.
* `time_in_range_iff`: exactly when the two agree.
-/
import Oaf.MacFilter.Enforced

namespace Oaf

open CLib
open MacFilter (LoadedRange isTimeInRange_iff CurrentInfo)

/-! ## 1. Windows of the week -/

/-- A time of the day. -/
structure ClockTime where
  hour : Fin 24
  minute : Fin 60
deriving DecidableEq

def ClockTime.minutes (time : ClockTime) : Nat := time.hour * 60 + time.minute

/-- `HH:MM` -/
def ClockTime.text (time : ClockTime) : List UInt8 :=
  [digitByte (time.hour / 10), digitByte (time.hour % 10), 58,
    digitByte (time.minute / 10), digitByte (time.minute % 10)]

/-- A time rule. -/
structure ClockRule where
  weekdays : List (Fin 7)
  startTime : ClockTime
  endTime : ClockTime

/-- The rule as it is loaded. -/
def ClockRule.loaded (rule : ClockRule) : LoadedRange :=
  ⟨rule.weekdays, rule.startTime.text, rule.endTime.text⟩

/-- How many minutes a window lasts: up to the end of the same day, or of the next one if that is earlier
than the start. -/
def ClockRule.length (rule : ClockRule) : Nat :=
  if rule.endTime.minutes < rule.startTime.minutes then
    1440 + rule.endTime.minutes - rule.startTime.minutes
  else rule.endTime.minutes - rule.startTime.minutes

/-- A moment of the week, in minutes. -/
def weekMinute (weekday : Fin 7) (minutes : Nat) : Nat := weekday * 1440 + minutes

/-- The moment lies in the closed window of some selected weekday.  The week is a circle. -/
def ClockRule.InWindow (rule : ClockRule) (weekday : Fin 7) (minutes : Nat) : Prop :=
  ∃ d ∈ rule.weekdays, ∃ elapsed ≤ rule.length,
    (weekMinute d rule.startTime.minutes + elapsed) % 10080 = weekMinute weekday minutes

/-- The window goes over midnight, and behind midnight it is still open at this minute. -/
def ClockRule.StillOpen (rule : ClockRule) (minutes : Nat) : Prop :=
  rule.endTime.minutes < rule.startTime.minutes ∧ minutes ≤ rule.endTime.minutes

/-- The window of this weekday is open before midnight. -/
def ClockRule.OpenOn (rule : ClockRule) (weekday : Fin 7) (minutes : Nat) : Prop :=
  weekday ∈ rule.weekdays ∧ rule.startTime.minutes ≤ minutes ∧
    (rule.endTime.minutes < rule.startTime.minutes ∨ minutes ≤ rule.endTime.minutes)

theorem ClockTime.minutes_lt (time : ClockTime) : time.minutes < 1440 := by
  have hhour := time.hour.isLt
  have hminute := time.minute.isLt
  rw [ClockTime.minutes]
  omega

theorem val_sub_one (d : Fin 7) : ((d - 1 : Fin 7) : Nat) = (d.val + 6) % 7 := by
  revert d
  decide

/-- **A window** is open on its own day, or on the morning after. -/
theorem inWindow_iff (rule : ClockRule) (weekday : Fin 7) {minutes : Nat} (h : minutes < 1440) :
    rule.InWindow weekday minutes ↔ rule.OpenOn weekday minutes ∨
      weekday - 1 ∈ rule.weekdays ∧ rule.StillOpen minutes := by
  have hstart := rule.startTime.minutes_lt
  have hend := rule.endTime.minutes_lt
  have hday := weekday.isLt
  have hyesterday := val_sub_one weekday
  rw [ClockRule.InWindow, ClockRule.OpenOn, ClockRule.StillOpen]
  constructor
  · rintro ⟨d, hd, elapsed, hlen, hat⟩
    have hdlt := d.isLt
    rw [ClockRule.length] at hlen
    rw [weekMinute, weekMinute] at hat
    by_cases hover : rule.startTime.minutes + elapsed < 1440
    · -- the same day
      have hsame : d = weekday := by
        refine Fin.ext ?_
        split at hlen <;> omega
      subst hsame
      refine .inl ⟨hd, ?_, ?_⟩
      · split at hlen <;> omega
      · split at hlen <;> omega
    · -- behind midnight
      have hnext : d = weekday - 1 := by
        refine Fin.ext ?_
        split at hlen <;> omega
      subst hnext
      refine .inr ⟨hd, ?_⟩
      split at hlen <;> omega
  · rintro (⟨hd, hfrom, hto⟩ | ⟨hd, hover, hto⟩)
    · refine ⟨weekday, hd, minutes - rule.startTime.minutes, ?_, ?_⟩
      · rw [ClockRule.length]
        split <;> omega
      · rw [weekMinute, weekMinute]
        omega
    · refine ⟨weekday - 1, hd, 1440 + minutes - rule.startTime.minutes, ?_, ?_⟩
      · rw [ClockRule.length, if_pos hover]
        omega
      · rw [weekMinute, weekMinute]
        omega

/-! ## 2. What the function decides -/

/-- A time is read back. -/
theorem parseTime_text (time : ClockTime) : parseTime time.text = some time.minutes := by
  have hhour := time.hour.isLt
  have hminute := time.minute.isLt
  have hdigit : ∀ n : Nat, n < 60 → isdigit (digitByte (n / 10)) = true ∧
      isdigit (digitByte (n % 10)) = true ∧
      Kernel.ofDigits 10 [digitByte (n / 10), digitByte (n % 10)] = n := by
    intro n hn
    have htens := digitVal_digitByte (show n / 10 < 16 by omega)
    have hones := digitVal_digitByte (show n % 10 < 16 by omega)
    refine ⟨isdigit_digitByte (by omega), isdigit_digitByte (by omega), ?_⟩
    simp only [Kernel.ofDigits, List.foldl_cons, List.foldl_nil, htens, hones]
    omega
  obtain ⟨hh1, hh2, hh3⟩ := hdigit time.hour (by omega)
  obtain ⟨hm1, hm2, hm3⟩ := hdigit time.minute hminute
  have hcolon : isdigit 58 = false := by decide
  have hhere : luaClockHere time.text = some ([digitByte (time.hour / 10), digitByte (time.hour % 10)],
      [digitByte (time.minute / 10), digitByte (time.minute % 10)]) := by
    simp [luaClockHere, ClockTime.text, hh1, hh2, hm1, hm2, hcolon]
  rw [ClockTime.text] at hhere ⊢
  rw [parseTime, hhere]
  simp only [hh3, hm3, ClockTime.minutes]

/-- What a time rule with these times decides: it asks for the weekday of the moment, behind midnight too. -/
theorem ClockRule.decides_iff (rule : ClockRule) (weekday : Fin 7) (minutes : Nat) :
    (∃ s e : Nat, parseTime rule.startTime.text = some s ∧ parseTime rule.endTime.text = some e ∧
        weekday ∈ rule.weekdays ∧ (s ≤ e ∧ s ≤ minutes ∧ minutes ≤ e ∨ e < s ∧ (s ≤ minutes ∨ minutes ≤ e))) ↔
      rule.OpenOn weekday minutes ∨ weekday ∈ rule.weekdays ∧ rule.StillOpen minutes := by
  simp only [parseTime_text, Option.some.injEq, ClockRule.OpenOn, ClockRule.StillOpen]
  constructor
  · rintro ⟨s, e, rfl, rfl, hday, hopen⟩
    by_cases hfrom : rule.startTime.minutes ≤ minutes
    · exact .inl ⟨hday, hfrom, by omega⟩
    · exact .inr ⟨hday, by omega⟩
  · rintro (⟨hday, hopen⟩ | ⟨hday, hopen⟩)
    · exact ⟨_, _, rfl, rfl, hday, by omega⟩
    · exact ⟨_, _, rfl, rfl, hday, by omega⟩

/-- **The function** asks for the weekday of the moment, behind midnight too. -/
theorem isTimeInRange_clock_iff (rules : List ClockRule) (weekday : Fin 7) (minutes : Nat) :
    MacFilter.isTimeInRange ((rules.map ClockRule.loaded).map LoadedRange.lua) ⟨weekday.val, minutes⟩ = true ↔
      ∃ rule ∈ rules, rule.OpenOn weekday minutes ∨
        weekday ∈ rule.weekdays ∧ rule.StillOpen minutes := by
  rw [isTimeInRange_iff]
  simp only [List.mem_map, exists_exists_and_eq_and]
  exact exists_congr fun rule => and_congr_right fun _ => rule.decides_iff weekday minutes

/-! ## 3. Where they agree -/

/-- **The function and the windows agree** exactly if a window of today is open before midnight, or the
rules still open behind midnight select today and yesterday alike: one of them today iff one of them
yesterday. -/
theorem time_in_range_iff (rules : List ClockRule) (weekday : Fin 7) {minutes : Nat}
    (h : minutes < 1440) :
    (MacFilter.isTimeInRange ((rules.map ClockRule.loaded).map LoadedRange.lua)
        ⟨weekday.val, minutes⟩ = true ↔
        ∃ rule ∈ rules, rule.InWindow weekday minutes) ↔
      (∃ rule ∈ rules, rule.OpenOn weekday minutes) ∨
        ((∃ rule ∈ rules, rule.StillOpen minutes ∧ weekday ∈ rule.weekdays) ↔
          ∃ rule ∈ rules, rule.StillOpen minutes ∧ weekday - 1 ∈ rule.weekdays) := by
  have hsplit : ∀ d : Fin 7,
      (∃ rule ∈ rules, rule.OpenOn weekday minutes ∨ d ∈ rule.weekdays ∧ rule.StillOpen minutes) ↔
        (∃ rule ∈ rules, rule.OpenOn weekday minutes) ∨
          ∃ rule ∈ rules, rule.StillOpen minutes ∧ d ∈ rule.weekdays := by
    intro d
    simp only [and_or_left, exists_or, and_comm]
  have hwindow : (∃ rule ∈ rules, rule.InWindow weekday minutes) ↔
      ∃ rule ∈ rules, rule.OpenOn weekday minutes ∨
        weekday - 1 ∈ rule.weekdays ∧ rule.StillOpen minutes :=
    exists_congr fun rule => and_congr_right fun _ => inWindow_iff rule weekday h
  rw [isTimeInRange_clock_iff, hwindow, hsplit, hsplit]
  by_cases hopen : ∃ rule ∈ rules, rule.OpenOn weekday minutes
  · simp only [hopen, true_or]
  · simp only [hopen, false_or]

/-- A window of Friday, from 22:00 to 06:00. -/
def fridayNight : ClockRule := ⟨[⟨5, by decide⟩], ⟨22, 0⟩, ⟨6, 0⟩⟩

/-- On Friday at 23:00 the function is right. -/
theorem time_in_range_evening :
    MacFilter.isTimeInRange (([fridayNight].map ClockRule.loaded).map LoadedRange.lua)
        ⟨(5 : Fin 7).val, 1380⟩ = true ↔
      ∃ rule ∈ [fridayNight], rule.InWindow 5 1380 :=
  (time_in_range_iff [fridayNight] 5 (by decide)).mpr
    (.inl ⟨fridayNight, List.mem_singleton_self _, by simp [fridayNight, ClockRule.OpenOn, ClockTime.minutes]⟩)

/-- On Saturday at 01:00 Friday's window is open, and for the function it is not. -/
theorem saturday_morning_missed :
    ¬ (MacFilter.isTimeInRange (([fridayNight].map ClockRule.loaded).map LoadedRange.lua)
        ⟨(6 : Fin 7).val, 60⟩ = true ↔
      ∃ rule ∈ [fridayNight], rule.InWindow 6 60) := by
  have hcode : ¬ MacFilter.isTimeInRange (([fridayNight].map ClockRule.loaded).map LoadedRange.lua)
      ⟨(6 : Fin 7).val, 60⟩ = true := by decide +kernel
  have hopen : fridayNight.InWindow 6 60 := ⟨5, List.mem_singleton_self _, 180, by decide, by decide⟩
  exact fun h => hcode (h.mpr ⟨fridayNight, List.mem_singleton_self _, hopen⟩)

end Oaf
