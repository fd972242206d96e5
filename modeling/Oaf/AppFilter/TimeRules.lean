/-
# Time rules of an app rule

`fwx_api_add_filter_rule` joins the weekdays, the start and the end of a time rule with commas, and stores
the times as it gets them.  `fwx_api_get_filter_rules` shows the text that `load_appfilter_rules` enforces.

Both cut it at commas.  fwxd stops at the second part with a colon, and its weekdays are read by `atoi`; the rule
manager goes on to the end, takes the weekdays from there too, and the last time wins.

* `reportedWindow_eq`, `loadedWindow_eq`: what each makes of a text, in terms of its parts.
* `windows_of_plain`: of weekdays and two times `HH:MM`, what was requested.
* `filter_times_agree_iff`: exactly which texts mean the same to both.
-/
import Oaf.AppFilter.Buffers
import Mathlib.Data.Fintype.Basic

namespace Oaf

open CLib
open MacFilter (scanUntilSecond scanToLast scanUntilSecond_eq scanToLast_eq timeParts cutTime TimeParts
  numberParts lastTime LuaTimeRule luaTonumber luaTonumber_number tonumber timeParts_length cutTime_eq_some
  UciValue.items number_of_alphabet)

/-! ## 1. Both readers -/

/-- `weekday >= 0 && weekday <= 6`, of the number that `atoi` reads. -/
def reportWeekday (token : List UInt8) : Option Int :=
  if 0 ≤ atoi token ∧ atoi token ≤ 6 then some (atoi token) else none

/-- An element of `time_rules` in the answer of `fwx_api_get_filter_rules`. -/
structure ReportedTimeRule where
  weekdays : List Int
  startTime : Option (List UInt8)
  endTime : Option (List UInt8)

/-- One text, cut by `strtok_r`. -/
def reportTimeRule (timeRuleStr : List UInt8) : ReportedTimeRule :=
  let times := scanUntilSecond reportWeekday none [] (words 44 timeRuleStr)
  ⟨times.2.2, times.1, times.2.1⟩

/-- `time_rules` of a rule, as `fwx_api_get_filter_rules` shows them. -/
def reportTimeRules (timeRule : Option UciValue) : List ReportedTimeRule :=
  match timeRule with
  | some (.list items) => items.map reportTimeRule
  | _ => []

/-- One text, cut by `gmatch("[^,]+")`. -/
def loadTimeRule (timeRuleStr : List UInt8) : Option LuaTimeRule :=
  let parts := words 44 timeRuleStr
  if timeRuleStr ≠ [] ∧ 3 ≤ parts.length then
    match scanToLast luaTonumber none none [] parts with
    | (some startTime, some endTime, weekdays) =>
      if weekdays = [] then none else some ⟨weekdays, startTime, endTime⟩
    | _ => none
  else none

/-- `time_rules` of a rule, as `load_appfilter_rules` keeps them. -/
def loadAppTimeRules (timeRule : Option UciValue) : List LuaTimeRule :=
  ((timeRule.map UciValue.items).getD []).filterMap loadTimeRule

/-! ## 2. Windows -/

/-- Weekdays, a start and an end. -/
structure TimeWindow where
  weekdays : Finset (Fin 7)
  startTime : List UInt8
  endTime : List UInt8
deriving DecidableEq

/-- A window, if it has a weekday. -/
def windowOf (weekdays : Finset (Fin 7)) (startTime endTime : List UInt8) : Option TimeWindow :=
  if weekdays = ∅ then none else some ⟨weekdays, startTime, endTime⟩

/-- What fwxd shows; `none` without a weekday, a start or an end. -/
def ReportedTimeRule.window (rule : ReportedTimeRule) : Option TimeWindow :=
  match rule.startTime, rule.endTime with
  | some startTime, some endTime =>
    windowOf (Finset.univ.filter (fun d => (d.val : Int) ∈ rule.weekdays)) startTime endTime
  | _, _ => none

/-- What the rule manager enforces. -/
def loadedWindow (rule : LuaTimeRule) : Option TimeWindow :=
  windowOf (Finset.univ.filter (fun d => (d.val : Rat) ∈ rule.weekdays)) rule.startTime rule.endTime

/-- What was asked for. -/
def FilterTimeRule.window (rule : FilterTimeRule) : Option TimeWindow :=
  match rule.weekdays, rule.startTime, rule.endTime with
  | some weekdays, some startTime, some endTime =>
    windowOf (Finset.univ.filter (fun d => (d.val : Int) ∈ weekdays)) startTime endTime
  | _, _, _ => none

/-- A text over digits, commas and colons. -/
def IsTimeText (text : List UInt8) : Prop := ∀ c ∈ text, isdigit c = true ∨ c = 44 ∨ c = 58

/-- `HH:MM` -/
def IsClock (text : List UInt8) : Prop :=
  ∃ a b c d : UInt8, text = [a, b, 58, c, d] ∧ isdigit a = true ∧ isdigit b = true ∧
    isdigit c = true ∧ isdigit d = true

/-- An element of a request with weekdays in 0..6 and two times `HH:MM`. -/
def PlainTimeRule (rule : FilterTimeRule) : Prop :=
  ∃ weekdays startTime endTime, rule = ⟨some weekdays, some startTime, some endTime⟩ ∧
    (∀ d ∈ weekdays, 0 ≤ d ∧ d ≤ 6) ∧ IsClock startTime ∧ IsClock endTime

/-- The texts that `fwx_api_add_filter_rule` stores. -/
def filterTexts (rules : List FilterTimeRule) : List (List UInt8) := rules.filterMap FilterTimeRule.text

/-- **The stored rules mean the same to both**, and what was asked for if the request is plain. -/
structure TimesMeanTheSame (rules : List FilterTimeRule) : Prop where
  same : (reportTimeRules (some (.list (filterTexts rules)))).filterMap ReportedTimeRule.window =
    (loadAppTimeRules (some (.list (filterTexts rules)))).filterMap loadedWindow
  plain : (∀ rule ∈ rules, PlainTimeRule rule) →
    (reportTimeRules (some (.list (filterTexts rules)))).filterMap ReportedTimeRule.window =
      rules.filterMap FilterTimeRule.window

/-- The condition on a text, if it has two times: the weekdays before the second, as `atoi` reads them, are
those of the whole text as they are written; and if there are any, then no later time follows, or the
last is the second again. -/
def FilterTextAgrees (text : List UInt8) : Prop :=
  ∀ p ∈ timeParts (words 44 text),
    (∀ d : Fin 7, (∃ part ∈ p.before, atoi part = (d.val : Int)) ↔
      ∃ part ∈ p.before ++ numberParts p.behind, tonumber part = d.val) ∧
    ((lastTime p.behind).getD p.endTime = p.endTime ∨
      ∀ part ∈ p.before ++ numberParts p.behind, 6 < tonumber part)

/-! ## 3. What each side makes of a text -/

theorem mem_reportWeekday {parts : List (List UInt8)} {d : Fin 7} :
    (d.val : Int) ∈ parts.filterMap reportWeekday ↔ ∃ part ∈ parts, atoi part = (d.val : Int) := by
  rw [List.mem_filterMap]
  refine exists_congr fun part => and_congr_right fun _ => ?_
  have hd := d.isLt
  rw [reportWeekday]
  split
  · rw [Option.some.injEq]
  · rename_i hout
    exact iff_of_false (by simp) fun h => hout (by omega)

/-- What fwxd shows of a text. -/
theorem reportedWindow_eq (text : List UInt8) :
    (reportTimeRule text).window =
      match timeParts (words 44 text) with
      | none => none
      | some p => windowOf (Finset.univ.filter
          (fun d => ∃ part ∈ p.before, atoi part = (d.val : Int))) p.startTime p.endTime := by
  have hscan := @scanUntilSecond_eq _ reportWeekday (words 44 text)
  rw [reportTimeRule, ReportedTimeRule.window]
  cases hp : timeParts (words 44 text) with
  | none =>
    rw [hp] at hscan
    dsimp only at hscan ⊢
    rw [hscan]
    split <;> first | rfl | contradiction
  | some p =>
    rw [hp] at hscan
    dsimp only at hscan ⊢
    rw [hscan]
    simp only [mem_reportWeekday]

theorem mem_luaTonumber {parts : List (List UInt8)}
    (h : ∀ part ∈ parts, part ≠ [] ∧ ∀ c ∈ part, isdigit c = true) {d : Fin 7} :
    (d.val : Rat) ∈ parts.filterMap luaTonumber ↔ ∃ part ∈ parts, tonumber part = d.val := by
  rw [List.mem_filterMap]
  refine exists_congr fun part => and_congr_right fun hpart => ?_
  rw [luaTonumber_number (h part hpart).1 (h part hpart).2, Option.some.injEq, Nat.cast_inj]

theorem numbers_of_timeText {text : List UInt8} (h : IsTimeText text) {p : TimeParts}
    (hp : timeParts (words 44 text) = some p) :
    ∀ part ∈ p.before ++ numberParts p.behind, part ≠ [] ∧ ∀ c ∈ part, isdigit c = true := by
  obtain ⟨-, hbefore, hbehind⟩ := timeParts_length hp
  intro part hpart
  rcases List.mem_append.mp hpart with hpart | hpart
  · exact number_of_alphabet h (hbefore part hpart).1 (hbefore part hpart).2
  · exact number_of_alphabet h (hbehind part hpart).1 (hbehind part hpart).2

/-- What the rule manager enforces of a text. -/
theorem loadedWindow_eq {text : List UInt8} (h : IsTimeText text) :
    (loadTimeRule text).bind loadedWindow =
      match timeParts (words 44 text) with
      | none => none
      | some p => windowOf (Finset.univ.filter
          (fun d => ∃ part ∈ p.before ++ numberParts p.behind, tonumber part = d.val))
          p.startTime ((lastTime p.behind).getD p.endTime) := by
  have hscan := @scanToLast_eq _ luaTonumber (words 44 text)
  rw [loadTimeRule]
  cases hp : timeParts (words 44 text) with
  | none =>
    rw [hp] at hscan
    dsimp only at hscan ⊢
    split
    · generalize scanToLast luaTonumber none none [] (words 44 text) = r at hscan ⊢
      obtain ⟨a, b, c⟩ := r
      obtain rfl : b = none := hscan
      cases a <;> rfl
    · rfl
  | some p =>
    rw [hp] at hscan
    dsimp only at hscan ⊢
    have hnumbers := numbers_of_timeText h hp
    have hlen := (timeParts_length hp).1
    have hnone : p.before ++ numberParts p.behind = [] →
        windowOf (Finset.univ.filter (fun d : Fin 7 =>
          ∃ part ∈ p.before ++ numberParts p.behind, tonumber part = d.val))
          p.startTime ((lastTime p.behind).getD p.endTime) = none := by
      intro hnil
      rw [hnil, windowOf, if_pos (Finset.filter_eq_empty_iff.mpr (by simp))]
    split
    · rw [hscan]
      dsimp only
      split
      · rename_i hnil
        rw [hnone]
        · rfl
        · refine List.eq_nil_iff_forall_not_mem.mpr fun part hpart => ?_
          have := List.filterMap_eq_nil_iff.mp hnil part hpart
          rw [luaTonumber_number (hnumbers part hpart).1 (hnumbers part hpart).2] at this
          cases this
      · simp only [Option.bind_some, loadedWindow, mem_luaTonumber hnumbers]
    · rename_i hshort
      rw [hnone]
      · rfl
      · -- the two times alone make two parts
        have hlong : ¬ 3 ≤ (words 44 text).length := by
          refine fun hlong => hshort ⟨?_, hlong⟩
          rintro rfl
          exact absurd hlong (by decide)
        have hbefore : p.before = [] := List.length_eq_zero_iff.mp (by omega)
        have hbehind : p.behind = [] := List.length_eq_zero_iff.mp (by omega)
        rw [hbefore, hbehind]
        rfl

/-- Windows with one start. -/
theorem windowOf_eq_iff {days days' : Finset (Fin 7)} {startTime endTime endTime' : List UInt8} :
    windowOf days startTime endTime = windowOf days' startTime endTime' ↔
      days = days' ∧ (endTime' = endTime ∨ days' = ∅) := by
  rw [windowOf, windowOf]
  by_cases hdays : days = ∅
  · by_cases hdays' : days' = ∅
    · simp [hdays, hdays']
    · rw [if_pos hdays, if_neg hdays']
      exact iff_of_false (by simp) fun h => hdays' (h.1 ▸ hdays)
  · by_cases hdays' : days' = ∅
    · rw [if_neg hdays, if_pos hdays']
      exact iff_of_false (by simp) fun h => hdays (h.1.trans hdays')
    · rw [if_neg hdays, if_neg hdays', Option.some.injEq, TimeWindow.mk.injEq]
      simp only [hdays', or_false, true_and]
      exact and_congr_right fun _ => eq_comm

/-- **One text.** -/
theorem filterTextAgrees_iff {text : List UInt8} (h : IsTimeText text) :
    (reportTimeRule text).window = (loadTimeRule text).bind loadedWindow ↔ FilterTextAgrees text := by
  rw [reportedWindow_eq, loadedWindow_eq h, FilterTextAgrees]
  cases hp : timeParts (words 44 text) with
  | none => simp
  | some p =>
    have hnone : (Finset.univ.filter (fun d : Fin 7 =>
          ∃ part ∈ p.before ++ numberParts p.behind, tonumber part = d.val)) = ∅ ↔
        ∀ part ∈ p.before ++ numberParts p.behind, 6 < tonumber part := by
      rw [Finset.filter_eq_empty_iff]
      constructor
      · intro h part hpart
        by_contra hle
        exact h (Finset.mem_univ (⟨tonumber part, by omega⟩ : Fin 7)) ⟨part, hpart, rfl⟩
      · rintro h d - ⟨part, hpart, hd⟩
        have h1 := h part hpart
        have h2 := d.isLt
        omega
    simp only [windowOf_eq_iff, hnone, Option.mem_some_iff, forall_eq', Finset.ext_iff,
      Finset.mem_filter, Finset.mem_univ, true_and]

/-! ## 4. Plain requests -/

theorem cutTime_append {before behind : List (List UInt8)} {time : List UInt8}
    (hbefore : ∀ part ∈ before, 58 ∉ part) (htime : 58 ∈ time) :
    cutTime (before ++ time :: behind) = some (before, time, behind) := by
  induction before with
  | nil => exact if_pos htime
  | cons part before ih =>
    obtain ⟨hpart, hrest⟩ := List.forall_mem_cons.mp hbefore
    rw [List.cons_append, cutTime, if_neg hpart, ih hrest]
    rfl

/-- A clock text is a part of its own. -/
theorem IsClock.part {text : List UInt8} (h : IsClock text) : text ≠ [] ∧ 44 ∉ text ∧ 58 ∈ text := by
  obtain ⟨a, b, c, d, rfl, ha, hb, hc, hd⟩ := h
  have hne : ∀ {e : UInt8}, isdigit e = true → (44 : UInt8) ≠ e := by
    rintro e he rfl
    exact absurd he (by decide)
  refine ⟨List.cons_ne_nil _ _, ?_, by simp⟩
  simp only [List.mem_cons, List.not_mem_nil, or_false, not_or]
  exact ⟨hne ha, hne hb, by decide, hne hc, hne hd⟩

theorem not_mem_weekdays {weekdays : List Int} {c : UInt8} (hdigit : isdigit c = false) (hc : c ≠ 45) :
    ∀ part ∈ weekdays.map printInt, c ∉ part := by
  intro part hpart
  obtain ⟨d, -, rfl⟩ := List.mem_map.mp hpart
  exact not_mem_printInt hdigit hc

/-- The parts of the text of a request. -/
theorem words_of_weekdays {weekdays : List Int} {startTime endTime : List UInt8}
    (hstart : IsClock startTime) (hstop : IsClock endTime) :
    words 44 ([44].intercalate (weekdays.map printInt) ++ 44 :: (startTime ++ 44 :: endTime)) =
      weekdays.map printInt ++ [startTime, endTime] := by
  have hjoin : words 44 ([44].intercalate (weekdays.map printInt ++ [startTime, endTime])) =
      weekdays.map printInt ++ [startTime, endTime] := by
    refine words_intercalate (fun part hpart => ?_) fun part hpart => ?_
    · rcases List.mem_append.mp hpart with hpart | hpart
      · exact not_mem_weekdays (by decide) (by decide) part hpart
      · simp only [List.mem_cons, List.not_mem_nil, or_false] at hpart
        rcases hpart with rfl | rfl
        · exact hstart.part.2.1
        · exact hstop.part.2.1
    · rcases List.mem_append.mp hpart with hpart | hpart
      · obtain ⟨d, -, rfl⟩ := List.mem_map.mp hpart
        exact printInt_ne_nil d
      · simp only [List.mem_cons, List.not_mem_nil, or_false] at hpart
        rcases hpart with rfl | rfl
        · exact hstart.part.1
        · exact hstop.part.1
  rcases weekdays with - | ⟨day, days⟩
  · -- without weekdays the text begins with the comma
    rw [List.map_nil, List.nil_append, List.intercalate_cons_cons, List.intercalate_singleton] at hjoin
    rw [List.map_nil, List.intercalate_nil, List.nil_append, ← hjoin, List.nil_append,
      List.append_assoc, List.singleton_append, words,
      show 44 :: (startTime ++ 44 :: endTime) = [] ++ 44 :: (startTime ++ 44 :: endTime) from rfl,
      List.splitOn_append_cons_self_of_not_mem List.not_mem_nil, words]
    rfl
  · rw [intercalate_append (List.cons_ne_nil _ _) (by simp), List.intercalate_cons_cons,
      List.intercalate_singleton, List.append_assoc, List.singleton_append] at hjoin
    exact hjoin

theorem atoi_weekday {day : Int} (h : 0 ≤ day ∧ day ≤ 6) : atoi (printInt day) = day :=
  atoi_printInt (by omega) (by omega)

/-- A request of weekdays and two times `HH:MM` is read as such. -/
theorem windows_of_plain {rule : FilterTimeRule} (h : PlainTimeRule rule) :
    ∃ text, rule.text = some text ∧ (reportTimeRule text).window = rule.window := by
  obtain ⟨weekdays, startTime, endTime, rfl, hrange, hstart, hstop⟩ := h
  refine ⟨_, rfl, ?_⟩
  have hparts : timeParts (weekdays.map printInt ++ [startTime, endTime]) =
      some ⟨weekdays.map printInt, startTime, endTime, []⟩ := by
    have hcut := @cutTime_append _ [endTime] _
      (@not_mem_weekdays weekdays 58 (by decide) (by decide)) hstart.part.2.2
    have hcut' := @cutTime_append [] [] endTime (fun _ h => absurd h List.not_mem_nil) hstop.part.2.2
    rw [List.nil_append] at hcut'
    rw [timeParts, hcut]
    dsimp only
    rw [hcut']
    simp
  rw [reportedWindow_eq, words_of_weekdays hstart hstop, hparts]
  dsimp only [FilterTimeRule.window]
  congr 1
  refine Finset.filter_congr fun d _ => ?_
  constructor
  · rintro ⟨part, hpart, hd⟩
    obtain ⟨day, hday, rfl⟩ := List.mem_map.mp hpart
    rwa [← hd, atoi_weekday (hrange day hday)]
  · exact fun hd => ⟨printInt d.val, List.mem_map_of_mem hd, atoi_weekday (hrange _ hd)⟩

/-! ## 5. Lists of texts -/

theorem reportedWindows (texts : List (List UInt8)) :
    (reportTimeRules (some (.list texts))).filterMap ReportedTimeRule.window =
      texts.filterMap (fun text => (reportTimeRule text).window) := by
  rw [reportTimeRules, List.filterMap_map]
  rfl

theorem loadedWindows (texts : List (List UInt8)) :
    (loadAppTimeRules (some (.list texts))).filterMap loadedWindow =
      texts.filterMap (fun text => (loadTimeRule text).bind loadedWindow) := by
  rw [loadAppTimeRules, List.filterMap_filterMap]
  rfl

theorem plainWindows : ∀ {rules : List FilterTimeRule}, (∀ rule ∈ rules, PlainTimeRule rule) →
    (filterTexts rules).filterMap (fun text => (reportTimeRule text).window) =
      rules.filterMap FilterTimeRule.window
  | [], _ => rfl
  | rule :: rules, h => by
    obtain ⟨hrule, hrules⟩ := List.forall_mem_cons.mp h
    obtain ⟨text, htext, hwindow⟩ := windows_of_plain hrule
    have ih := plainWindows hrules
    rw [filterTexts] at ih ⊢
    rw [List.filterMap_cons_some htext, List.filterMap_cons, List.filterMap_cons, hwindow, ih]

/-- **Exactly when the times mean the same**: all parts of a list do iff each text meets the condition. -/
theorem filter_times_agree_iff (rules : List FilterTimeRule)
    (h : ∀ text ∈ filterTexts rules, IsTimeText text) :
    (∀ part : List FilterTimeRule, part.Sublist rules → TimesMeanTheSame part) ↔
      ∀ text ∈ filterTexts rules, FilterTextAgrees text := by
  constructor
  · intro hall text htext
    obtain ⟨rule, hrule, hrtext⟩ := List.mem_filterMap.mp htext
    have hsame := (hall [rule] (List.singleton_sublist.mpr hrule)).same
    rw [filterTexts, List.filterMap_cons_some hrtext, List.filterMap_nil, reportedWindows,
      loadedWindows] at hsame
    refine (filterTextAgrees_iff (h text htext)).mp ?_
    revert hsame
    simp only [List.filterMap_cons, List.filterMap_nil]
    cases (reportTimeRule text).window <;> cases (loadTimeRule text).bind loadedWindow <;> simp
  · intro hall part hpart
    have hsub : (filterTexts part).Sublist (filterTexts rules) := hpart.filterMap _
    refine ⟨?_, fun hplain => ?_⟩
    · rw [reportedWindows, loadedWindows]
      exact List.filterMap_congr fun text htext =>
        (filterTextAgrees_iff (h text (hsub.subset htext))).mpr (hall text (hsub.subset htext))
    · rw [reportedWindows]
      exact plainWindows hplain

/-- Monday and Tuesday, eight to twelve. -/
def morningRule : FilterTimeRule := ⟨some [1, 2], some (ascii "08:00"), some (ascii "12:00")⟩

instance (text : List UInt8) : Decidable (IsTimeText text) :=
  inferInstanceAs (Decidable (∀ c ∈ text, _))

theorem filter_times_agree_morning :
    (∀ part : List FilterTimeRule, part.Sublist [morningRule] → TimesMeanTheSame part) ↔
      ∀ text ∈ filterTexts [morningRule], FilterTextAgrees text :=
  filter_times_agree_iff [morningRule] (by decide +kernel)

/-- A start that has a comma. -/
def threeTimesRule : FilterTimeRule := ⟨some [1], some (ascii "08:00,09:00"), some (ascii "23:00")⟩

/-- fwxd shows Monday until nine, the rule manager enforces Monday until eleven at night. -/
theorem third_time_only_enforced :
    (reportTimeRules (some (.list (filterTexts [threeTimesRule])))).filterMap ReportedTimeRule.window =
      [⟨{1}, ascii "08:00", ascii "09:00"⟩] ∧
    (loadAppTimeRules (some (.list (filterTexts [threeTimesRule])))).filterMap loadedWindow =
      [⟨{1}, ascii "08:00", ascii "23:00"⟩] ∧ ¬ TimesMeanTheSame [threeTimesRule] :=
  ⟨by decide +kernel, by decide +kernel, fun h => absurd h.same (by decide +kernel)⟩

end Oaf
