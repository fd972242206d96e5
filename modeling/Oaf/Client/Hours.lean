/-
# Hours of a visit

`get_visit_duration_in_hour` and `accumulate_visit_to_hour_stats` go through a visit hour by hour,
in two copies of one loop: from the cursor to where the next local hour begins, or to the end.

* `hourSegments`: the passes of the loop.
* `hourSegments_steady`: **it ends**, and its passes are the seconds of each hour.
* `foldl_addAppDuration`: what the passes for an hour leave in its statistics.
-/
import Oaf.Client.Traffic
import Oaf.Lib.Chains
import Oaf.Lib.LocalTime
import Mathlib.Data.UInt

namespace Oaf

open CLib Chains

/-! ## 1. The loop -/

/-- What is kept of a visit. -/
structure VisitInfo where
  appid : Int
  firstTime : UInt32
  latestTime : UInt32
  action : Int
deriving DecidableEq

/-- `get_hour_from_timestamp`. -/
def getHourFromTimestamp (zone : TimeZone) (timestamp : UInt32) : Int :=
  match zone.localtime timestamp.toNat with
  | none => -1
  | some tm => tm.tmHour

/-- `get_next_hour_timestamp`. -/
def getNextHourTimestamp (zone : TimeZone) (timestamp : UInt32) : UInt32 :=
  match zone.localtime timestamp.toNat with
  | none => timestamp + 3600
  | some tm =>
    let nextTs := zone.mktime tm.nextHour
    if nextTs ≤ timestamp.toNat then timestamp + 3600 else UInt32.ofInt nextTs

/-- A pass of the loop: the hour of the cursor, and `segment_duration`. -/
structure HourSegment where
  hour : Int
  duration : Nat
deriving DecidableEq

/-- `segment_end`. -/
def segmentEnd (zone : TimeZone) (stop cursor : UInt32) : UInt32 :=
  let nextHour := getNextHourTimestamp zone cursor
  if stop < nextHour then stop else nextHour

/-- The pass at `cursor`. -/
def hourSegment (zone : TimeZone) (stop cursor : UInt32) : HourSegment :=
  let segmentDuration := (segmentEnd zone stop cursor - cursor).toNat
  { hour := getHourFromTimestamp zone cursor
    duration := if segmentDuration = 0 then 1 else segmentDuration }

/-- The passes of the loop from `cursor` to `stop`; `none` when it goes on after so many. -/
def hourSegments (zone : TimeZone) (stop : UInt32) : Nat → UInt32 → Option (List HourSegment)
  | 0, cursor => if cursor < stop then none else some []
  | passes + 1, cursor =>
    if cursor < stop then
      (hourSegments zone stop passes (segmentEnd zone stop cursor)).map
        (hourSegment zone stop cursor :: ·)
    else some []

/-- `get_visit_duration_in_hour`. -/
def getVisitDurationInHour (zone : TimeZone) (passes : Nat) (visit : VisitInfo) (targetHour : Int) :
    Option Nat :=
  if targetHour < 0 ∨ HOURS_PER_DAY ≤ targetHour then some 0
  else if visit.latestTime ≤ visit.firstTime then
    some (if getHourFromTimestamp zone visit.firstTime = targetHour then 1 else 0)
  else
    (hourSegments zone visit.latestTime passes visit.firstTime).map fun segments =>
      segments.foldl (fun total s => if s.hour = targetHour then total + s.duration else total) 0

/-! ## 2. Statistics -/

/-- `app_hour_stat_t`. -/
structure AppHourStat where
  appid : Int
  totalTime : Nat
deriving DecidableEq

/-- `hour_stats` and `hour_count`: the entries of each hour that are in use. -/
abbrev HourStats := Fin 24 → List AppHourStat

def MAX_APP_STAT_NUM : Nat := 8

/-- A total is cut to the hour. -/
def capHour (totalTime : Nat) : Nat := if 3600 < totalTime then 3600 else totalTime

/-- The entries of one hour after an addition: to the entry of the app, in a new one, or in place of
the first of the smallest. -/
def addToHour (stats : List AppHourStat) (appid : Int) (duration : Nat) : List AppHourStat :=
  if stats.any fun s => s.appid == appid then
    updateFirst (fun s => s.appid == appid)
      (fun s => { s with totalTime := capHour (s.totalTime + duration) }) stats
  else if stats.length < MAX_APP_STAT_NUM then stats ++ [⟨appid, capHour duration⟩]
  else
    let minTime := ((stats.map (·.totalTime)).min?).getD 0
    if minTime < duration then
      updateFirst (fun s => s.totalTime == minTime) (fun _ => ⟨appid, capHour duration⟩) stats
    else stats

/-- `add_app_duration_to_hour_stats`. -/
def addAppDurationToHourStats (stats : HourStats) (hour appid : Int) (duration : Nat) : HourStats :=
  if h : 0 ≤ hour ∧ hour < HOURS_PER_DAY then
    if appid ≤ 0 ∨ duration = 0 then stats
    else
      let hour : Fin 24 := ⟨hour.toNat, by simp only [HOURS_PER_DAY] at h; omega⟩
      Function.update stats hour (addToHour (stats hour) appid duration)
  else stats

/-- `accumulate_visit_to_hour_stats`. -/
def accumulateVisitToHourStats (zone : TimeZone) (passes : Nat) (stats : HourStats)
    (visit : VisitInfo) : Option HourStats :=
  if visit.appid ≤ 0 then some stats
  else if visit.latestTime ≤ visit.firstTime then
    some (addAppDurationToHourStats stats (getHourFromTimestamp zone visit.firstTime) visit.appid 1)
  else
    (hourSegments zone visit.latestTime passes visit.firstTime).map fun segments =>
      segments.foldl
        (fun stats s => addAppDurationToHourStats stats s.hour visit.appid s.duration) stats

/-! ## 3. The passes -/

/-- What the passes for an hour come to. -/
def amountIn (hour : Int) (segments : List HourSegment) : Nat :=
  ((segments.filter fun s => s.hour = hour).map (·.duration)).sum

@[simp] theorem amountIn_nil (hour : Int) : amountIn hour [] = 0 := rfl

theorem amountIn_cons (hour : Int) (s : HourSegment) (segments : List HourSegment) :
    amountIn hour (s :: segments) =
      (if s.hour = hour then s.duration else 0) + amountIn hour segments := by
  unfold amountIn
  by_cases h : s.hour = hour <;> simp [h]

theorem foldl_total (hour : Int) (segments : List HourSegment) (total : Nat) :
    segments.foldl (fun total s => if s.hour = hour then total + s.duration else total) total =
      total + amountIn hour segments := by
  induction segments generalizing total with
  | nil => rfl
  | cons s rest ih =>
    rw [List.foldl_cons, ih, amountIn_cons]
    split <;> omega

theorem toNat_ofInt {x : Int} (h0 : 0 ≤ x) (h : x < 2 ^ 32) : (UInt32.ofInt x).toNat = x.toNat := by
  change (UInt32.ofNat (x % 2 ^ 32).toNat).toNat = x.toNat
  rw [UInt32.toNat_ofNat', Int.emod_eq_of_lt h0 h]
  omega

theorem toNat_ite_lt (a b : UInt32) : (if a < b then a else b).toNat = min a.toNat b.toNat := by
  split <;> rename_i h <;> rw [UInt32.lt_iff_toNat_lt] at h <;> omega

section Steady

variable {zone : TimeZone} {offset lo hi : Int} {cursor stop : UInt32}

/-- A pass is in the hour of the cursor, and goes to the next hour or to the end. -/
theorem pass_steady (hz : zone.Steady offset lo hi) (hlo : lo ≤ cursor.toNat)
    (hhi : hi = stop.toNat) (hlt : cursor.toNat < stop.toNat) (hmax : stop.toNat < 2 ^ 32 - 7200) :
    getHourFromTimestamp zone cursor = hourOf offset cursor.toNat ∧
      ((segmentEnd zone stop cursor).toNat : Int) =
        min (stop.toNat : Int) (nextHour offset cursor.toNat) := by
  have hloc := hz.localtime_eq cursor.toNat hlo (by omega)
  have hmk := hz.mktime_nextHour hlo (t := cursor.toNat) (by omega)
  have hnext := lt_nextHour offset cursor.toNat
  have hle := nextHour_le offset cursor.toNat
  have hadd : (cursor + 3600).toNat = cursor.toNat + 3600 := by
    rw [UInt32.toNat_add]
    exact Nat.mod_eq_of_lt (by change cursor.toNat + 3600 < 2 ^ 32; omega)
  refine ⟨by simp only [getHourFromTimestamp, hloc, Tm.ofSeconds, hourOf], ?_⟩
  simp only [segmentEnd, toNat_ite_lt, getNextHourTimestamp, hloc]
  simp only at hmk
  generalize zone.mktime (Tm.ofSeconds (cursor.toNat + offset)).nextHour = next at hmk ⊢
  split at hmk
  · -- the hour begins in the visit
    rw [hmk, if_neg (by omega), toNat_ofInt (by omega) (by omega)]
    omega
  · -- it does not: the fallback, or a later time, is past the end
    split
    · omega
    · rw [toNat_ofInt (by omega) (by omega)]
      omega

theorem hourSegments_of_le (passes : Nat) (h : stop.toNat ≤ cursor.toNat) :
    hourSegments zone stop passes cursor = some [] := by
  have hnlt : ¬cursor < stop := by
    rw [UInt32.lt_iff_toNat_lt]
    omega
  cases passes <;> rw [hourSegments, if_neg hnlt]

/-- **The loop ends**, each pass is of a positive length, and the passes of an hour come to its
seconds. -/
theorem hourSegments_steady (hz : zone.Steady offset lo hi) (hhi : hi = stop.toNat)
    (hmax : stop.toNat < 2 ^ 32 - 7200) (passes : Nat) (hlo : lo ≤ cursor.toNat)
    (hle : cursor.toNat ≤ stop.toNat) (hpasses : stop.toNat - cursor.toNat ≤ passes) :
    ∃ segments, hourSegments zone stop passes cursor = some segments ∧
      (∀ s ∈ segments, (0 ≤ s.hour ∧ s.hour < HOURS_PER_DAY) ∧ 0 < s.duration) ∧
      ∀ hour, amountIn hour segments = secondsIn offset cursor.toNat stop.toNat hour := by
  induction passes generalizing cursor with
  | zero =>
    refine ⟨[], hourSegments_of_le _ (by omega), fun s hs => absurd hs List.not_mem_nil, ?_⟩
    intro hour
    rw [Nat.le_antisymm hle (by omega), secondsIn_self, amountIn_nil]
  | succ passes ih =>
    by_cases hlt : cursor.toNat < stop.toNat
    · obtain ⟨hhour, hend⟩ := pass_steady hz hlo hhi hlt hmax
      have hnext := lt_nextHour offset cursor.toNat
      have hdur : (hourSegment zone stop cursor).duration =
          (segmentEnd zone stop cursor).toNat - cursor.toNat := by
        rw [hourSegment, UInt32.toNat_sub_of_le _ _ (UInt32.le_iff_toNat_le.mpr (by omega))]
        exact if_neg (by omega)
      obtain ⟨segments, hsegs, hok, hamount⟩ :=
        @ih (segmentEnd zone stop cursor) (by omega) (by omega) (by omega)
      refine ⟨hourSegment zone stop cursor :: segments, ?_, ?_, ?_⟩
      · rw [hourSegments, if_pos (UInt32.lt_iff_toNat_lt.mpr hlt), hsegs]
        rfl
      · intro s hs
        rcases List.mem_cons.mp hs with rfl | hs
        · refine ⟨?_, by omega⟩
          rw [hourSegment, hhour]
          exact ⟨hourOf_nonneg _ _, hourOf_lt _ _⟩
        · exact hok s hs
      · intro hour
        rw [amountIn_cons, hamount, hdur,
          secondsIn_add (a := cursor.toNat) (b := stop.toNat) offset hour
            (m := (segmentEnd zone stop cursor).toNat) (by omega) (by omega),
          secondsIn_of_le_nextHour (a := cursor.toNat) (b := (segmentEnd zone stop cursor).toNat)
            offset hour (by omega)]
        simp only [hourSegment, hhour]
        split <;> omega
    · refine ⟨[], hourSegments_of_le _ (by omega), fun s hs => absurd hs List.not_mem_nil, ?_⟩
      intro hour
      rw [Nat.le_antisymm hle (by omega), secondsIn_self, amountIn_nil]

end Steady

/-! ## 4. What is left in the statistics -/

/-- The total of an app in an hour, 0 when it has no entry. -/
def timeOf (appid : Int) (stats : List AppHourStat) : Nat :=
  ((stats.find? fun s => s.appid == appid).map (·.totalTime)).getD 0

/-- An addition to the app displaces no other: it has an entry, or there is a free one. -/
def HasRoom (appid : Int) (stats : List AppHourStat) : Prop :=
  (stats.any fun s => s.appid == appid) = true ∨ stats.length < MAX_APP_STAT_NUM

theorem capHour_eq (totalTime : Nat) : capHour totalTime = min 3600 totalTime := by
  rw [capHour]
  split <;> omega

/-- An addition with room adds up to the hour, and the app has an entry then. -/
theorem addToHour_spec {appid : Int} {stats : List AppHourStat} (duration : Nat)
    (h : HasRoom appid stats) :
    ((addToHour stats appid duration).any fun s => s.appid == appid) = true ∧
      timeOf appid (addToHour stats appid duration) = min 3600 (timeOf appid stats + duration) := by
  rw [addToHour]
  split
  · rename_i hany
    clear h
    induction stats with
    | nil => cases hany
    | cons s rest ih =>
      cases hs : s.appid == appid with
      | true => simp [updateFirst, timeOf, hs, capHour_eq]
      | false =>
        have hrest : (rest.any fun s => s.appid == appid) = true := by simpa [hs] using hany
        obtain ⟨hentry, htime⟩ := ih hrest
        rw [updateFirst, if_neg (by simp [hs])]
        exact ⟨by simpa [hs] using hentry, by simpa [timeOf, hs] using htime⟩
  · rename_i hany
    have hfind : stats.find? (fun s => s.appid == appid) = none := by
      rw [List.find?_eq_none]
      simpa using hany
    rw [if_pos (h.resolve_left hany)]
    simp [timeOf, List.find?_append, hfind, capHour_eq]

/-- A pass goes to the entries of its hour. -/
theorem addAppDuration_apply {appid : Int} (happ : 0 < appid) (stats : HourStats) {s : HourSegment}
    (hdur : 0 < s.duration) (hour : Fin 24) :
    addAppDurationToHourStats stats s.hour appid s.duration hour =
      if s.hour = hour then addToHour (stats hour) appid s.duration else stats hour := by
  rw [addAppDurationToHourStats]
  split
  · rename_i hhour
    rw [if_neg (by omega), Function.update_apply]
    simp only [Fin.ext_iff]
    split <;> rename_i heq
    · rw [if_pos (by omega)]
      exact congrArg (fun h => addToHour (stats h) appid s.duration) (Fin.ext heq.symm)
    · rw [if_neg (by omega)]
  · rename_i hhour
    have hlt := hour.isLt
    rw [if_neg (fun heq => hhour (by simp only [HOURS_PER_DAY]; omega))]

/-- **What a visit leaves in an hour** where its app has room: the passes of that hour, cut to it. -/
theorem foldl_addAppDuration {appid : Int} (happ : 0 < appid) (hour : Fin 24)
    {segments : List HourSegment}
    (hok : ∀ s ∈ segments, (0 ≤ s.hour ∧ s.hour < HOURS_PER_DAY) ∧ 0 < s.duration)
    {stats : HourStats} (hroom : HasRoom appid (stats hour)) :
    let after := segments.foldl
      (fun stats s => addAppDurationToHourStats stats s.hour appid s.duration) stats
    (amountIn hour segments = 0 → after hour = stats hour) ∧
      (0 < amountIn hour segments →
        timeOf appid (after hour) = min 3600 (timeOf appid (stats hour) + amountIn hour segments)) := by
  induction segments generalizing stats with
  | nil => exact ⟨fun _ => rfl, fun h => absurd h (Nat.lt_irrefl 0)⟩
  | cons s rest ih =>
    obtain ⟨-, hdur⟩ := hok s List.mem_cons_self
    rw [List.foldl_cons, amountIn_cons]
    have hadd := addAppDuration_apply happ stats hdur hour
    have ih := @ih (fun s hs => hok s (List.mem_cons_of_mem _ hs))
      (addAppDurationToHourStats stats s.hour appid s.duration)
    split
    · rename_i heq
      rw [if_pos heq] at hadd
      obtain ⟨hentry, htime⟩ := addToHour_spec s.duration hroom
      obtain ⟨hnone, hsome⟩ := ih (by rw [hadd]; exact .inl hentry)
      rw [hadd] at hnone hsome
      refine ⟨fun h => absurd h (by omega), fun _ => ?_⟩
      rcases Nat.eq_zero_or_pos (amountIn hour rest) with h0 | hpos
      · rw [hnone h0, htime, h0, Nat.add_zero]
      · rw [hsome hpos, htime]
        omega
    · rename_i hne
      rw [if_neg hne] at hadd
      obtain ⟨hnone, hsome⟩ := ih (by rw [hadd]; exact hroom)
      rw [hadd] at hnone hsome
      rw [Nat.zero_add]
      exact ⟨hnone, hsome⟩

/-! ## 5. Visits -/

/-- **A visit is cut into hours without loss.**  Both loops end.  The durations of the 24 hours are
all of the visit, of a visit shorter than a day none is longer than an hour, and they are what the
other loop adds for the app of the visit, hour by hour. -/
theorem visit_split {zone : TimeZone} {offset : Int} {visit : VisitInfo}
    (hz : zone.Steady offset visit.firstTime.toNat visit.latestTime.toNat)
    (hlt : visit.firstTime < visit.latestTime) (hmax : visit.latestTime.toNat < 2 ^ 32 - 7200)
    {passes : Nat} (hpasses : visit.latestTime.toNat - visit.firstTime.toNat ≤ passes) :
    ∃ duration : Fin 24 → Nat,
      (∀ hour : Fin 24, getVisitDurationInHour zone passes visit hour.val = some (duration hour)) ∧
      ∑ hour, duration hour = visit.latestTime.toNat - visit.firstTime.toNat ∧
      (visit.latestTime.toNat - visit.firstTime.toNat < 86400 → ∀ hour, duration hour ≤ 3600) ∧
      (0 < visit.appid → ∀ stats, ∃ segments,
        accumulateVisitToHourStats zone passes stats visit = some (segments.foldl
          (fun stats s => addAppDurationToHourStats stats s.hour visit.appid s.duration) stats) ∧
        ∀ hour : Fin 24, amountIn hour.val segments = duration hour) ∧
      (0 < visit.appid → ∀ stats, ∃ after,
        accumulateVisitToHourStats zone passes stats visit = some after ∧
        ∀ hour, HasRoom visit.appid (stats hour) →
          (duration hour = 0 → after hour = stats hour) ∧
          (0 < duration hour → timeOf visit.appid (after hour) =
            min 3600 (timeOf visit.appid (stats hour) + duration hour))) := by
  have hnle : ¬visit.latestTime ≤ visit.firstTime := UInt32.not_le.mpr hlt
  have hlt := UInt32.lt_iff_toNat_lt.mp hlt
  obtain ⟨segments, hsegs, hok, hamount⟩ :=
    hourSegments_steady hz rfl hmax passes (Int.le_refl _) hlt.le hpasses
  have hacc : ∀ stats, 0 < visit.appid →
      accumulateVisitToHourStats zone passes stats visit = some (segments.foldl
        (fun stats s => addAppDurationToHourStats stats s.hour visit.appid s.duration) stats) := by
    intro stats happ
    rw [accumulateVisitToHourStats, if_neg (by omega), if_neg hnle, hsegs]
    rfl
  refine ⟨fun hour => amountIn hour.val segments, ?_, ?_, ?_, ?_, ?_⟩
  · intro hour
    have hhour : ¬((hour.val : Int) < 0 ∨ HOURS_PER_DAY ≤ (hour.val : Int)) := by
      simp only [HOURS_PER_DAY]
      omega
    rw [getVisitDurationInHour, if_neg hhour, if_neg hnle, hsegs, Option.map_some, foldl_total,
      Nat.zero_add]
  · simp only [hamount]
    rw [sum_secondsIn]
    omega
  · intro hday hour
    simp only [hamount]
    exact secondsIn_le offset _ (by omega)
  · intro happ stats
    exact ⟨segments, hacc stats happ, fun hour => rfl⟩
  · intro happ stats
    exact ⟨_, hacc stats happ, fun hour hroom => foldl_addAppDuration happ hour hok hroom⟩

/-- Fifty minutes over the top of an hour, in a zone of 5:45. -/
theorem visit_split_over_hour :
    let visit : VisitInfo := { appid := 1001, firstTime := 3000, latestTime := 6000, action := 0 }
    visit.firstTime < visit.latestTime ∧ visit.latestTime.toNat < 2 ^ 32 - 7200 ∧
      ∃ duration : Fin 24 → Nat,
        (∀ hour : Fin 24, getVisitDurationInHour (.fixed 20700) 3000 visit hour.val =
          some (duration hour)) ∧ ∑ hour, duration hour = 3000 := by
  refine ⟨by decide, by decide, ?_⟩
  obtain ⟨duration, hget, hsum, -⟩ := @visit_split (.fixed 20700) 20700
    { appid := 1001, firstTime := 3000, latestTime := 6000, action := 0 }
    (TimeZone.fixed_steady 20700 _ _) (by decide) (by decide) 3000 (by decide)
  exact ⟨duration, hget, hsum⟩

example : getVisitDurationInHour (.fixed 20700) 3
    { appid := 1001, firstTime := 3000, latestTime := 6000, action := 0 } 6 = some 1500 := by decide

end Oaf
