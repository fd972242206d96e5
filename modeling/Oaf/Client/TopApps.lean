/-
# The apps used most

`update_daily_top_apps` and `update_hourly_top_apps` add up visits in tables of eight slots, sort them
and keep the first entries: ten for the day, three for each hour.  A visit of an app without a slot,
when all are taken, displaces the smallest entry or is lost.  The visits are to be those of today, but
`is_same_day` is true of any two days.

* `foldl_addStat`: the table of at most eight apps has the full totals.
* `dailyTop_iff`: of at most eight apps, the list of the day is right iff their visits began today.
* `apps_of_dailyTop`: with nine apps of today one is left out, and the list has room for ten.
* `hourlyTop`: the list of an hour is right when the visits in it began today, and are of at most eight
  apps.
-/
import Oaf.Client.History
import Oaf.Lib.Top

namespace Oaf

open CLib Chains

/-! ## 1. The functions -/

def MAX_TOP_APPS_PER_DAY : Nat := 10
def TOP_APP_PER_HOUR : Nat := 3

/-- `is_same_day`.  All results of `localtime` are in one `struct tm`: when they are compared, both
pointers are to that of the second call. -/
def isSameDay (zone : TimeZone) (timestamp1 timestamp2 : UInt32) : Bool :=
  match zone.localtime timestamp1.toNat, zone.localtime timestamp2.toNat with
  | some _, some tm =>
    let (tm1, tm2) := (tm, tm)
    tm1.tmDate = tm2.tmDate
  | _, _ => false

/-- The visits that the loops do not pass over. -/
def countedVisits (zone : TimeZone) (now : UInt32) (visits : List VisitInfo) : List VisitInfo :=
  visits.filter fun v => isSameDay zone v.firstTime now

/-- `visit_time`: a visit without length counts as a second. -/
def VisitInfo.visitTime (v : VisitInfo) : Nat :=
  let visitTime := (v.latestTime - v.firstTime).toNat
  if visitTime = 0 then 1 else visitTime

/-- Adding to a table of `MAX_APP_STAT_NUM` slots: to the entry of the app, in a new one, or in
place of the first of the smallest.  `cap` cuts a total. -/
def addStat (cap : Nat → Nat) (stats : List AppHourStat) (appid : Int) (time : Nat) :
    List AppHourStat :=
  if stats.any fun s => s.appid == appid then
    updateFirst (fun s => s.appid == appid)
      (fun s => { s with totalTime := cap (s.totalTime + time) }) stats
  else if stats.length < MAX_APP_STAT_NUM then stats ++ [⟨appid, cap time⟩]
  else
    let minTime := ((stats.map (·.totalTime)).min?).getD 0
    if minTime < time then
      updateFirst (fun s => s.totalTime == minTime) (fun _ => ⟨appid, cap time⟩) stats
    else stats

theorem addToHour_eq (stats : List AppHourStat) (appid : Int) (duration : Nat) :
    addToHour stats appid duration = addStat capHour stats appid duration := rfl

/-- `app_time_stat_t` has the fields of `app_hour_stat_t`. -/
abbrev AppTimeStat := AppHourStat

/-- `daily_top_apps_stat_t`. -/
structure DailyTopAppsStat where
  date : UInt32
  isToday : Int
  count : Nat
  apps : List AppTimeStat

/-- `get_today_top_apps_stat`, without the file that it saves the list of an earlier day to. -/
def getTodayTopAppsStat (zone : TimeZone) (now : UInt32) (stat : DailyTopAppsStat) :
    DailyTopAppsStat :=
  let today := getTodayStartTimestampFromTs zone now
  if stat.date = today ∧ stat.isToday = 1 then stat
  else ⟨today, 1, 0, List.replicate MAX_TOP_APPS_PER_DAY ⟨-1, 0⟩⟩

/-- `update_daily_top_apps`. -/
def updateDailyTopApps (qsort : List AppTimeStat → List AppTimeStat) (zone : TimeZone)
    (now : UInt32) (visit : List VisitInfo) (stat : DailyTopAppsStat) : DailyTopAppsStat :=
  let todayStat := getTodayTopAppsStat zone now stat
  let appStats := (countedVisits zone now visit).foldl
    (fun stats p => addStat id stats p.appid p.visitTime) []
  if appStats = [] then
    { todayStat with count := 0, apps := List.replicate MAX_TOP_APPS_PER_DAY ⟨-1, 0⟩ }
  else
    let top := (qsort appStats).take MAX_TOP_APPS_PER_DAY
    let apps := top.filter fun s => 0 < s.appid && 0 < s.totalTime
    { todayStat with
      count := apps.length
      apps := apps ++ List.replicate (MAX_TOP_APPS_PER_DAY - apps.length) ⟨-1, 0⟩ }

/-- A row of `hourly_top_apps`. -/
def topRow (stats : List AppHourStat) : List Int :=
  let top := stats.take TOP_APP_PER_HOUR
  top.map (fun s => if 0 < s.appid ∧ 0 < s.totalTime then s.appid else -1) ++
    List.replicate (TOP_APP_PER_HOUR - top.length) (-1)

/-- `update_hourly_top_apps`: the rows of `hourly_top_apps`. -/
def updateHourlyTopApps (qsort : List AppHourStat → List AppHourStat) (zone : TimeZone)
    (passes : Nat) (now : UInt32) (client : VisitClient) : Option (Fin 24 → List Int) :=
  let visits := countedVisits zone now client.onlineVisit ++ countedVisits zone now client.visit
  (visits.foldlM (accumulateVisitToHourStats zone passes) fun _ => []).map fun stats hour =>
    if stats hour = [] then List.replicate TOP_APP_PER_HOUR (-1) else topRow (qsort (stats hour))

/-- What is known of `qsort` with `compare_app_stat` or `compare_app_time_stat`: equal totals come
in any order. -/
structure SortsByTime (qsort : List AppHourStat → List AppHourStat) : Prop where
  perm : ∀ stats, (qsort stats).Perm stats
  sorted : ∀ stats, (qsort stats).Pairwise fun a b => b.totalTime ≤ a.totalTime

/-! ## 2. The table -/

section
variable {cap : Nat → Nat}

theorem appids_addStat_of_mem {stats : List AppHourStat} {appid : Int} {time : Nat}
    (h : appid ∈ stats.map (·.appid)) :
    (addStat cap stats appid time).map (·.appid) = stats.map (·.appid) := by
  have hany : (stats.any fun s => s.appid == appid) = true := by
    obtain ⟨s, hs, rfl⟩ := List.mem_map.mp h
    exact List.any_eq_true.mpr ⟨s, hs, beq_self_eq_true _⟩
  rw [addStat, if_pos hany]
  refine map_updateFirst _ ?_ stats
  intro _ _
  rfl

theorem not_any_of_not_mem {stats : List AppHourStat} {appid : Int}
    (h : appid ∉ stats.map (·.appid)) : ¬ (stats.any fun s => s.appid == appid) = true := by
  intro hany
  obtain ⟨s, hs, heq⟩ := List.any_eq_true.mp hany
  exact h (List.mem_map.mpr ⟨s, hs, beq_iff_eq.mp heq⟩)

/-- There are eight slots, with apps that have a visit. -/
theorem addStat_slots {stats : List AppHourStat} (appid : Int) (time : Nat)
    (h : stats.length ≤ MAX_APP_STAT_NUM) :
    (addStat cap stats appid time).length ≤ MAX_APP_STAT_NUM := by
  unfold addStat
  split
  · rw [length_updateFirst]
    exact h
  · split
    · rw [List.length_append, List.length_singleton]
      omega
    · dsimp only
      split
      · rw [length_updateFirst]
        exact h
      · exact h

/-- What a table that nothing was displaced from has to say of the additions. -/
structure Tallied (cap : Nat → Nat) (additions : List (Int × Nat)) (stats : List AppHourStat) :
    Prop where
  nodup : (stats.map (·.appid)).Nodup
  mem_iff : ∀ a, a ∈ stats.map (·.appid) ↔ a ∈ additions.map Prod.fst
  total : ∀ s ∈ stats, s.totalTime = cap (sumOf s.appid additions)

/-- One addition, with a slot for its app. -/
theorem Tallied.add {additions : List (Int × Nat)} {stats : List AppHourStat}
    (hcap : ∀ x d, cap (cap x + d) = cap (x + d)) (h : Tallied cap additions stats) (a : Int × Nat)
    (hroom : a.1 ∉ stats.map (·.appid) → stats.length < MAX_APP_STAT_NUM) :
    Tallied cap (additions ++ [a]) (addStat cap stats a.1 a.2) := by
  have hsum : ∀ k, sumOf k (additions ++ [a]) =
      sumOf k additions + if a.1 = k then a.2 else 0 := fun k => by
    rw [sumOf_append, sumOf_singleton]
  by_cases hmem : a.1 ∈ stats.map (·.appid)
  · have happids := @appids_addStat_of_mem cap stats a.1 a.2 hmem
    refine ⟨by rw [happids]; exact h.nodup, ?_, ?_⟩
    · intro k
      rw [happids, h.mem_iff, List.map_append, List.mem_append, List.map_singleton,
        List.mem_singleton]
      exact ⟨Or.inl, fun hk => hk.elim id fun heq => heq ▸ (h.mem_iff a.1).mp hmem⟩
    · intro s hs
      have hany : (stats.any fun s => s.appid == a.1) = true := by
        by_contra hno
        exact hno (by
          obtain ⟨t, ht, heq⟩ := List.mem_map.mp hmem
          exact List.any_eq_true.mpr ⟨t, ht, beq_iff_eq.mpr heq⟩)
      rw [addStat, if_pos hany] at hs
      rcases mem_updateFirst h.nodup hs with ⟨hold, hne⟩ | ⟨t, ht, hkey, rfl⟩
      · rw [hsum, if_neg (Ne.symm hne), Nat.add_zero]
        exact h.total s hold
      · rw [hsum, if_pos hkey.symm, h.total t ht, hcap]
  · have hnew : addStat cap stats a.1 a.2 = stats ++ [⟨a.1, cap a.2⟩] := by
      rw [addStat, if_neg (not_any_of_not_mem hmem), if_pos (hroom hmem)]
    rw [hnew]
    refine ⟨?_, ?_, ?_⟩
    · rw [List.map_append, List.map_singleton, List.nodup_append]
      exact ⟨h.nodup, by simp, fun k hk k' hk' heq => hmem (by simp_all)⟩
    · intro k
      simp only [List.map_append, List.mem_append, List.map_singleton, List.mem_singleton, h.mem_iff]
    · intro s hs
      rcases List.mem_append.mp hs with hs | hs
      · have hne : ¬ a.1 = s.appid := fun heq => hmem (List.mem_map.mpr ⟨s, hs, heq.symm⟩)
        rw [hsum, if_neg hne, Nat.add_zero]
        exact h.total s hs
      · rw [List.mem_singleton.mp hs]
        have hzero : sumOf a.1 additions = 0 := by
          have hnone : ∀ b ∈ additions, ¬ b.1 = a.1 := fun b hb heq =>
            hmem ((h.mem_iff a.1).mpr (List.mem_map.mpr ⟨b, hb, heq⟩))
          rw [sumOf, List.filter_eq_nil_iff.mpr (by simpa using hnone)]
          rfl
        rw [hsum, if_pos rfl, hzero, Nat.zero_add]

/-- **At most eight apps** all have a slot. -/
theorem foldl_addStat (hcap : ∀ x d, cap (cap x + d) = cap (x + d)) {additions : List (Int × Nat)}
    (h : (additions.map Prod.fst).toFinset.card ≤ MAX_APP_STAT_NUM) :
    Tallied cap additions (additions.foldl (fun stats a => addStat cap stats a.1 a.2) []) := by
  induction additions using List.reverseRecOn with
  | nil => exact ⟨List.nodup_nil, fun _ => Iff.rfl, by simp⟩
  | append_singleton additions a ih =>
    have hcard : ((additions ++ [a]).map Prod.fst).toFinset =
        insert a.1 (additions.map Prod.fst).toFinset := by
      ext k
      simp
    rw [hcard] at h
    have ih := ih ((Finset.card_le_card (Finset.subset_insert ..)).trans h)
    rw [List.foldl_append]
    refine ih.add hcap a ?_
    intro hnew
    have hsame : (additions.map Prod.fst).toFinset = (List.map (·.appid)
        (additions.foldl (fun stats a => addStat cap stats a.1 a.2) [])).toFinset := by
      ext k
      rw [List.mem_toFinset, List.mem_toFinset, ih.mem_iff]
    have hlen := List.toFinset_card_of_nodup ih.nodup
    rw [List.length_map] at hlen
    rw [hsame, Finset.card_insert_of_notMem (by simpa using hnew), hlen] at h
    omega

/-- The sorted table is a choice of the largest totals. -/
theorem Tallied.isTop {additions : List (Int × Nat)} {stats : List AppHourStat}
    (h : Tallied cap additions stats) {qsort : List AppHourStat → List AppHourStat}
    (hq : SortsByTime qsort) (size : Nat) :
    IsTop size (· ∈ additions.map Prod.fst) (fun a => cap (sumOf a additions))
      (((qsort stats).take size).map (·.appid)) := by
  have hperm := hq.perm stats
  rw [List.map_take]
  refine isTop_take ((hperm.map _).nodup_iff.mpr h.nodup) ?_ ?_
  · intro k
    rw [(hperm.map _).mem_iff, h.mem_iff]
  · rw [List.pairwise_map]
    refine (hq.sorted stats).imp_of_mem fun {a b} ha hb hle => ?_
    rw [← h.total a (hperm.mem_iff.mp ha), ← h.total b (hperm.mem_iff.mp hb)]
    exact hle

end

/-! ## 3. The day -/

/-- The visit began today. -/
def beganToday (zone : TimeZone) (now : UInt32) (v : VisitInfo) : Bool :=
  match zone.localtime v.firstTime.toNat, zone.localtime now.toNat with
  | some tm1, some tm2 => tm1.tmDate = tm2.tmDate
  | _, _ => false

def visitsToday (zone : TimeZone) (now : UInt32) (visits : List VisitInfo) : List VisitInfo :=
  visits.filter (beganToday zone now)

/-- The visits of today are among those that are counted. -/
theorem visitsToday_eq (zone : TimeZone) (now : UInt32) (visits : List VisitInfo) :
    visitsToday zone now visits = (countedVisits zone now visits).filter (beganToday zone now) := by
  rw [countedVisits, List.filter_filter, visitsToday]
  refine List.filter_congr fun v _ => ?_
  rw [beganToday, isSameDay]
  cases zone.localtime v.firstTime.toNat with
  | none => rfl
  | some tm1 =>
    cases zone.localtime now.toNat with
    | none => rfl
    | some tm2 => simp

/-- Visits and their times, by app. -/
def visitTimes (visits : List VisitInfo) : List (Int × Nat) := visits.map fun v => (v.appid, v.visitTime)

/-- The apps of visits. -/
def appsOf (visits : List VisitInfo) : Finset Int := (visits.map (·.appid)).toFinset

/-- The list of the day is as it should be for the visits of the day: the apps with the largest full
times, up to ten. -/
def DailyTop (today : List VisitInfo) (stat : DailyTopAppsStat) : Prop :=
  IsTop MAX_TOP_APPS_PER_DAY (· ∈ today.map (·.appid)) (fun a => sumOf a (visitTimes today))
      ((stat.apps.take stat.count).map (·.appid)) ∧
    ∀ s ∈ stat.apps.take stat.count, s.totalTime = sumOf s.appid (visitTimes today)

theorem visitTimes_fst (visits : List VisitInfo) :
    (visitTimes visits).map Prod.fst = visits.map (·.appid) := by
  rw [visitTimes, List.map_map]
  rfl

theorem visitTime_pos (v : VisitInfo) : 0 < v.visitTime := by
  rw [VisitInfo.visitTime]
  split
  · exact Nat.one_pos
  · omega

theorem visitTimes_pos (visits : List VisitInfo) : ∀ a ∈ visitTimes visits, 0 < a.2 := by
  intro a ha
  obtain ⟨v, -, rfl⟩ := List.mem_map.mp ha
  exact visitTime_pos v

/-- The table of the day. -/
def dayStats (counted : List VisitInfo) : List AppTimeStat :=
  (visitTimes counted).foldl (fun stats a => addStat id stats a.1 a.2) []

/-- The table after some additions: it has the apps of them, and it is full if it does not have all. -/
structure Slots (additions : List (Int × Nat)) (stats : List AppTimeStat) : Prop where
  length_le : stats.length ≤ MAX_APP_STAT_NUM
  all : stats.length < MAX_APP_STAT_NUM → ∀ a ∈ additions, a.1 ∈ stats.map (·.appid)
  added : ∀ s ∈ stats, s.appid ∈ additions.map Prod.fst ∧ 0 < s.totalTime

theorem Slots.add {additions : List (Int × Nat)} {stats : List AppTimeStat} (h : Slots additions stats)
    {a : Int × Nat} (hpos : 0 < a.2) : Slots (additions ++ [a]) (addStat id stats a.1 a.2) := by
  have hold : ∀ s ∈ stats, s.appid ∈ (additions ++ [a]).map Prod.fst ∧ 0 < s.totalTime := by
    intro s hs
    rw [List.map_append]
    exact ⟨List.mem_append_left _ (h.added s hs).1, (h.added s hs).2⟩
  have hnew : a.1 ∈ (additions ++ [a]).map Prod.fst := by simp
  refine ⟨addStat_slots a.1 a.2 h.length_le, ?_, ?_⟩
  · intro hlen b hb
    by_cases hmem : a.1 ∈ stats.map (·.appid)
    · have happids := @appids_addStat_of_mem id stats a.1 a.2 hmem
      have hsame : (addStat id stats a.1 a.2).length = stats.length := by
        simpa using congrArg List.length happids
      rw [happids]
      rcases List.mem_append.mp hb with hb | hb
      · exact h.all (hsame ▸ hlen) b hb
      · rwa [List.mem_singleton.mp hb]
    · rw [addStat, if_neg (not_any_of_not_mem hmem)] at hlen ⊢
      by_cases hroom : stats.length < MAX_APP_STAT_NUM
      · rw [if_pos hroom, List.map_append]
        rcases List.mem_append.mp hb with hb | hb
        · exact List.mem_append_left _ (h.all hroom b hb)
        · rw [List.mem_singleton.mp hb]
          exact List.mem_append_right _ (List.mem_singleton_self _)
      · -- no slot is free, and none becomes free
        rw [if_neg hroom] at hlen
        dsimp only at hlen
        split at hlen
        · rw [length_updateFirst] at hlen
          exact absurd hlen hroom
        · exact absurd hlen hroom
  · intro s hs
    rw [addStat] at hs
    split at hs
    · rcases of_mem_updateFirst hs with hs | ⟨t, ht, -, rfl⟩
      · exact hold s hs
      · have htime := (hold t ht).2
        exact ⟨(hold t ht).1, by simp only [id]; omega⟩
    · split at hs
      · rcases List.mem_append.mp hs with hs | hs
        · exact hold s hs
        · rw [List.mem_singleton.mp hs]
          exact ⟨hnew, hpos⟩
      · dsimp only at hs
        split at hs
        · rcases of_mem_updateFirst hs with hs | ⟨t, -, -, rfl⟩
          · exact hold s hs
          · exact ⟨hnew, hpos⟩
        · exact hold s hs

theorem slots_dayStats (counted : List VisitInfo) : Slots (visitTimes counted) (dayStats counted) := by
  have hrun : ∀ l : List (Int × Nat), (∀ a ∈ l, 0 < a.2) →
      Slots l (l.foldl (fun stats a => addStat id stats a.1 a.2) []) := by
    intro l hpos
    induction l using List.reverseRecOn with
    | nil => exact ⟨Nat.zero_le _, fun _ _ h => absurd h List.not_mem_nil, fun _ h => absurd h List.not_mem_nil⟩
    | append_singleton l a ih =>
      rw [List.foldl_append]
      exact (ih fun b hb => hpos b (List.mem_append_left _ hb)).add (hpos a (by simp))
  exact hrun _ (visitTimes_pos counted)

/-- The entries that are recorded. -/
def recorded (qsort : List AppTimeStat → List AppTimeStat) (counted : List VisitInfo) : List AppTimeStat :=
  (qsort (dayStats counted)).filter fun s => 0 < s.appid

section
variable {qsort : List AppHourStat → List AppHourStat} (hq : SortsByTime qsort)
include hq

theorem mem_recorded {counted : List VisitInfo} {s : AppTimeStat} :
    s ∈ recorded qsort counted ↔ s ∈ dayStats counted ∧ 0 < s.appid := by
  rw [recorded, List.mem_filter, (hq.perm _).mem_iff, decide_eq_true_eq]

theorem length_recorded (counted : List VisitInfo) : (recorded qsort counted).length ≤ MAX_APP_STAT_NUM := by
  refine (List.length_filter_le _ _).trans ?_
  rw [(hq.perm _).length_eq]
  exact (slots_dayStats counted).length_le

theorem recorded_daily (zone : TimeZone) (now : UInt32) (visit : List VisitInfo) (stat : DailyTopAppsStat) :
    let after := updateDailyTopApps qsort zone now visit stat
    after.apps.take after.count = recorded qsort (countedVisits zone now visit) := by
  have hstats : (countedVisits zone now visit).foldl
      (fun stats p => addStat id stats p.appid p.visitTime) [] = dayStats (countedVisits zone now visit) := by
    rw [dayStats, visitTimes, List.foldl_map]
  have hlen : (qsort (dayStats (countedVisits zone now visit))).length ≤ MAX_TOP_APPS_PER_DAY := by
    rw [(hq.perm _).length_eq]
    exact (slots_dayStats _).length_le.trans (by decide)
  have hkeep : (qsort (dayStats (countedVisits zone now visit))).filter
      (fun s => 0 < s.appid && 0 < s.totalTime) = recorded qsort (countedVisits zone now visit) := by
    refine List.filter_congr fun s hs => ?_
    have htime := ((slots_dayStats _).added s ((hq.perm _).mem_iff.mp hs)).2
    simp [htime]
  simp only [updateDailyTopApps, hstats, List.take_of_length_le hlen]
  split
  · rename_i hnil
    have hempty : qsort [] = [] := List.perm_nil.mp (hq.perm [])
    rw [recorded, hnil, hempty]
    rfl
  · rw [hkeep]
    exact List.take_left

section
variable {counted : List VisitInfo} {today : VisitInfo → Bool} {stat : DailyTopAppsStat}
  (hrec : stat.apps.take stat.count = recorded qsort counted)
include hrec

/-- There is room for ten, so every app of today is among the at most eight that are recorded. -/
theorem apps_of_dailyTop (h : DailyTop (counted.filter today) stat) :
    (∀ v ∈ counted.filter today, 0 < v.appid) ∧
      (appsOf (counted.filter today)).card ≤ MAX_APP_STAT_NUM := by
  obtain ⟨htop, -⟩ := h
  rw [hrec] at htop
  have hlen : ((recorded qsort counted).map (·.appid)).length ≤ MAX_APP_STAT_NUM := by
    rw [List.length_map]
    exact length_recorded hq counted
  have hall := fun a ha => htop.mem_of_room (k := a) (Nat.lt_of_le_of_lt hlen (by decide)) ha
  constructor
  · intro v hv
    obtain ⟨s, hs, heq⟩ := List.mem_map.mp (hall v.appid (List.mem_map_of_mem hv))
    rw [← heq]
    exact ((mem_recorded hq).mp hs).2
  · have hsub : appsOf (counted.filter today) ⊆ ((recorded qsort counted).map (·.appid)).toFinset := by
      intro a ha
      rw [appsOf, List.mem_toFinset] at ha
      rw [List.mem_toFinset]
      exact hall a ha
    exact (Finset.card_le_card hsub).trans ((List.toFinset_card_le _).trans hlen)

/-- Among more than eight apps the table is full, and all of it is recorded. -/
theorem card_of_dailyTop (hpos : ∀ v ∈ counted, 0 < v.appid) (hmany : MAX_APP_STAT_NUM < (appsOf counted).card)
    (h : DailyTop (counted.filter today) stat) :
    MAX_APP_STAT_NUM ≤ (appsOf (counted.filter today)).card := by
  obtain ⟨htop, -⟩ := h
  rw [hrec] at htop
  have hslots := slots_dayStats counted
  have hids : ∀ s ∈ dayStats counted, 0 < s.appid := by
    intro s hs
    have hmem := (hslots.added s hs).1
    rw [visitTimes_fst] at hmem
    obtain ⟨v, hv, heq⟩ := List.mem_map.mp hmem
    rw [← heq]
    exact hpos v hv
  have hfull : (dayStats counted).length = MAX_APP_STAT_NUM := by
    refine Nat.le_antisymm hslots.length_le (Nat.le_of_not_lt fun hroom => ?_)
    have hsub : appsOf counted ⊆ ((dayStats counted).map (·.appid)).toFinset := by
      intro a ha
      rw [appsOf, ← visitTimes_fst, List.mem_toFinset] at ha
      obtain ⟨b, hb, rfl⟩ := List.mem_map.mp ha
      exact List.mem_toFinset.mpr (hslots.all hroom b hb)
    have hle := (Finset.card_le_card hsub).trans (List.toFinset_card_le _)
    rw [List.length_map] at hle
    omega
  have hlen : (recorded qsort counted).length = MAX_APP_STAT_NUM := by
    rw [recorded, List.filter_eq_self.mpr fun s hs => decide_eq_true (hids s ((hq.perm _).mem_iff.mp hs)),
      (hq.perm _).length_eq]
    exact hfull
  rw [← hlen, ← List.length_map (f := (·.appid)), ← List.toFinset_card_of_nodup htop.nodup]
  refine Finset.card_le_card fun a ha => ?_
  rw [List.mem_toFinset] at ha
  exact List.mem_toFinset.mpr (htop.of_mem a ha)

section
variable (hcard : (appsOf counted).card ≤ MAX_APP_STAT_NUM)
include hcard

omit hq hrec in
theorem tallied_dayStats : Tallied id (visitTimes counted) (dayStats counted) := by
  rw [appsOf, ← visitTimes_fst] at hcard
  exact foldl_addStat (fun _ _ => rfl) hcard

omit hq hrec in
theorem mem_dayStats_iff (appid : Int) :
    appid ∈ (dayStats counted).map (·.appid) ↔ appid ∈ counted.map (·.appid) := by
  rw [(tallied_dayStats hcard).mem_iff, visitTimes_fst]

/-- Of at most eight apps, a visit of another day is recorded with its app. -/
theorem began_of_dailyTop (h : DailyTop (counted.filter today) stat) :
    ∀ v ∈ counted, 0 < v.appid → today v = true := by
  intro v hv happ
  by_contra hother
  have htally := tallied_dayStats hcard
  obtain ⟨s, hs, heq⟩ := List.mem_map.mp ((mem_dayStats_iff hcard v.appid).mpr (List.mem_map_of_mem hv))
  have htotal := h.2 s (by rw [hrec, mem_recorded hq]; exact ⟨hs, heq ▸ happ⟩)
  rw [htally.total s hs, heq] at htotal
  -- what the other days add is not nothing
  have hadd := sumOf_filter_add (fun v : VisitInfo => (v.appid, v.visitTime)) today v.appid counted
  have hothers : 0 < sumOf v.appid (visitTimes (counted.filter fun v => !today v)) := by
    rw [sumOf_pos_iff (visitTimes_pos _), visitTimes_fst]
    exact List.mem_map_of_mem (List.mem_filter.mpr ⟨hv, by simpa using hother⟩)
  simp only [visitTimes, id] at htotal hothers hadd
  omega

/-- When those of all apps began today, the list is right. -/
theorem dailyTop_of_began (hpos : ∀ v ∈ counted.filter today, 0 < v.appid)
    (hbegan : ∀ v ∈ counted, 0 < v.appid → today v = true) : DailyTop (counted.filter today) stat := by
  have htally := tallied_dayStats hcard
  have htotal : ∀ s ∈ recorded qsort counted, s.totalTime = sumOf s.appid (visitTimes (counted.filter today)) := by
    intro s hs
    obtain ⟨hs, happ⟩ := (mem_recorded hq).mp hs
    have hadd := sumOf_filter_add (fun v : VisitInfo => (v.appid, v.visitTime)) today s.appid counted
    have hothers : ¬ 0 < sumOf s.appid (visitTimes (counted.filter fun v => !today v)) := by
      rw [sumOf_pos_iff (visitTimes_pos _), visitTimes_fst]
      intro hmem
      obtain ⟨v, hv, heq⟩ := List.mem_map.mp hmem
      obtain ⟨hv, hother⟩ := List.mem_filter.mp hv
      rw [hbegan v hv (heq ▸ happ)] at hother
      cases hother
    rw [htally.total s hs]
    simp only [visitTimes, id] at hothers hadd ⊢
    omega
  have hseen : ∀ a, a ∈ (counted.filter today).map (·.appid) ↔ a ∈ (recorded qsort counted).map (·.appid) := by
    intro a
    constructor
    · intro ha
      obtain ⟨v, hv, rfl⟩ := List.mem_map.mp ha
      have hcounted := List.mem_map_of_mem (f := VisitInfo.appid) (List.mem_of_mem_filter hv)
      obtain ⟨s, hs, heq⟩ := List.mem_map.mp ((mem_dayStats_iff hcard v.appid).mpr hcounted)
      exact List.mem_map.mpr ⟨s, (mem_recorded hq).mpr ⟨hs, heq ▸ hpos v hv⟩, heq⟩
    · intro ha
      obtain ⟨s, hs, rfl⟩ := List.mem_map.mp ha
      obtain ⟨hs, happ⟩ := (mem_recorded hq).mp hs
      obtain ⟨v, hv, heq⟩ := List.mem_map.mp ((mem_dayStats_iff hcard s.appid).mp (List.mem_map_of_mem hs))
      exact List.mem_map.mpr ⟨v, List.mem_filter.mpr ⟨hv, hbegan v hv (heq ▸ happ)⟩, heq⟩
  have hperm := (hq.perm (dayStats counted)).map (·.appid)
  have hnodup : ((recorded qsort counted).map (·.appid)).Nodup :=
    (hperm.nodup_iff.mpr htally.nodup).sublist (List.filter_sublist.map _)
  have hsorted : ((recorded qsort counted).map (·.appid)).Pairwise fun a b =>
      sumOf b (visitTimes (counted.filter today)) ≤ sumOf a (visitTimes (counted.filter today)) := by
    rw [List.pairwise_map]
    refine ((hq.sorted _).sublist List.filter_sublist).imp_of_mem fun {a b} ha hb hle => ?_
    rwa [← htotal a ha, ← htotal b hb]
  have htop := @isTop_take Int MAX_TOP_APPS_PER_DAY _ _ _ hnodup hseen hsorted
  rw [List.take_of_length_le (by
    rw [List.length_map]
    exact (length_recorded hq counted).trans (by decide))] at htop
  rw [DailyTop, hrec]
  exact ⟨htop, htotal⟩

end

end

/-- **The list of the day**, of at most eight apps: it is right iff all visits of apps that are counted
began today. -/
theorem dailyTop_iff (zone : TimeZone) (now : UInt32) (visit : List VisitInfo) (stat : DailyTopAppsStat)
    (hcard : (appsOf (countedVisits zone now visit)).card ≤ MAX_APP_STAT_NUM) :
    DailyTop (visitsToday zone now visit) (updateDailyTopApps qsort zone now visit stat) ↔
      (∀ v ∈ visitsToday zone now visit, 0 < v.appid) ∧
        ∀ v ∈ countedVisits zone now visit, 0 < v.appid → beganToday zone now v = true := by
  have hrec := recorded_daily hq zone now visit stat
  rw [visitsToday_eq]
  constructor
  · intro h
    exact ⟨(apps_of_dailyTop hq hrec h).1, began_of_dailyTop hq hrec hcard h⟩
  · rintro ⟨hpos, hbegan⟩
    exact dailyTop_of_began hq hrec hcard hpos hbegan

end

/-! ## 4. The hours -/

/-- The next hour that `mktime` finds begins in the day after. -/
def HoursAhead (zone : TimeZone) : Prop :=
  ∀ t tm, zone.localtime t = some tm → zone.mktime tm.nextHour ≤ t + 86400

/-- **The loop over the hours ends**, before the last day of the clock. -/
theorem hourSegments_ends {zone : TimeZone} (hz : HoursAhead zone) {stop : UInt32}
    (hstop : stop.toNat < 2 ^ 32 - 86400) (passes : Nat) {cursor : UInt32}
    (hpasses : stop.toNat - cursor.toNat ≤ passes) :
    ∃ segments, hourSegments zone stop passes cursor = some segments := by
  induction passes generalizing cursor with
  | zero => exact ⟨[], hourSegments_of_le 0 (by omega)⟩
  | succ passes ih =>
    by_cases hlt : cursor.toNat < stop.toNat
    · have hadd : (cursor + 3600).toNat = cursor.toNat + 3600 := by
        rw [UInt32.toNat_add]
        exact Nat.mod_eq_of_lt (by change cursor.toNat + 3600 < 2 ^ 32; omega)
      have hnext : cursor.toNat < (getNextHourTimestamp zone cursor).toNat := by
        rw [getNextHourTimestamp]
        cases htm : zone.localtime cursor.toNat with
        | none =>
          dsimp only
          omega
        | some tm =>
          have hle := hz _ _ htm
          dsimp only
          split
          · omega
          · rw [toNat_ofInt (by omega) (by omega)]
            omega
      have hend : cursor.toNat < (segmentEnd zone stop cursor).toNat := by
        rw [segmentEnd, toNat_ite_lt]
        omega
      obtain ⟨segments, hsegs⟩ := @ih (segmentEnd zone stop cursor) (by omega)
      refine ⟨hourSegment zone stop cursor :: segments, ?_⟩
      rw [hourSegments, if_pos (UInt32.lt_iff_toNat_lt.mpr hlt), hsegs]
      rfl
    · exact ⟨[], hourSegments_of_le _ (by omega)⟩

/-- The passes of a visit: a visit without length is one second of its hour. -/
def visitSegments (zone : TimeZone) (passes : Nat) (v : VisitInfo) : Option (List HourSegment) :=
  if v.latestTime ≤ v.firstTime then some [⟨getHourFromTimestamp zone v.firstTime, 1⟩]
  else hourSegments zone v.latestTime passes v.firstTime

theorem accumulate_eq {zone : TimeZone} {passes : Nat} {v : VisitInfo} (happ : 0 < v.appid)
    (stats : HourStats) :
    accumulateVisitToHourStats zone passes stats v = (visitSegments zone passes v).map fun segments =>
      segments.foldl
        (fun stats s => addAppDurationToHourStats stats s.hour v.appid s.duration) stats := by
  rw [accumulateVisitToHourStats, if_neg (by omega), visitSegments]
  split <;> rfl

theorem getVisitDurationInHour_eq {zone : TimeZone} {passes : Nat} {v : VisitInfo} (hour : Fin 24) :
    getVisitDurationInHour zone passes v hour.val =
      (visitSegments zone passes v).map (amountIn hour.val) := by
  have hhour : ¬((hour.val : Int) < 0 ∨ HOURS_PER_DAY ≤ (hour.val : Int)) := by
    simp only [HOURS_PER_DAY]
    omega
  rw [getVisitDurationInHour, if_neg hhour, visitSegments]
  split
  · rw [Option.map_some, amountIn_cons, amountIn_nil, Nat.add_zero]
  · congr 1
    funext segments
    rw [foldl_total, Nat.zero_add]

/-- A pass is never of no length. -/
theorem duration_pos {zone : TimeZone} {passes : Nat} {v : VisitInfo} {segments : List HourSegment}
    (h : visitSegments zone passes v = some segments) : ∀ s ∈ segments, 0 < s.duration := by
  have hloop : ∀ (passes : Nat) (cursor : UInt32) (segments : List HourSegment),
      hourSegments zone v.latestTime passes cursor = some segments →
      ∀ s ∈ segments, 0 < s.duration := by
    intro passes
    induction passes with
    | zero =>
      intro cursor segments h
      rw [hourSegments] at h
      split at h
      · cases h
      · cases h
        simp
    | succ passes ih =>
      intro cursor segments h
      rw [hourSegments] at h
      split at h
      · obtain ⟨rest, hrest, rfl⟩ := Option.map_eq_some_iff.mp h
        intro s hs
        rcases List.mem_cons.mp hs with rfl | hs
        · rw [hourSegment]
          dsimp only
          split <;> omega
        · exact ih _ _ hrest s hs
      · cases h
        simp
  rw [visitSegments] at h
  split at h
  · cases h
    simp
  · exact hloop _ _ _ h

/-- What is added in an hour, in order. -/
def hourAdditions (hour : Fin 24) (visits : List (VisitInfo × List HourSegment)) :
    List (Int × Nat) :=
  visits.flatMap fun v =>
    ((v.2.filter fun s => s.hour = (hour.val : Int)).map (·.duration)).map fun d => (v.1.appid, d)

/-- The passes of a visit, in the entries of one hour. -/
theorem foldl_segments {appid : Int} (happ : 0 < appid) (hour : Fin 24) {segments : List HourSegment}
    (hpos : ∀ s ∈ segments, 0 < s.duration) (stats : HourStats) :
    segments.foldl (fun stats s => addAppDurationToHourStats stats s.hour appid s.duration) stats
        hour =
      (((segments.filter fun s => s.hour = (hour.val : Int)).map (·.duration)).map
        fun d => (appid, d)).foldl (fun stats a => addStat capHour stats a.1 a.2) (stats hour) := by
  induction segments generalizing stats with
  | nil => rfl
  | cons s rest ih =>
    rw [List.foldl_cons, ih fun t ht => hpos t (List.mem_cons_of_mem s ht),
      addAppDuration_apply happ stats (hpos s List.mem_cons_self) hour]
    by_cases hhour : s.hour = hour.val
    · rw [if_pos hhour, addToHour_eq, List.filter_cons_of_pos (by simpa using hhour)]
      rfl
    · rw [if_neg hhour, List.filter_cons_of_neg (by simpa using hhour)]

/-- **All visits**, in the entries of one hour. -/
theorem foldlM_accumulate {zone : TimeZone} {passes : Nat}
    {visits : List (VisitInfo × List HourSegment)}
    (h : ∀ v ∈ visits, 0 < v.1.appid ∧ visitSegments zone passes v.1 = some v.2)
    (stats : HourStats) :
    ∃ after, (visits.map Prod.fst).foldlM (accumulateVisitToHourStats zone passes) stats =
        some after ∧
      ∀ hour, after hour = (hourAdditions hour visits).foldl
        (fun stats a => addStat capHour stats a.1 a.2) (stats hour) := by
  induction visits generalizing stats with
  | nil => exact ⟨stats, rfl, fun _ => rfl⟩
  | cons v rest ih =>
    obtain ⟨happ, hsegs⟩ := h v List.mem_cons_self
    obtain ⟨after, hrun, hafter⟩ := ih (fun w hw => h w (List.mem_cons_of_mem v hw))
      (v.2.foldl (fun stats s => addAppDurationToHourStats stats s.hour v.1.appid s.duration) stats)
    refine ⟨after, ?_, ?_⟩
    · rw [List.map_cons, List.foldlM_cons, accumulate_eq happ, hsegs]
      exact hrun
    · intro hour
      have hcons : hourAdditions hour (v :: rest) =
          (((v.2.filter fun s => s.hour = (hour.val : Int)).map (·.duration)).map
            fun d => (v.1.appid, d)) ++ hourAdditions hour rest := List.flatMap_cons
      rw [hafter, foldl_segments happ hour (duration_pos hsegs), hcons, List.foldl_append]

theorem capHour_capHour (x d : Nat) : capHour (capHour x + d) = capHour (x + d) := by
  simp only [capHour_eq]
  omega

/-- The visits that are counted, open ones first. -/
def VisitClient.counted (zone : TimeZone) (now : UInt32) (client : VisitClient) : List VisitInfo :=
  countedVisits zone now client.onlineVisit ++ countedVisits zone now client.visit

/-- The visits of today. -/
def VisitClient.today (zone : TimeZone) (now : UInt32) (client : VisitClient) : List VisitInfo :=
  visitsToday zone now client.onlineVisit ++ visitsToday zone now client.visit

theorem VisitClient.today_eq (zone : TimeZone) (now : UInt32) (client : VisitClient) :
    client.today zone now = (client.counted zone now).filter (beganToday zone now) := by
  rw [VisitClient.today, VisitClient.counted, visitsToday_eq, visitsToday_eq, List.filter_append]

/-- The seconds that a visit has in an hour. -/
def secondsInHour (zone : TimeZone) (passes : Nat) (hour : Fin 24) (v : VisitInfo) : Nat :=
  (getVisitDurationInHour zone passes v hour.val).getD 0

/-- The time that an app has in an hour. -/
def hourTime (zone : TimeZone) (passes : Nat) (hour : Fin 24) (visits : List VisitInfo)
    (appid : Int) : Nat :=
  min 3600 ((visits.filter fun v => v.appid = appid).map (secondsInHour zone passes hour)).sum

/-- The apps that have time in an hour. -/
def appsInHour (zone : TimeZone) (passes : Nat) (hour : Fin 24) (visits : List VisitInfo) :
    List Int :=
  (visits.filter fun v => 0 < secondsInHour zone passes hour v).map (·.appid)

/-- The row of an hour is as it should be: the apps with the most time in it, up to three, and
-1 behind them. -/
def HourlyTop (zone : TimeZone) (passes : Nat) (hour : Fin 24) (visits : List VisitInfo)
    (row : List Int) : Prop :=
  ∃ top, row = top ++ List.replicate (TOP_APP_PER_HOUR - top.length) (-1) ∧
    IsTop TOP_APP_PER_HOUR (· ∈ appsInHour zone passes hour visits)
      (hourTime zone passes hour visits) top

section
variable {zone : TimeZone} {passes : Nat} {visits : List (VisitInfo × List HourSegment)}
  (h : ∀ v ∈ visits, 0 < v.1.appid ∧ visitSegments zone passes v.1 = some v.2)
include h

theorem secondsInHour_eq (hour : Fin 24) {v : VisitInfo × List HourSegment} (hv : v ∈ visits) :
    secondsInHour zone passes hour v.1 = amountIn hour.val v.2 := by
  rw [secondsInHour, getVisitDurationInHour_eq, (h v hv).2]
  rfl

theorem additions_pos (hour : Fin 24) : ∀ a ∈ hourAdditions hour visits, 0 < a.2 := by
  intro a ha
  obtain ⟨v, hv, ha⟩ := List.mem_flatMap.mp ha
  obtain ⟨d, hd, rfl⟩ := List.mem_map.mp ha
  obtain ⟨s, hs, rfl⟩ := List.mem_map.mp hd
  exact duration_pos (h v hv).2 s (List.mem_filter.mp hs).1

/-- The totals of the additions are the times of the apps. -/
theorem sumOf_hourAdditions (hour : Fin 24) (appid : Int) :
    sumOf appid (hourAdditions hour visits) =
      (((visits.map Prod.fst).filter fun v => v.appid = appid).map
        (secondsInHour zone passes hour)).sum := by
  rw [hourAdditions, sumOf_flatMap (fun v : VisitInfo × List HourSegment => v.1.appid)]
  rw [List.filter_map, List.map_map]
  congr 1
  refine List.map_congr_left ?_
  intro v hv
  exact (secondsInHour_eq h hour (List.mem_filter.mp hv).1).symm

/-- The apps of the additions are those with time in the hour. -/
theorem mem_hourAdditions (hour : Fin 24) (appid : Int) :
    appid ∈ (hourAdditions hour visits).map Prod.fst ↔
      appid ∈ appsInHour zone passes hour (visits.map Prod.fst) := by
  rw [← sumOf_pos_iff (additions_pos h hour), sumOf_hourAdditions h, List.sum_pos_iff_exists_pos_nat]
  simp only [appsInHour, List.mem_map, List.mem_filter, decide_eq_true_eq]
  constructor
  · rintro ⟨_, ⟨v, ⟨hv, happ⟩, rfl⟩, hpos⟩
    exact ⟨v, ⟨hv, hpos⟩, happ⟩
  · rintro ⟨v, ⟨hv, hpos⟩, happ⟩
    exact ⟨_, ⟨v, ⟨hv, happ⟩, rfl⟩, hpos⟩

end

/-- A sorted table of apps makes the row of their order. -/
theorem topRow_eq {stats : List AppHourStat} (h : ∀ s ∈ stats, 0 < s.appid ∧ 0 < s.totalTime) :
    topRow stats = (stats.take TOP_APP_PER_HOUR).map (·.appid) ++
      List.replicate (TOP_APP_PER_HOUR - (stats.take TOP_APP_PER_HOUR).length) (-1) := by
  rw [topRow]
  congr 1
  refine List.map_congr_left ?_
  intro s hs
  exact if_pos (h s (List.mem_of_mem_take hs))

/-- Visits that have no time in the hour make no difference. -/
theorem hourlyTop_filter {zone : TimeZone} {passes : Nat} {hour : Fin 24} {visits : List VisitInfo} {row : List Int}
    {p : VisitInfo → Bool} (hothers : ∀ v ∈ visits, 0 < secondsInHour zone passes hour v → p v = true)
    (h : HourlyTop zone passes hour visits row) : HourlyTop zone passes hour (visits.filter p) row := by
  have happs : appsInHour zone passes hour (visits.filter p) = appsInHour zone passes hour visits := by
    rw [appsInHour, List.filter_filter, appsInHour]
    congr 1
    refine List.filter_congr fun v hv => ?_
    by_cases htime : 0 < secondsInHour zone passes hour v
    · simp [htime, hothers v hv htime]
    · simp [htime]
  have htimes : hourTime zone passes hour (visits.filter p) = hourTime zone passes hour visits := by
    funext appid
    rw [hourTime, hourTime]
    congr 1
    clear h happs
    induction visits with
    | nil => rfl
    | cons v rest ih =>
      have ih := ih fun w hw => hothers w (List.mem_cons_of_mem v hw)
      by_cases hp : p v = true
      · rw [List.filter_cons_of_pos hp]
        by_cases happ : v.appid = appid
        · rw [List.filter_cons_of_pos (by simpa using happ), List.filter_cons_of_pos (by simpa using happ),
            List.map_cons, List.sum_cons, List.map_cons, List.sum_cons, ih]
        · rw [List.filter_cons_of_neg (by simpa using happ), List.filter_cons_of_neg (by simpa using happ), ih]
      · have hzero : secondsInHour zone passes hour v = 0 := by
          have hnot := mt (hothers v List.mem_cons_self) hp
          omega
        rw [List.filter_cons_of_neg hp, ih]
        by_cases happ : v.appid = appid
        · rw [List.filter_cons_of_pos (by simpa using happ), List.map_cons, List.sum_cons, hzero, Nat.zero_add]
        · rw [List.filter_cons_of_neg (by simpa using happ)]
  obtain ⟨top, hrow, htop⟩ := h
  rw [HourlyTop, happs, htimes]
  exact ⟨top, hrow, htop⟩

/-- The rows of the hours are computed, and right for what is counted where at most eight apps have time. -/
theorem hourlyTop_counted {qsort : List AppHourStat → List AppHourStat} (hq : SortsByTime qsort)
    {zone : TimeZone} (hz : HoursAhead zone) (now : UInt32) (client : VisitClient)
    (happ : ∀ v ∈ client.counted zone now, 0 < v.appid)
    (hlate : ∀ v ∈ client.counted zone now, v.latestTime.toNat < 2 ^ 32 - 86400) {passes : Nat}
    (hpasses : 2 ^ 32 ≤ passes) :
    ∃ rows, updateHourlyTopApps qsort zone passes now client = some rows ∧ ∀ hour,
      (appsInHour zone passes hour (client.counted zone now)).toFinset.card ≤ MAX_APP_STAT_NUM →
        HourlyTop zone passes hour (client.counted zone now) (rows hour) := by
  have hends : ∀ v ∈ client.counted zone now, ∃ segments,
      visitSegments zone passes v = some segments := by
    intro v hv
    rw [visitSegments]
    split
    · exact ⟨_, rfl⟩
    · exact hourSegments_ends hz (hlate v hv) passes (by
        have := v.latestTime.toNat_lt
        omega)
  obtain ⟨visits, hvisits, h⟩ : ∃ visits : List (VisitInfo × List HourSegment),
      visits.map Prod.fst = client.counted zone now ∧
        ∀ v ∈ visits, 0 < v.1.appid ∧ visitSegments zone passes v.1 = some v.2 := by
    refine ⟨(client.counted zone now).map fun v => (v, (visitSegments zone passes v).getD []), ?_, ?_⟩
    · rw [List.map_map]
      exact List.map_id _
    · intro w hw
      obtain ⟨v, hv, rfl⟩ := List.mem_map.mp hw
      obtain ⟨segments, hsegs⟩ := hends v hv
      exact ⟨happ v hv, by rw [hsegs]; rfl⟩
  obtain ⟨after, hrun, hafter⟩ := foldlM_accumulate h fun _ => []
  rw [hvisits] at hrun
  refine ⟨_, by rw [updateHourlyTopApps]; exact congrArg _ hrun, ?_⟩
  intro hour hcard
  have happs := mem_hourAdditions h hour
  have hsum := sumOf_hourAdditions h hour
  rw [hvisits] at happs hsum
  have hcard' : ((hourAdditions hour visits).map Prod.fst).toFinset.card ≤ MAX_APP_STAT_NUM := by
    have hsame : ((hourAdditions hour visits).map Prod.fst).toFinset =
        (appsInHour zone passes hour (client.counted zone now)).toFinset := by
      ext a
      rw [List.mem_toFinset, List.mem_toFinset, happs]
    rw [hsame]
    exact hcard
  have htally : Tallied capHour (hourAdditions hour visits) (after hour) := by
    rw [hafter]
    exact foldl_addStat capHour_capHour hcard'
  have htop := htally.isTop hq TOP_APP_PER_HOUR
  have hseen : (fun a => a ∈ (hourAdditions hour visits).map Prod.fst) =
      (fun a => a ∈ appsInHour zone passes hour (client.counted zone now)) := by
    funext a
    exact propext (happs a)
  have htotal : (fun a => capHour (sumOf a (hourAdditions hour visits))) =
      hourTime zone passes hour (client.counted zone now) := by
    funext a
    rw [capHour_eq, hsum, hourTime]
  rw [hseen, htotal] at htop
  refine ⟨_, ?_, htop⟩
  dsimp only
  split
  · rename_i hnil
    have hempty : qsort [] = [] := List.perm_nil.mp (hq.perm [])
    rw [hnil, hempty]
    rfl
  · rw [topRow_eq, List.length_map]
    intro s hs
    have hmem := (hq.perm _).mem_iff.mp hs
    have hin := (htally.mem_iff s.appid).mp (List.mem_map_of_mem hmem)
    obtain ⟨a, ha, heq⟩ := List.mem_map.mp hin
    obtain ⟨v, hv, ha'⟩ := List.mem_flatMap.mp ha
    obtain ⟨d, -, rfl⟩ := List.mem_map.mp ha'
    refine ⟨heq ▸ (h v hv).1, ?_⟩
    rw [htally.total s hmem, capHour_eq]
    have hpos := (sumOf_pos_iff (additions_pos h hour)).mpr hin
    omega

/-- **The rows of the hours**: they are computed, and right where the visits with time in the hour began today
and are of at most eight apps. -/
theorem hourlyTop {qsort : List AppHourStat → List AppHourStat} (hq : SortsByTime qsort)
    {zone : TimeZone} (hz : HoursAhead zone) (now : UInt32) (client : VisitClient)
    (happ : ∀ v ∈ client.counted zone now, 0 < v.appid)
    (hlate : ∀ v ∈ client.counted zone now, v.latestTime.toNat < 2 ^ 32 - 86400) {passes : Nat}
    (hpasses : 2 ^ 32 ≤ passes) :
    ∃ rows, updateHourlyTopApps qsort zone passes now client = some rows ∧ ∀ hour,
      (∀ v ∈ client.counted zone now, 0 < secondsInHour zone passes hour v → beganToday zone now v = true) →
      (appsInHour zone passes hour (client.counted zone now)).toFinset.card ≤ MAX_APP_STAT_NUM →
        HourlyTop zone passes hour (client.today zone now) (rows hour) := by
  obtain ⟨rows, hrows, htop⟩ := hourlyTop_counted hq hz now client happ hlate hpasses
  refine ⟨rows, hrows, fun hour hothers hcard => ?_⟩
  rw [VisitClient.today_eq]
  exact hourlyTop_filter hothers (htop hour hcard)

/-! ## 5. Both -/

/-- **The lists of the apps used most.**  With at most eight apps in the closed visits, that of the day is right
iff the visits of apps began today; with more it is only right if there are eight apps of today, and others have
been displaced.  Those of the hours are computed, and right in each hour whose visits began today and are of
at most eight apps. -/
theorem top_apps {qsort : List AppHourStat → List AppHourStat} (hq : SortsByTime qsort)
    {zone : TimeZone} (hz : HoursAhead zone) (now : UInt32) (client : VisitClient)
    (stat : DailyTopAppsStat) :
    ((appsOf (countedVisits zone now client.visit)).card ≤ MAX_APP_STAT_NUM →
      (DailyTop (visitsToday zone now client.visit) (updateDailyTopApps qsort zone now client.visit stat) ↔
        (∀ v ∈ visitsToday zone now client.visit, 0 < v.appid) ∧
          ∀ v ∈ countedVisits zone now client.visit, 0 < v.appid → beganToday zone now v = true)) ∧
    (MAX_APP_STAT_NUM < (appsOf (countedVisits zone now client.visit)).card →
      (∀ v ∈ countedVisits zone now client.visit, 0 < v.appid) →
      DailyTop (visitsToday zone now client.visit) (updateDailyTopApps qsort zone now client.visit stat) →
        (appsOf (visitsToday zone now client.visit)).card = MAX_APP_STAT_NUM) ∧
    ((∀ v ∈ client.counted zone now, 0 < v.appid ∧ v.latestTime.toNat < 2 ^ 32 - 86400) →
      ∃ passes rows, updateHourlyTopApps qsort zone passes now client = some rows ∧ ∀ hour,
        (∀ v ∈ client.counted zone now, 0 < secondsInHour zone passes hour v → beganToday zone now v = true) →
        (appsInHour zone passes hour (client.counted zone now)).toFinset.card ≤ MAX_APP_STAT_NUM →
          HourlyTop zone passes hour (client.today zone now) (rows hour)) := by
  refine ⟨dailyTop_iff hq zone now client.visit stat, fun hmany hpos h => ?_, fun hvisits => ⟨2 ^ 32, ?_⟩⟩
  · have hrec := recorded_daily hq zone now client.visit stat
    rw [visitsToday_eq] at h ⊢
    exact Nat.le_antisymm (apps_of_dailyTop hq hrec h).2 (card_of_dailyTop hq hrec hpos hmany h)
  · exact hourlyTop hq hz now client (fun v hv => (hvisits v hv).1) (fun v hv => (hvisits v hv).2)
      (Nat.le_refl _)

/-- A sort by time. -/
def sortByTime (stats : List AppHourStat) : List AppHourStat :=
  stats.mergeSort fun a b => b.totalTime ≤ a.totalTime

theorem sortsByTime_sortByTime : SortsByTime sortByTime where
  perm stats := List.mergeSort_perm stats _
  sorted := by
    intro stats
    have h := @List.pairwise_mergeSort AppHourStat (fun a b => b.totalTime ≤ a.totalTime)
      (fun a b c hab hbc => by
        simp only [decide_eq_true_eq] at *
        omega)
      (fun a b => by
        simp only [Bool.or_eq_true, decide_eq_true_eq]
        omega) stats
    exact h.imp fun hle => by simpa using hle

theorem hoursAhead_fixed (offset : Int) : HoursAhead (.fixed offset) := by
  intro t tm h
  cases h
  have hnext := Tm.seconds_nextHour offset t
  have hle := nextHour_le offset t
  simp only [TimeZone.fixed]
  omega

/-- Closed visits of the apps of a list, all of a minute. -/
def minuteVisits (apps : List Int) : List VisitInfo := apps.map fun a => ⟨a, 36000, 36060, 0⟩

/-- A phone with three closed visits and an open one. -/
def phoneVisits : VisitClient where
  mac := .lit "aa:bb:cc:dd:ee:01"
  onlineVisit := [⟨3001, 36500, 39000, 0⟩]
  visit := minuteVisits [1001, 2001, 1001]

theorem top_apps_phone :
    DailyTop (visitsToday (.fixed 0) 40000 phoneVisits.visit)
      (updateDailyTopApps sortByTime (.fixed 0) 40000 phoneVisits.visit ⟨0, 0, 0, []⟩) ∧
    ∃ passes rows, updateHourlyTopApps sortByTime (.fixed 0) passes 40000 phoneVisits = some rows ∧
      ∀ hour, HourlyTop (.fixed 0) passes hour (phoneVisits.today (.fixed 0) 40000) (rows hour) := by
  obtain ⟨hday, -, hhours⟩ := top_apps sortsByTime_sortByTime (hoursAhead_fixed 0) 40000 phoneVisits ⟨0, 0, 0, []⟩
  obtain ⟨passes, rows, hrows, htop⟩ := hhours (by decide)
  have hbegan : ∀ v ∈ phoneVisits.counted (.fixed 0) 40000, beganToday (.fixed 0) 40000 v = true := by decide
  refine ⟨(hday (by decide)).mpr ⟨by decide, by decide⟩, passes, rows, hrows, fun hour => ?_⟩
  refine htop hour (fun v hv _ => hbegan v hv) ((List.toFinset_card_le _).trans ?_)
  rw [appsInHour, List.length_map]
  exact (List.length_filter_le _ _).trans (by decide)

/-- **A visit of yesterday is recorded**, and a ninth app of today is left out, though there is room for ten. -/
theorem top_apps_wrong :
    ¬ DailyTop (visitsToday (.fixed 0) 126400 (minuteVisits [1001]))
      (updateDailyTopApps sortByTime (.fixed 0) 126400 (minuteVisits [1001]) ⟨0, 0, 0, []⟩) ∧
    ¬ DailyTop (visitsToday (.fixed 0) 40000
        (minuteVisits [1001, 1002, 1003, 1004, 1005, 1006, 1007, 1008, 1009]))
      (updateDailyTopApps sortByTime (.fixed 0) 40000
        (minuteVisits [1001, 1002, 1003, 1004, 1005, 1006, 1007, 1008, 1009]) ⟨0, 0, 0, []⟩) := by
  constructor
  · rw [dailyTop_iff sortsByTime_sortByTime _ _ _ _ (by decide)]
    rintro ⟨-, hbegan⟩
    exact absurd (hbegan ⟨1001, 36000, 36060, 0⟩ (by decide) (by decide)) (by decide)
  · intro h
    rw [visitsToday_eq] at h
    have hcard := (apps_of_dailyTop sortsByTime_sortByTime (recorded_daily sortsByTime_sortByTime _ _ _ _) h).2
    exact absurd hcard (by decide)

end Oaf
