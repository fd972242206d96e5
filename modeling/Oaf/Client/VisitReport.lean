/-
# The visit report of a client

The kernel keeps an entry for every app id that a client uses; `__af_visit_info_report` collects the
entries that are due in an array of `MAX_RECORD_APP_NUM` pointers on its stack.  Nothing bounds how
many are due.

* `visitOf`: the entry of one app id, from the events of the client alone.
* `find_visitState`: the hash table holds that entry.
* `visit_report_bound_iff`: **the array is enough** exactly when no report finds more app ids due.

`unsigned long` has `w` bits.  What the report says of the traffic is in `Oaf.Client.Traffic`; the
order in which `sort` leaves the entries is left out.
-/
import Mathlib.Data.BitVec
import Mathlib.Data.Finset.Card
import Mathlib.Data.List.FinRange
import Mathlib.Data.List.Nodup
import Mathlib.Data.UInt
import Oaf.Lib.Keyed

namespace Oaf

open Chains

/-! ## 1. The table -/

def MAX_VISIT_INFO_HASH_SIZE : Nat := 32
def MAX_RECORD_APP_NUM : Nat := 64
def VISIT_INFO_TIMEOUT_SEC : Nat := 300

/-- `app_visit_info_t`. -/
structure AppVisitInfo where
  appId : Nat
  totalNum : UInt32 := 0
  dropNum : UInt32 := 0
  latestTime : UInt32 := 0
  latestAction : Bool := false
  connCount : UInt32 := 0
  isHttp : Bool := false
deriving DecidableEq

/-- `visit_info_hash`. -/
abbrev VisitTable := Table MAX_VISIT_INFO_HASH_SIZE AppVisitInfo

/-- `get_app_id_hash_code`. -/
def getAppIdHashCode (appId : Nat) : Fin MAX_VISIT_INFO_HASH_SIZE :=
  ⟨appId % MAX_VISIT_INFO_HASH_SIZE, Nat.mod_lt _ (by decide)⟩

/-- `find_visit_info`. -/
def findVisitInfo (t : VisitTable) (appId : Nat) : Option AppVisitInfo :=
  lookup AppVisitInfo.appId appId (t (getAppIdHashCode appId))

/-- A call of `af_update_client_app_info`, with the time and whether `kmalloc` has memory. -/
structure AppUpdate where
  appId : Int
  drop : Bool := false
  fromConntrack : Bool := false
  isHttp : Bool := false
  now : UInt32 := 0
  granted : Bool := true

/-- What it writes to the entry. -/
def AppVisitInfo.touch (info : AppVisitInfo) (u : AppUpdate) : AppVisitInfo :=
  { info with
    totalNum := info.totalNum + 1
    dropNum := if u.drop then info.dropNum + 1 else info.dropNum
    latestTime := u.now
    latestAction := u.drop
    connCount := if u.fromConntrack then info.connCount else info.connCount + 1
    isHttp := if u.fromConntrack then info.isHttp else u.isHttp }

@[simp] theorem AppVisitInfo.touch_appId (info : AppVisitInfo) (u : AppUpdate) :
    (info.touch u).appId = info.appId := rfl

/-- `af_update_client_app_info`, with `get_or_create_visit_info`. -/
def afUpdateClientAppInfo (t : VisitTable) (u : AppUpdate) : VisitTable :=
  if u.appId ≤ 0 then t
  else if (findVisitInfo t u.appId.toNat).isSome then
    t.modify (getAppIdHashCode u.appId.toNat)
      (updateFirst (fun info => info.appId == u.appId.toNat) (·.touch u))
  else if u.granted then
    t.modify (getAppIdHashCode u.appId.toNat) (AppVisitInfo.touch { appId := u.appId.toNat } u :: ·)
  else t

/-- The test of `check_expired_visit_info`.  Both times become `unsigned long`. -/
def AppVisitInfo.expired (w : Nat) (now : UInt32) (info : AppVisitInfo) : Bool :=
  VISIT_INFO_TIMEOUT_SEC < (BitVec.ofNat w now.toNat - BitVec.ofNat w info.latestTime.toNat).toNat

/-- `check_expired_visit_info`. -/
def checkExpiredVisitInfo (w : Nat) (t : VisitTable) (now : UInt32) : VisitTable :=
  fun i => (t i).filter fun info => !info.expired w now

/-! ## 2. The report -/

/-- `g_min_http_match_count` and `g_max_app_report_count`, which a `sysctl` can set. -/
structure ReportLimits where
  minHttpMatchCount : Int := 3
  maxAppReportCount : Int := 3

/-- The entries that a report collects.  The count is compared as unsigned. -/
def AppVisitInfo.due (limits : ReportLimits) (info : AppVisitInfo) : Bool :=
  info.totalNum != 0 &&
    !(info.isHttp && info.connCount.toNat ≤ limits.minHttpMatchCount % 2 ^ 32)

/-- The entries in the order of the loop. -/
def visitEntries (t : VisitTable) : List AppVisitInfo :=
  (List.finRange MAX_VISIT_INFO_HASH_SIZE).flatMap t

/-- `info_array`, as it is filled. -/
def infoArray (limits : ReportLimits) (t : VisitTable) : List AppVisitInfo :=
  (visitEntries t).filter (·.due limits)

/-- `report_count`. -/
def reportCount (limits : ReportLimits) (totalCount : Nat) : Int :=
  if 0 < totalCount then
    if limits.maxAppReportCount < totalCount then limits.maxAppReportCount else totalCount
  else 0

/-- The indexes into `info_array` that the report uses: to fill it, and to print from it. -/
def reportIndexes (limits : ReportLimits) (t : VisitTable) : List Nat :=
  let totalCount := (infoArray limits t).length
  List.range totalCount ++ List.range (reportCount limits totalCount).toNat

/-- `total_num` is 0 afterwards, whether the entry was collected or not. -/
def AppVisitInfo.clear (info : AppVisitInfo) : AppVisitInfo := { info with totalNum := 0 }

/-- The table that `__af_visit_info_report` leaves. -/
def clearVisitInfo (t : VisitTable) : VisitTable := fun i => (t i).map AppVisitInfo.clear

/-! ## 3. Runs -/

inductive AppVisitEvent
  | update (u : AppUpdate)
  | expire (now : UInt32)
  | report (limits : ReportLimits)

def AppVisitEvent.step (w : Nat) (t : VisitTable) : AppVisitEvent → VisitTable
  | .update u => afUpdateClientAppInfo t u
  | .expire now => checkExpiredVisitInfo w t now
  | .report _ => clearVisitInfo t

def AppVisitEvent.indexes (t : VisitTable) : AppVisitEvent → List Nat
  | .report limits => reportIndexes limits t
  | _ => []

/-- The table of a new client after these events. -/
def visitState (w : Nat) (events : List AppVisitEvent) : VisitTable :=
  events.foldl (AppVisitEvent.step w) fun _ => []

/-- All the indexes that the reports of a run use. -/
def usedIndexes (w : Nat) : VisitTable → List AppVisitEvent → List Nat
  | _, [] => []
  | t, e :: es => e.indexes t ++ usedIndexes w (e.step w t) es

theorem mem_usedIndexes {w i : Nat} {t : VisitTable} {events : List AppVisitEvent} :
    i ∈ usedIndexes w t events ↔ ∃ pre limits post, events = pre ++ .report limits :: post ∧
      i ∈ reportIndexes limits (pre.foldl (AppVisitEvent.step w) t) := by
  induction events generalizing t with
  | nil =>
    refine ⟨fun h => absurd h List.not_mem_nil, ?_⟩
    rintro ⟨pre, limits, post, heq, -⟩
    exact absurd heq (by simp)
  | cons e es ih =>
    rw [usedIndexes, List.mem_append, ih]
    constructor
    · rintro (h | ⟨pre, limits, post, rfl, h⟩)
      · cases e with
        | report limits => exact ⟨[], limits, es, rfl, h⟩
        | update u | expire now => exact absurd h List.not_mem_nil
      · exact ⟨e :: pre, limits, post, rfl, h⟩
    · rintro ⟨pre, limits, post, heq, h⟩
      cases pre with
      | nil =>
        obtain ⟨rfl, rfl⟩ := List.cons.inj heq
        exact .inl h
      | cons e' pre =>
        obtain ⟨rfl, rfl⟩ := List.cons.inj heq
        exact .inr ⟨pre, limits, post, rfl, h⟩

/-! ## 4. One app id -/

/-- What an update does to the entry of its app id. -/
def AppUpdate.entry (u : AppUpdate) : Option AppVisitInfo → Option AppVisitInfo
  | some info => some (info.touch u)
  | none => if u.granted then some (AppVisitInfo.touch { appId := u.appId.toNat } u) else none

/-- What an event does to the entry of an app id. -/
def AppVisitEvent.entry (w appId : Nat) (o : Option AppVisitInfo) : AppVisitEvent → Option AppVisitInfo
  | .update u => if 0 < u.appId ∧ u.appId.toNat = appId then u.entry o else o
  | .expire now => o.filter fun info => !info.expired w now
  | .report _ => o.map AppVisitInfo.clear

/-- **The entry of an app id**, from the events of the client: no other app id matters to it. -/
def visitOf (w appId : Nat) (events : List AppVisitEvent) : Option AppVisitInfo :=
  events.foldl (AppVisitEvent.entry w appId) none

/-- The app ids that were updated. -/
def touchedApps (events : List AppVisitEvent) : Finset Nat :=
  (events.filterMap fun
    | .update u => some u.appId.toNat
    | _ => none).toFinset

/-- The app ids that a report would find due after these events. -/
def dueApps (w : Nat) (limits : ReportLimits) (events : List AppVisitEvent) : Finset Nat :=
  (touchedApps events).filter fun appId => (visitOf w appId events).any (·.due limits)

theorem visitState_append (w : Nat) (events : List AppVisitEvent) (e : AppVisitEvent) :
    visitState w (events ++ [e]) = e.step w (visitState w events) := List.foldl_concat ..

theorem visitOf_append (w appId : Nat) (events : List AppVisitEvent) (e : AppVisitEvent) :
    visitOf w appId (events ++ [e]) = e.entry w appId (visitOf w appId events) :=
  List.foldl_concat ..

/-- Only an app id that was updated has an entry. -/
theorem mem_touchedApps {w appId : Nat} {events : List AppVisitEvent}
    (h : (visitOf w appId events).isSome) : appId ∈ touchedApps events := by
  induction events using List.reverseRecOn with
  | nil => cases h
  | append_singleton events e ih =>
    have hsub : touchedApps events ⊆ touchedApps (events ++ [e]) := by
      intro a ha
      simp only [touchedApps, List.filterMap_append, List.toFinset_append] at ha ⊢
      exact Finset.mem_union_left _ ha
    rw [visitOf_append] at h
    cases e with
    | update u =>
      simp only [AppVisitEvent.entry] at h
      split at h
      · rename_i happ
        simp [touchedApps, List.filterMap_append, happ.2]
      · exact hsub (ih h)
    | expire now =>
      obtain ⟨info, hinfo⟩ := Option.isSome_iff_exists.mp h
      exact hsub (ih (Option.isSome_of_mem (Option.filter_eq_some_iff.mp hinfo).1))
    | report limits =>
      rw [AppVisitEvent.entry, Option.isSome_map] at h
      exact hsub (ih h)

/-! ## 5. The table holds the entries -/

/-- Every entry is in the chain of its app id, and no chain has two of one. -/
structure VisitTable.Ok (t : VisitTable) : Prop where
  placed : Placed (fun info => getAppIdHashCode info.appId) t
  distinct : Distinct AppVisitInfo.appId t

theorem findVisitInfo_modify (t : VisitTable) (appId other : Nat)
    (f : List AppVisitInfo → List AppVisitInfo) :
    findVisitInfo (t.modify (getAppIdHashCode other) f) appId =
      if getAppIdHashCode appId = getAppIdHashCode other then
        lookup AppVisitInfo.appId appId (f (t (getAppIdHashCode other)))
      else findVisitInfo t appId := by
  rw [findVisitInfo]
  split
  · rename_i heq
    rw [heq, modify_self]
  · rename_i hne
    rw [modify_of_ne t hne, findVisitInfo]

/-- **One event**, for every app id. -/
theorem findVisitInfo_step {w : Nat} {t : VisitTable} (ht : t.Ok) (e : AppVisitEvent) (appId : Nat) :
    findVisitInfo (e.step w t) appId = e.entry w appId (findVisitInfo t appId) := by
  cases e with
  | expire now => exact lookup_filter appId (ht.distinct _) _
  | report limits => exact lookup_map (f := AppVisitInfo.clear) appId (fun _ => rfl) _
  | update u =>
    simp only [AppVisitEvent.step, AppVisitEvent.entry, afUpdateClientAppInfo]
    by_cases hpos : u.appId ≤ 0
    · rw [if_pos hpos, if_neg (by omega)]
    · rw [if_neg hpos]
      simp only [show 0 < u.appId by omega, true_and]
      split
      · rename_i hsome
        rw [findVisitInfo_modify,
          lookup_updateFirst appId fun b hb => by rw [AppVisitInfo.touch_appId, hb]]
        by_cases heq : appId = u.appId.toNat
        · subst heq
          obtain ⟨info, hinfo⟩ := Option.isSome_iff_exists.mp hsome
          rw [if_pos rfl, if_pos rfl, if_pos rfl, ← findVisitInfo, hinfo]
          rfl
        · rw [if_neg heq, if_neg (show ¬u.appId.toNat = appId from fun h => heq h.symm)]
          split
          · rename_i hhash
            rw [findVisitInfo, hhash]
          · rfl
      · rename_i hnone
        have hnone : findVisitInfo t u.appId.toNat = none := by simpa using hnone
        split
        · rename_i hgranted
          rw [findVisitInfo_modify, lookup_cons, AppVisitInfo.touch_appId]
          by_cases heq : u.appId.toNat = appId
          · subst heq
            rw [if_pos rfl, if_pos rfl, if_pos rfl, hnone, AppUpdate.entry, if_pos hgranted]
          · rw [if_neg heq, if_neg heq]
            split
            · rename_i hhash
              rw [findVisitInfo, hhash]
            · rfl
        · rename_i hdenied
          split
          · rename_i heq
            subst heq
            rw [hnone, AppUpdate.entry, if_neg hdenied]
          · rfl

theorem Ok.step {w : Nat} {t : VisitTable} (ht : t.Ok) (e : AppVisitEvent) :
    VisitTable.Ok (e.step w t) := by
  cases e with
  | expire now =>
    exact ⟨fun i info h => ht.placed i info (List.mem_of_mem_filter h),
      fun i => (ht.distinct i).sublist (List.filter_sublist.map _)⟩
  | report limits =>
    refine ⟨fun i info h => ?_, fun i => ?_⟩
    · obtain ⟨old, hold, rfl⟩ := List.mem_map.mp h
      exact ht.placed i old hold
    · change (((t i).map AppVisitInfo.clear).map AppVisitInfo.appId).Nodup
      rw [List.map_map]
      exact ht.distinct i
  | update u =>
    simp only [AppVisitEvent.step, afUpdateClientAppInfo]
    split
    · exact ht
    split
    · refine ⟨ht.placed.modify fun info h => ?_, ht.distinct.modify ?_⟩
      · rcases of_mem_updateFirst h with hold | ⟨old, hold, -, rfl⟩
        · exact ht.placed _ info hold
        · exact ht.placed _ old hold
      · exact nodup_updateFirst (fun b hb => by rw [AppVisitInfo.touch_appId, hb]) (ht.distinct _)
    · rename_i hnone
      have hnone : findVisitInfo t u.appId.toNat = none := by simpa using hnone
      split
      · refine ⟨ht.placed.modify fun info h => ?_, ht.distinct.modify ?_⟩
        · rcases List.mem_cons.mp h with rfl | hold
          · rfl
          · exact ht.placed _ info hold
        · exact nodup_cons (ht.distinct _) hnone
      · exact ht

theorem visitState_ok (w : Nat) (events : List AppVisitEvent) : VisitTable.Ok (visitState w events) := by
  induction events using List.reverseRecOn with
  | nil => exact ⟨fun _ _ h => absurd h List.not_mem_nil, fun _ => List.nodup_nil⟩
  | append_singleton events e ih =>
    rw [visitState_append]
    exact Ok.step ih e

/-- **The table holds the entry of each app id.** -/
theorem find_visitState (w appId : Nat) (events : List AppVisitEvent) :
    findVisitInfo (visitState w events) appId = visitOf w appId events := by
  induction events using List.reverseRecOn with
  | nil => rfl
  | append_singleton events e ih =>
    rw [visitState_append, visitOf_append, ← ih]
    exact findVisitInfo_step (visitState_ok w events) e appId

/-! ## 6. What a report finds -/

theorem mem_visitEntries {t : VisitTable} (ht : t.Ok) {info : AppVisitInfo} :
    info ∈ visitEntries t ↔ findVisitInfo t info.appId = some info := by
  rw [visitEntries, findVisitInfo, lookup_eq_some_iff (ht.distinct _), List.mem_flatMap]
  constructor
  · rintro ⟨i, -, h⟩
    obtain rfl : getAppIdHashCode info.appId = i := ht.placed i info h
    exact ⟨h, rfl⟩
  · rintro ⟨h, -⟩
    exact ⟨_, List.mem_finRange _, h⟩

theorem nodup_visitEntries {t : VisitTable} (ht : t.Ok) :
    ((visitEntries t).map AppVisitInfo.appId).Nodup := by
  rw [visitEntries, List.map_flatMap, List.nodup_flatMap]
  refine ⟨fun i _ => ht.distinct i, (List.nodup_finRange _).imp fun {i j} hij a hi hj => ?_⟩
  obtain ⟨info, hinfo, rfl⟩ := List.mem_map.mp hi
  obtain ⟨other, hother, heq⟩ := List.mem_map.mp hj
  have hplaced : getAppIdHashCode other.appId = j := ht.placed j other hother
  rw [heq] at hplaced
  exact hij ((ht.placed i info hinfo).symm.trans hplaced)

/-- A report collects one entry for each app id that is due. -/
theorem length_infoArray (w : Nat) (limits : ReportLimits) (events : List AppVisitEvent) :
    (infoArray limits (visitState w events)).length = (dueApps w limits events).card := by
  have ht := visitState_ok w events
  have hnodup : ((infoArray limits (visitState w events)).map AppVisitInfo.appId).Nodup :=
    (nodup_visitEntries ht).sublist (List.filter_sublist.map _)
  rw [← List.length_map AppVisitInfo.appId, ← List.toFinset_card_of_nodup hnodup]
  congr 1
  ext appId
  rw [List.mem_toFinset, dueApps, Finset.mem_filter, ← find_visitState, Option.any_eq_true,
    List.mem_map]
  constructor
  · rintro ⟨info, hinfo, rfl⟩
    obtain ⟨hmem, hdue⟩ := List.mem_filter.mp hinfo
    have hfind := (mem_visitEntries ht).mp hmem
    refine ⟨mem_touchedApps (w := w) ?_, info, hfind, hdue⟩
    rw [← find_visitState, hfind]
    rfl
  · rintro ⟨-, info, hfind, hdue⟩
    have hid : info.appId = appId := key_of_lookup hfind
    exact ⟨info, List.mem_filter.mpr ⟨(mem_visitEntries ht).mpr (hid ▸ hfind), hdue⟩, hid⟩

/-- The indexes of a report are those below the number of the entries it collects. -/
theorem mem_reportIndexes {limits : ReportLimits} {t : VisitTable} {i : Nat} :
    i ∈ reportIndexes limits t ↔ i < (infoArray limits t).length := by
  rw [reportIndexes, List.mem_append, List.mem_range, List.mem_range, reportCount]
  constructor
  · rintro (h | h)
    · exact h
    · split at h
      · split at h <;> omega
      · omega
  · exact .inl

/-- **When the array is enough.**  Every index that the reports of a run use is below
`MAX_RECORD_APP_NUM` if and only if no report finds more app ids due. -/
theorem visit_report_bound_iff (w : Nat) (events : List AppVisitEvent) :
    (∀ i ∈ usedIndexes w (fun _ => []) events, i < MAX_RECORD_APP_NUM) ↔
      ∀ pre limits post, events = pre ++ .report limits :: post →
        (dueApps w limits pre).card ≤ MAX_RECORD_APP_NUM := by
  constructor
  · intro h pre limits post heq
    by_contra hmany
    have hidx : MAX_RECORD_APP_NUM ∈ reportIndexes limits (visitState w pre) := by
      rw [mem_reportIndexes, length_infoArray]
      omega
    exact Nat.lt_irrefl _ (h _ (mem_usedIndexes.mpr ⟨pre, limits, post, heq, hidx⟩))
  · intro h i hi
    obtain ⟨pre, limits, post, heq, hidx⟩ := mem_usedIndexes.mp hi
    have hlt : i < (infoArray limits (visitState w pre)).length := mem_reportIndexes.mp hidx
    rw [length_infoArray] at hlt
    exact Nat.lt_of_lt_of_le hlt (h pre limits post heq)

/-- Sixty-five apps in one period: the last one is written behind the array. -/
theorem sixty_fifth_app_outside :
    ¬∀ i ∈ usedIndexes 64 (fun _ => [])
      ((List.range 65).map (fun n => .update { appId := 1001 + n }) ++ [.report {}]),
      i < MAX_RECORD_APP_NUM := by
  decide +kernel

end Oaf
