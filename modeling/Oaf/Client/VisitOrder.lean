/-
# Which entries a visit report names

`__af_visit_info_report` (`fwx_client.c`) collects the entries that are due, clears their counts, sorts them by
their counts and reports the first ones.  The order is therefore one of entries with equal counts.

`sort` is the kernel's: what it leaves is a permutation in the order of the comparison, and no more is known.

* `reportOrder_iff`: of cleared entries every permutation is in order.
* `visit_report_iff`: exactly when the entries with the largest counts are reported whatever `sort` does.
-/
import Oaf.Client.VisitReport

namespace Oaf

open Chains

/-! ## 1. The report -/

/-- `compare_visit_info_count`. -/
def compareVisitInfoCount (a b : AppVisitInfo) : Int :=
  if b.totalNum < a.totalNum then -1 else if a.totalNum < b.totalNum then 1 else 0

/-- What `sort` may leave of an array: it is not stable. -/
structure SortLeaves {α : Type} (cmp : α → α → Int) (l l' : List α) : Prop where
  perm : l'.Perm l
  sorted : l'.Pairwise fun a b => cmp a b ≤ 0

/-- Which of the two allocations that are looked at fails: the object of the report, or its text. -/
inductive ReportMemory where
  | noRoot
  | noText
  | sent
deriving DecidableEq

/-- A report: the entries that it names and the other ones that are due, with the counts that they had, and the
table that it leaves. -/
structure VisitReport where
  reported : List AppVisitInfo
  unreported : List AppVisitInfo
  table : VisitTable

/-- `__af_visit_info_report`, as far as it is about the visits, when `sort` leaves the entries in this order.
`none`: `info_array` is too short. -/
def visitInfoReport (limits : ReportLimits) (memory : ReportMemory) (t : VisitTable)
    (order : List AppVisitInfo) : Option VisitReport :=
  if memory = .noRoot then some ⟨[], order, t⟩
  else if MAX_RECORD_APP_NUM < (infoArray limits t).length then none
  else
    let count := (reportCount limits (infoArray limits t).length).toNat
    if memory = .noText then some ⟨[], order, clearVisitInfo t⟩
    else some ⟨order.take count, order.drop count, clearVisitInfo t⟩

/-- What `sort` may leave of `info_array`: the counts are cleared when it compares them. -/
def ReportOrder (limits : ReportLimits) (t : VisitTable) : List AppVisitInfo → Prop :=
  SortLeaves (fun a b => compareVisitInfoCount a.clear b.clear) (infoArray limits t)

/-- **What a report is for.** -/
structure ReportsLargest (limits : ReportLimits) (t : VisitTable) (r : VisitReport) : Prop where
  due : (r.reported ++ r.unreported).Perm (infoArray limits t)
  count : (r.reported.length : Int) = min limits.maxAppReportCount (infoArray limits t).length
  largest : ∀ a ∈ r.reported, ∀ b ∈ r.unreported, b.totalNum ≤ a.totalNum
  cleared : ∀ info ∈ visitEntries r.table, info.totalNum = 0

/-- All entries that are due fit into a report, or none does, or their counts are equal. -/
def NoChoice (limits : ReportLimits) (t : VisitTable) : Prop :=
  ((infoArray limits t).length : Int) ≤ limits.maxAppReportCount ∨ limits.maxAppReportCount = 0 ∨
    ∀ a ∈ infoArray limits t, ∀ b ∈ infoArray limits t, a.totalNum = b.totalNum

/-- When the largest counts are reported: the limit is not negative, `info_array` is long enough and there is no
choice to be made.  Without memory, nothing may be due. -/
def LargestReported (limits : ReportLimits) (memory : ReportMemory) (t : VisitTable) : Prop :=
  0 ≤ limits.maxAppReportCount ∧
    match memory with
    | .noRoot => ∀ info ∈ visitEntries t, info.totalNum = 0
    | .noText => (infoArray limits t).length ≤ MAX_RECORD_APP_NUM ∧
        (infoArray limits t = [] ∨ limits.maxAppReportCount = 0)
    | .sent => (infoArray limits t).length ≤ MAX_RECORD_APP_NUM ∧ NoChoice limits t

/-! ## 2. The order -/

variable {limits : ReportLimits} {memory : ReportMemory} {t : VisitTable} {order : List AppVisitInfo}

theorem compare_clear (a b : AppVisitInfo) : compareVisitInfoCount a.clear b.clear = 0 := by
  simp [compareVisitInfoCount, AppVisitInfo.clear]

/-- **Every permutation will do** when the counts are cleared. -/
theorem reportOrder_iff : ReportOrder limits t order ↔ order.Perm (infoArray limits t) := by
  constructor
  · intro h
    exact h.perm
  · intro h
    refine ⟨h, List.pairwise_of_forall fun a b => ?_⟩
    rw [compare_clear]

/-- Two different elements can be the first and the last one. -/
theorem exists_perm_ends {α : Type} [DecidableEq α] {l : List α} {a b : α} (ha : a ∈ l) (hb : b ∈ l)
    (hne : a ≠ b) : ∃ middle, (a :: (middle ++ [b])).Perm l := by
  have hb' : b ∈ l.erase a := (List.mem_erase_of_ne (Ne.symm hne)).mpr hb
  refine ⟨(l.erase a).erase b, ?_⟩
  have hlast : ((l.erase a).erase b ++ [b]).Perm (l.erase a) :=
    List.perm_append_comm.trans (List.perm_cons_erase hb').symm
  exact (hlast.cons a).trans (List.perm_cons_erase ha).symm

theorem reportCount_eq (hlimit : 0 ≤ limits.maxAppReportCount) (n : Nat) :
    ((reportCount limits n).toNat : Int) = min limits.maxAppReportCount n := by
  unfold reportCount
  split
  · split <;> omega
  · omega

theorem clearVisitInfo_zero {info : AppVisitInfo} (h : info ∈ visitEntries (clearVisitInfo t)) :
    info.totalNum = 0 := by
  obtain ⟨i, -, hmem⟩ := List.mem_flatMap.mp h
  obtain ⟨info', -, rfl⟩ := List.mem_map.mp hmem
  rfl

/-- Entries that are due have a count. -/
theorem infoArray_eq_nil (h : ∀ info ∈ visitEntries t, info.totalNum = 0) : infoArray limits t = [] := by
  refine List.filter_eq_nil_iff.mpr fun info hinfo => ?_
  simp [AppVisitInfo.due, h info hinfo]

/-! ## 3. The largest counts -/

/-- Behind the first allocation, `info_array` has to be long enough. -/
theorem fits_of_report {r : VisitReport} (hmemory : memory ≠ .noRoot)
    (h : visitInfoReport limits memory t order = some r) :
    (infoArray limits t).length ≤ MAX_RECORD_APP_NUM := by
  by_contra hlong
  simp [visitInfoReport, hmemory, Nat.lt_of_not_le hlong] at h

/-- A report that is sent, and that takes this many of the entries. -/
theorem sent_eq (hfits : (infoArray limits t).length ≤ MAX_RECORD_APP_NUM) :
    visitInfoReport limits .sent t order =
      some ⟨order.take (reportCount limits (infoArray limits t).length).toNat,
        order.drop (reportCount limits (infoArray limits t).length).toNat, clearVisitInfo t⟩ := by
  simp [visitInfoReport, Nat.not_lt.mpr hfits]

/-- Two entries of different counts, and some order reports the smaller one only. -/
theorem exists_order_of_lt {a b : AppVisitInfo} (ha : a ∈ infoArray limits t) (hb : b ∈ infoArray limits t)
    (hlt : a.totalNum < b.totalNum) (hsome : 0 < limits.maxAppReportCount)
    (hmore : limits.maxAppReportCount < (infoArray limits t).length) :
    ∃ order, ReportOrder limits t order ∧ ∀ r, visitInfoReport limits .sent t order = some r →
      a ∈ r.reported ∧ b ∈ r.unreported := by
  have hne : a ≠ b := fun h => by simp [h] at hlt
  obtain ⟨middle, hperm⟩ := exists_perm_ends ha hb hne
  have hlength : middle.length + 2 = (infoArray limits t).length := by
    simpa using hperm.length_eq
  refine ⟨_, reportOrder_iff.mpr hperm, fun r hr => ?_⟩
  have hfits := fits_of_report (by decide) hr
  rw [sent_eq hfits, Option.some.injEq] at hr
  obtain rfl := hr.symm
  have hcount := reportCount_eq hsome.le (infoArray limits t).length
  obtain ⟨n, hn⟩ : ∃ n, (reportCount limits (infoArray limits t).length).toNat = n + 1 :=
    Nat.exists_eq_succ_of_ne_zero (by omega)
  have hinner : n ≤ middle.length := by omega
  constructor
  · simp [hn]
  · simp [hn, List.drop_append_of_le_length hinner]

/-- A report that is sent. -/
theorem sent_iff :
    (∀ order, ReportOrder limits t order →
        ∃ r, visitInfoReport limits .sent t order = some r ∧ ReportsLargest limits t r) ↔
      LargestReported limits .sent t := by
  constructor
  · intro h
    have hself : ReportOrder limits t (infoArray limits t) := reportOrder_iff.mpr (List.Perm.refl _)
    obtain ⟨r, hr, hlargest⟩ := h _ hself
    have hcount := hlargest.count
    have hfits := fits_of_report (by decide) hr
    have hlimit : 0 ≤ limits.maxAppReportCount := by omega
    refine ⟨hlimit, hfits, ?_⟩
    by_contra hchoice
    obtain ⟨hmore, hsome, hdiffer⟩ : limits.maxAppReportCount < (infoArray limits t).length ∧
        limits.maxAppReportCount ≠ 0 ∧
        ¬ ∀ a ∈ infoArray limits t, ∀ b ∈ infoArray limits t, a.totalNum = b.totalNum := by
      simpa only [NoChoice, not_or, not_le] using hchoice
    apply hdiffer
    -- the smaller of the two first, the larger one last
    have hnot : ∀ a ∈ infoArray limits t, ∀ b ∈ infoArray limits t, ¬ a.totalNum < b.totalNum := by
      intro a ha b hb hlt
      obtain ⟨order, horder, hends⟩ := exists_order_of_lt ha hb hlt (by omega) hmore
      obtain ⟨r, hr, hlargest⟩ := h order horder
      obtain ⟨hreported, hunreported⟩ := hends r hr
      exact absurd (hlargest.largest a hreported b hunreported) (UInt32.not_le.mpr hlt)
    intro a ha b hb
    exact UInt32.le_antisymm (UInt32.not_lt.mp (hnot b hb a ha)) (UInt32.not_lt.mp (hnot a ha b hb))
  · rintro ⟨hlimit, hfits, hchoice⟩ order horder
    have hperm := reportOrder_iff.mp horder
    have hcount := reportCount_eq hlimit (infoArray limits t).length
    refine ⟨_, sent_eq hfits, ?_, ?_, ?_, fun info => clearVisitInfo_zero⟩
    · simpa using hperm
    · rw [List.length_take, hperm.length_eq]
      omega
    · intro a ha b hb
      obtain hall | hnone | hequal := hchoice
      · rw [List.drop_eq_nil_of_le (by rw [hperm.length_eq]; omega)] at hb
        cases hb
      · rw [show (reportCount limits (infoArray limits t).length).toNat = 0 by omega] at ha
        cases ha
      · have hab := hequal a (hperm.mem_iff.mp (List.mem_of_mem_take ha)) b
          (hperm.mem_iff.mp (List.mem_of_mem_drop hb))
        exact hab ▸ UInt32.le_refl _

/-- No object for the report: nothing is done. -/
theorem noRoot_iff :
    (∀ order, ReportOrder limits t order →
        ∃ r, visitInfoReport limits .noRoot t order = some r ∧ ReportsLargest limits t r) ↔
      LargestReported limits .noRoot t := by
  constructor
  · intro h
    obtain ⟨r, hr, hlargest⟩ := h _ (reportOrder_iff.mpr (List.Perm.refl _))
    obtain rfl : _ = r := by simpa [visitInfoReport] using hr
    have hcount := hlargest.count
    have hzero := hlargest.cleared
    refine ⟨?_, hzero⟩
    rw [infoArray_eq_nil hzero] at hcount
    simp at hcount
    omega
  · rintro ⟨hlimit, hzero⟩ order horder
    refine ⟨⟨[], order, t⟩, rfl, ?_, ?_, ?_, hzero⟩
    · simpa using reportOrder_iff.mp horder
    · rw [infoArray_eq_nil hzero]
      simp [hlimit]
    · intro a ha
      cases ha

/-- No text of the report: nothing is sent, and the counts are cleared. -/
theorem noText_iff :
    (∀ order, ReportOrder limits t order →
        ∃ r, visitInfoReport limits .noText t order = some r ∧ ReportsLargest limits t r) ↔
      LargestReported limits .noText t := by
  constructor
  · intro h
    obtain ⟨r, hr, hlargest⟩ := h _ (reportOrder_iff.mpr (List.Perm.refl _))
    have hfits := fits_of_report (by decide) hr
    obtain rfl : _ = r := by simpa [visitInfoReport, Nat.not_lt.mpr hfits] using hr
    have hcount : (0 : Int) = min limits.maxAppReportCount (infoArray limits t).length := by
      simpa using hlargest.count
    refine ⟨by omega, hfits, ?_⟩
    rw [← List.length_eq_zero_iff]
    omega
  · rintro ⟨hlimit, hfits, hnone⟩ order horder
    refine ⟨⟨[], order, clearVisitInfo t⟩, by simp [visitInfoReport, Nat.not_lt.mpr hfits], ?_, ?_, ?_, ?_⟩
    · simpa using reportOrder_iff.mp horder
    · rw [← List.length_eq_zero_iff] at hnone
      simp only [List.length_nil]
      omega
    · intro a ha
      cases ha
    · intro info
      exact clearVisitInfo_zero

/-- **The entries with the largest counts are reported**, whatever `sort` does, exactly when no choice is made:
they fit into the report and into `info_array`, or none is to be reported, or their counts are equal. -/
theorem visit_report_iff (limits : ReportLimits) (memory : ReportMemory) (t : VisitTable) :
    (∀ order, ReportOrder limits t order →
        ∃ r, visitInfoReport limits memory t order = some r ∧ ReportsLargest limits t r) ↔
      LargestReported limits memory t := by
  cases memory with
  | noRoot => exact noRoot_iff
  | noText => exact noText_iff
  | sent => exact sent_iff

/-- A client uses 1001 four times, 1002 once, 1003 twice and 1004 three times. -/
def fourVisits : VisitTable :=
  visitState 64 (([1001, 1001, 1001, 1001, 1002, 1003, 1003, 1004, 1004, 1004] : List Int).map fun appId =>
    .update { appId := appId })

/-- **The app id that is used most is left out**, with the defaults.  It is the first one that the loop collects,
and a heap sort that finds all elements equal puts the first one last. -/
theorem most_used_left_out :
    ∃ order, ReportOrder {} fourVisits order ∧ order.map (·.appId) = [1002, 1003, 1004, 1001] ∧
      ∃ r, visitInfoReport {} .sent fourVisits order = some r ∧
        r.reported.map (·.appId) = [1002, 1003, 1004] ∧ r.unreported.map (·.appId) = [1001] ∧
        ¬ ReportsLargest {} fourVisits r := by
  have hentries : infoArray {} fourVisits =
      [{ appId := 1001, totalNum := 4, connCount := 4 }, { appId := 1002, totalNum := 1, connCount := 1 },
        { appId := 1003, totalNum := 2, connCount := 2 }, { appId := 1004, totalNum := 3, connCount := 3 }] := by
    decide +kernel
  refine ⟨(infoArray {} fourVisits).drop 1 ++ (infoArray {} fourVisits).take 1, reportOrder_iff.mpr ?_, ?_, _, rfl, ?_⟩
  · exact List.perm_append_comm.trans (List.Perm.of_eq (List.take_append_drop 1 _))
  · rw [hentries]
    decide
  · rw [hentries]
    refine ⟨by decide, by decide, fun h => ?_⟩
    exact absurd (h.largest { appId := 1002, totalNum := 1, connCount := 1 } (by decide)
      { appId := 1001, totalNum := 4, connCount := 4 } (by decide)) (by decide)

end Oaf
