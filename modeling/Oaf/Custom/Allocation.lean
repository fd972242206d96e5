/-
# Which ids `allocate_appids` gives out

A list of applications that `validate_app_identity` has let through one by one goes into `allocate_appids`
(`fwx_custom_feature.c`): the given ids are marked, each missing one is the first free of its class, and the
list is sorted.

That the ids given out are fresh is `assignAppids_spec`.  Here is the rest: a class that is full was too large.

* `assignAppids_full`: a search that finds nothing has seen a hundred ids of the class.
* `classCount_le`: ids of one class that differ are a hundred at most.
* `allocate_appids_spec`: the answer, and exactly when there is none.
-/
import Oaf.Custom.Request

namespace Oaf

open CLib

/-! ## 1. The list -/

/-- `validate_app_identity` on each application, against those before it. -/
def PassOneByOne (classes : ClassNameTable) : CustomConfig → CustomConfig → Prop
  | _, [] => True
  | earlier, app :: rest =>
    validateAppIdentity classes earlier app = .ok () ∧ PassOneByOne classes (earlier ++ [app]) rest

/-- An application as it was submitted, with its id if it had one. -/
structure Completed (a a' : CustomApp) : Prop where
  rest : a' = { a with appid := a'.appid }
  given : a.appid ≠ 0 → a'.appid = a.appid

/-- The order of the sorted list. -/
def ClassIdLt (a b : CustomApp) : Prop :=
  a.classId < b.classId ∨ a.classId = b.classId ∧ a.appid < b.appid

/-- **What `allocate_appids` makes of the submitted applications.** -/
structure Allocated (apps config : CustomConfig) : Prop where
  distinct : (config.map (·.appid)).Nodup
  inRange : ∀ app ∈ config, app.classId * 1000 + 900 ≤ app.appid ∧ app.appid ≤ app.classId * 1000 + 999
  submitted : ∃ completed, List.Forall₂ Completed apps completed ∧ config.Perm completed
  sorted : config.Pairwise ClassIdLt

/-- The applications of a class. -/
def classCount (apps : CustomConfig) (c : Int) : Nat := apps.countP (fun app => app.classId = c)

/-- What the list has when each application has passed. -/
structure Passed (apps : CustomConfig) : Prop where
  draft : ∀ app ∈ apps, app.Draft
  apart : apps.Pairwise Apart

theorem PassOneByOne.passed {classes : ClassNameTable} : ∀ {apps earlier : CustomConfig},
    PassOneByOne classes earlier apps → Passed apps ∧ ∀ a ∈ earlier, ∀ b ∈ apps, Apart a b
  | [], _, _ => ⟨⟨by simp, .nil⟩, by simp⟩
  | app :: rest, earlier, h => by
    obtain ⟨happ, hrest⟩ := h
    obtain ⟨-, -, -, -, hid, hearlier⟩ := validateAppIdentity_eq_ok.mp happ
    obtain ⟨hpassed, hapart⟩ := PassOneByOne.passed hrest
    have hdraft : app.Draft := by
      by_cases h0 : app.appid = 0
      · exact .inl h0
      · exact .inr ⟨(hid h0).1, (hid h0).2⟩
    refine ⟨⟨?_, ?_⟩, ?_⟩
    · intro a ha
      rcases List.mem_cons.mp ha with rfl | ha
      · exact hdraft
      · exact hpassed.draft a ha
    · exact List.pairwise_cons.mpr ⟨fun b hb => hapart app (by simp) b hb, hpassed.apart⟩
    · intro a ha b hb
      rcases List.mem_cons.mp hb with rfl | hb
      · exact hearlier a ha
      · exact hapart a (List.mem_append_left _ ha) b hb

/-- The given ids are in different cells. -/
theorem Passed.cells {apps : CustomConfig} (h : Passed apps) :
    apps.Pairwise (fun a b => a.appid ≠ 0 → b.appid ≠ 0 → appCell a ≠ appCell b) := by
  refine h.apart.imp_of_mem ?_
  intro a b ha hb hab h1 h2 hcell
  have ha' := (h.draft a ha).resolve_left h1
  have hb' := (h.draft b hb).resolve_left h2
  exact hab.2 h2 ((appCell_inj ha' hb').mp hcell).2

/-! ## 2. The given ids -/

/-- The cells of a class. -/
def cellCount (used : List (Int × Int)) (c : Int) : Nat := used.countP (fun cell => cell.1 = c)

/-- The applications of a class whose id is given, or missing. -/
def givenCount (apps : CustomConfig) (c : Int) : Nat :=
  apps.countP (fun app => app.appid ≠ 0 ∧ app.classId = c)

def missingCount (apps : CustomConfig) (c : Int) : Nat :=
  apps.countP (fun app => app.appid = 0 ∧ app.classId = c)

theorem cellCount_cons (cell : Int × Int) (used : List (Int × Int)) (c : Int) :
    cellCount (cell :: used) c = cellCount used c + if cell.1 = c then 1 else 0 := by
  simp only [cellCount, List.countP_cons, decide_eq_true_eq]

theorem classCount_cons (app : CustomApp) (apps : CustomConfig) (c : Int) :
    classCount (app :: apps) c = classCount apps c + if app.classId = c then 1 else 0 := by
  simp only [classCount, List.countP_cons, decide_eq_true_eq]

theorem givenCount_cons (app : CustomApp) (apps : CustomConfig) (c : Int) :
    givenCount (app :: apps) c =
      givenCount apps c + if app.appid ≠ 0 ∧ app.classId = c then 1 else 0 := by
  simp only [givenCount, List.countP_cons, decide_eq_true_eq]

theorem missingCount_cons (app : CustomApp) (apps : CustomConfig) (c : Int) :
    missingCount (app :: apps) c =
      missingCount apps c + if app.appid = 0 ∧ app.classId = c then 1 else 0 := by
  simp only [missingCount, List.countP_cons, decide_eq_true_eq]

theorem given_add_missing (apps : CustomConfig) (c : Int) :
    givenCount apps c + missingCount apps c = classCount apps c := by
  induction apps with
  | nil => rfl
  | cons app rest ih =>
    rw [givenCount_cons, missingCount_cons, classCount_cons]
    by_cases h0 : app.appid = 0 <;> simp [h0] <;> omega

/-- **The ids that are given are marked**, one cell for each: no two are in one cell. -/
theorem markUsed_marks : ∀ {apps : CustomConfig} {used : List (Int × Int)},
    (∀ app ∈ apps, app.appid ≠ 0 → appCell app ∉ used) →
    apps.Pairwise (fun a b => a.appid ≠ 0 → b.appid ≠ 0 → appCell a ≠ appCell b) →
    ∃ used', markUsed used apps = .ok used' ∧
      ∀ c, cellCount used' c = cellCount used c + givenCount apps c
  | [], used, _, _ => ⟨used, rfl, fun _ => rfl⟩
  | app :: rest, used, hfree, hcells => by
    obtain ⟨happ, hrest⟩ := List.pairwise_cons.mp hcells
    have hfreeRest : ∀ x ∈ rest, x.appid ≠ 0 → appCell x ∉ used := fun x hx =>
      hfree x (List.mem_cons_of_mem _ hx)
    unfold markUsed
    by_cases h0 : app.appid = 0
    · obtain ⟨used', hmark, hcount⟩ := markUsed_marks hfreeRest hrest
      refine ⟨used', by rw [if_pos h0, hmark], fun c => ?_⟩
      simp [hcount c, givenCount_cons, h0]
    · have hcell : appCell app ∉ used := hfree app (List.mem_cons_self ..) h0
      have hfree' : ∀ x ∈ rest, x.appid ≠ 0 → appCell x ∉ appCell app :: used := by
        intro x hx hne hmem
        rcases List.mem_cons.mp hmem with heq | hmem
        · exact happ x hx h0 hne heq.symm
        · exact hfreeRest x hx hne hmem
      obtain ⟨used', hmark, hcount⟩ := markUsed_marks hfree' hrest
      refine ⟨used', ?_, fun c => ?_⟩
      · rw [if_neg h0]
        exact (if_neg hcell).trans hmark
      · simp only [hcount c, cellCount_cons, givenCount_cons, appCell, ne_eq, h0, not_false_eq_true,
          true_and]
        omega

/-! ## 3. The missing ids -/

/-- The hundred cells of a class. -/
def classCells (c : Int) : List (Int × Int) := (List.range 100).map (fun i : Nat => (c, (i : Int)))

theorem classCells_nodup (c : Int) : (classCells c).Nodup :=
  List.nodup_range.map fun i j h => by simpa using h

theorem classCells_length (c : Int) : (classCells c).length = 100 := by
  rw [classCells, List.length_map, List.length_range]

/-- A search that finds nothing has found every cell of the class used. -/
theorem cellCount_of_find_none {used : List (Int × Int)} {c : Int}
    (h : suffixes.find? (fun s => (c, s - CUSTOM_APP_MIN_SUFFIX) ∉ used) = none) :
    100 ≤ cellCount used c := by
  have hsub : classCells c ⊆ used.filter (fun cell => cell.1 = c) := by
    intro cell hcell
    obtain ⟨i, hi, rfl⟩ := List.mem_map.mp hcell
    have hsuffix : CUSTOM_APP_MIN_SUFFIX + (i : Int) ∈ suffixes := List.mem_map.mpr ⟨i, hi, rfl⟩
    have hused := List.find?_eq_none.mp h _ hsuffix
    rw [add_sub_cancel_left] at hused
    exact List.mem_filter.mpr ⟨by simpa using hused, by simp⟩
  have hle := ((classCells_nodup c).subperm hsub).length_le
  rwa [classCells_length, ← List.countP_eq_length_filter] at hle

/-- **A class that is full was too large**: all its ids were marked, or given out before. -/
theorem assignAppids_full : ∀ {apps : CustomConfig} {used : List (Int × Int)} {e : String},
    assignAppids used apps = .error e → ∃ c, 100 < cellCount used c + missingCount apps c
  | [], _, _, h => by cases h
  | app :: rest, used, e, h => by
    unfold assignAppids at h
    split at h
    · rename_i hgiven
      split at h
      · rename_i hrest
        obtain ⟨c, hc⟩ := assignAppids_full hrest
        refine ⟨c, ?_⟩
        simpa [missingCount_cons, hgiven] using hc
      · cases h
    · rename_i hzero
      rw [not_not] at hzero
      split at h
      · rename_i hfind
        refine ⟨app.classId, ?_⟩
        have hfull := cellCount_of_find_none hfind
        rw [missingCount_cons, if_pos ⟨hzero, rfl⟩]
        omega
      · rename_i suffix hfind
        split at h
        · rename_i hrest
          obtain ⟨c, hc⟩ := assignAppids_full hrest
          refine ⟨c, ?_⟩
          simp only [cellCount_cons, missingCount_cons, hzero, true_and] at hc ⊢
          omega
        · cases h

/-! ## 4. What the answer is -/

/-- A given id stays, and nothing but the id of an application changes. -/
theorem assignAppids_completed : ∀ {apps apps' : CustomConfig} {used : List (Int × Int)},
    assignAppids used apps = .ok apps' → List.Forall₂ Completed apps apps'
  | [], apps', used, h => by
    cases h
    exact .nil
  | app :: rest, apps', used, h => by
    unfold assignAppids at h
    split at h
    · split at h
      · cases h
      · rename_i hrest
        cases h
        exact .cons ⟨rfl, fun _ => rfl⟩ (assignAppids_completed hrest)
    · rename_i hzero
      split at h
      · cases h
      · split at h
        · cases h
        · rename_i hrest
          cases h
          exact .cons ⟨rfl, fun hgiven => absurd hgiven hzero⟩ (assignAppids_completed hrest)

theorem Completed.classId {a a' : CustomApp} (h : Completed a a') : a'.classId = a.classId := by
  rw [h.rest]

theorem classCount_completed {c : Int} : ∀ {apps apps' : CustomConfig}, List.Forall₂ Completed apps apps' →
    classCount apps' c = classCount apps c
  | _, _, .nil => rfl
  | _, _, .cons h hrest => by
    rw [classCount_cons, classCount_cons, classCount_completed hrest, h.classId]

/-- **Ids of one class that are in different cells** are a hundred at most. -/
theorem classCount_le {apps : CustomConfig} (hvalid : ∀ app ∈ apps, app.IdValid)
    (hcells : apps.Pairwise (fun a b => appCell a ≠ appCell b)) (c : Int) : classCount apps c ≤ 100 := by
  have hnodup : ((apps.filter (fun app => app.classId = c)).map appCell).Nodup := by
    rw [List.Nodup, List.pairwise_map]
    exact hcells.filter _
  have hsub : (apps.filter (fun app => app.classId = c)).map appCell ⊆ classCells c := by
    intro cell hcell
    obtain ⟨app, happ, rfl⟩ := List.mem_map.mp hcell
    obtain ⟨happ, hclass⟩ := List.mem_filter.mp happ
    have hid := (hvalid app happ).appid_eq
    have hmin := (hvalid app happ).appidMin
    have hmax := (hvalid app happ).appidMax
    simp only [CUSTOM_APP_MIN_SUFFIX, CUSTOM_APP_MAX_SUFFIX] at hid hmin hmax
    refine List.mem_map.mpr ⟨(appCell app).2.toNat, List.mem_range.mpr (by omega), ?_⟩
    have hnonneg : 0 ≤ (appCell app).2 := by omega
    rw [Int.toNat_of_nonneg hnonneg, ← of_decide_eq_true hclass]
    rfl
  have hle := (hnodup.subperm hsub).length_le
  rwa [classCells_length, List.length_map, ← List.countP_eq_length_filter] at hle

/-- Sorted applications whose ids differ stand in strict order. -/
theorem sortApps_strict {apps : CustomConfig} (hids : (apps.map (·.appid)).Nodup) :
    (sortApps apps).Pairwise ClassIdLt := by
  have hids' : ((sortApps apps).map (·.appid)).Nodup := by
    rwa [((sortApps_perm apps).map _).nodup_iff]
  have hdiffer : (sortApps apps).Pairwise (fun a b => a.appid ≠ b.appid) := by
    rwa [List.Nodup, List.pairwise_map] at hids'
  refine ((List.pairwise_insertionSort AppLe apps).and hdiffer).imp ?_
  rintro a b ⟨hle, hne⟩
  unfold AppLe appCompare at hle
  unfold ClassIdLt
  split at hle <;> omega

/-- An answer is what it should be, and its classes have a hundred applications at most. -/
theorem allocateAppids_allocated {apps config : CustomConfig} (hp : Passed apps)
    (h : allocateAppids apps = .ok config) :
    Allocated apps config ∧ ∀ c, classCount apps c ≤ 100 := by
  unfold allocateAppids at h
  split at h
  · cases h
  rename_i used hmark
  split at h
  · cases h
  rename_i apps' hassign
  cases h
  obtain ⟨hassigned, -, hcells⟩ := assignAppids_spec hassign (markUsed_ok hmark).2 hp.cells
  have hcompleted := assignAppids_completed hassign
  have hvalid : ∀ app ∈ apps', app.IdValid := by
    intro a' ha'
    obtain ⟨a, ha, hab⟩ := forall₂_assigned_mem hassigned a' ha'
    exact hab.idValid (hp.draft a ha)
  have hids : (apps'.map (·.appid)).Nodup := by
    rw [List.Nodup, List.pairwise_map]
    refine hcells.imp_of_mem ?_
    intro a b ha hb hcell heq
    exact hcell ((appCell_inj (hvalid a ha) (hvalid b hb)).mpr
      ⟨(hvalid a ha).class_eq (hvalid b hb) heq, heq⟩)
  have hperm := sortApps_perm apps'
  refine ⟨⟨?_, ?_, ⟨apps', hcompleted, hperm⟩, sortApps_strict hids⟩, ?_⟩
  · rwa [(hperm.map _).nodup_iff]
  · intro app happ
    have hid := hvalid app (hperm.mem_iff.mp happ)
    exact ⟨hid.appidMin, hid.appidMax⟩
  · intro c
    rw [← classCount_completed hcompleted]
    exact classCount_le hvalid hcells c

/-- **`allocate_appids` on a list that passes one by one.**  The ids of the answer are distinct, in the range of
their class and as given where they were given; the answer is the list in the order of class and id.  There is
no answer exactly if a class has more than a hundred applications: given ids that coincide do not pass. -/
theorem allocate_appids_spec {classes : ClassNameTable} {apps : CustomConfig}
    (h : PassOneByOne classes [] apps) :
    (∀ config, allocateAppids apps = .ok config → Allocated apps config) ∧
    ((∃ e, allocateAppids apps = .error e) ↔ ∃ c, 100 < classCount apps c) := by
  have hp := h.passed.1
  refine ⟨fun config hok => (allocateAppids_allocated hp hok).1, ?_, ?_⟩
  · rintro ⟨e, herror⟩
    obtain ⟨used, hmark, hcount⟩ := @markUsed_marks apps [] (fun _ _ _ => List.not_mem_nil) hp.cells
    unfold allocateAppids at herror
    rw [hmark] at herror
    dsimp only at herror
    split at herror
    · rename_i hfull
      obtain ⟨c, hc⟩ := assignAppids_full hfull
      refine ⟨c, ?_⟩
      rw [hcount c] at hc
      rw [← given_add_missing]
      simpa [cellCount] using hc
    · cases herror
  · rintro ⟨c, hc⟩
    cases hall : allocateAppids apps with
    | error e => exact ⟨e, rfl⟩
    | ok config => exact absurd ((allocateAppids_allocated hp hall).2 c) (Nat.not_le.mpr hc)

/-- Two applications of class 1, the second one with an id, and one of class 2. -/
def mixedApps : CustomConfig :=
  [{ classId := 2, name := .ofBytes (ascii "video") }, { classId := 1, name := .ofBytes (ascii "chat") },
    { appid := 1900, classId := 1, name := .ofBytes (ascii "games") }]

theorem allocate_appids_mixed :
    ∃ config, allocateAppids mixedApps = .ok config ∧ config.map (·.appid) = [1900, 1901, 2900] ∧
      Allocated mixedApps config := by
  have hpass : PassOneByOne (fun _ => .empty) [] mixedApps := ⟨rfl, rfl, rfl, trivial⟩
  exact ⟨_, rfl, rfl, (allocate_appids_spec hpass).1 _ rfl⟩

end Oaf
