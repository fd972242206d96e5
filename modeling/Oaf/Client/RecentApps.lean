/-
# The recent apps of a session

`session_push_recent_app` keeps the apps of a session in an array of `MAX_RECENT_APPS` places, the last one
that was used in front.  It shifts what is in front of the app back by one place: up to where the app was
found, up to the first free place, or up to the last one.

* `listed_push`: a push is the one of the records.
* `recentApps_eq_dedup`: **the array holds the last distinct apps that were pushed**, the last one first.
-/
import Oaf.Client.Records

namespace Oaf

/-- `recent_apps` and `recent_app_count` of `online_session_stat_t`. -/
structure RecentApps where
  recentApps : List Int
  recentAppCount : Nat
  size : recentApps.length = MAX_RECENT_APPS
  count_le : recentAppCount ≤ MAX_RECENT_APPS

namespace RecentApps

/-- What `reset_online_session_stat` leaves. -/
def empty : RecentApps where
  recentApps := List.replicate MAX_RECENT_APPS 0
  recentAppCount := 0
  size := List.length_replicate
  count_le := Nat.zero_le _

/-- `recent_apps[0..recent_app_count)`. -/
def listed (session : RecentApps) : List Int := session.recentApps.take session.recentAppCount

/-- Shifting the places in front of the place `i` back, and storing `appid` in front. -/
def store (session : RecentApps) (i : Nat) (appid : Int) (count : Nat) (h : count ≤ MAX_RECENT_APPS) :
    RecentApps where
  recentApps := (Recent.shiftBack session.recentApps i).set 0 appid
  recentAppCount := count
  size := by rw [List.length_set, Recent.length_shiftBack, session.size]
  count_le := h

/-- `session_push_recent_app`. -/
def sessionPushRecentApp (session : RecentApps) (appid : Int) : RecentApps :=
  if appid ≤ 0 then session
  else
    match session.listed.findIdx? (· == appid) with
    | some i => session.store i appid session.recentAppCount session.count_le
    | none =>
      if h : session.recentAppCount < MAX_RECENT_APPS then
        session.store session.recentAppCount appid (session.recentAppCount + 1) h
      else session.store (MAX_RECENT_APPS - 1) appid session.recentAppCount session.count_le

variable {session : RecentApps} {i count : Nat} {h : count ≤ MAX_RECENT_APPS}

@[simp] theorem length_listed (session : RecentApps) : session.listed.length = session.recentAppCount := by
  rw [listed, List.length_take, session.size, Nat.min_eq_left session.count_le]

/-- What is listed after a store, up to the place that was free or was overwritten. -/
theorem listed_store (hi : i < MAX_RECENT_APPS) (appid : Int) :
    (session.store i appid count h).listed =
      (appid :: (session.recentApps.take i ++ session.recentApps.drop (i + 1))).take count := by
  show List.take count ((Recent.shiftBack session.recentApps i).set 0 appid) = _
  rw [Recent.set_shiftBack (by rw [session.size]; exact hi)]

/-- An app that is listed is moved to the front. -/
theorem listed_store_found (hi : i < session.recentAppCount) (appid : Int) :
    (session.store i appid session.recentAppCount session.count_le).listed =
      appid :: session.listed.eraseIdx i := by
  obtain ⟨n, hn⟩ : ∃ n, session.recentAppCount = n + 1 := ⟨session.recentAppCount - 1, by omega⟩
  have hlen := session.size
  have hle := session.count_le
  rw [listed_store (by omega), hn, List.take_succ_cons, List.eraseIdx_eq_take_drop_succ, listed, hn,
    List.take_take, Nat.min_eq_left (by omega), List.drop_take, List.take_append, List.length_take,
    List.take_of_length_le (by rw [List.length_take]; omega)]
  congr 3
  omega

/-- A new app goes to the front of the others, of which the last one may go. -/
theorem listed_store_new (hi : i < MAX_RECENT_APPS) (hcount : count = i + 1) (appid : Int) :
    (session.store i appid count h).listed = appid :: session.recentApps.take i := by
  have hlen := session.size
  rw [listed_store hi, hcount, List.take_succ_cons, List.take_append_of_le_length (by rw [List.length_take]; omega),
    List.take_take, Nat.min_self]

/-- **A push is the one of the records.** -/
theorem listed_push (session : RecentApps) (appid : Int) :
    (session.sessionPushRecentApp appid).listed = Oaf.sessionPushRecentApp session.listed appid := by
  unfold sessionPushRecentApp Oaf.sessionPushRecentApp
  split
  · rfl
  · have hle := session.count_le
    cases hidx : session.listed.findIdx? (· == appid) with
    | some i =>
      obtain ⟨a, -, ha, htouch⟩ := @Recent.touch_eq_eraseIdx _ _ id appid MAX_RECENT_APPS _ _ hidx
      have hi : i < session.recentAppCount := by
        have := (List.findIdx?_eq_some_iff_getElem.mp hidx).1
        rwa [length_listed] at this
      rw [htouch, beq_iff_eq.mp ha]
      exact listed_store_found hi appid
    | none =>
      have hfind : session.listed.find? (· == appid) = none :=
        List.find?_eq_none.mpr fun a ha => by simpa using List.findIdx?_eq_none_iff.mp hidx a ha
      rw [Recent.touch, hfind]
      simp only [length_listed]
      by_cases hroom : session.recentAppCount < MAX_RECENT_APPS
      · rw [dif_pos hroom, if_neg (by omega), listed_store_new hroom rfl]
        rfl
      · have hfull : session.recentAppCount = MAX_RECENT_APPS := by omega
        have hnew := @listed_store_new session (MAX_RECENT_APPS - 1) _ session.count_le (by decide) hfull appid
        rw [dif_neg hroom, if_pos (by omega), hnew, List.dropLast_eq_take, length_listed, listed, List.take_take,
          hfull]
        rfl

theorem listed_foldl (appids : List Int) (session : RecentApps) :
    (appids.foldl sessionPushRecentApp session).listed =
      appids.foldl Oaf.sessionPushRecentApp session.listed := by
  induction appids generalizing session with
  | nil => rfl
  | cons appid appids ih => rw [List.foldl_cons, List.foldl_cons, ih, listed_push]

end RecentApps

/-- **The last distinct apps** that were pushed, at most `MAX_RECENT_APPS`, the last one first. -/
theorem recentApps_eq_dedup (appids : List Int) (h : ∀ appid ∈ appids, 0 < appid) :
    (appids.foldl RecentApps.sessionPushRecentApp .empty).listed =
      appids.dedup.reverse.take MAX_RECENT_APPS := by
  have hrun := @recentApps_push [] RecentApps.empty.listed appids h rfl
  rw [RecentApps.listed_foldl, hrun, List.append_nil, Recent.latest_id_reverse]

/-- Seven pushes of six apps: one comes again, and the first of the others is gone. -/
theorem recentApps_eq_dedup_seven :
    ([1001, 2001, 3001, 1001, 4001, 5001, 6001].foldl RecentApps.sessionPushRecentApp .empty).listed =
      [6001, 5001, 4001, 1001, 3001] :=
  recentApps_eq_dedup _ (by decide)

end Oaf
