/-
# Online and offline records

`update_client_list` makes a round over the client list: it clears the online states, sets them from the
kernel's table and the wireless associations, and compares them with those of the round before.  Between
the rounds the kernel reports what its clients do, which adds to the session of a client that is online.

A client that comes online gets a new session; the record of it waits until the client is active.  A client
that goes offline gets a record with its session, if it had the other one.

* `presence_round`, `presence_report`: what an event does to one client.
* `UserState.Ok`, `ok_run`: what holds between the events of any run.
* `lifetime_alternates`: **the records of a client alternate.**
* `online_session`: **a client that is online has the session of what was reported since it came online.**
* `user_records`: both, with the sums that a record of type 1 has.

Host names, addresses and rates are left out, and so are the daily statistics.
-/
import Mathlib.Data.UInt
import Oaf.Client.Leases
import Oaf.Client.Traffic
import Oaf.Lib.Recent

namespace Oaf

open CLib Chains

/-! ## 1. Clients -/

def MAX_RECENT_APPS : Nat := 5
def MAX_USER_RECORDS : Nat := 4096
def CLIENT_OFFLINE_TIME : Int := 86400 * 3

/-- `online_session_stat_t`. -/
structure OnlineSessionStat where
  upBytes : UInt64 := 0
  downBytes : UInt64 := 0
  onlineDuration : UInt64 := 0
  activeDuration : UInt64 := 0
  recentApps : List Int := []
  startTime : UInt32
deriving DecidableEq

/-- `client_node_t`, as far as the records go. -/
structure UserNode where
  mac : CStr
  online : Bool := false
  active : Int := 0
  lastOnlineState : Bool := false
  sessionOnlineRecorded : Bool := false
  isWireless : Bool := false
  wirelessOnline : Bool := false
  expire : Bool := false
  onlineTime : UInt32
  offlineTime : UInt32
  session : OnlineSessionStat
deriving DecidableEq

/-- `user_record_t`. -/
structure UserRecord where
  mac : CStr
  action : Nat
  timestamp : UInt32
  upBytes : UInt64 := 0
  downBytes : UInt64 := 0
  onlineDuration : UInt64 := 0
  activeDuration : UInt64 := 0
  recentApps : List Int := []
deriving DecidableEq

/-- What `add_client_node` makes. -/
def newUser (mac : CStr) (now : UInt32) : UserNode where
  mac := normalizeMacLower mac
  onlineTime := now
  offlineTime := now
  session := { startTime := now }

/-- `find_client_node` and, if there is none, `add_client_node`; and then a change of the client. -/
def withClient (mac : CStr) (now : UInt32) (f : UserNode → UserNode) (clients : List UserNode) :
    List UserNode :=
  if mac = .empty then clients
  else upsert UserNode.mac (normalizeMacLower mac) (newUser mac now) f clients

/-- `add_user_record`, without the list. -/
def userRecord (c : UserNode) (action : Nat) (timestamp : UInt32) : UserRecord :=
  if action = 1 then
    { mac := c.mac
      action := action
      timestamp := timestamp
      upBytes := c.session.upBytes
      downBytes := c.session.downBytes
      onlineDuration := c.session.onlineDuration
      activeDuration := c.session.activeDuration
      recentApps := c.session.recentApps.take MAX_RECENT_APPS }
  else { mac := c.mac, action := action, timestamp := timestamp }

/-- `add_user_record`: the newest is in front, the oldest goes. -/
def addUserRecord (userRecordList : List UserRecord) (record : UserRecord) : List UserRecord :=
  (record :: userRecordList).take MAX_USER_RECORDS

/-! ## 2. A round -/

/-- A line of `/proc/net/af_client`; `none` when it has no status. -/
structure KernelRow where
  mac : CStr
  status : Option Nat

/-- What a round finds. -/
structure RoundInput where
  now : UInt32
  /-- The MACs of `/tmp/dhcp.leases`. -/
  leases : List CStr := []
  kernel : List KernelRow := []
  /-- The stations of all interfaces; `none` without `wireless_support`. -/
  stations : Option (List CStr) := none
  /-- `fwx.network.work_mode` -/
  workMode : Int := 0

/-- `clean_client_online_status`. -/
def cleanClientOnlineStatus (now : UInt32) (c : UserNode) : UserNode :=
  { c with
    lastOnlineState := c.online
    active := 0
    offlineTime := if c.online then now else c.offlineTime
    online := false }

/-- A row of `update_client_from_kernel`. -/
def updateClientFromKernel (now : UInt32) (clients : List UserNode) (row : KernelRow) : List UserNode :=
  if row.mac.strlen < 17 then clients
  else
    withClient row.mac now (fun c =>
      { c with
        online := true
        active := match row.status with
          | some status => if 2 ≤ status then 1 else 0
          | none => c.active }) clients

/-- `refresh_client_wireless_status`. -/
def refreshClientWirelessStatus (now : UInt32) (stations : Option (List CStr))
    (clients : List UserNode) : List UserNode :=
  (stations.getD []).foldl (fun clients mac =>
      withClient mac now (fun c => { c with isWireless := true, wirelessOnline := true }) clients)
    (clients.map fun c => { c with wirelessOnline := false })

/-- The first loop of `update_client_online_status`. -/
def overrideByWireless (c : UserNode) : UserNode :=
  if c.isWireless then
    if c.wirelessOnline then { c with online := true } else { c with online := false, active := 0 }
  else c

/-- The clients as the second loop of `update_client_online_status` finds them. -/
def beforeRecords (r : RoundInput) (clients : List UserNode) : List UserNode :=
  let clients := clients.map (cleanClientOnlineStatus r.now)
  let clients := r.leases.foldl (fun clients mac => withClient mac r.now id clients) clients
  let clients := r.kernel.foldl (updateClientFromKernel r.now) clients
  (refreshClientWirelessStatus r.now r.stations clients).map overrideByWireless

/-- One turn of that loop, and the records that it adds. -/
def updateUserRecords (now : UInt32) (isBypassMode : Bool) (c : UserNode) :
    UserNode × List UserRecord :=
  let isOnline := c.online
  if !c.lastOnlineState && isOnline then
    ({ c with
        onlineTime := now
        session := { startTime := now }
        sessionOnlineRecorded := false
        lastOnlineState := isOnline }, [])
  else if c.lastOnlineState && !isOnline then
    ({ c with offlineTime := now, sessionOnlineRecorded := false, lastOnlineState := isOnline },
      if c.sessionOnlineRecorded then [userRecord c 1 now] else [])
  else if isOnline && !c.sessionOnlineRecorded && (isBypassMode || c.active ≠ 0) then
    ({ c with sessionOnlineRecorded := true, lastOnlineState := isOnline }, [userRecord c 0 now])
  else ({ c with lastOnlineState := isOnline }, [])

/-! ## 3. The daemon -/

/-- A report of the kernel, a message of `fwx_netlink`. -/
structure UserReport where
  mac : CStr
  now : UInt32
  todayStart : UInt32
  active : Option Int := none
  /-- Kilobytes. -/
  upFlow : UInt64 := 0
  downFlow : UInt64 := 0
  /-- The app ids of `visit_info`. -/
  visits : List Int := []

/-- In the first two minutes of a day nothing is counted. -/
def UserReport.dropped (r : UserReport) : Bool := r.todayStart ≤ r.now && r.now - r.todayStart < 120

/-- The app ids that have a type. -/
def UserReport.apps (r : UserReport) : List Int :=
  r.visits.filter fun appid => 0 < appid.tmod 1000 && 0 < appid.tdiv 1000

def UserReport.upBytes (r : UserReport) : UInt64 := r.upFlow * 1024
def UserReport.downBytes (r : UserReport) : UInt64 := r.downFlow * 1024

/-- `session_push_recent_app`. -/
def sessionPushRecentApp (recentApps : List Int) (appid : Int) : List Int :=
  if appid ≤ 0 then recentApps else Recent.touch (· == appid) id appid MAX_RECENT_APPS recentApps

/-- `update_online_session_activity`, `update_online_session_flow` and `update_online_session_recent_app`,
of a client that is online. -/
def OnlineSessionStat.report (session : OnlineSessionStat) (r : UserReport) (active : Bool) :
    OnlineSessionStat :=
  { session with
    onlineDuration := session.onlineDuration + .ofNat REPORT_INTERVAL_SECS
    activeDuration := if active then session.activeDuration + .ofNat REPORT_INTERVAL_SECS
      else session.activeDuration
    upBytes := session.upBytes + r.upBytes
    downBytes := session.downBytes + r.downBytes
    recentApps := r.apps.foldl sessionPushRecentApp session.recentApps }

/-- What a report does to its client. -/
def UserNode.report (c : UserNode) (r : UserReport) : UserNode :=
  let active := r.active.getD c.active
  if r.dropped || !c.online then { c with active := active }
  else { c with active := active, session := c.session.report r (active = 1) }

/-- What `save_client_backup_to_file` writes. -/
structure ClientBackup where
  mac : CStr
  expire : Bool
  isWireless : Bool
  onlineTime : UInt32
  offlineTime : UInt32
  session : OnlineSessionStat

def UserNode.backup (c : UserNode) : ClientBackup :=
  ⟨c.mac, c.expire, c.isWireless, c.onlineTime, c.offlineTime, c.session⟩

/-- `save_client_backup_to_file`: one file for each client. -/
def saveClientBackup (backups : List ClientBackup) (c : UserNode) : List ClientBackup :=
  upsert ClientBackup.mac c.mac c.backup (fun _ => c.backup) backups

/-- `load_client_backup_from_file`, with `reset_client_runtime_fields`. -/
def loadClientBackup (now : UInt32) (clients : List UserNode) (b : ClientBackup) : List UserNode :=
  withClient b.mac now (fun c =>
    { c with
      online := false
      active := 0
      lastOnlineState := false
      sessionOnlineRecorded := false
      wirelessOnline := false
      expire := b.expire
      isWireless := b.isWireless
      onlineTime := b.onlineTime
      offlineTime := b.offlineTime
      session := b.session }) clients

structure UserState where
  clients : List UserNode := []
  userRecordList : List UserRecord := []
  backups : List ClientBackup := []

inductive UserEvent where
  | round (r : RoundInput)
  | report (r : UserReport)
  /-- `check_client_expire` and `flush_expire_client_node`. -/
  | expire (now : UInt32)
  /-- `save_all_client_backup_to_files`. -/
  | saveBackups
  /-- The daemon is gone, and another one starts. -/
  | restart (now : UInt32)

/-- A client that has been offline for too long. -/
def UserNode.expired (c : UserNode) (now : UInt32) : Bool :=
  !c.online && CLIENT_OFFLINE_TIME < Kernel.toInt32 ((now.toNat : Int) - c.offlineTime.toNat)

/-- One event: the state, and the records that are added in it. -/
def UserState.step (s : UserState) : UserEvent → UserState × List UserRecord
  | .round r =>
    let clients := (beforeRecords r s.clients).map (updateUserRecords r.now (r.workMode = 1))
    let records := clients.flatMap (·.2)
    let gone := (beforeRecords r s.clients).filter fun c => c.lastOnlineState && !c.online
    ({ clients := clients.map (·.1)
       userRecordList := records.foldl addUserRecord s.userRecordList
       backups := gone.foldl (fun backups c =>
        saveClientBackup backups (updateUserRecords r.now (r.workMode = 1) c).1) s.backups }, records)
  | .report r => ({ s with clients := withClient r.mac r.now (·.report r) s.clients }, [])
  | .expire now =>
    if s.clients.any (·.expired now) then
      let marked := s.clients.map fun c => if c.expired now then { c with expire := true } else c
      ({ s with clients := marked.filter fun c => !c.expire }, [])
    else (s, [])
  | .saveBackups => ({ s with backups := s.clients.foldl saveClientBackup s.backups }, [])
  | .restart now => ({ clients := s.backups.foldl (loadClientBackup now) [], backups := s.backups }, [])

/-- A run of the first daemon and of those after it. -/
def UserState.run (s : UserState) (es : List UserEvent) : UserState :=
  es.foldl (fun s e => (s.step e).1) s

/-- What `f` tells of the events of a run, each at the state it comes to. -/
def UserState.collect {α : Type} (f : UserState → UserEvent → List α) (s : UserState) :
    List UserEvent → List α
  | [] => []
  | e :: es => f s e ++ (s.step e).1.collect f es

/-- The records of a client that are added in a run. -/
def UserState.added (s : UserState) (mac : CStr) : List UserEvent → List UserRecord :=
  s.collect fun s e => (s.step e).2.filter fun record => record.mac = mac

/-- The client of a (normalised) MAC. -/
def UserState.client (s : UserState) (mac : CStr) : Option UserNode :=
  lookup UserNode.mac mac s.clients

/-! ## 4. What a round finds -/

/-- What the first phases of a round leave of a client. -/
structure Carried (c c' : UserNode) : Prop where
  last : c'.lastOnlineState = c.lastOnlineState
  recorded : c'.sessionOnlineRecorded = c.sessionOnlineRecorded
  session : c'.session = c.session
  expire : c'.expire = c.expire

/-- Clients stay, and a new one has been neither online nor recorded. -/
structure Keeps (clients clients' : List UserNode) : Prop where
  nodup : (clients.map UserNode.mac).Nodup → (clients'.map UserNode.mac).Nodup
  old : ∀ k c, lookup UserNode.mac k clients = some c →
    ∃ c', lookup UserNode.mac k clients' = some c' ∧ Carried c c'
  new : ∀ k c', lookup UserNode.mac k clients' = some c' → lookup UserNode.mac k clients = none →
    c'.lastOnlineState = false ∧ c'.sessionOnlineRecorded = false ∧ c'.expire = false

theorem Carried.refl (c : UserNode) : Carried c c := ⟨rfl, rfl, rfl, rfl⟩

theorem Carried.trans {c c' c'' : UserNode} (h : Carried c c') (h' : Carried c' c'') : Carried c c'' :=
  ⟨h'.1.trans h.1, h'.2.trans h.2, h'.3.trans h.3, h'.4.trans h.4⟩

theorem Keeps.refl (clients : List UserNode) : Keeps clients clients where
  nodup := id
  old := fun _ c h => ⟨c, h, .refl c⟩
  new := fun _ _ h hnone => by rw [hnone] at h; cases h

theorem Keeps.trans {clients clients' clients'' : List UserNode} (h : Keeps clients clients')
    (h' : Keeps clients' clients'') : Keeps clients clients'' where
  nodup := h'.nodup ∘ h.nodup
  old := fun k c hc => by
    obtain ⟨c', hc', hcarried⟩ := h.old k c hc
    obtain ⟨c'', hc'', hcarried'⟩ := h'.old k c' hc'
    exact ⟨c'', hc'', hcarried.trans hcarried'⟩
  new := fun k c'' hc'' hnone => by
    cases hc' : lookup UserNode.mac k clients' with
    | none => exact h'.new k c'' hc'' hc'
    | some c' =>
      obtain ⟨d, hd, hcarried⟩ := h'.old k c' hc'
      obtain rfl := Option.some.inj (hd.symm.trans hc'')
      rw [hcarried.last, hcarried.recorded, hcarried.expire]
      exact h.new k c' hc' hnone

theorem Keeps.foldl {α : Type} {step : List UserNode → α → List UserNode}
    (h : ∀ clients a, Keeps clients (step clients a)) : ∀ (as : List α) (clients : List UserNode),
    Keeps clients (as.foldl step clients)
  | [], clients => .refl clients
  | a :: as, clients => (h clients a).trans (Keeps.foldl h as (step clients a))

theorem Keeps.map (f : UserNode → UserNode) (hmac : ∀ c, (f c).mac = c.mac)
    (hf : ∀ c, Carried c (f c)) (clients : List UserNode) : Keeps clients (clients.map f) where
  nodup := fun h => by
    rw [List.map_map]
    rwa [show UserNode.mac ∘ f = UserNode.mac from funext hmac]
  old := fun k c hc => ⟨f c, by rw [lookup_map k hmac, hc]; rfl, hf c⟩
  new := fun k c' hc' hnone => by
    rw [lookup_map k hmac, hnone] at hc'
    cases hc'

theorem newUser_mac (mac : CStr) (now : UInt32) : (newUser mac now).mac = normalizeMacLower mac := rfl

theorem Keeps.withClient (f : UserNode → UserNode) (hmac : ∀ c, (f c).mac = c.mac)
    (hf : ∀ c, Carried c (f c)) (mac : CStr) (now : UInt32) (clients : List UserNode) :
    Keeps clients (withClient mac now f clients) := by
  rw [Oaf.withClient]
  split
  · exact .refl clients
  · refine ⟨nodup_upsert hmac (newUser_mac mac now), fun k c hc => ?_, fun k c' hc' hnone => ?_⟩
    · rw [lookup_upsert hmac (newUser_mac mac now)]
      split
      · rename_i hk
        subst hk
        rw [hc]
        exact ⟨f c, rfl, hf c⟩
      · exact ⟨c, hc, .refl c⟩
    · rw [lookup_upsert hmac (newUser_mac mac now)] at hc'
      split at hc'
      · rename_i hk
        subst hk
        rw [hnone] at hc'
        obtain rfl := Option.some.inj hc'
        have h := hf (newUser mac now)
        exact ⟨h.last, h.recorded, h.expire⟩
      · rw [hnone] at hc'
        cases hc'

theorem leases_keeps (now : UInt32) (leases : List CStr) (clients : List UserNode) :
    Keeps clients (leases.foldl (fun clients mac => withClient mac now id clients) clients) :=
  .foldl (fun clients mac => .withClient id (fun _ => rfl) .refl mac now clients) leases clients

theorem kernel_keeps (now : UInt32) (rows : List KernelRow) (clients : List UserNode) :
    Keeps clients (rows.foldl (updateClientFromKernel now) clients) := by
  refine .foldl (fun clients row => ?_) rows clients
  rw [updateClientFromKernel]
  split
  · exact .refl clients
  · refine .withClient _ ?_ ?_ row.mac now clients
    · intro c
      rfl
    · intro c
      exact ⟨rfl, rfl, rfl, rfl⟩

theorem wireless_keeps (now : UInt32) (stations : Option (List CStr)) (clients : List UserNode) :
    Keeps clients (refreshClientWirelessStatus now stations clients) := by
  refine (Keeps.map (fun c => { c with wirelessOnline := false }) (fun _ => rfl)
    (fun _ => ⟨rfl, rfl, rfl, rfl⟩) clients).trans (.foldl (fun clients mac => ?_) _ _)
  refine .withClient _ ?_ ?_ mac now clients
  · intro c
    rfl
  · intro c
    exact ⟨rfl, rfl, rfl, rfl⟩

theorem override_keeps (clients : List UserNode) : Keeps clients (clients.map overrideByWireless) := by
  refine .map overrideByWireless (fun c => ?_) (fun c => ?_) clients
  · rw [overrideByWireless]
    split
    · split <;> rfl
    · rfl
  · rw [overrideByWireless]
    split
    · split <;> exact ⟨rfl, rfl, rfl, rfl⟩
    · exact .refl c

theorem beforeRecords_keeps (r : RoundInput) (clients : List UserNode) :
    Keeps (clients.map (cleanClientOnlineStatus r.now)) (beforeRecords r clients) :=
  (((leases_keeps r.now r.leases _).trans (kernel_keeps r.now r.kernel _)).trans
    (wireless_keeps r.now r.stations _)).trans (override_keeps _)

/-- **What the records of a round are made from.** -/
theorem beforeRecords_client (r : RoundInput) (s : UserState) (k : CStr) :
    match lookup UserNode.mac k (beforeRecords r s.clients) with
    | none => s.client k = none
    | some c' => c'.lastOnlineState = (s.client k).any (·.online) ∧
        c'.sessionOnlineRecorded = (s.client k).any (·.sessionOnlineRecorded) ∧
        c'.expire = (s.client k).any (·.expire) ∧ ∀ c, s.client k = some c → c'.session = c.session := by
  have hkeeps := beforeRecords_keeps r s.clients
  have hclean : lookup UserNode.mac k (s.clients.map (cleanClientOnlineStatus r.now)) =
      (s.client k).map (cleanClientOnlineStatus r.now) :=
    @lookup_map _ _ _ UserNode.mac (cleanClientOnlineStatus r.now) k (fun _ => rfl) _
  cases hc : s.client k with
  | none =>
    rw [hc] at hclean
    cases hc' : lookup UserNode.mac k (beforeRecords r s.clients) with
    | none => rfl
    | some c' =>
      obtain ⟨h1, h2, h3⟩ := hkeeps.new k c' hc' hclean
      exact ⟨h1, h2, h3, fun c h => nomatch h⟩
  | some c =>
    rw [hc] at hclean
    obtain ⟨c', hc', hcarried⟩ := hkeeps.old k _ hclean
    rw [hc']
    refine ⟨hcarried.last, hcarried.recorded, hcarried.expire, fun d hd => ?_⟩
    rw [← Option.some.inj hd]
    exact hcarried.session

/-! ## 5. One event, one client -/

/-- What the records of a client depend on. -/
inductive Presence where
  | offline
  | online (session : OnlineSessionStat) (recorded : Bool)

def UserNode.presence (c : UserNode) : Presence :=
  if c.online then .online c.session c.sessionOnlineRecorded else .offline

def UserState.presence (s : UserState) (mac : CStr) : Presence :=
  (s.client mac).elim .offline UserNode.presence

def onlineRecord (mac : CStr) (now : UInt32) : UserRecord := { mac := mac, action := 0, timestamp := now }

def offlineRecord (mac : CStr) (session : OnlineSessionStat) (now : UInt32) : UserRecord where
  mac := mac
  action := 1
  timestamp := now
  upBytes := session.upBytes
  downBytes := session.downBytes
  onlineDuration := session.onlineDuration
  activeDuration := session.activeDuration
  recentApps := session.recentApps.take MAX_RECENT_APPS

/-- A round, for a client that it finds online or not, and active (or in bypass mode) or not. -/
def Presence.round (mac : CStr) (now : UInt32) (isOnline isActive : Bool) :
    Presence → Presence × List UserRecord
  | .offline => (if isOnline then .online { startTime := now } false else .offline, [])
  | .online session recorded =>
    if !isOnline then (.offline, if recorded then [offlineRecord mac session now] else [])
    else if !recorded && isActive then (.online session true, [onlineRecord mac now])
    else (.online session recorded, [])

/-- What holds of the clients between two events. -/
structure UserState.Ok (s : UserState) : Prop where
  nodup : (s.clients.map UserNode.mac).Nodup
  expire : ∀ c ∈ s.clients, c.expire = false
  backups : ∀ b ∈ s.backups, b.expire = false

theorem userRecord_online (c : UserNode) (now : UInt32) : userRecord c 0 now = onlineRecord c.mac now := rfl

theorem userRecord_offline (c : UserNode) (now : UInt32) :
    userRecord c 1 now = offlineRecord c.mac c.session now := rfl

theorem updateUserRecords_mac (now : UInt32) (isBypassMode : Bool) (c : UserNode) :
    (updateUserRecords now isBypassMode c).1.mac = c.mac := by
  simp only [updateUserRecords]
  split
  · rfl
  · split
    · rfl
    · split <;> rfl

theorem updateUserRecords_expire (now : UInt32) (isBypassMode : Bool) (c : UserNode) :
    (updateUserRecords now isBypassMode c).1.expire = c.expire := by
  simp only [updateUserRecords]
  split
  · rfl
  · split
    · rfl
    · split <;> rfl

theorem updateUserRecords_records_mac (now : UInt32) (isBypassMode : Bool) (c : UserNode) :
    ∀ record ∈ (updateUserRecords now isBypassMode c).2, record.mac = c.mac := by
  intro record hmem
  simp only [updateUserRecords] at hmem
  split at hmem
  · cases hmem
  · split at hmem
    · split at hmem
      · rw [List.mem_singleton.mp hmem]
        rfl
      · cases hmem
    · split at hmem
      · rw [List.mem_singleton.mp hmem]
        rfl
      · cases hmem

/-- A turn of the loop is a round of the client's presence. -/
theorem updateUserRecords_presence (now : UInt32) (isBypassMode : Bool) {c : UserNode} {p : Presence}
    (hp : p = if c.lastOnlineState then .online c.session c.sessionOnlineRecorded else .offline) :
    ((updateUserRecords now isBypassMode c).1.presence, (updateUserRecords now isBypassMode c).2) =
      p.round c.mac now c.online (isBypassMode || c.active ≠ 0) := by
  subst hp
  cases hlast : c.lastOnlineState with
  | false =>
    cases honline : c.online <;>
      simp [updateUserRecords, Presence.round, UserNode.presence, hlast, honline]
  | true =>
    cases honline : c.online with
    | false =>
      cases hrecorded : c.sessionOnlineRecorded <;>
        simp [updateUserRecords, Presence.round, UserNode.presence, hlast, honline, hrecorded,
          userRecord_offline]
    | true =>
      cases hrecorded : c.sessionOnlineRecorded with
      | true =>
        simp [updateUserRecords, Presence.round, UserNode.presence, hlast, honline, hrecorded]
      | false =>
        by_cases hactive : isBypassMode = true ∨ ¬ c.active = 0 <;>
          simp [updateUserRecords, Presence.round, UserNode.presence, hlast, honline, hrecorded,
            hactive, userRecord_online]

/-! A round. -/

theorem UserState.Ok.beforeRecords {s : UserState} (h : s.Ok) (r : RoundInput) :
    ((beforeRecords r s.clients).map UserNode.mac).Nodup := by
  refine (beforeRecords_keeps r s.clients).nodup ?_
  rw [List.map_map]
  exact h.nodup

theorem client_round (r : RoundInput) (s : UserState) (k : CStr) :
    (s.step (.round r)).1.client k = (lookup UserNode.mac k (beforeRecords r s.clients)).map fun c =>
      (updateUserRecords r.now (r.workMode = 1) c).1 := by
  rw [UserState.client, UserState.step]
  simp only [List.map_map]
  exact @lookup_map _ _ _ UserNode.mac _ k (updateUserRecords_mac r.now (r.workMode = 1)) _

theorem added_round {s : UserState} (h : s.Ok) (r : RoundInput) (k : CStr) :
    ((s.step (.round r)).2.filter fun record => record.mac = k) =
      ((lookup UserNode.mac k (beforeRecords r s.clients)).map fun c =>
        (updateUserRecords r.now (r.workMode = 1) c).2).getD [] := by
  rw [UserState.step]
  simp only [List.flatMap_map]
  exact filter_flatMap (fun c => (updateUserRecords r.now (r.workMode = 1) c).2) UserRecord.mac k
    (updateUserRecords_records_mac r.now (r.workMode = 1)) (h.beforeRecords r)

/-- **What a round does to one client.** -/
theorem presence_round {s : UserState} (h : s.Ok) (r : RoundInput) (k : CStr) :
    ∃ isOnline isActive : Bool, ((s.step (.round r)).1.presence k,
      (s.step (.round r)).2.filter fun record => record.mac = k) =
        (s.presence k).round k r.now isOnline isActive := by
  have hbefore := beforeRecords_client r s k
  rw [UserState.presence, client_round, added_round h]
  cases hc' : lookup UserNode.mac k (beforeRecords r s.clients) with
  | none =>
    rw [hc'] at hbefore
    refine ⟨false, false, ?_⟩
    rw [UserState.presence, show s.client k = none from hbefore]
    rfl
  | some c' =>
    rw [hc'] at hbefore
    obtain ⟨hlast, hrecorded, -, hsession⟩ := hbefore
    refine ⟨c'.online, r.workMode = 1 || c'.active ≠ 0, ?_⟩
    have hmac : c'.mac = k := key_of_lookup hc'
    have hp : s.presence k =
        if c'.lastOnlineState then .online c'.session c'.sessionOnlineRecorded else .offline := by
      rw [hlast, hrecorded, UserState.presence]
      cases hc : s.client k with
      | none => rfl
      | some c =>
        rw [hsession c hc]
        rfl
    rw [← hmac]
    exact updateUserRecords_presence r.now (r.workMode = 1) (hmac ▸ hp)

/-! A report. -/

/-- The report is one of the client, and is counted. -/
def UserReport.credits (r : UserReport) (mac : CStr) : Bool :=
  r.mac ≠ .empty && normalizeMacLower r.mac = mac && !r.dropped

/-- What a report says of the activity of a client, or what is known of it. -/
def UserState.isActive (s : UserState) (mac : CStr) (r : UserReport) : Bool :=
  r.active.getD ((s.client mac).elim 0 UserNode.active) = 1

def Presence.report (r : UserReport) (active : Bool) : Presence → Presence
  | .offline => .offline
  | .online session recorded => .online (session.report r active) recorded

theorem report_mac (c : UserNode) (r : UserReport) : (c.report r).mac = c.mac := by
  simp only [UserNode.report]
  split <;> rfl

theorem report_expire (c : UserNode) (r : UserReport) : (c.report r).expire = c.expire := by
  simp only [UserNode.report]
  split <;> rfl

theorem report_presence (c : UserNode) (r : UserReport) : (c.report r).presence =
    if r.dropped then c.presence else c.presence.report r (r.active.getD c.active = 1) := by
  cases hdropped : r.dropped <;> cases honline : c.online <;>
    simp [UserNode.report, UserNode.presence, Presence.report, hdropped, honline]

/-- **What a report does to one client.** -/
theorem presence_report (s : UserState) (r : UserReport) (k : CStr) :
    (s.step (.report r)).1.presence k =
      if r.credits k then (s.presence k).report r (s.isActive k r) else s.presence k := by
  rw [UserState.presence, UserState.presence, UserState.client, UserState.step, UserReport.credits,
    withClient]
  by_cases hempty : r.mac = .empty
  · simp [hempty, UserState.client]
  · rw [if_neg hempty, lookup_upsert (fun c => report_mac c r) (newUser_mac r.mac r.now)]
    by_cases hk : k = normalizeMacLower r.mac
    · subst hk
      rw [if_pos rfl, Option.elim_some, report_presence, UserState.isActive, UserState.client]
      cases hc : lookup UserNode.mac (normalizeMacLower r.mac) s.clients with
      | none =>
        have hnew : (newUser r.mac r.now).presence = .offline := rfl
        cases hdropped : r.dropped <;> simp [hempty, hnew, Presence.report]
      | some c =>
        cases hdropped : r.dropped with
        | false =>
          simp only [ne_eq, hempty, not_false_eq_true, decide_true, Bool.not_false, Bool.and_self, if_true,
            Option.getD_some, Option.elim_some, Bool.false_eq_true, if_false]
          rfl
        | true => simp [hempty]
    · simp [hk, Ne.symm hk, UserState.client]

/-! The other events. -/

theorem expired_offline {c : UserNode} {now : UInt32} (h : c.expired now = true) : c.online = false := by
  rw [UserNode.expired, Bool.and_eq_true] at h
  simpa using h.1

/-- Who expires is offline. -/
theorem presence_expire {s : UserState} (h : s.Ok) (now : UInt32) (k : CStr) :
    (s.step (.expire now)).1.presence k = s.presence k := by
  rw [UserState.step]
  split
  · let mark : UserNode → UserNode := fun c => if c.expired now then { c with expire := true } else c
    have hmac : ∀ c, (mark c).mac = c.mac := fun c => by
      simp only [mark]
      split <;> rfl
    have hnodup : ((s.clients.map mark).map UserNode.mac).Nodup := by
      rw [List.map_map, show UserNode.mac ∘ mark = UserNode.mac from funext hmac]
      exact h.nodup
    rw [UserState.presence, UserState.presence, UserState.client, UserState.client]
    simp only
    rw [lookup_filter k hnodup, lookup_map k hmac]
    cases hc : lookup UserNode.mac k s.clients with
    | none => rfl
    | some c =>
      have hexpire : c.expire = false := h.expire c (mem_of_lookup hc)
      cases hexpired : c.expired now with
      | false => simp [mark, hexpired, hexpire, Option.filter]
      | true => simp [mark, hexpired, Option.filter, UserNode.presence, expired_offline hexpired]
  · rfl

theorem forall_withClient {P : UserNode → Prop} {mac : CStr} {now : UInt32} {f : UserNode → UserNode}
    {clients : List UserNode} (hold : ∀ c ∈ clients, P c) (hnew : P (f (newUser mac now)))
    (hf : ∀ c ∈ clients, P (f c)) : ∀ c ∈ withClient mac now f clients, P c := by
  rw [withClient]
  split
  · exact hold
  · exact forall_upsert hold hnew hf

/-- After a restart nobody is online. -/
theorem presence_restart (s : UserState) (now : UInt32) (k : CStr) :
    (s.step (.restart now)).1.presence k = .offline := by
  have hload : ∀ c ∈ s.backups.foldl (loadClientBackup now) [], c.online = false := by
    refine List.foldlRecOn (motive := fun clients => ∀ c ∈ clients, UserNode.online c = false) _ _ ?_ ?_
    · intro c hc
      cases hc
    · intro clients hclients b _
      exact forall_withClient hclients rfl fun _ _ => rfl
  rw [UserState.presence, UserState.client]
  cases hc : lookup UserNode.mac k (s.step (.restart now)).1.clients with
  | none => rfl
  | some c =>
    rw [Option.elim_some, UserNode.presence, hload c (mem_of_lookup hc)]
    rfl

/-! What holds between events. -/

theorem nodup_withClient {f : UserNode → UserNode} (hmac : ∀ c, (f c).mac = c.mac) (mac : CStr)
    (now : UInt32) {clients : List UserNode} (h : (clients.map UserNode.mac).Nodup) :
    ((withClient mac now f clients).map UserNode.mac).Nodup := by
  rw [withClient]
  split
  · exact h
  · exact nodup_upsert hmac (newUser_mac mac now) h

theorem saved_expire {cs : List UserNode} {f : UserNode → UserNode} {backups : List ClientBackup}
    (hbackups : ∀ b ∈ backups, b.expire = false) (hcs : ∀ c ∈ cs, (f c).expire = false) :
    ∀ b ∈ cs.foldl (fun backups c => saveClientBackup backups (f c)) backups, b.expire = false := by
  refine List.foldlRecOn (motive := fun bs => ∀ b ∈ bs, ClientBackup.expire b = false) _ _ hbackups ?_
  intro bs hbs c hc
  exact forall_upsert hbs (hcs c hc) fun _ _ => hcs c hc

theorem beforeRecords_expire {s : UserState} (h : s.Ok) (r : RoundInput) :
    ∀ c ∈ beforeRecords r s.clients, c.expire = false := by
  intro c hc
  have hbefore := beforeRecords_client r s c.mac
  rw [(lookup_eq_some_iff (h.beforeRecords r)).mpr ⟨hc, rfl⟩] at hbefore
  obtain ⟨-, -, hexpire, -⟩ := hbefore
  rw [hexpire]
  cases hold : s.client c.mac with
  | none => rfl
  | some old => exact h.expire old (mem_of_lookup hold)

theorem ok_round {s : UserState} (h : s.Ok) (r : RoundInput) : (s.step (.round r)).1.Ok := by
  have hturn : ∀ c ∈ beforeRecords r s.clients,
      (updateUserRecords r.now (r.workMode = 1) c).1.expire = false := fun c hc => by
    rw [updateUserRecords_expire]
    exact beforeRecords_expire h r c hc
  refine ⟨?_, ?_, ?_⟩
  · simp only [UserState.step, List.map_map]
    have hmac : UserNode.mac ∘ (·.1) ∘ updateUserRecords r.now (r.workMode = 1) = UserNode.mac :=
      funext (updateUserRecords_mac r.now (r.workMode = 1))
    rw [hmac]
    exact h.beforeRecords r
  · intro c hc
    simp only [UserState.step, List.map_map, List.mem_map] at hc
    obtain ⟨old, hold, rfl⟩ := hc
    exact hturn old hold
  · exact saved_expire h.backups fun c hc => hturn c (List.mem_filter.mp hc).1

theorem ok_report {s : UserState} (h : s.Ok) (r : UserReport) : (s.step (.report r)).1.Ok where
  nodup := nodup_withClient (fun c => report_mac c r) r.mac r.now h.nodup
  expire := by
    refine forall_withClient h.expire ?_ fun c hc => ?_
    · rw [report_expire]
      rfl
    · rw [report_expire]
      exact h.expire c hc
  backups := h.backups

theorem ok_expire {s : UserState} (h : s.Ok) (now : UInt32) : (s.step (.expire now)).1.Ok := by
  rw [UserState.step]
  split
  · refine ⟨?_, fun c hc => by simpa using (List.mem_filter.mp hc).2, h.backups⟩
    refine List.Nodup.sublist (List.filter_sublist.map _) ?_
    rw [List.map_map]
    have hmac : (UserNode.mac ∘ fun c : UserNode => if c.expired now then { c with expire := true } else c)
        = UserNode.mac := by
      funext c
      rw [Function.comp]
      split <;> rfl
    rw [hmac]
    exact h.nodup
  · exact h

theorem ok_restart {s : UserState} (h : s.Ok) (now : UInt32) : (s.step (.restart now)).1.Ok := by
  refine ⟨?_, ?_, h.backups⟩
  · refine List.foldlRecOn (motive := fun clients : List UserNode => (clients.map UserNode.mac).Nodup) _ _
      List.nodup_nil ?_
    intro clients hclients b _
    rw [loadClientBackup]
    refine nodup_withClient ?_ b.mac now hclients
    intro c
    rfl
  · refine List.foldlRecOn (motive := fun clients => ∀ c ∈ clients, UserNode.expire c = false) _ _ ?_ ?_
    · intro c hc
      cases hc
    · intro clients hclients b hb
      exact forall_withClient hclients (h.backups b hb) fun _ _ => h.backups b hb

theorem ok_step {s : UserState} (h : s.Ok) (e : UserEvent) : (s.step e).1.Ok := by
  cases e with
  | round r => exact ok_round h r
  | report r => exact ok_report h r
  | expire now => exact ok_expire h now
  | saveBackups => exact ⟨h.nodup, h.expire, saved_expire (f := id) h.backups h.expire⟩
  | restart now => exact ok_restart h now

theorem ok_init : UserState.Ok {} where
  nodup := List.nodup_nil
  expire := fun _ hc => nomatch hc
  backups := fun _ hb => nomatch hb

theorem ok_run (es : List UserEvent) : (UserState.run {} es).Ok :=
  List.foldlRecOn (motive := UserState.Ok) es _ ok_init fun _ hs e _ => ok_step hs e

/-! ## 6. Runs -/

theorem run_snoc (s : UserState) (es : List UserEvent) (e : UserEvent) :
    s.run (es ++ [e]) = ((s.run es).step e).1 := by
  rw [UserState.run, List.foldl_concat]
  rfl

theorem collect_append {α : Type} (f : UserState → UserEvent → List α) (s : UserState)
    (es es' : List UserEvent) : s.collect f (es ++ es') = s.collect f es ++ (s.run es).collect f es' := by
  induction es generalizing s with
  | nil => rfl
  | cons e es ih =>
    rw [List.cons_append, UserState.collect, ih, UserState.collect, List.append_assoc]
    rfl

theorem collect_snoc {α : Type} (f : UserState → UserEvent → List α) (s : UserState)
    (es : List UserEvent) (e : UserEvent) :
    s.collect f (es ++ [e]) = s.collect f es ++ f (s.run es) e := by
  rw [collect_append, UserState.collect, UserState.collect, List.append_nil]

/-- What an event reports of a client, and whether the client was active. -/
def UserState.reported (s : UserState) (mac : CStr) : UserEvent → List (UserReport × Bool)
  | .report r => if r.credits mac then [(r, s.isActive mac r)] else []
  | _ => []

/-- The reports that are counted for a client in a run. -/
def UserState.reports (s : UserState) (mac : CStr) : List UserEvent → List (UserReport × Bool) :=
  s.collect fun s e => s.reported mac e

theorem reports_snoc (s : UserState) (mac : CStr) (es : List UserEvent) (e : UserEvent) :
    s.reports mac (es ++ [e]) = s.reports mac es ++ (s.run es).reported mac e := by
  rw [UserState.reports, collect_snoc]

theorem added_snoc (s : UserState) (mac : CStr) (es : List UserEvent) (e : UserEvent) :
    s.added mac (es ++ [e]) =
      s.added mac es ++ ((s.run es).step e).2.filter fun record => record.mac = mac := by
  rw [UserState.added, collect_snoc]

/-- Only a round adds records. -/
theorem step_records (s : UserState) (e : UserEvent) : (∃ r, e = .round r) ∨ (s.step e).2 = [] := by
  cases e with
  | round r => exact .inl ⟨r, rfl⟩
  | report r => exact .inr rfl
  | expire now =>
    rw [UserState.step]
    split <;> exact .inr rfl
  | saveBackups => exact .inr rfl
  | restart now => exact .inr rfl

/-- The client is marked as online. -/
def UserState.isOnline (s : UserState) (mac : CStr) : Bool := (s.client mac).any (·.online)

theorem isOnline_iff (s : UserState) (mac : CStr) : s.isOnline mac = true ↔
    ∃ session recorded, s.presence mac = .online session recorded := by
  rw [UserState.isOnline, UserState.presence]
  cases s.client mac with
  | none => simp
  | some c => cases honline : c.online <;> simp [UserNode.presence, honline]

theorem presence_offline {s : UserState} {mac : CStr} (h : s.presence mac = .offline) :
    s.isOnline mac = false := by
  rw [← Bool.not_eq_true, isOnline_iff, h]
  rintro ⟨_, _, h⟩
  cases h

/-! ### The session of a client that is online -/

/-- After `before` the client is offline, from the event `up` on it is online. -/
structure OnlineSince (mac : CStr) (before : List UserEvent) (up : UserEvent) (after : List UserEvent) :
    Prop where
  offline : (UserState.run {} before).isOnline mac = false
  online : ∀ mid, mid <+: after → (UserState.run {} (before ++ up :: mid)).isOnline mac = true

theorem OnlineSince.snoc {mac : CStr} {before after : List UserEvent} {up e : UserEvent}
    (h : OnlineSince mac before up after)
    (he : (UserState.run {} (before ++ up :: (after ++ [e]))).isOnline mac = true) :
    OnlineSince mac before up (after ++ [e]) where
  offline := h.offline
  online := fun mid hmid => by
    rcases List.prefix_concat_iff.mp hmid with rfl | hmid
    · exact he
    · exact h.online mid hmid

/-- A session in which this was reported. -/
def sessionOf (startTime : UInt32) (reports : List (UserReport × Bool)) : OnlineSessionStat :=
  reports.foldl (fun session p => session.report p.1 p.2) { startTime := startTime }

/-- What a client that is online has behind it. -/
structure SessionSince (mac : CStr) (es : List UserEvent) (session : OnlineSessionStat) (recorded : Bool)
    (before : List UserEvent) (up : UserEvent) (after : List UserEvent) : Prop where
  events : es = before ++ up :: after
  online : OnlineSince mac before up after
  session : ∃ now, session = sessionOf now ((UserState.run {} (before ++ [up])).reports mac after)
  records : ((UserState.run {} (before ++ [up])).added mac after).map UserRecord.action =
    if recorded then [0] else []

theorem run_append (s : UserState) (es es' : List UserEvent) : s.run (es ++ es') = (s.run es).run es' :=
  List.foldl_append

theorem run_since {before after : List UserEvent} {up : UserEvent} :
    (UserState.run {} (before ++ [up])).run after = UserState.run {} (before ++ up :: after) := by
  rw [← run_append, List.append_assoc]
  rfl

/-- One more event of which the session has what it reports. -/
theorem SessionSince.snoc {mac : CStr} {es before after : List UserEvent} {e up : UserEvent}
    {session session' : OnlineSessionStat} {recorded recorded' : Bool}
    (h : SessionSince mac es session recorded before up after)
    (hpresence : (UserState.run {} (es ++ [e])).presence mac = .online session' recorded')
    (hsession : session' = ((UserState.run {} es).reported mac e).foldl
      (fun session p => session.report p.1 p.2) session)
    (hrecords : (if recorded then [0] else []) ++ (((UserState.run {} es).step e).2.filter fun record =>
      record.mac = mac).map UserRecord.action = if recorded' then [0] else []) :
    SessionSince mac (es ++ [e]) session' recorded' before up (after ++ [e]) := by
  have hevents : es ++ [e] = before ++ up :: (after ++ [e]) := by
    rw [h.events, List.append_assoc, List.cons_append]
  refine ⟨hevents, h.online.snoc ?_, ?_, ?_⟩
  · rw [← hevents, isOnline_iff]
    exact ⟨_, _, hpresence⟩
  · obtain ⟨now, hnow⟩ := h.session
    refine ⟨now, ?_⟩
    rw [reports_snoc, run_since, ← h.events, sessionOf, List.foldl_append, hsession, hnow]
    rfl
  · rw [added_snoc, run_since, ← h.events, List.map_append, h.records]
    exact hrecords

/-- A client that a round finds online was, or comes online in it. -/
theorem SessionSince.round {mac : CStr} {es : List UserEvent} {r : RoundInput}
    {session : OnlineSessionStat} {recorded : Bool}
    (h : (UserState.run {} (es ++ [.round r])).presence mac = .online session recorded)
    (ih : ∀ session recorded, (UserState.run {} es).presence mac = .online session recorded →
      ∃ before up after, SessionSince mac es session recorded before up after) :
    ∃ before up after, SessionSince mac (es ++ [.round r]) session recorded before up after := by
  obtain ⟨isOnline, isActive, hround⟩ := presence_round (ok_run es) r mac
  rw [← run_snoc, h] at hround
  cases hold : (UserState.run {} es).presence mac with
  | offline =>
    rw [hold, Presence.round] at hround
    cases hon : isOnline with
    | false =>
      rw [hon] at hround
      cases (Prod.mk.inj hround).1
    | true =>
      rw [hon] at hround
      obtain ⟨rfl, rfl⟩ := Presence.online.inj (Prod.mk.inj hround).1
      refine ⟨es, .round r, [], rfl, ⟨presence_offline hold, fun mid hmid => ?_⟩, ⟨r.now, rfl⟩, rfl⟩
      rw [List.prefix_nil.mp hmid, isOnline_iff]
      exact ⟨_, _, h⟩
  | online session₀ recorded₀ =>
    obtain ⟨before, up, after, hsince⟩ := ih _ _ hold
    rw [hold, Presence.round] at hround
    cases hon : isOnline with
    | false =>
      rw [hon] at hround
      cases (Prod.mk.inj hround).1
    | true =>
      rw [hon] at hround
      simp only [Bool.not_true, Bool.false_eq_true, if_false] at hround
      split at hround
      · rename_i hnew
        obtain ⟨hpresence, hrecords⟩ := Prod.mk.inj hround
        obtain ⟨rfl, rfl⟩ := Presence.online.inj hpresence
        refine ⟨before, up, after ++ [.round r], hsince.snoc h rfl ?_⟩
        have hnot : recorded₀ = false := by simpa using (Bool.and_eq_true_iff.mp hnew).1
        rw [hrecords, hnot]
        rfl
      · obtain ⟨hpresence, hrecords⟩ := Prod.mk.inj hround
        obtain ⟨rfl, rfl⟩ := Presence.online.inj hpresence
        refine ⟨before, up, after ++ [.round r], hsince.snoc h rfl ?_⟩
        rw [hrecords]
        exact List.append_nil _

/-- The other events leave a client that is online as it is, but for the reports. -/
theorem SessionSince.other {mac : CStr} {es : List UserEvent} {e : UserEvent}
    {session₀ session : OnlineSessionStat} {recorded : Bool}
    (h : (UserState.run {} (es ++ [e])).presence mac = .online session recorded)
    (hrecords : ((UserState.run {} es).step e).2 = [])
    (hsession : session = ((UserState.run {} es).reported mac e).foldl
      (fun session p => session.report p.1 p.2) session₀)
    (ih : ∃ before up after, SessionSince mac es session₀ recorded before up after) :
    ∃ before up after, SessionSince mac (es ++ [e]) session recorded before up after := by
  obtain ⟨before, up, after, hsince⟩ := ih
  refine ⟨before, up, after ++ [e], hsince.snoc h hsession ?_⟩
  rw [hrecords]
  exact List.append_nil _

/-- **A client that is online has the session of what was reported since it came online.** -/
theorem online_session (es : List UserEvent) (mac : CStr) {session : OnlineSessionStat} {recorded : Bool}
    (h : (UserState.run {} es).presence mac = .online session recorded) :
    ∃ before up after, SessionSince mac es session recorded before up after := by
  induction es using List.reverseRecOn generalizing session recorded with
  | nil => cases h
  | append_singleton es e ih =>
    have hstep := h
    rw [run_snoc] at hstep
    cases e with
    | round r => exact SessionSince.round h fun _ _ => ih
    | report r =>
      rw [presence_report] at hstep
      cases hold : (UserState.run {} es).presence mac with
      | offline =>
        rw [hold] at hstep
        split at hstep <;> cases hstep
      | online session₀ recorded₀ =>
        rw [hold] at hstep
        cases hcredits : r.credits mac with
        | false =>
          rw [hcredits] at hstep
          obtain ⟨rfl, rfl⟩ := Presence.online.inj hstep
          exact SessionSince.other h rfl (by rw [UserState.reported, hcredits]; rfl) (ih hold)
        | true =>
          rw [hcredits] at hstep
          obtain ⟨rfl, rfl⟩ := Presence.online.inj hstep
          exact SessionSince.other h rfl (by rw [UserState.reported, hcredits]; rfl) (ih hold)
    | expire now =>
      rw [presence_expire (ok_run es)] at hstep
      have hrecords := (step_records (UserState.run {} es) (.expire now)).resolve_left fun ⟨_, h⟩ => nomatch h
      exact SessionSince.other h hrecords rfl (ih hstep)
    | saveBackups => exact SessionSince.other h rfl rfl (ih hstep)
    | restart now =>
      rw [presence_restart] at hstep
      cases hstep

/-! ### What a record says -/

/-- The record has what these reports add up to. -/
structure UserRecord.Carries (record : UserRecord) (reports : List (UserReport × Bool)) : Prop where
  upBytes : record.upBytes = (reports.map fun p => p.1.upBytes).sum
  downBytes : record.downBytes = (reports.map fun p => p.1.downBytes).sum
  onlineDuration : record.onlineDuration = .ofNat (REPORT_INTERVAL_SECS * reports.length)
  activeDuration : record.activeDuration =
    .ofNat (REPORT_INTERVAL_SECS * (reports.filter fun p => p.2).length)
  recentApps : record.recentApps =
    (Recent.latest id (reports.flatMap fun p => p.1.apps).reverse).take MAX_RECENT_APPS

theorem sessionOf_snoc (startTime : UInt32) (reports : List (UserReport × Bool))
    (p : UserReport × Bool) :
    sessionOf startTime (reports ++ [p]) = (sessionOf startTime reports).report p.1 p.2 := by
  rw [sessionOf, List.foldl_concat]
  rfl

theorem sum_snoc {α : Type} (f : α → UInt64) (as : List α) (a : α) :
    ((as ++ [a]).map f).sum = (as.map f).sum + f a := by
  rw [List.map_append, List.sum_append, List.map_singleton, List.sum_singleton]

theorem seconds_add (n : Nat) : UInt64.ofNat (REPORT_INTERVAL_SECS * (n + 1)) =
    .ofNat (REPORT_INTERVAL_SECS * n) + .ofNat REPORT_INTERVAL_SECS := by
  rw [Nat.mul_succ, UInt64.ofNat_add]

theorem apps_pos {r : UserReport} {appid : Int} (h : appid ∈ r.apps) : 0 < appid := by
  have htype : 0 < appid.tdiv 1000 := by
    have := (List.mem_filter.mp h).2
    rw [Bool.and_eq_true, decide_eq_true_eq, decide_eq_true_eq] at this
    exact this.2
  by_contra hneg
  have hnonneg : 0 ≤ (-appid).tdiv 1000 := Int.tdiv_nonneg (by omega) (by decide)
  rw [Int.neg_tdiv] at hnonneg
  omega

/-- The apps of a session are the last ones that were used, each once. -/
theorem recentApps_push (bs : List Int) {recentApps : List Int} (apps : List Int)
    (hpos : ∀ appid ∈ apps, 0 < appid)
    (h : recentApps = (Recent.latest id bs).take MAX_RECENT_APPS) :
    apps.foldl sessionPushRecentApp recentApps =
      (Recent.latest id (apps.reverse ++ bs)).take MAX_RECENT_APPS := by
  induction apps generalizing recentApps bs with
  | nil => exact h
  | cons appid apps ih =>
    rw [List.foldl_cons, List.reverse_cons, List.append_assoc]
    refine ih (appid :: bs) (fun a ha => hpos a (List.mem_cons_of_mem _ ha)) ?_
    rw [sessionPushRecentApp, if_neg (by have := hpos appid List.mem_cons_self; omega)]
    have htouch := @Recent.touch_eq_latest Int Int Int _ id id (· == appid) id appid MAX_RECENT_APPS appid
      bs recentApps (by decide) (fun a => by simp) (fun a ha => by simpa using ha) rfl (by simpa using h)
    simpa using htouch

theorem sessionOf_carries (mac : CStr) (startTime now : UInt32) (reports : List (UserReport × Bool)) :
    (offlineRecord mac (sessionOf startTime reports) now).Carries reports := by
  have hsession : (sessionOf startTime reports).upBytes = (reports.map fun p => p.1.upBytes).sum ∧
      (sessionOf startTime reports).downBytes = (reports.map fun p => p.1.downBytes).sum ∧
      (sessionOf startTime reports).onlineDuration = .ofNat (REPORT_INTERVAL_SECS * reports.length) ∧
      (sessionOf startTime reports).activeDuration =
        .ofNat (REPORT_INTERVAL_SECS * (reports.filter fun p => p.2).length) ∧
      (sessionOf startTime reports).recentApps =
        (Recent.latest id (reports.flatMap fun p => p.1.apps).reverse).take MAX_RECENT_APPS := by
    induction reports using List.reverseRecOn with
    | nil => exact ⟨rfl, rfl, rfl, rfl, rfl⟩
    | append_singleton reports p ih =>
      obtain ⟨hup, hdown, honline, hactive, hrecent⟩ := ih
      rw [sessionOf_snoc]
      refine ⟨?_, ?_, ?_, ?_, ?_⟩
      · rw [sum_snoc, ← hup]
        rfl
      · rw [sum_snoc, ← hdown]
        rfl
      · rw [List.length_append, List.length_singleton, seconds_add, ← honline]
        rfl
      · rw [List.filter_append, List.length_append]
        cases hp : p.2 with
        | false => simp [hp, OnlineSessionStat.report, hactive]
        | true =>
          rw [List.filter_singleton, hp, cond_true, List.length_singleton, seconds_add, ← hactive]
          rfl
      · rw [List.flatMap_append, List.flatMap_singleton, List.reverse_append]
        exact recentApps_push _ _ (fun _ => apps_pos) hrecent
  obtain ⟨hup, hdown, honline, hactive, hrecent⟩ := hsession
  refine ⟨hup, hdown, honline, hactive, ?_⟩
  rw [offlineRecord, hrecent, List.take_take]
  rfl

/-- The actions are 0, 1, 0, 1, … -/
def Alternates (records : List UserRecord) : Prop :=
  records.map UserRecord.action = (List.range records.length).map (· % 2)

theorem Alternates.snoc {records : List UserRecord} {record : UserRecord} (h : Alternates records)
    (hrecord : record.action = records.length % 2) : Alternates (records ++ [record]) := by
  rw [Alternates, List.map_append, h, List.length_append, List.length_singleton, List.range_succ,
    List.map_append, List.map_singleton, List.map_singleton, hrecord]

/-- The records of a client that the last daemon of a run has added, up to now. -/
def lifetimeRecords (mac : CStr) (es : List UserEvent) : List UserRecord :=
  (es.foldl (fun (t : UserState × List UserRecord) e => ((t.1.step e).1,
    match e with
    | .restart _ => []
    | _ => t.2 ++ (t.1.step e).2.filter fun record => record.mac = mac)) ({}, [])).2

theorem lifetimeRecords_snoc (mac : CStr) (es : List UserEvent) (e : UserEvent) :
    lifetimeRecords mac (es ++ [e]) =
      match e with
      | .restart _ => []
      | _ => lifetimeRecords mac es ++
        ((UserState.run {} es).step e).2.filter fun record => record.mac = mac := by
  have hstate : ∀ (es : List UserEvent) (t : UserState × List UserRecord),
      (es.foldl (fun (t : UserState × List UserRecord) e => ((t.1.step e).1,
        match e with
        | .restart _ => []
        | _ => t.2 ++ (t.1.step e).2.filter fun record => record.mac = mac)) t).1 = t.1.run es := by
    intro es
    induction es with
    | nil => exact fun _ => rfl
    | cons e es ih =>
      intro t
      rw [List.foldl_cons, ih]
      rfl
  rw [lifetimeRecords, List.foldl_concat, hstate]
  rfl

/-- The client is online and has its record of type 0. -/
def Presence.Recorded (p : Presence) : Prop := ∃ session, p = .online session true

theorem not_recorded_offline : ¬ Presence.Recorded .offline := fun ⟨_, h⟩ => nomatch h

theorem recorded_online (session : OnlineSessionStat) (recorded : Bool) :
    Presence.Recorded (.online session recorded) ↔ recorded = true := by
  constructor
  · rintro ⟨_, h⟩
    exact (Presence.online.inj h).2
  · rintro rfl
    exact ⟨session, rfl⟩

theorem recorded_report (p : Presence) (r : UserReport) (active : Bool) :
    (p.report r active).Recorded ↔ p.Recorded := by
  cases p with
  | offline => exact Iff.rfl
  | online session recorded => rw [Presence.report, recorded_online, recorded_online]

/-- A round goes on alternating. -/
theorem Presence.alternates_round (mac : CStr) (now : UInt32) (isOnline isActive : Bool) (p : Presence)
    {records : List UserRecord} (h : Alternates records) (hodd : records.length % 2 = 1 ↔ p.Recorded) :
    Alternates (records ++ (p.round mac now isOnline isActive).2) ∧
      ((records ++ (p.round mac now isOnline isActive).2).length % 2 = 1 ↔
        (p.round mac now isOnline isActive).1.Recorded) := by
  cases p with
  | offline =>
    have heven : ¬ records.length % 2 = 1 := fun h => not_recorded_offline (hodd.mp h)
    rw [Presence.round, List.append_nil]
    refine ⟨h, iff_of_false heven ?_⟩
    cases isOnline with
    | false => exact not_recorded_offline
    | true => simp [recorded_online]
  | online session recorded =>
    rw [recorded_online] at hodd
    cases isOnline with
    | false =>
      cases recorded with
      | false =>
        have heven : ¬ records.length % 2 = 1 := by simpa using hodd
        refine ⟨?_, iff_of_false ?_ not_recorded_offline⟩
        · exact (List.append_nil records).symm ▸ h
        · exact (List.append_nil records).symm ▸ heven
      | true =>
        have hone : records.length % 2 = 1 := hodd.mpr rfl
        refine ⟨h.snoc hone.symm, iff_of_false ?_ not_recorded_offline⟩
        change ¬ (records ++ [_]).length % 2 = 1
        rw [List.length_append, List.length_singleton]
        omega
    | true =>
      by_cases hnew : (!recorded && isActive) = true
      · have heven : ¬ records.length % 2 = 1 := by
          rw [hodd]
          simpa using (Bool.and_eq_true_iff.mp hnew).1
        have hround : Presence.round mac now true isActive (.online session recorded) =
            (.online session true, [onlineRecord mac now]) := by
          simp [Presence.round, hnew]
        rw [hround]
        refine ⟨h.snoc (show 0 = records.length % 2 by omega), iff_of_true ?_ ⟨session, rfl⟩⟩
        rw [List.length_append, List.length_singleton]
        omega
      · have hround : Presence.round mac now true isActive (.online session recorded) =
            (.online session recorded, []) := by
          simp [Presence.round, hnew]
        rw [hround, List.append_nil, recorded_online]
        exact ⟨h, hodd⟩

/-- **The records alternate**, and the last one is of type 0 while the client is online and recorded. -/
theorem lifetime_alternates (mac : CStr) (es : List UserEvent) : Alternates (lifetimeRecords mac es) ∧
    ((lifetimeRecords mac es).length % 2 = 1 ↔ ((UserState.run {} es).presence mac).Recorded) := by
  induction es using List.reverseRecOn with
  | nil => exact ⟨rfl, iff_of_false Nat.zero_ne_one not_recorded_offline⟩
  | append_singleton es e ih =>
    obtain ⟨halternates, hodd⟩ := ih
    rw [lifetimeRecords_snoc, run_snoc]
    cases e with
    | round r =>
      obtain ⟨isOnline, isActive, hround⟩ := presence_round (ok_run es) r mac
      obtain ⟨hpresence, hrecords⟩ := Prod.mk.inj hround
      simp only [hpresence, hrecords]
      exact Presence.alternates_round mac r.now isOnline isActive _ halternates hodd
    | report r =>
      have hkeeps : (((UserState.run {} es).step (.report r)).1.presence mac).Recorded ↔
          ((UserState.run {} es).presence mac).Recorded := by
        rw [presence_report]
        split
        · exact recorded_report _ _ _
        · exact Iff.rfl
      rw [hkeeps]
      simp only [UserState.step, List.filter_nil, List.append_nil]
      exact ⟨halternates, hodd⟩
    | expire now =>
      have hrecords := (step_records (UserState.run {} es) (.expire now)).resolve_left fun ⟨_, h⟩ => nomatch h
      simp only [hrecords, List.filter_nil, List.append_nil, presence_expire (ok_run es)]
      exact ⟨halternates, hodd⟩
    | saveBackups =>
      simp only [UserState.step, List.filter_nil, List.append_nil]
      exact ⟨halternates, hodd⟩
    | restart now =>
      simp only [presence_restart]
      exact ⟨rfl, iff_of_false Nat.zero_ne_one not_recorded_offline⟩

/-- A record of type 1 has the session of a client that was online and recorded. -/
theorem offline_of_round {s : UserState} (h : s.Ok) {r : RoundInput} {record : UserRecord}
    (hmem : record ∈ (s.step (.round r)).2) (haction : record.action = 1) :
    ∃ session, s.presence record.mac = .online session true ∧
      ∃ now, record = offlineRecord record.mac session now := by
  obtain ⟨isOnline, isActive, hround⟩ := presence_round h r record.mac
  have hmine : record ∈ (s.step (.round r)).2.filter fun rec => rec.mac = record.mac :=
    List.mem_filter.mpr ⟨hmem, decide_eq_true rfl⟩
  rw [(Prod.mk.inj hround).2] at hmine
  cases hp : s.presence record.mac with
  | offline =>
    rw [hp] at hmine
    cases hmine
  | online session recorded =>
    rw [hp] at hmine
    cases isOnline with
    | false =>
      cases recorded with
      | false => cases hmine
      | true => exact ⟨session, rfl, r.now, List.mem_singleton.mp hmine⟩
    | true =>
      simp only [Bool.not_true, Bool.false_eq_true, if_false] at hmine
      split at hmine
      · rw [List.mem_singleton.mp hmine] at haction
        cases haction
      · cases hmine

/-- **Online and offline records.**  Those of one client, in one life of the daemon, alternate; and one
of type 1 has what was reported of the client since it came online, where its record of type 0 is from. -/
theorem user_records :
    (∀ es mac, Alternates (lifetimeRecords mac es)) ∧
    ∀ es e, ∀ record ∈ ((UserState.run {} es).step e).2, record.action = 1 →
      ∃ before up after, es = before ++ up :: after ∧ OnlineSince record.mac before up after ∧
        ((UserState.run {} (before ++ [up])).added record.mac after).map UserRecord.action = [0] ∧
        record.Carries ((UserState.run {} (before ++ [up])).reports record.mac after) := by
  refine ⟨fun es mac => (lifetime_alternates mac es).1, fun es e record hmem haction => ?_⟩
  obtain ⟨r, rfl⟩ | hnone := step_records (UserState.run {} es) e
  · obtain ⟨session, hp, now, hrecord⟩ := offline_of_round (ok_run es) hmem haction
    obtain ⟨before, up, after, hsince⟩ := online_session es _ hp
    obtain ⟨startTime, rfl⟩ := hsince.session
    refine ⟨before, up, after, hsince.events, hsince.online, hsince.records, ?_⟩
    rw [hrecord]
    exact sessionOf_carries _ startTime now _
  · rw [hnone] at hmem
    cases hmem

/-- A phone that is there for three rounds. -/
def phoneRound (now : UInt32) (there : Bool) : UserEvent :=
  .round { now := now, kernel := if there then [⟨.lit "aa:bb:cc:dd:ee:01", some 2⟩] else [] }

def phoneReport (now : UInt32) : UserEvent :=
  .report { mac := .lit "AA:BB:CC:DD:EE:01", now := now, todayStart := 0, upFlow := 3, visits := [1001] }

def phoneVisit : List UserEvent :=
  [phoneRound 600 true, phoneReport 610, phoneRound 620 true, phoneReport 670, phoneRound 680 true]

def phoneRecord : UserRecord where
  mac := .lit "aa:bb:cc:dd:ee:01"
  action := 1
  timestamp := 700
  upBytes := 6144
  onlineDuration := 120
  activeDuration := 120
  recentApps := [1001]

theorem phone_record :
    phoneRecord ∈ ((UserState.run {} phoneVisit).step (phoneRound 700 false)).2 ∧
      ∃ before up after, phoneVisit = before ++ up :: after ∧ OnlineSince phoneRecord.mac before up after ∧
        ((UserState.run {} (before ++ [up])).added phoneRecord.mac after).map UserRecord.action = [0] ∧
        phoneRecord.Carries ((UserState.run {} (before ++ [up])).reports phoneRecord.mac after) :=
  have hmem : phoneRecord ∈ ((UserState.run {} phoneVisit).step (phoneRound 700 false)).2 := by
    decide +kernel
  ⟨hmem, user_records.2 phoneVisit (phoneRound 700 false) phoneRecord hmem rfl⟩

end Oaf
