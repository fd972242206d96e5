/-
# The history of visits

A report opens a visit of its app, or extends it.  A visit that ends is kept, if it was long enough: it
goes to the closed visits of its client, and a row of it to `app_visit_record`.  At midnight all open visits
end, and if a client has closed visits of the day before, the rows of that day are deleted and those of the
closed visits are written in their place; which is to be the same.

It is not when the daemon was restarted in that day: then the closed visits are those since the restart, and
the rows from before it go with the others.

* `count_archiveClientRows`: the rows of one visit after its client's turn of the archiving.
* `VisitHistory.Ok`, `ok_handle`: what holds in any run, of the open visits, the closed ones and the rows.
* `visit_saved_once`: **a saved visit has one row**, as long as no archiving lacks a row that it deletes.
* `archive_loses`: and one that does loses the row of a visit.
-/
import Oaf.Client.Hours
import Oaf.Client.Leases
import Oaf.Lib.Runs

namespace Oaf

open CLib Chains Runs

/-! ## 1. Days -/

def SECONDS_PER_DAY : UInt32 := 86400
def MAX_RECORD_DAY : UInt32 := 30

/-- `get_today_start_timestamp_from_ts`, and `get_today_start_timestamp` of the present time. -/
def getTodayStartTimestampFromTs (zone : TimeZone) (timestamp : UInt32) : UInt32 :=
  match zone.localtime timestamp.toNat with
  | none => 0
  | some tm => UInt32.ofInt (zone.mktime { tm with tmHour := 0, tmMin := 0, tmSec := 0 })

/-- `tm_mday`: the day of the month of a date of the Gregorian calendar.  The date is counted from
1970-01-01; the computation counts from the first of March of the year 0. -/
def tmMday (date : Int) : Int :=
  let dayOfEra := (date + 719468) % 146097
  let yearOfEra := (dayOfEra - dayOfEra / 1460 + dayOfEra / 36524 - dayOfEra / 146096) / 365
  let dayOfYear := dayOfEra - (365 * yearOfEra + yearOfEra / 4 - yearOfEra / 100)
  let month := (5 * dayOfYear + 2) / 153
  dayOfYear - (153 * month + 2) / 5 + 1

/-! ## 2. Visits -/

/-- `client_node_t`, with its lists of visits. -/
structure VisitClient where
  mac : CStr
  onlineVisit : List VisitInfo := []
  visit : List VisitInfo := []
deriving DecidableEq

/-- A row of `app_visit_record`. -/
structure VisitRow where
  mac : CStr
  recordDate : UInt32
  appid : Int
  startTime : UInt32
  endTime : UInt32
  duration : Int
  action : Int
deriving DecidableEq

def AppValidTime := { seconds : Int // 0 < seconds }

/-- `load_app_valid_time_config`. -/
def loadAppValidTimeConfig (appValidTime : Int) : AppValidTime :=
  if h : 0 < appValidTime then ⟨appValidTime, h⟩ else ⟨300, by decide⟩

def ONLINE_VISIT_TIMEOUT_SEC : Int := 300

/-- `latest_time - first_time`, as an `int`. -/
def VisitInfo.totalTime (v : VisitInfo) : Int := Kernel.toInt32 (v.latestTime - v.firstTime).toNat

/-- What both functions write of a visit. -/
def visitRow (mac : CStr) (recordDate : UInt32) (v : VisitInfo) : VisitRow where
  mac := mac
  recordDate := recordDate
  appid := v.appid
  startTime := v.firstTime
  endTime := v.latestTime
  duration := if v.totalTime = 0 then 1 else v.totalTime
  action := v.action

/-- `find_client_node` and, if there is none, `add_client_node`; and then a change of the client. -/
def withVisitClient (mac : CStr) (f : VisitClient → VisitClient) (clients : List VisitClient) :
    List VisitClient :=
  if mac = .empty then clients
  else upsert VisitClient.mac (normalizeMacLower mac) { mac := normalizeMacLower mac } f clients

/-- The loop over `visit_info`, for one app and its action. -/
def reportVisit (now : UInt32) (onlineVisit : List VisitInfo) (p : Int × Int) : List VisitInfo :=
  if p.1.tmod 1000 ≤ 0 || p.1.tdiv 1000 ≤ 0 then onlineVisit
  else if onlineVisit.any fun v => v.appid = p.1 && v.action = p.2 then
    updateFirst (fun v => v.appid = p.1 && v.action = p.2) (fun v => { v with latestTime := now }) onlineVisit
  else ⟨p.1, now, now, p.2⟩ :: onlineVisit

/-- The open visits that end, and have been long enough. -/
def VisitClient.kept (valid : AppValidTime) (ends : VisitInfo → Bool) (c : VisitClient) : List VisitInfo :=
  c.onlineVisit.filter fun v => ends v && !(v.totalTime < valid.1)

/-- The open visits that end go to the closed ones, or are gone. -/
def VisitClient.close (valid : AppValidTime) (ends : VisitInfo → Bool) (c : VisitClient) : VisitClient :=
  { c with
    onlineVisit := c.onlineVisit.filter fun v => !ends v
    visit := (c.kept valid ends).reverse ++ c.visit }

/-- `move_expired_online_visit_to_offline` takes the visits that nobody has extended for a while. -/
def visitTimedOut (now : UInt32) (v : VisitInfo) : Bool :=
  ONLINE_VISIT_TIMEOUT_SEC < Kernel.toInt32 ((now - v.latestTime).toNat : Int)

/-- The closed visits of the day that begins at `date`. -/
def VisitClient.visitsOf (date : UInt32) (c : VisitClient) : List VisitInfo :=
  c.visit.filter fun v => date ≤ v.firstTime && v.firstTime ≤ date + SECONDS_PER_DAY - 1

/-- `save_visit_record_to_db` -/
def saveVisitRecordToDb (zone : TimeZone) (mac : CStr) (db : List VisitRow) (v : VisitInfo) : List VisitRow :=
  db ++ [visitRow mac (getTodayStartTimestampFromTs zone v.firstTime) v]

/-- `save_client_visit_data_to_file` -/
def saveClientVisitDataToFile (date : UInt32) (db : List VisitRow) (c : VisitClient) : List VisitRow :=
  if (c.visitsOf date).isEmpty then db
  else (db.filter fun row => !(row.mac = c.mac && row.recordDate = date)) ++
    (c.visitsOf date).map (visitRow c.mac date)

/-- `delete_expired_visit_records`, from `cleanup_old_record_files`. -/
def deleteExpiredVisitRecords (now : UInt32) (db : List VisitRow) : List VisitRow :=
  db.filter fun row => !(row.recordDate < now - MAX_RECORD_DAY * SECONDS_PER_DAY)

/-! ## 3. The daemon -/

structure HistoryState where
  /-- The time of the last event. -/
  now : UInt32 := 0
  clients : List VisitClient := []
  /-- The table `app_visit_record`. -/
  appVisitRecord : List VisitRow := []
  appValidTime : AppValidTime
  /-- `last_mday`, once it is set. -/
  lastMday : Option Int := none

inductive HistoryEvent where
  /-- A round finds a client. -/
  | found (mac : CStr)
  /-- A report, with its apps and their last actions. -/
  | report (now : UInt32) (mac : CStr) (visits : List (Int × Int))
  /-- `move_expired_online_visit_to_offline` -/
  | moveExpired (now : UInt32)
  /-- `daily_archive_handle` -/
  | dailyArchive (now : UInt32)
  /-- `flush_expire_client_node`, for these clients. -/
  | flushExpired (gone : List CStr)
  /-- Another daemon, with its `app_valid_time` and the clients of the backup files. -/
  | restart (appValidTime : Int) (backups : List CStr)

/-- What the visits of a client that end write. -/
def saveKept (zone : TimeZone) (valid : AppValidTime) (ends : VisitInfo → Bool) (db : List VisitRow)
    (c : VisitClient) : List VisitRow :=
  (c.kept valid ends).foldl (saveVisitRecordToDb zone c.mac) db

/-- `move_expired_online_visit_to_offline` -/
def HistoryState.moveExpired (zone : TimeZone) (s : HistoryState) (now : UInt32) : HistoryState :=
  { s with
    clients := s.clients.map (·.close s.appValidTime (visitTimedOut now))
    appVisitRecord := s.clients.foldl (saveKept zone s.appValidTime (visitTimedOut now)) s.appVisitRecord }

/-- A turn of the loop of `check_and_archive_all_clients`: what it does to the table. -/
def archiveClientRows (zone : TimeZone) (valid : AppValidTime) (yesterday : UInt32) (db : List VisitRow)
    (c : VisitClient) : List VisitRow :=
  saveClientVisitDataToFile yesterday (saveKept zone valid (fun _ => true) db c)
    (c.close valid fun _ => true)

/-- And what it does to the client. -/
def VisitClient.archive (valid : AppValidTime) (yesterday : UInt32) (c : VisitClient) : VisitClient :=
  let c := c.close valid fun _ => true
  { c with
    visit := c.visit.filter fun v =>
      !(yesterday ≤ v.firstTime && v.firstTime ≤ yesterday + SECONDS_PER_DAY - 1) }

/-- `check_and_archive_all_clients` -/
def HistoryState.checkAndArchiveAllClients (zone : TimeZone) (s : HistoryState) (now : UInt32) :
    HistoryState :=
  let yesterday := getTodayStartTimestampFromTs zone now - SECONDS_PER_DAY
  { s with
    clients := s.clients.map (·.archive s.appValidTime yesterday)
    appVisitRecord := deleteExpiredVisitRecords now
      (s.clients.foldl (archiveClientRows zone s.appValidTime yesterday) s.appVisitRecord) }

/-- `tm_mday`, at a time. -/
def mdayAt (zone : TimeZone) (now : UInt32) : Option Int :=
  (zone.localtime now.toNat).map fun tm => tmMday tm.tmDate

/-- Whether `daily_archive_handle` archives. -/
def HistoryState.dateChanged (zone : TimeZone) (s : HistoryState) (now : UInt32) : Bool :=
  (mdayAt zone now).any fun current => s.lastMday.any (· ≠ current)

/-- `daily_archive_handle` -/
def HistoryState.dailyArchive (zone : TimeZone) (s : HistoryState) (now : UInt32) : HistoryState :=
  let s' := if s.dateChanged zone now then s.checkAndArchiveAllClients zone now else s
  { s' with lastMday := (mdayAt zone now).or s.lastMday }

/-- In the first two minutes of a day a report makes the client, and no visit. -/
def reportDropped (zone : TimeZone) (now : UInt32) : Bool :=
  let todayStart := getTodayStartTimestampFromTs zone now
  todayStart ≤ now && now - todayStart < 120

def HistoryState.handle (zone : TimeZone) (s : HistoryState) : HistoryEvent → HistoryState
  | .found mac => { s with clients := withVisitClient mac id s.clients }
  | .report now mac visits =>
    { s with clients := withVisitClient mac (fun c =>
        if reportDropped zone now then c
        else { c with onlineVisit := visits.foldl (reportVisit now) c.onlineVisit }) s.clients }
  | .moveExpired now => s.moveExpired zone now
  | .dailyArchive now => s.dailyArchive zone now
  | .flushExpired gone => { s with clients := s.clients.filter fun c => !gone.contains c.mac }
  | .restart appValidTime backups =>
    { now := s.now
      clients := backups.foldl (fun clients mac => withVisitClient mac id clients) []
      appVisitRecord := s.appVisitRecord
      appValidTime := loadAppValidTimeConfig appValidTime }

/-- The visits with which an event calls `save_visit_record_to_db`. -/
def HistoryState.saves (zone : TimeZone) (s : HistoryState) : HistoryEvent → List (CStr × VisitInfo)
  | .moveExpired now => s.clients.flatMap fun c =>
    (c.kept s.appValidTime (visitTimedOut now)).map fun v => (c.mac, v)
  | .dailyArchive now =>
    if s.dateChanged zone now then s.clients.flatMap fun c =>
      (c.kept s.appValidTime fun _ => true).map fun v => (c.mac, v)
    else []
  | _ => []

/-- The time of an event that reads the clock. -/
def HistoryEvent.time : HistoryEvent → Option UInt32
  | .report now _ _ | .moveExpired now | .dailyArchive now => some now
  | _ => none

/-- The daemon, and all the visits that were saved. -/
structure VisitHistory where
  state : HistoryState
  saved : List (CStr × VisitInfo) := []

/-- One event, not before the one that came before it. -/
def VisitHistory.step (zone : TimeZone) (t : VisitHistory) (e : HistoryEvent) : Option VisitHistory :=
  let now := e.time.getD t.state.now
  if now < t.state.now then none
  else some ⟨{ t.state.handle zone e with now := now }, t.saved ++ t.state.saves zone e⟩

/-- The first daemon. -/
def VisitHistory.start (appValidTime : Int) : VisitHistory :=
  ⟨{ appValidTime := loadAppValidTimeConfig appValidTime }, []⟩

/-- The row that `save_visit_record_to_db` writes. -/
def savedRow (zone : TimeZone) (p : CStr × VisitInfo) : VisitRow :=
  visitRow p.1 (getTodayStartTimestampFromTs zone p.2.firstTime) p.2

/-- The day has not been over for longer than the records are kept. -/
def Retained (now date : UInt32) : Prop :=
  now.toNat ≤ date.toNat + (MAX_RECORD_DAY * SECONDS_PER_DAY).toNat

instance (now date : UInt32) : Decidable (Retained now date) := Nat.decLe _ _

/-- An archiving keeps the rows: the clock is late enough for the days to be subtracted, and of a client and
day that it writes again, all rows are of closed visits that the daemon has. -/
def HistoryState.archiveKeepsRows (zone : TimeZone) (s : HistoryState) (now : UInt32) : Bool :=
  let yesterday := getTodayStartTimestampFromTs zone now - SECONDS_PER_DAY
  MAX_RECORD_DAY * SECONDS_PER_DAY ≤ now && s.clients.all fun c =>
    ((c.close s.appValidTime fun _ => true).visitsOf yesterday).isEmpty ||
      s.appVisitRecord.all fun row => !(row.mac = c.mac && row.recordDate = yesterday) ||
        c.visit.any fun v => row = visitRow c.mac yesterday v

def VisitHistory.keepsRows (zone : TimeZone) (t : VisitHistory) : HistoryEvent → Bool
  | .dailyArchive now => !t.state.dateChanged zone now || t.state.archiveKeepsRows zone now
  | _ => true

/-! ## 4. Days of 86400 seconds -/

theorem todayStart_fixed (offset : Int) (t : UInt32) : getTodayStartTimestampFromTs (.fixed offset) t =
    UInt32.ofInt (t.toNat - (t.toNat + offset) % 86400) := by
  rw [getTodayStartTimestampFromTs]
  simp only [TimeZone.fixed, Tm.seconds, Tm.ofSeconds]
  congr 1
  omega

theorem toNat_ofInt_emod (x : Int) : ((UInt32.ofInt x).toNat : Int) = x % 2 ^ 32 := by
  rw [UInt32.ofInt, UInt32.toNat_ofNat_of_lt' (by rw [UInt32.size]; omega)]
  omega

theorem todayStart_toNat (offset : Int) (t : UInt32) :
    ((getTodayStartTimestampFromTs (.fixed offset) t).toNat : Int) =
      (t.toNat - (t.toNat + offset) % 86400) % 2 ^ 32 := by
  rw [todayStart_fixed, toNat_ofInt_emod]

/-- The times of a day are those that come to its beginning. -/
theorem day_iff {t y o : Int} (hy : (y + o) % 86400 = 0) :
    (y ≤ t ∧ t ≤ y + 86399) ↔ t - (t + o) % 86400 = y := by
  omega

/-- What wraps does not come to a time that is a day before the last one. -/
theorem wrapped_iff {x y : Int} (hx : -86400 < x) (hlt : x < 2 ^ 32) (h0 : 0 ≤ y) (hy : y + 86400 < 2 ^ 32) :
    x % 2 ^ 32 = y ↔ x = y := by
  omega

/-- The day before is the times of which it is the day. -/
theorem yesterday_iff (offset : Int) {now : UInt32} (h : MAX_RECORD_DAY * SECONDS_PER_DAY ≤ now) (t : UInt32) :
    let yesterday := getTodayStartTimestampFromTs (.fixed offset) now - SECONDS_PER_DAY
    (yesterday ≤ t ∧ t ≤ yesterday + SECONDS_PER_DAY - 1) ↔
      getTodayStartTimestampFromTs (.fixed offset) t = yesterday := by
  intro yesterday
  have hnow : 2592000 ≤ now.toNat := UInt32.le_iff_toNat_le.mp h
  have hlt := now.toNat_lt
  have htlt := t.toNat_lt
  have htoday := todayStart_toNat offset now
  have hday := todayStart_toNat offset t
  have hday86400 : (86400 : UInt32).toNat = 86400 := rfl
  have hyesterday : (yesterday.toNat : Int) = now.toNat - (now.toNat + offset) % 86400 - 86400 := by
    simp only [yesterday, SECONDS_PER_DAY]
    rw [UInt32.toNat_sub, hday86400]
    omega
  have hend : (yesterday + SECONDS_PER_DAY - 1).toNat = yesterday.toNat + 86399 := by
    simp only [SECONDS_PER_DAY]
    rw [UInt32.toNat_sub, UInt32.toNat_add, hday86400, UInt32.toNat_one]
    omega
  have hstart : ((yesterday.toNat : Int) + offset) % 86400 = 0 := by omega
  have hiff := @day_iff t.toNat yesterday.toNat offset hstart
  have hwrap := @wrapped_iff (t.toNat - (t.toNat + offset) % 86400) yesterday.toNat
    (by omega) (by omega) (by omega) (by omega)
  rw [UInt32.le_iff_toNat_le, UInt32.le_iff_toNat_le, hend, ← UInt32.toNat_inj, ← Int.ofNat_inj, hday,
    hwrap, ← hiff]
  omega

/-! ## 5. The rows of one visit -/

theorem visitRow_inj {mac mac' : CStr} {date date' : UInt32} {v v' : VisitInfo}
    (h : visitRow mac date v = visitRow mac' date' v') : mac = mac' ∧ date = date' ∧ v = v' := by
  cases v
  cases v'
  simp only [visitRow, VisitRow.mk.injEq] at h
  obtain ⟨hmac, hdate, happid, hfirst, hlatest, -, haction⟩ := h
  exact ⟨hmac, hdate, by rw [happid, hfirst, hlatest, haction]⟩

theorem savedRow_inj {zone : TimeZone} {p q : CStr × VisitInfo} (h : savedRow zone p = savedRow zone q) :
    p = q := by
  obtain ⟨hmac, -, hvisit⟩ := visitRow_inj h
  exact Prod.ext hmac hvisit

/-- Among the rows of a client, those of a visit are as many as the visits are. -/
theorem count_map_visitRow (mac : CStr) (date : UInt32) (vs : List VisitInfo) (v : VisitInfo) :
    (vs.map (visitRow mac date)).count (visitRow mac date v) = vs.count v :=
  List.count_map_of_injective vs _ (fun _ _ h => (visitRow_inj h).2.2) v

variable {zone : TimeZone} {valid : AppValidTime} {ends : VisitInfo → Bool}

theorem saveKept_eq (db : List VisitRow) (c : VisitClient) :
    saveKept zone valid ends db c = db ++ (c.kept valid ends).map fun v => savedRow zone (c.mac, v) := by
  rw [saveKept]
  induction c.kept valid ends generalizing db with
  | nil => exact (List.append_nil db).symm
  | cons v vs ih =>
    rw [List.foldl_cons, ih, List.map_cons, saveVisitRecordToDb, List.append_assoc]
    rfl

theorem count_saveKept (db : List VisitRow) (c : VisitClient) (v : VisitInfo) :
    (saveKept zone valid ends db c).count (savedRow zone (c.mac, v)) =
      db.count (savedRow zone (c.mac, v)) + (c.kept valid ends).count v := by
  rw [saveKept_eq, List.count_append,
    List.count_map_of_injective _ (fun v => savedRow zone (c.mac, v))
      fun _ _ h => congrArg Prod.snd (savedRow_inj h)]

theorem count_saveKept_other (db : List VisitRow) {c : VisitClient} {p : CStr × VisitInfo}
    (hmac : c.mac ≠ p.1) :
    (saveKept zone valid ends db c).count (savedRow zone p) = db.count (savedRow zone p) := by
  have hnone : ((c.kept valid ends).map fun v => savedRow zone (c.mac, v)).count (savedRow zone p) = 0 := by
    refine List.count_eq_zero_of_not_mem fun hmem => ?_
    obtain ⟨v, -, hv⟩ := List.mem_map.mp hmem
    exact hmac (congrArg Prod.fst (savedRow_inj hv))
  rw [saveKept_eq, List.count_append, hnone, Nat.add_zero]

/-- Of so many rows of a visit, what its client's turn of the archiving leaves and writes. -/
def rowsAfterTurn (zone : TimeZone) (valid : AppValidTime) (yesterday : UInt32) (v : VisitInfo)
    (c : VisitClient) (rows : Nat) : Nat :=
  if ((c.close valid fun _ => true).visitsOf yesterday).isEmpty = false ∧
      getTodayStartTimestampFromTs zone v.firstTime = yesterday
  then ((c.close valid fun _ => true).visitsOf yesterday).count v
  else rows + (c.kept valid fun _ => true).count v

/-- **The rows of a visit after its client's turn of the archiving.** -/
theorem count_archiveClientRows (yesterday : UInt32) (db : List VisitRow) (c : VisitClient) (v : VisitInfo) :
    (archiveClientRows zone valid yesterday db c).count (savedRow zone (c.mac, v)) =
      rowsAfterTurn zone valid yesterday v c (db.count (savedRow zone (c.mac, v))) := by
  rw [archiveClientRows, saveClientVisitDataToFile, rowsAfterTurn]
  cases hempty : ((c.close valid fun _ => true).visitsOf yesterday).isEmpty with
  | true =>
    rw [if_pos rfl, if_neg (by simp), count_saveKept]
  | false =>
    rw [if_neg (by simp), List.count_append]
    by_cases hdate : getTodayStartTimestampFromTs zone v.firstTime = yesterday
    · rw [if_pos ⟨rfl, hdate⟩, List.count_eq_zero_of_not_mem, Nat.zero_add]
      · have hrow : savedRow zone (c.mac, v) = visitRow c.mac yesterday v := by rw [savedRow, hdate]
        rw [hrow]
        exact count_map_visitRow c.mac yesterday _ v
      · intro hmem
        have hkeep := (List.mem_filter.mp hmem).2
        simp [savedRow, visitRow, VisitClient.close, hdate] at hkeep
    · rw [if_neg fun h => hdate h.2, List.count_filter (by simp [savedRow, visitRow, hdate]), count_saveKept,
        List.count_eq_zero_of_not_mem (l := List.map _ _), Nat.add_zero]
      intro hmem
      obtain ⟨v', -, hv'⟩ := List.mem_map.mp hmem
      exact hdate (visitRow_inj hv').2.1.symm

theorem count_archiveClientRows_other (yesterday : UInt32) (db : List VisitRow) {c : VisitClient}
    {p : CStr × VisitInfo} (hmac : c.mac ≠ p.1) :
    (archiveClientRows zone valid yesterday db c).count (savedRow zone p) = db.count (savedRow zone p) := by
  rw [archiveClientRows, saveClientVisitDataToFile]
  split
  · exact count_saveKept_other db hmac
  · have hnone : (((c.close valid fun _ => true).visitsOf yesterday).map
        (visitRow c.mac yesterday)).count (savedRow zone p) = 0 := by
      refine List.count_eq_zero_of_not_mem fun hmem => ?_
      obtain ⟨v', -, hv'⟩ := List.mem_map.mp hmem
      exact hmac (visitRow_inj hv').1
    rw [List.count_append, List.count_filter (by simp [savedRow, visitRow, VisitClient.close, hmac.symm]),
      count_saveKept_other db hmac]
    exact congrArg _ hnone

/-! ## 6. What holds of a client -/

def visitKey (v : VisitInfo) : Int × Int := (v.appid, v.action)

/-- The visits of a client.  An open one began after all saved ones of its app and action. -/
structure VisitClient.Ok (now : UInt32) (saved : List (CStr × VisitInfo)) (c : VisitClient) : Prop where
  keys : (c.onlineVisit.map visitKey).Nodup
  times : ∀ v ∈ c.onlineVisit, v.firstTime ≤ v.latestTime ∧ v.latestTime ≤ now
  fresh : ∀ v ∈ c.onlineVisit, ∀ r, (c.mac, r) ∈ saved → visitKey r = visitKey v → r.firstTime < v.firstTime
  nodup : c.visit.Nodup
  saved : ∀ v ∈ c.visit, (c.mac, v) ∈ saved

variable {now : UInt32} {saved : List (CStr × VisitInfo)} {c : VisitClient}

theorem ok_new (now : UInt32) (saved : List (CStr × VisitInfo)) (mac : CStr) :
    VisitClient.Ok now saved { mac := mac } where
  keys := List.nodup_nil
  times := fun _ h => nomatch h
  fresh := fun _ h => nomatch h
  nodup := List.nodup_nil
  saved := fun _ h => nomatch h

theorem VisitClient.Ok.mono {now' : UInt32} (h : c.Ok now saved) (hnow : now ≤ now') : c.Ok now' saved :=
  { h with times := fun v hv => ⟨(h.times v hv).1, UInt32.le_trans (h.times v hv).2 hnow⟩ }

/-- An open visit is not one that was saved. -/
theorem VisitClient.Ok.not_saved (h : c.Ok now saved) {v : VisitInfo} (hv : v ∈ c.onlineVisit) :
    (c.mac, v) ∉ saved :=
  fun hmem => UInt32.lt_irrefl _ (h.fresh v hv v hmem rfl)

/-- A report leaves the client as it is to be. -/
theorem VisitClient.Ok.reportVisit (h : c.Ok now saved)
    (hsaved : ∀ p ∈ saved, p.2.firstTime < p.2.latestTime ∧ p.2.latestTime ≤ now) (p : Int × Int) :
    VisitClient.Ok now saved { c with onlineVisit := reportVisit now c.onlineVisit p } := by
  rw [Oaf.reportVisit]
  split
  · exact h
  · split
    · refine { h with keys := ?_, times := ?_, fresh := ?_ }
      · rw [map_updateFirst visitKey _ c.onlineVisit]
        · exact h.keys
        · intro v _
          rfl
      · intro v hv
        rcases of_mem_updateFirst hv with hold | ⟨old, hold, -, rfl⟩
        · exact h.times v hold
        · exact ⟨UInt32.le_trans (h.times old hold).1 (h.times old hold).2, UInt32.le_refl now⟩
      · intro v hv r hr hkey
        rcases of_mem_updateFirst hv with hold | ⟨old, hold, -, rfl⟩
        · exact h.fresh v hold r hr hkey
        · exact h.fresh old hold r hr hkey
    · rename_i hnone
      refine { h with keys := ?_, times := ?_, fresh := ?_ }
      · rw [List.map_cons, List.nodup_cons]
        refine ⟨fun hmem => hnone ?_, h.keys⟩
        obtain ⟨v, hv, hkey⟩ := List.mem_map.mp hmem
        obtain ⟨happid, haction⟩ := Prod.mk.inj hkey
        exact List.any_eq_true.mpr ⟨v, hv, by simp [happid, haction]⟩
      · intro v hv
        rcases List.mem_cons.mp hv with rfl | hold
        · exact ⟨UInt32.le_refl now, UInt32.le_refl now⟩
        · exact h.times v hold
      · intro v hv r hr hkey
        rcases List.mem_cons.mp hv with rfl | hold
        · exact UInt32.lt_of_lt_of_le (hsaved _ hr).1 (hsaved _ hr).2
        · exact h.fresh v hold r hr hkey

theorem VisitClient.Ok.reportVisits (h : c.Ok now saved)
    (hsaved : ∀ p ∈ saved, p.2.firstTime < p.2.latestTime ∧ p.2.latestTime ≤ now)
    (visits : List (Int × Int)) :
    VisitClient.Ok now saved { c with onlineVisit := visits.foldl (Oaf.reportVisit now) c.onlineVisit } := by
  induction visits generalizing c with
  | nil => exact h
  | cons p visits ih => exact ih (h.reportVisit hsaved p)

/-- A visit is kept when it has been longer than no time. -/
theorem kept_long (h : c.Ok now saved) {v : VisitInfo} (hv : v ∈ c.kept valid ends) :
    v ∈ c.onlineVisit ∧ ends v = true ∧ v.firstTime < v.latestTime ∧ v.latestTime ≤ now := by
  obtain ⟨hmem, hkept⟩ := List.mem_filter.mp hv
  rw [Bool.and_eq_true, Bool.not_eq_true', decide_eq_false_iff_not] at hkept
  obtain ⟨hends, hlong⟩ := hkept
  refine ⟨hmem, hends, ?_, (h.times v hmem).2⟩
  have hvalid := valid.2
  by_contra hnot
  have heq : v.latestTime = v.firstTime := UInt32.le_antisymm (UInt32.not_lt.mp hnot) (h.times v hmem).1
  have hzero : v.totalTime = 0 := by
    rw [VisitInfo.totalTime, heq, UInt32.sub_self, UInt32.toNat_zero]
    decide
  omega

theorem kept_nodup (h : c.Ok now saved) : (c.kept valid ends).Nodup :=
  (h.keys.of_map _).sublist List.filter_sublist

/-- To end visits leaves the client as it is to be, when those that are kept are saved. -/
theorem VisitClient.Ok.close (h : c.Ok now saved) {saved' : List (CStr × VisitInfo)}
    (hsaved : ∀ v, (c.mac, v) ∈ saved' ↔ (c.mac, v) ∈ saved ∨ v ∈ c.kept valid ends) :
    (c.close valid ends).Ok now saved' where
  keys := h.keys.sublist (List.filter_sublist.map _)
  times := fun v hv => h.times v (List.mem_of_mem_filter hv)
  fresh := fun v hv r hr hkey => by
    obtain ⟨hmem, hgoes⟩ := List.mem_filter.mp hv
    rcases (hsaved r).mp hr with hold | hkept
    · exact h.fresh v hmem r hold hkey
    · obtain ⟨hr, hends, -⟩ := kept_long h hkept
      rw [List.inj_on_of_nodup_map h.keys hr hmem hkey] at hends
      rw [hends] at hgoes
      cases hgoes
  nodup := by
    refine List.nodup_append'.mpr ⟨List.nodup_reverse.mpr (kept_nodup h), h.nodup, ?_⟩
    intro v hkept hvisit
    exact h.not_saved (kept_long h (List.mem_reverse.mp hkept)).1 (h.saved v hvisit)
  saved := fun v hv => by
    refine (hsaved v).mpr ?_
    rcases List.mem_append.mp hv with hkept | hvisit
    · exact .inr (List.mem_reverse.mp hkept)
    · exact .inl (h.saved v hvisit)

theorem VisitClient.Ok.archive (h : (c.close valid fun _ => true).Ok now saved) (yesterday : UInt32) :
    (c.archive valid yesterday).Ok now saved where
  keys := h.keys
  times := h.times
  fresh := h.fresh
  nodup := h.nodup.sublist List.filter_sublist
  saved := fun v hv => h.saved v (List.mem_of_mem_filter hv)

/-! ## 7. What holds of the daemon -/

/-- The invariant of a run. -/
structure VisitHistory.Ok (zone : TimeZone) (t : VisitHistory) : Prop where
  nodup : (t.state.clients.map VisitClient.mac).Nodup
  clients : ∀ c ∈ t.state.clients, c.Ok t.state.now t.saved
  saved : ∀ p ∈ t.saved, p.2.firstTime < p.2.latestTime ∧ p.2.latestTime ≤ t.state.now
  rows : ∀ row ∈ t.state.appVisitRecord, ∃ p ∈ t.saved, row = savedRow zone p
  once : ∀ p ∈ t.saved, Retained t.state.now (getTodayStartTimestampFromTs zone p.2.firstTime) →
    t.state.appVisitRecord.count (savedRow zone p) = 1

theorem Retained.earlier {now now' date : UInt32} (hnow : now ≤ now') (h : Retained now' date) :
    Retained now date :=
  Nat.le_trans (UInt32.le_iff_toNat_le.mp hnow) h

/-- An event that leaves the table alone. -/
theorem VisitHistory.Ok.of_clients {t : VisitHistory} {s : HistoryState} (h : t.Ok zone)
    (hrows : s.appVisitRecord = t.state.appVisitRecord) (hnow : t.state.now ≤ s.now)
    (hnodup : (s.clients.map VisitClient.mac).Nodup) (hclients : ∀ c ∈ s.clients, c.Ok s.now t.saved) :
    VisitHistory.Ok zone ⟨s, t.saved⟩ where
  nodup := hnodup
  clients := hclients
  saved := fun p hp => ⟨(h.saved p hp).1, UInt32.le_trans (h.saved p hp).2 hnow⟩
  rows := fun row hrow => h.rows row (hrows ▸ hrow)
  once := fun p hp hretained => hrows ▸ h.once p hp (hretained.earlier hnow)

/-- The visits that a closing saves. -/
def keptOf (valid : AppValidTime) (ends : VisitInfo → Bool) (clients : List VisitClient) :
    List (CStr × VisitInfo) :=
  clients.flatMap fun c => (c.kept valid ends).map fun v => (c.mac, v)

theorem mem_keptOf {clients : List VisitClient} {p : CStr × VisitInfo} :
    p ∈ keptOf valid ends clients ↔ ∃ c ∈ clients, c.mac = p.1 ∧ p.2 ∈ c.kept valid ends := by
  rw [keptOf, List.mem_flatMap]
  constructor
  · rintro ⟨c, hc, hmem⟩
    obtain ⟨v, hv, rfl⟩ := List.mem_map.mp hmem
    exact ⟨c, hc, rfl, hv⟩
  · rintro ⟨c, hc, hmac, hv⟩
    exact ⟨c, hc, List.mem_map.mpr ⟨p.2, hv, Prod.ext hmac rfl⟩⟩

/-- What a client saves is what is saved of its MAC. -/
theorem mem_saved_keptOf {clients : List VisitClient} (hnodup : (clients.map VisitClient.mac).Nodup)
    {c : VisitClient} (hc : c ∈ clients) (v : VisitInfo) :
    (c.mac, v) ∈ saved ++ keptOf valid ends clients ↔ (c.mac, v) ∈ saved ∨ v ∈ c.kept valid ends := by
  rw [List.mem_append, mem_keptOf]
  refine or_congr_right ⟨?_, fun hv => ⟨c, hc, rfl, hv⟩⟩
  rintro ⟨d, hd, hmac, hv⟩
  rwa [List.inj_on_of_nodup_map hnodup hd hc hmac] at hv

/-- What a closing saves was open, and is now over. -/
theorem keptOf_times {t : VisitHistory} (h : t.Ok zone) {p : CStr × VisitInfo}
    (hp : p ∈ keptOf valid ends t.state.clients) :
    p.2.firstTime < p.2.latestTime ∧ p.2.latestTime ≤ t.state.now := by
  obtain ⟨c, hc, -, hv⟩ := mem_keptOf.mp hp
  exact (kept_long (h.clients c hc) hv).2.2

theorem mem_saved_of_not_kept {clients : List VisitClient} {p : CStr × VisitInfo}
    (hp : p ∈ saved ++ keptOf valid ends clients)
    (hnot : ∀ c ∈ clients, c.mac = p.1 → p.2 ∉ c.kept valid ends) : p ∈ saved := by
  rcases List.mem_append.mp hp with hold | hkept
  · exact hold
  · obtain ⟨c, hc, hmac, hv⟩ := mem_keptOf.mp hkept
    exact absurd hv (hnot c hc hmac)

/-- What a closing saves has no row yet. -/
theorem count_of_kept {t : VisitHistory} (h : t.Ok zone) {c : VisitClient} (hc : c ∈ t.state.clients)
    {v : VisitInfo} (hv : v ∈ c.kept valid ends) :
    t.state.appVisitRecord.count (savedRow zone (c.mac, v)) = 0 := by
  refine List.count_eq_zero_of_not_mem fun hmem => ?_
  obtain ⟨q, hq, hrow⟩ := h.rows _ hmem
  rw [← savedRow_inj hrow] at hq
  exact (h.clients c hc).not_saved (kept_long (h.clients c hc) hv).1 hq

/-- **A closing leaves one row of each visit**: it was there, or it is new. -/
theorem once_kept {t : VisitHistory} (h : t.Ok zone) {c : VisitClient} (hc : c ∈ t.state.clients)
    {v : VisitInfo} (hp : (c.mac, v) ∈ t.saved ++ keptOf valid ends t.state.clients)
    (hretained : Retained t.state.now (getTodayStartTimestampFromTs zone v.firstTime)) :
    t.state.appVisitRecord.count (savedRow zone (c.mac, v)) + (c.kept valid ends).count v = 1 := by
  by_cases hkept : v ∈ c.kept valid ends
  · rw [count_of_kept h hc hkept, List.count_eq_one_of_mem (kept_nodup (h.clients c hc)) hkept]
  · have hold : (c.mac, v) ∈ t.saved := ((mem_saved_keptOf h.nodup hc v).mp hp).resolve_right hkept
    rw [h.once _ hold hretained, List.count_eq_zero_of_not_mem hkept]

/-- **So does the archiving of a client**, when the rows that it deletes are of visits that it has. -/
theorem once_archived {t : VisitHistory} (h : t.Ok zone) {c : VisitClient} (hc : c ∈ t.state.clients)
    {v : VisitInfo} (hp : (c.mac, v) ∈ t.saved ++ keptOf valid (fun _ => true) t.state.clients)
    (hretained : Retained t.state.now (getTodayStartTimestampFromTs zone v.firstTime)) {yesterday : UInt32}
    (hday : ∀ t, (yesterday ≤ t ∧ t ≤ yesterday + SECONDS_PER_DAY - 1) ↔
      getTodayStartTimestampFromTs zone t = yesterday)
    (hkeeps : ((c.close valid fun _ => true).visitsOf yesterday).isEmpty = false →
      ∀ row ∈ t.state.appVisitRecord, row.mac = c.mac → row.recordDate = yesterday →
        ∃ v ∈ c.visit, row = visitRow c.mac yesterday v) :
    (archiveClientRows zone valid yesterday t.state.appVisitRecord c).count (savedRow zone (c.mac, v)) = 1 := by
  rw [count_archiveClientRows, rowsAfterTurn]
  split
  · rename_i hagain
    obtain ⟨hsome, hdate⟩ := hagain
    have hclosed : (c.close valid fun _ => true).Ok t.state.now
        (t.saved ++ keptOf valid (fun _ => true) t.state.clients) :=
      (h.clients c hc).close (mem_saved_keptOf h.nodup hc)
    refine List.count_eq_one_of_mem (hclosed.nodup.sublist List.filter_sublist) ?_
    refine List.mem_filter.mpr ⟨?_, by simpa using (hday v.firstTime).mpr hdate⟩
    rcases (mem_saved_keptOf h.nodup hc v).mp hp with hold | hkept
    · -- it has a row, which is of a visit in memory
      have hrow : savedRow zone (c.mac, v) ∈ t.state.appVisitRecord :=
        List.count_pos_iff.mp (by rw [h.once _ hold hretained]; exact Nat.one_pos)
      obtain ⟨v', hv', heq⟩ := hkeeps hsome _ hrow rfl hdate
      obtain rfl : v = v' := (visitRow_inj heq).2.2
      exact List.mem_append_right _ hv'
    · exact List.mem_append_left _ (List.mem_reverse.mpr hkept)
  · exact once_kept h hc hp hretained

/-- A turn for each client: the rows of a visit of `mac` change in the turn of that client, by `own`. -/
structure IsTurn (zone : TimeZone) (mac : CStr) (v : VisitInfo)
    (turn : List VisitRow → VisitClient → List VisitRow) (own : VisitClient → Nat → Nat) : Prop where
  own : ∀ db c, c.mac = mac →
    (turn db c).count (savedRow zone (mac, v)) = own c (db.count (savedRow zone (mac, v)))
  other : ∀ db c, c.mac ≠ mac →
    (turn db c).count (savedRow zone (mac, v)) = db.count (savedRow zone (mac, v))

theorem saveKept_turn {mac : CStr} (v : VisitInfo) : IsTurn zone mac v (saveKept zone valid ends)
    fun c rows => rows + (c.kept valid ends).count v where
  own := by
    rintro db c rfl
    exact count_saveKept db c v
  other := fun db _ hmac => count_saveKept_other db hmac

theorem archive_turn {mac : CStr} (yesterday : UInt32) (v : VisitInfo) :
    IsTurn zone mac v (archiveClientRows zone valid yesterday) (rowsAfterTurn zone valid yesterday v) where
  own := by
    rintro db c rfl
    exact count_archiveClientRows yesterday db c v
  other := fun db _ hmac => count_archiveClientRows_other yesterday db hmac

section

variable {turn : List VisitRow → VisitClient → List VisitRow} {own : VisitClient → Nat → Nat}

/-- The rows of a visit after the turns of all clients are those after the turn of its own. -/
theorem count_foldl {clients : List VisitClient} (h : (clients.map VisitClient.mac).Nodup) {c : VisitClient}
    (hc : c ∈ clients) {v : VisitInfo} (hturn : IsTurn zone c.mac v turn own) (db : List VisitRow) :
    (clients.foldl turn db).count (savedRow zone (c.mac, v)) =
      (turn db c).count (savedRow zone (c.mac, v)) := by
  rw [measure_foldl (fun db : List VisitRow => db.count (savedRow zone (c.mac, v))) hturn.own hturn.other h,
    (lookup_eq_some_iff h).mpr ⟨hc, rfl⟩, Option.elim_some, hturn.own db c rfl]

/-- A turn for every client leaves one row of each visit, if the turn of the visit's client does. -/
theorem once_foldl {t : VisitHistory} (h : t.Ok zone) {mac : CStr} {v : VisitInfo}
    (hp : (mac, v) ∈ t.saved ++ keptOf valid ends t.state.clients)
    (hretained : Retained t.state.now (getTodayStartTimestampFromTs zone v.firstTime))
    (hturn : IsTurn zone mac v turn own)
    (hone : ∀ c ∈ t.state.clients, c.mac = mac →
      (turn t.state.appVisitRecord c).count (savedRow zone (c.mac, v)) = 1) :
    (t.state.clients.foldl turn t.state.appVisitRecord).count (savedRow zone (mac, v)) = 1 := by
  by_cases hsome : ∃ c ∈ t.state.clients, c.mac = mac
  · obtain ⟨c, hc, rfl⟩ := hsome
    rw [count_foldl h.nodup hc hturn]
    exact hone c hc rfl
  · have hnone : lookup VisitClient.mac mac t.state.clients = none := by
      rw [lookup_eq_none_iff, List.mem_map]
      exact hsome
    rw [measure_foldl (fun db : List VisitRow => db.count (savedRow zone (mac, v))) hturn.own hturn.other
      h.nodup, hnone]
    refine h.once _ (mem_saved_of_not_kept hp fun c hc hmac => ?_) hretained
    exact absurd ⟨c, hc, hmac⟩ hsome

end

theorem rows_saveKept {db : List VisitRow} {c : VisitClient} {saved' : List (CStr × VisitInfo)}
    (hdb : ∀ row ∈ db, ∃ p ∈ saved', row = savedRow zone p)
    (hkept : ∀ v ∈ c.kept valid ends, (c.mac, v) ∈ saved') :
    ∀ row ∈ saveKept zone valid ends db c, ∃ p ∈ saved', row = savedRow zone p := by
  intro row hrow
  rw [saveKept_eq] at hrow
  rcases List.mem_append.mp hrow with hold | hnew
  · exact hdb row hold
  · obtain ⟨v, hv, rfl⟩ := List.mem_map.mp hnew
    exact ⟨(c.mac, v), hkept v hv, rfl⟩

theorem rows_archiveClientRows {db : List VisitRow} {c : VisitClient} {saved' : List (CStr × VisitInfo)}
    {yesterday : UInt32} (hdb : ∀ row ∈ db, ∃ p ∈ saved', row = savedRow zone p)
    (hkept : ∀ v ∈ c.kept valid (fun _ => true), (c.mac, v) ∈ saved')
    (hclosed : (c.close valid fun _ => true).Ok now saved')
    (hday : ∀ t, (yesterday ≤ t ∧ t ≤ yesterday + SECONDS_PER_DAY - 1) ↔
      getTodayStartTimestampFromTs zone t = yesterday) :
    ∀ row ∈ archiveClientRows zone valid yesterday db c, ∃ p ∈ saved', row = savedRow zone p := by
  intro row hrow
  rw [archiveClientRows, saveClientVisitDataToFile] at hrow
  split at hrow
  · exact rows_saveKept hdb hkept row hrow
  · rcases List.mem_append.mp hrow with hold | hnew
    · exact rows_saveKept hdb hkept row (List.mem_of_mem_filter hold)
    · obtain ⟨v, hv, rfl⟩ := List.mem_map.mp hnew
      obtain ⟨hvisit, hin⟩ := List.mem_filter.mp hv
      refine ⟨(c.mac, v), hclosed.saved v hvisit, ?_⟩
      rw [savedRow, (hday v.firstTime).mp (by simpa using hin)]
      rfl

/-! ### One event -/

theorem ok_moveExpired {t : VisitHistory} (h : t.Ok zone) :
    VisitHistory.Ok zone ⟨t.state.moveExpired zone t.state.now,
      t.saved ++ keptOf t.state.appValidTime (visitTimedOut t.state.now) t.state.clients⟩ where
  nodup := by
    simp only [HistoryState.moveExpired, List.map_map]
    exact h.nodup
  clients := by
    intro c' hc'
    obtain ⟨c, hc, rfl⟩ := List.mem_map.mp hc'
    exact (h.clients c hc).close (mem_saved_keptOf h.nodup hc)
  saved := by
    intro p hp
    rcases List.mem_append.mp hp with hold | hkept
    · exact h.saved p hold
    · exact keptOf_times h hkept
  rows := by
    refine List.foldlRecOn (motive := fun db => ∀ row ∈ db, ∃ p ∈ _, row = savedRow zone p) _ _ ?_ ?_
    · intro row hrow
      obtain ⟨p, hp, heq⟩ := h.rows row hrow
      exact ⟨p, List.mem_append_left _ hp, heq⟩
    · intro db hdb c hc
      exact rows_saveKept hdb fun v hv => (mem_saved_keptOf h.nodup hc v).mpr (.inr hv)
  once := by
    rintro ⟨mac, v⟩ hp hretained
    refine once_foldl h hp hretained (saveKept_turn v) ?_
    rintro c hc rfl
    rw [count_saveKept]
    exact once_kept h hc hp hretained

/-- The cleanup leaves what is retained. -/
theorem count_deleteExpired (now : UInt32) (h : MAX_RECORD_DAY * SECONDS_PER_DAY ≤ now)
    (db : List VisitRow) (row : VisitRow) (hretained : Retained now row.recordDate) :
    (deleteExpiredVisitRecords now db).count row = db.count row := by
  refine List.count_filter ?_
  have hdays : (MAX_RECORD_DAY * SECONDS_PER_DAY).toNat ≤ now.toNat := UInt32.le_iff_toNat_le.mp h
  have hnot : ¬ row.recordDate < now - MAX_RECORD_DAY * SECONDS_PER_DAY := by
    rw [UInt32.lt_iff_toNat_lt, UInt32.toNat_sub_of_le _ _ h]
    rw [Retained] at hretained
    omega
  simpa using hnot

theorem archiveKeepsRows_iff {s : HistoryState} {now : UInt32} :
    s.archiveKeepsRows zone now = true ↔
      MAX_RECORD_DAY * SECONDS_PER_DAY ≤ now ∧ ∀ c ∈ s.clients,
        let yesterday := getTodayStartTimestampFromTs zone now - SECONDS_PER_DAY
        ((c.close s.appValidTime fun _ => true).visitsOf yesterday).isEmpty = false →
          ∀ row ∈ s.appVisitRecord, row.mac = c.mac → row.recordDate = yesterday →
            ∃ v ∈ c.visit, row = visitRow c.mac yesterday v := by
  rw [HistoryState.archiveKeepsRows, Bool.and_eq_true, decide_eq_true_iff, List.all_eq_true]
  refine and_congr_right fun _ => forall₂_congr fun c _ => ?_
  rw [Bool.or_eq_true, or_iff_not_imp_left, Bool.not_eq_true]
  refine imp_congr_right fun _ => ?_
  rw [List.all_eq_true]
  refine forall₂_congr fun row _ => ?_
  rw [Bool.or_eq_true, Bool.not_eq_true', Bool.and_eq_false_imp, List.any_eq_true]
  simp only [decide_eq_true_eq, decide_eq_false_iff_not]
  tauto

theorem ok_archive (offset : Int) {t : VisitHistory} (h : t.Ok (.fixed offset))
    (hkeeps : t.state.archiveKeepsRows (.fixed offset) t.state.now = true) :
    VisitHistory.Ok (.fixed offset) ⟨t.state.checkAndArchiveAllClients (.fixed offset) t.state.now,
      t.saved ++ keptOf t.state.appValidTime (fun _ => true) t.state.clients⟩ := by
  obtain ⟨hlate, hkeeps⟩ := archiveKeepsRows_iff.mp hkeeps
  have hday := yesterday_iff offset hlate
  have hclosed : ∀ c ∈ t.state.clients, (c.close t.state.appValidTime fun _ => true).Ok t.state.now
      (t.saved ++ keptOf t.state.appValidTime (fun _ => true) t.state.clients) :=
    fun c hc => (h.clients c hc).close (mem_saved_keptOf h.nodup hc)
  refine ⟨?_, ?_, ?_, ?_, ?_⟩
  · simp only [HistoryState.checkAndArchiveAllClients, List.map_map]
    exact h.nodup
  · intro c' hc'
    obtain ⟨c, hc, rfl⟩ := List.mem_map.mp hc'
    exact (hclosed c hc).archive _
  · intro p hp
    rcases List.mem_append.mp hp with hold | hkept
    · exact h.saved p hold
    · exact keptOf_times h hkept
  · intro row hrow
    refine List.foldlRecOn (motive := fun db => ∀ row ∈ db, ∃ p ∈ _, row = savedRow (.fixed offset) p)
      _ _ ?_ ?_ row (List.mem_of_mem_filter hrow)
    · intro row hrow
      obtain ⟨p, hp, heq⟩ := h.rows row hrow
      exact ⟨p, List.mem_append_left _ hp, heq⟩
    · intro db hdb c hc
      exact rows_archiveClientRows hdb (fun v hv => (mem_saved_keptOf h.nodup hc v).mpr (.inr hv))
        (hclosed c hc) hday
  · rintro ⟨mac, v⟩ hp hretained
    simp only [HistoryState.checkAndArchiveAllClients]
    rw [count_deleteExpired t.state.now hlate _ (savedRow (.fixed offset) (mac, v)) hretained]
    refine once_foldl h hp hretained (archive_turn _ v) ?_
    rintro c hc rfl
    exact once_archived h hc hp hretained hday (hkeeps c hc)

/-- The day before is retained. -/
theorem retained_yesterday (offset : Int) {now : UInt32} (h : MAX_RECORD_DAY * SECONDS_PER_DAY ≤ now) :
    Retained now (getTodayStartTimestampFromTs (.fixed offset) now - SECONDS_PER_DAY) := by
  have hnow : 2592000 ≤ now.toNat := UInt32.le_iff_toNat_le.mp h
  have hlt := now.toNat_lt
  have htoday := todayStart_toNat offset now
  have hdays : (MAX_RECORD_DAY * SECONDS_PER_DAY).toNat = 2592000 := rfl
  have hday : (SECONDS_PER_DAY).toNat = 86400 := rfl
  rw [Retained, UInt32.toNat_sub, hday, hdays]
  omega

/-- **An archiving that lacks a row loses it.** -/
theorem archive_loses (offset : Int) {t : VisitHistory} (h : t.Ok (.fixed offset))
    (hlate : MAX_RECORD_DAY * SECONDS_PER_DAY ≤ t.state.now)
    (hlacks : t.state.archiveKeepsRows (.fixed offset) t.state.now = false) :
    ∃ p ∈ t.saved, Retained t.state.now (getTodayStartTimestampFromTs (.fixed offset) p.2.firstTime) ∧
      (t.state.checkAndArchiveAllClients (.fixed offset) t.state.now).appVisitRecord.count
        (savedRow (.fixed offset) p) = 0 := by
  let yesterday := getTodayStartTimestampFromTs (.fixed offset) t.state.now - SECONDS_PER_DAY
  rw [← Bool.not_eq_true, archiveKeepsRows_iff] at hlacks
  obtain ⟨c, hc, hsome, row, hrow, hmac, hdate, hnone⟩ : ∃ c ∈ t.state.clients,
      ((c.close t.state.appValidTime fun _ => true).visitsOf yesterday).isEmpty = false ∧
        ∃ row ∈ t.state.appVisitRecord, row.mac = c.mac ∧ row.recordDate = yesterday ∧
          ∀ v ∈ c.visit, row ≠ visitRow c.mac yesterday v := by
    by_contra hcon
    push Not at hcon
    exact hlacks ⟨hlate, fun c hc hsome row hrow hmac hdate => hcon c hc hsome row hrow hmac hdate⟩
  obtain ⟨⟨mac, v⟩, hp, rfl⟩ := h.rows row hrow
  obtain rfl : mac = c.mac := hmac
  have hday : getTodayStartTimestampFromTs (.fixed offset) v.firstTime = yesterday := hdate
  refine ⟨(c.mac, v), hp, hday ▸ retained_yesterday offset hlate, ?_⟩
  have hgone : ((c.close t.state.appValidTime fun _ => true).visitsOf yesterday).count v = 0 := by
    refine List.count_eq_zero_of_not_mem fun hmem => ?_
    rcases List.mem_append.mp (List.mem_of_mem_filter hmem) with hkept | hvisit
    · exact (h.clients c hc).not_saved (kept_long (h.clients c hc) (List.mem_reverse.mp hkept)).1 hp
    · exact hnone v hvisit (by rw [savedRow, hday])
  simp only [HistoryState.checkAndArchiveAllClients]
  rw [count_deleteExpired t.state.now hlate _ (savedRow (.fixed offset) (c.mac, v))
    (hdate ▸ retained_yesterday offset hlate), count_foldl h.nodup hc (archive_turn yesterday v),
    count_archiveClientRows, rowsAfterTurn, if_pos ⟨hsome, hday⟩]
  exact hgone

theorem nodup_withVisitClient {clients : List VisitClient} {mac : CStr} {f : VisitClient → VisitClient}
    (hmac : ∀ c, (f c).mac = c.mac) (h : (clients.map VisitClient.mac).Nodup) :
    ((withVisitClient mac f clients).map VisitClient.mac).Nodup := by
  rw [withVisitClient]
  split
  · exact h
  · exact nodup_upsert hmac rfl h

theorem ok_withVisitClient {clients : List VisitClient} {mac : CStr} {f : VisitClient → VisitClient}
    (hf : ∀ c : VisitClient, c.Ok now saved → (f c).Ok now saved) (h : ∀ c ∈ clients, c.Ok now saved) :
    ∀ c ∈ withVisitClient mac f clients, c.Ok now saved := by
  rw [withVisitClient]
  split
  · exact h
  · exact forall_upsert h (hf _ (ok_new now saved _)) fun c hc => hf c (h c hc)

theorem ok_reported {t : VisitHistory} (h : t.Ok zone) (mac : CStr) (visits : List (Int × Int)) :
    VisitHistory.Ok zone ⟨t.state.handle zone (.report t.state.now mac visits), t.saved⟩ := by
  refine h.of_clients rfl (UInt32.le_refl _) (nodup_withVisitClient ?_ h.nodup)
    (ok_withVisitClient ?_ h.clients)
  · intro c
    split <;> rfl
  · intro c hc
    split
    · exact hc
    · exact hc.reportVisits h.saved visits

theorem ok_restarted {t : VisitHistory} (h : t.Ok zone) (appValidTime : Int) (backups : List CStr) :
    VisitHistory.Ok zone ⟨t.state.handle zone (.restart appValidTime backups), t.saved⟩ := by
  refine h.of_clients rfl (UInt32.le_refl _) ?_ ?_
  · refine List.foldlRecOn (motive := fun clients : List VisitClient =>
      (clients.map VisitClient.mac).Nodup) _ _
      List.nodup_nil ?_
    exact fun clients hclients mac _ => nodup_withVisitClient (fun _ => rfl) hclients
  · refine List.foldlRecOn (motive := fun clients : List VisitClient =>
      ∀ c ∈ clients, c.Ok t.state.now t.saved) _ _ ?_ ?_
    · exact fun c hc => nomatch hc
    · exact fun clients hclients mac _ => ok_withVisitClient (fun _ hc => hc) hclients

/-- `lastMday` is of no account. -/
theorem VisitHistory.Ok.lastMday {s : HistoryState} (h : VisitHistory.Ok zone ⟨s, saved⟩)
    (lastMday : Option Int) : VisitHistory.Ok zone ⟨{ s with lastMday := lastMday }, saved⟩ :=
  ⟨h.nodup, h.clients, h.saved, h.rows, h.once⟩

/-- **One event.** -/
theorem ok_handle (offset : Int) {t : VisitHistory} (h : t.Ok (.fixed offset)) (e : HistoryEvent)
    (htime : e.time.getD t.state.now = t.state.now) (hkeeps : t.keepsRows (.fixed offset) e = true) :
    VisitHistory.Ok (.fixed offset)
      ⟨t.state.handle (.fixed offset) e, t.saved ++ t.state.saves (.fixed offset) e⟩ := by
  cases e with
  | found mac =>
    simp only [HistoryState.saves, List.append_nil]
    exact h.of_clients rfl (UInt32.le_refl _) (nodup_withVisitClient (fun _ => rfl) h.nodup)
      (ok_withVisitClient (fun _ hc => hc) h.clients)
  | report now mac visits =>
    obtain rfl : now = t.state.now := htime
    simp only [HistoryState.saves, List.append_nil]
    exact ok_reported h mac visits
  | moveExpired now =>
    obtain rfl : now = t.state.now := htime
    exact ok_moveExpired h
  | dailyArchive now =>
    obtain rfl : now = t.state.now := htime
    refine VisitHistory.Ok.lastMday ?_ _
    cases hchanged : t.state.dateChanged (.fixed offset) t.state.now with
    | false =>
      rw [HistoryState.saves, hchanged]
      simpa using h
    | true =>
      rw [VisitHistory.keepsRows, hchanged] at hkeeps
      rw [HistoryState.saves, hchanged]
      exact ok_archive offset h hkeeps
  | flushExpired gone =>
    simp only [HistoryState.saves, List.append_nil]
    exact h.of_clients rfl (UInt32.le_refl _) (h.nodup.sublist (List.filter_sublist.map _))
      fun c hc => h.clients c (List.mem_of_mem_filter hc)
  | restart appValidTime backups =>
    simp only [HistoryState.saves, List.append_nil]
    exact ok_restarted h appValidTime backups

/-- The clock alone. -/
theorem VisitHistory.Ok.later {t : VisitHistory} (h : t.Ok zone) {now : UInt32} (hnow : t.state.now ≤ now) :
    VisitHistory.Ok zone ⟨{ t.state with now := now }, t.saved⟩ :=
  h.of_clients rfl hnow h.nodup fun c hc => (h.clients c hc).mono hnow

/-- The last time is of no account to what an event does. -/
theorem handle_now (zone : TimeZone) (s : HistoryState) (e : HistoryEvent) (now : UInt32) :
    ({ s with now := now } : HistoryState).handle zone e = { s.handle zone e with now := now } := by
  cases e with
  | dailyArchive t =>
    simp only [HistoryState.handle, HistoryState.dailyArchive]
    have hchanged : ({ s with now := now } : HistoryState).dateChanged zone t = s.dateChanged zone t := rfl
    rw [hchanged]
    cases s.dateChanged zone t <;> rfl
  | _ => rfl

theorem ok_history_step (offset : Int) {t u : VisitHistory} {e : HistoryEvent} (h : t.Ok (.fixed offset))
    (hkeeps : t.keepsRows (.fixed offset) e = true) (hstep : t.step (.fixed offset) e = some u) :
    u.Ok (.fixed offset) := by
  rw [VisitHistory.step] at hstep
  split at hstep
  · cases hstep
  · rename_i hnow
    obtain rfl := Option.some.inj hstep
    have hlater := h.later (UInt32.not_lt.mp hnow)
    have hkeeps' : VisitHistory.keepsRows (.fixed offset)
        ⟨{ t.state with now := e.time.getD t.state.now }, t.saved⟩ e = true := by
      cases e <;> exact hkeeps
    have hsaves : ({ t.state with now := e.time.getD t.state.now } : HistoryState).saves (.fixed offset) e =
        t.state.saves (.fixed offset) e := by
      cases e <;> rfl
    have htime : e.time.getD (e.time.getD t.state.now) = e.time.getD t.state.now := by
      cases e <;> rfl
    have hdone := ok_handle offset hlater e htime hkeeps'
    rwa [handle_now, hsaves] at hdone

theorem ok_start (zone : TimeZone) (appValidTime : Int) : (VisitHistory.start appValidTime).Ok zone where
  nodup := List.nodup_nil
  clients := fun _ h => nomatch h
  saved := fun _ h => nomatch h
  rows := fun _ h => nomatch h
  once := fun _ h => nomatch h

/-! ## 8. A saved visit has one row -/

/-- The runs of the daemon, and of those after it, whose archivings keep the rows. -/
def VisitHistory.ReachedFrom (offset : Int) (start : VisitHistory) : VisitHistory → Prop :=
  Reaches (fun t e u => t.step (.fixed offset) e = some u)
    (fun t e => t.keepsRows (.fixed offset) e = true) start

/-- **Visit history.**  As long as every archiving keeps the rows, every visit that was saved and is of a
day that is retained has exactly one row. -/
theorem visit_saved_once (offset appValidTime : Int) {t : VisitHistory}
    (h : VisitHistory.ReachedFrom offset (.start appValidTime) t) :
    ∀ p ∈ t.saved, Retained t.state.now (getTodayStartTimestampFromTs (.fixed offset) p.2.firstTime) →
      t.state.appVisitRecord.count (savedRow (.fixed offset) p) = 1 :=
  (h.invariant (fun _ _ _ hok hkeeps hstep => ok_history_step offset hok hkeeps hstep)
    (ok_start _ appValidTime)).once

/-- The morning of a day: a phone uses an app for ten minutes. -/
def phoneMorning : List HistoryEvent :=
  [.dailyArchive 1700042400, .report 1700042400 (.lit "AA:BB:CC:DD:EE:01") [(1001, 0)],
    .report 1700043000 (.lit "AA:BB:CC:DD:EE:01") [(1001, 0)], .moveExpired 1700043400]

/-- The evening of that day: it uses another one, and the day ends. -/
def phoneEvening : List HistoryEvent :=
  [.dailyArchive 1700080000, .report 1700080000 (.lit "AA:BB:CC:DD:EE:01") [(2001, 0)],
    .report 1700080600 (.lit "AA:BB:CC:DD:EE:01") [(2001, 0)], .moveExpired 1700081000,
    .dailyArchive 1700092820]

/-- The visit of the morning. -/
def phoneVisitSaved : CStr × VisitInfo := (.lit "aa:bb:cc:dd:ee:01", ⟨1001, 1700042400, 1700043000, 0⟩)

theorem phone_visit_saved_once : ∃ t : VisitHistory, phoneVisitSaved ∈ t.saved ∧
    t.state.appVisitRecord.count (savedRow (.fixed 0) phoneVisitSaved) = 1 := by
  have hrun : (runIf (VisitHistory.keepsRows (.fixed 0)) (VisitHistory.step (.fixed 0))
      (VisitHistory.start 300) (phoneMorning ++ phoneEvening)).any (fun t : VisitHistory =>
        phoneVisitSaved ∈ t.saved && Retained t.state.now
          (getTodayStartTimestampFromTs (.fixed 0) phoneVisitSaved.2.firstTime)) = true := by
    decide +kernel
  obtain ⟨t, ht, hlast⟩ := (Option.any_eq_true _ _).mp hrun
  rw [Bool.and_eq_true, decide_eq_true_iff, decide_eq_true_iff] at hlast
  exact ⟨t, hlast.1, visit_saved_once 0 300 (Reaches.refl.of_runIf (fun _ _ => id) ht) _ hlast.1 hlast.2⟩

/-- With a restart at noon, the archiving deletes the row of the morning's visit and does not write it
again. -/
theorem restart_loses_visit : ¬ ∀ (offset appValidTime : Int) (t : VisitHistory),
    Reaches (fun t e u => VisitHistory.step (.fixed offset) t e = some u) Always
      (VisitHistory.start appValidTime) t →
    ∀ p ∈ t.saved, Retained t.state.now (getTodayStartTimestampFromTs (.fixed offset) p.2.firstTime) →
      t.state.appVisitRecord.count (savedRow (.fixed offset) p) = 1 := by
  intro hall
  have hrun : (runIf (fun _ _ => true) (VisitHistory.step (.fixed 0)) (VisitHistory.start 300)
      (phoneMorning ++ [.restart 300 [.lit "aa:bb:cc:dd:ee:01"]] ++ phoneEvening)).any
        (fun t : VisitHistory => (phoneVisitSaved ∈ t.saved && Retained t.state.now
          (getTodayStartTimestampFromTs (.fixed 0) phoneVisitSaved.2.firstTime)) &&
          t.state.appVisitRecord.count (savedRow (.fixed 0) phoneVisitSaved) = 0) = true := by
    decide +kernel
  obtain ⟨t, ht, hlast⟩ := (Option.any_eq_true _ _).mp hrun
  rw [Bool.and_eq_true, Bool.and_eq_true, decide_eq_true_iff, decide_eq_true_iff, decide_eq_true_iff]
    at hlast
  obtain ⟨⟨hsaved, hretained⟩, hzero⟩ := hlast
  have hone := hall 0 300 t (Reaches.refl.of_runIf (fun _ _ _ => trivial) ht) _ hsaved hretained
  exact absurd (hone.symm.trans hzero) Nat.one_ne_zero

end Oaf
