/-
# Backups of the clients

`fwxd` keeps its clients in memory.  It writes a file of a client when that goes offline, and the files of
all clients now and then; each has a directory of its own, named by its address.  A daemon that starts reads
the files in the order in which `readdir` gives the directories.

A file is the tree that json-c makes of it.  json-c keeps integers as `int64_t`, so that a counter above
`2 ^ 63` is written as a negative number, and read as the counter again.

* `overwrite_map`: a loop that reads the values of an array back has the array.
* `loadFields_clientJson`: what is read of a file is the client, with nothing of its run.
* `savedDir_eq`: the directory has the last file of every client.
* `backups_restored`: **a daemon that starts has every client as it was saved last**, whatever was saved
  in which order, and however the directory is ordered.
* `restart_user`: its start is the one of the records.

Paths are shorter than their buffers here, and texts end in their arrays.
-/
import Oaf.Client.Records
import Oaf.Client.TopApps
import Oaf.Custom.Model

namespace Oaf

open CLib Chains

/-! ## 1. Arrays -/

/-- A loop that reads `items` into an array, up to the end of the shorter one. -/
def overwrite {α β : Type} {n : Nat} (read : β → α → α) (items : List β) (array : Vector α n) :
    Vector α n :=
  array.mapFinIdx fun i a _ => match items[i]? with
    | some item => read item a
    | none => a

/-- The first `k` elements of an array, and others behind them. -/
def firstOf {α : Type} {n : Nat} (k : Nat) (array rest : Vector α n) : Vector α n :=
  rest.mapFinIdx fun i a h => if i < k then array[i] else a

section
variable {α β : Type} {n : Nat} {read : β → α → α} {write : α → β}

theorem overwrite_take (h : ∀ a b, read (write a) b = a) (k : Nat) (array rest : Vector α n) :
    overwrite read ((array.toList.take k).map write) rest = firstOf k array rest := by
  ext i hi
  rw [overwrite, firstOf, Vector.getElem_mapFinIdx, Vector.getElem_mapFinIdx, List.getElem?_map,
    List.getElem?_take]
  by_cases hk : i < k
  · have hget : array.toList[i]? = some array[i] := by
      rw [List.getElem?_eq_getElem (by simpa using hi), Vector.getElem_toList]
    rw [if_pos hk, if_pos hk, hget]
    exact h _ _
  · rw [if_neg hk, if_neg hk]
    rfl

/-- What was written from an array is read back as the array. -/
theorem overwrite_map (h : ∀ a b, read (write a) b = a) (array rest : Vector α n) :
    overwrite read (array.toList.map write) rest = array := by
  have hall : array.toList.take n = array.toList := List.take_of_length_le (by simp)
  rw [← hall, overwrite_take h]
  ext i hi
  rw [firstOf, Vector.getElem_mapFinIdx, if_pos hi]

end

/-- A text in an array of `n` bytes. -/
structure ArrayText (n : Nat) where
  text : CStr
  fits : text.strlen < n
deriving DecidableEq

/-- A text of no bytes. -/
def ArrayText.empty {n : Nat} : ArrayText (n + 1) := ⟨.empty, Nat.succ_pos n⟩

/-- `strncpy(array, s, n - 1)`, with the NUL that is put at the end. -/
def ArrayText.strncpy {n : Nat} (hn : 0 < n) (s : CStr) : ArrayText n where
  text := ⟨s.bytes.take (n - 1), fun h => s.noNul (List.mem_of_mem_take h)⟩
  fits := Nat.lt_of_le_of_lt (List.length_take_le _ _) (Nat.sub_lt hn Nat.one_pos)

theorem ArrayText.strncpy_text {n : Nat} (hn : 0 < n) (a : ArrayText n) : .strncpy hn a.text = a := by
  obtain ⟨text, fits⟩ := a
  have htake : text.bytes.take (n - 1) = text.bytes :=
    List.take_of_length_le (Nat.le_sub_one_of_lt fits)
  simp only [strncpy, htake]

/-! ## 2. Clients -/

/-- `online_session_stat_t`, with the array of its recent apps. -/
structure SessionStat where
  upBytes : UInt64 := 0
  downBytes : UInt64 := 0
  onlineDuration : UInt64 := 0
  activeDuration : UInt64 := 0
  recentApps : Vector Int32 MAX_RECENT_APPS := .replicate _ 0
  recentAppCount : Int32 := 0
  startTime : UInt32 := 0
deriving DecidableEq

/-- `traffic_stat_t`. -/
structure TrafficStat where
  upBytes : UInt64 := 0
  downBytes : UInt64 := 0
deriving DecidableEq

/-- `daily_hourly_stat_t`, with the defaults of `init_daily_stats_default`. -/
structure DailyStat where
  date : UInt32 := 0
  isToday : Int32 := 0
  hourlyTopApps : Vector (Vector Int32 TOP_APP_PER_HOUR) HOURS_PER_DAY := .replicate _ (.replicate _ (-1))
  hourlyTraffic : Vector TrafficStat HOURS_PER_DAY := .replicate _ {}
  hourlyOnlineTime : Vector UInt64 HOURS_PER_DAY := .replicate _ 0
  hourlyActiveTime : Vector UInt64 HOURS_PER_DAY := .replicate _ 0
deriving DecidableEq

/-- An element of `apps`. -/
structure TopApp where
  appid : Int32 := -1
  totalTime : UInt64 := 0
deriving DecidableEq

/-- `daily_top_apps_stat_t`, with the defaults of `init_daily_top_apps_default`. -/
structure TopAppsStat where
  date : UInt32 := 0
  isToday : Int32 := 0
  count : Int32 := 0
  apps : Vector TopApp MAX_TOP_APPS_PER_DAY := .replicate _ {}
deriving DecidableEq

/-- The fields that `reset_client_runtime_fields` resets, with what it sets them to. -/
structure ClientRuntime where
  upRate : UInt32 := 0
  downRate : UInt32 := 0
  rssi : Int32 := 0
  rxRate : UInt32 := 0
  txRate : UInt32 := 0
  band : CStr := .empty
  wifiIfname : CStr := .empty
  wirelessOnline : Int32 := 0
  online : Int32 := 0
  visitingUrl : CStr := .empty
  visitingApp : Int32 := 0
  active : Int32 := 0
  lastOnlineState : Int32 := 0
  sessionOnlineRecorded : Int32 := 0
deriving DecidableEq

/-- `client_node_t`, less the lists of its visits. -/
structure ClientNode where
  mac : CStr
  ip : ArrayText MAX_IP_LEN := .empty
  ipv6 : ArrayText 128 := .empty
  hostname : ArrayText MAX_HOSTNAME_SIZE := .empty
  nickname : ArrayText 64 := .empty
  isWireless : Int32 := 0
  expire : Int32 := 0
  offlineTime : UInt32
  onlineTime : UInt32
  mfUserLoaded : Int32 := 0
  runtime : ClientRuntime := {}
  onlineSession : SessionStat
  dailyStats : DailyStat
  dailyTopAppsStats : TopAppsStat
deriving DecidableEq

/-- What `add_client_node` makes. -/
def newClient (mac : CStr) (now today : UInt32) : ClientNode where
  mac := normalizeMacLower mac
  offlineTime := now
  onlineTime := now
  onlineSession := { startTime := now }
  dailyStats := { date := today, isToday := 1 }
  dailyTopAppsStats := { date := today, isToday := 1 }

/-! ## 3. Writing -/

/-- `json_object_new_int`. -/
def jsonInt (n : Int32) : JsonObject := .int n.toInt

/-- `json_object_new_int64` of an `unsigned long long`. -/
def jsonInt64 (n : UInt64) : JsonObject := .int n.toInt64.toInt

/-- `json_object_new_int64` of a time. -/
def jsonTime (t : UInt32) : JsonObject := .int t.toNat

def jsonString (s : CStr) : JsonObject := .string s.bytes

/-- `json_object_object_add` of new keys. -/
def jsonFields (fields : List (String × JsonObject)) : JsonObject :=
  .object (fields.map fun field => (ascii field.1, field.2))

def serializeOnlineSessionStat (session : SessionStat) : JsonObject :=
  jsonFields
    [("up_bytes", jsonInt64 session.upBytes),
      ("down_bytes", jsonInt64 session.downBytes),
      ("online_duration", jsonInt64 session.onlineDuration),
      ("active_duration", jsonInt64 session.activeDuration),
      ("recent_app_count", jsonInt session.recentAppCount),
      ("start_time", jsonTime session.startTime),
      ("recent_apps",
        .array ((session.recentApps.toList.take session.recentAppCount.toInt.toNat).map jsonInt))]

/-- An element of `hourly_traffic`. -/
def jsonTraffic (traffic : TrafficStat) : JsonObject :=
  jsonFields [("up_bytes", jsonInt64 traffic.upBytes), ("down_bytes", jsonInt64 traffic.downBytes)]

def serializeDailyStats (stat : DailyStat) : JsonObject :=
  jsonFields
    [("date", jsonTime stat.date),
      ("is_today", jsonInt stat.isToday),
      ("hourly_top_apps", .array (stat.hourlyTopApps.toList.map fun apps => .array (apps.toList.map jsonInt))),
      ("hourly_traffic", .array (stat.hourlyTraffic.toList.map jsonTraffic)),
      ("hourly_online_time", .array (stat.hourlyOnlineTime.toList.map jsonInt64)),
      ("hourly_active_time", .array (stat.hourlyActiveTime.toList.map jsonInt64))]

/-- An element of `apps`; the icons are files. -/
def jsonTopApp (appIconExistsById : Int32 → Bool) (app : TopApp) : JsonObject :=
  jsonFields
    (("appid", jsonInt app.appid) ::
      (if appIconExistsById app.appid then [] else [("icon", jsonInt 0)]) ++
      [("total_time", jsonInt64 app.totalTime)])

def serializeDailyTopAppsStats (appIconExistsById : Int32 → Bool) (stat : TopAppsStat) : JsonObject :=
  jsonFields
    [("date", jsonTime stat.date),
      ("is_today", jsonInt stat.isToday),
      ("count", jsonInt stat.count),
      ("apps", .array (stat.apps.toList.map (jsonTopApp appIconExistsById)))]

/-- The tree that `save_client_backup_to_file` writes. -/
def clientJson (appIconExistsById : Int32 → Bool) (client : ClientNode) : JsonObject :=
  jsonFields
    [("mac", jsonString client.mac),
      ("ip", jsonString client.ip.text),
      ("ipv6", jsonString client.ipv6.text),
      ("hostname", jsonString client.hostname.text),
      ("nickname", jsonString client.nickname.text),
      ("expire", jsonInt client.expire),
      ("offline_time", jsonTime client.offlineTime),
      ("online_time", jsonTime client.onlineTime),
      ("mf_user_loaded", jsonInt client.mfUserLoaded),
      ("is_wireless", jsonInt client.isWireless),
      ("online_session", serializeOnlineSessionStat client.onlineSession),
      ("daily_stats", serializeDailyStats client.dailyStats),
      ("daily_top_apps_stats", serializeDailyTopAppsStats appIconExistsById client.dailyTopAppsStats)]

/-- `mac_to_dirname`. -/
def macToDirname (mac : CStr) : CStr :=
  .ofBytes ((mac.bytes.take 63).map fun c => if c = 58 then 95 else c)

/-- What is at a name of the backup directory: a directory, with what json-c makes of its
`base_info/client.json`, or a file; `none` if there is nothing that json-c reads. -/
inductive BackupContent where
  | macDir (json : Option JsonObject)
  | file (json : Option JsonObject)

structure BackupEntry where
  name : CStr
  content : BackupContent

/-- Writing `base_info/client.json`; a file is in the way of the directory. -/
def BackupEntry.save (json : JsonObject) (entry : BackupEntry) : BackupEntry :=
  match entry.content with
  | .macDir _ => { entry with content := .macDir (some json) }
  | .file _ => entry

/-- `save_client_backup_to_file`. -/
def saveClientBackupToFile (appIconExistsById : Int32 → Bool) (dir : List BackupEntry)
    (client : ClientNode) : List BackupEntry :=
  upsert BackupEntry.name (macToDirname client.mac) ⟨macToDirname client.mac, .macDir none⟩
    (·.save (clientJson appIconExistsById client)) dir

/-! ## 4. Reading -/

/-- What json-c makes of values of another type than the one that is read. -/
structure JsonC where
  /-- `json_object_get_int64` of what is no integer. -/
  otherInt : JsonObject → Int
  /-- `json_object_get_string` of what is no string. -/
  otherText : JsonObject → List UInt8

/-- `json_object_get_string(NULL)` is NULL, and `strncpy` reads it. -/
inductive BackupFault where
  | nullText
deriving DecidableEq

namespace JsonC

variable (jsonC : JsonC)

/-- `json_object_get_int`. -/
def getInt : JsonObject → Int32
  | .int n => .ofInt (jsonObjectGetInt n)
  | value => .ofInt (jsonObjectGetInt (jsonC.otherInt value))

/-- `json_object_get_int64`. -/
def getInt64 : JsonObject → Int
  | .int n => jsonObjectGetInt64 n
  | value => jsonObjectGetInt64 (jsonC.otherInt value)

/-- `json_object_get_string`. -/
def getString : JsonObject → Option CStr
  | .null => none
  | .string text => some (.ofBytes text)
  | value => some (.ofBytes (jsonC.otherText value))

/-- A field that is read if it is there. -/
def field {α : Type} (object : JsonObject) (key : String) (read : JsonObject → α) (current : α) : α :=
  ((object.get key).map read).getD current

/-- `json_object_get_int` of a field. -/
def intField (object : JsonObject) (key : String) (current : Int32) : Int32 :=
  field object key jsonC.getInt current

/-- `json_object_get_int64` of a field that is stored as an `unsigned long long`. -/
def int64Field (object : JsonObject) (key : String) (current : UInt64) : UInt64 :=
  field object key (fun value => .ofInt (jsonC.getInt64 value)) current

/-- `json_object_get_int64` of a field that is stored as a `u_int32_t`. -/
def timeField (object : JsonObject) (key : String) (current : UInt32) : UInt32 :=
  field object key (fun value => .ofInt (jsonC.getInt64 value)) current

/-- A field that is read if it is an array. -/
def arrayField {α : Type} {n : Nat} (object : JsonObject) (key : String) (read : List JsonObject → Vector α n)
    (current : Vector α n) : Vector α n :=
  match object.get key with
  | some (.array items) => read items
  | _ => current

/-- A count between `0` and `max`. -/
def clampCount (max : Nat) (count : Int32) : Int32 :=
  if count < 0 then 0 else if .ofInt max < count then .ofInt max else count

/-- An element of an array of apps. -/
def loadApp (item : JsonObject) (_ : Int32) : Int32 := jsonC.getInt item

/-- `load_online_session_stat_from_json`. -/
def loadOnlineSessionStat (sessionObj : JsonObject) : SessionStat :=
  let count := clampCount MAX_RECENT_APPS (jsonC.intField sessionObj "recent_app_count" 0)
  { upBytes := jsonC.int64Field sessionObj "up_bytes" 0
    downBytes := jsonC.int64Field sessionObj "down_bytes" 0
    onlineDuration := jsonC.int64Field sessionObj "online_duration" 0
    activeDuration := jsonC.int64Field sessionObj "active_duration" 0
    recentAppCount := count
    startTime := jsonC.timeField sessionObj "start_time" 0
    recentApps := arrayField sessionObj "recent_apps" (fun items =>
      overwrite jsonC.loadApp (items.take count.toInt.toNat) (.replicate _ 0))
      (.replicate _ 0) }

/-- An hour of `hourly_top_apps`. -/
def loadHourApps (hour : JsonObject) (apps : Vector Int32 TOP_APP_PER_HOUR) : Vector Int32 TOP_APP_PER_HOUR :=
  match hour with
  | .array items => overwrite jsonC.loadApp items apps
  | _ => apps

/-- An hour of `hourly_traffic`. -/
def loadHourTraffic (hour : JsonObject) (traffic : TrafficStat) : TrafficStat where
  upBytes := jsonC.int64Field hour "up_bytes" traffic.upBytes
  downBytes := jsonC.int64Field hour "down_bytes" traffic.downBytes

/-- An hour of `hourly_online_time` or `hourly_active_time`. -/
def loadHourTime (hour : JsonObject) (_ : UInt64) : UInt64 := .ofInt (jsonC.getInt64 hour)

/-- `load_daily_stats_from_json`. -/
def loadDailyStats (statObj : JsonObject) : DailyStat :=
  let stat : DailyStat := {}
  { date := jsonC.timeField statObj "date" stat.date
    isToday := jsonC.intField statObj "is_today" stat.isToday
    hourlyTopApps := arrayField statObj "hourly_top_apps"
      (overwrite jsonC.loadHourApps · stat.hourlyTopApps) stat.hourlyTopApps
    hourlyTraffic := arrayField statObj "hourly_traffic"
      (overwrite jsonC.loadHourTraffic · stat.hourlyTraffic) stat.hourlyTraffic
    hourlyOnlineTime := arrayField statObj "hourly_online_time"
      (overwrite jsonC.loadHourTime · stat.hourlyOnlineTime) stat.hourlyOnlineTime
    hourlyActiveTime := arrayField statObj "hourly_active_time"
      (overwrite jsonC.loadHourTime · stat.hourlyActiveTime) stat.hourlyActiveTime }

/-- An element of `apps`. -/
def loadTopApp (appObj : JsonObject) (app : TopApp) : TopApp where
  appid := jsonC.intField appObj "appid" app.appid
  totalTime := jsonC.int64Field appObj "total_time" app.totalTime

/-- `load_daily_top_apps_from_json`. -/
def loadDailyTopApps (statObj : JsonObject) : TopAppsStat :=
  let stat : TopAppsStat := {}
  { date := jsonC.timeField statObj "date" stat.date
    isToday := jsonC.intField statObj "is_today" stat.isToday
    count := clampCount MAX_TOP_APPS_PER_DAY (jsonC.intField statObj "count" stat.count)
    apps := arrayField statObj "apps" (overwrite jsonC.loadTopApp · stat.apps) stat.apps }

/-- `strncpy` of a field into an array. -/
def textField {n : Nat} (hn : 0 < n) (object : JsonObject) (key : String) (current : ArrayText n) :
    Except BackupFault (ArrayText n) :=
  match object.get key with
  | none => .ok current
  | some value =>
    match jsonC.getString value with
    | none => .error .nullText
    | some s => .ok (.strncpy hn s)

/-- `load_client_backup_from_file`, of the client that it found or added. -/
def loadFields (obj : JsonObject) (client : ClientNode) : Except BackupFault ClientNode := do
  let ip ← jsonC.textField (by decide) obj "ip" client.ip
  let ipv6 ← jsonC.textField (by decide) obj "ipv6" client.ipv6
  let hostname ← jsonC.textField (by decide) obj "hostname" client.hostname
  let nickname ← jsonC.textField (by decide) obj "nickname" client.nickname
  return {
    mac := client.mac
    ip, ipv6, hostname, nickname
    expire := jsonC.intField obj "expire" client.expire
    offlineTime := jsonC.timeField obj "offline_time" client.offlineTime
    onlineTime := jsonC.timeField obj "online_time" client.onlineTime
    mfUserLoaded := jsonC.intField obj "mf_user_loaded" client.mfUserLoaded
    isWireless := jsonC.intField obj "is_wireless" client.isWireless
    runtime := {}
    onlineSession := field obj "online_session" jsonC.loadOnlineSessionStat client.onlineSession
    dailyStats := field obj "daily_stats" jsonC.loadDailyStats client.dailyStats
    dailyTopAppsStats := field obj "daily_top_apps_stats" jsonC.loadDailyTopApps client.dailyTopAppsStats }

variable (now today : UInt32)

/-- `load_client_backup_from_file`. -/
def loadClientBackupFromFile (json : Option JsonObject) (clients : List ClientNode) :
    Except BackupFault (List ClientNode) :=
  match json with
  | none => .ok clients
  | some obj =>
    match (obj.get "mac").bind jsonC.getString with
    | none => .ok clients
    | some mac =>
      if mac = .empty then .ok clients
      else do
        let found := lookup ClientNode.mac (normalizeMacLower mac) clients
        let client ← jsonC.loadFields obj (found.getD (newClient mac now today))
        return put ClientNode.mac client clients

/-- One turn of the loop of `load_client_backup_from_files`. -/
def loadEntry (clients : List ClientNode) (entry : BackupEntry) : Except BackupFault (List ClientNode) :=
  if entry.name.get 0 = 46 then .ok clients
  else
    match entry.content with
    | .macDir json => jsonC.loadClientBackupFromFile now today json clients
    | .file json =>
      if entry.name.strlen < 6 ∨ entry.name.bytes.drop (entry.name.strlen - 5) ≠ ascii ".json" then .ok clients
      else jsonC.loadClientBackupFromFile now today json clients

/-- `load_client_backup_from_files`. -/
def loadClientBackupFromFiles (entries : List BackupEntry) (clients : List ClientNode) :
    Except BackupFault (List ClientNode) :=
  entries.foldlM (jsonC.loadEntry now today) clients

end JsonC

/-! ## 5. A file -/

/-- The characters are bytes. -/
def narrow (s : String) : Bool := s.toList.all fun c => c.toNat < 256

theorem toList_ascii {s : String} (hs : narrow s) :
    (ascii s).map (fun b => Char.ofNat b.toNat) = s.toList := by
  rw [narrow, List.all_eq_true] at hs
  rw [ascii, List.map_map]
  refine (List.map_congr_left fun c hc => ?_).trans (List.map_id _)
  have hlt : c.toNat < 256 := of_decide_eq_true (hs c hc)
  change Char.ofNat c.toNat.toUInt8.toNat = c
  rw [Nat.toUInt8_eq, UInt8.toNat_ofNat_of_lt' hlt, Char.ofNat_toNat]

theorem ascii_inj {s t : String} (hs : narrow s) (ht : narrow t) (h : ascii s = ascii t) : s = t := by
  rw [← String.toList_inj, ← toList_ascii hs, h, toList_ascii ht]

theorem get_jsonFields_cons {k key : String} (hk : narrow k) (hkey : narrow key) (value : JsonObject)
    (fields : List (String × JsonObject)) : (jsonFields ((k, value) :: fields)).get key =
      if k = key then some value else (jsonFields fields).get key := by
  rw [jsonFields, JsonObject.get, List.map_cons, List.find?_cons]
  by_cases h : k = key
  · rw [if_pos h, decide_eq_true (congrArg ascii h)]
    rfl
  · rw [if_neg h, decide_eq_false fun ha => h (ascii_inj hk hkey ha)]
    rfl

namespace JsonC

variable (jsonC : JsonC)

theorem getInt_jsonInt (n : Int32) : jsonC.getInt (jsonInt n) = n := by
  have hclamp : jsonObjectGetInt n.toInt = n.toInt := by
    have hlo := n.le_toInt
    have hhi := n.toInt_lt
    rw [jsonObjectGetInt, INT_MIN, INT_MAX]
    omega
  rw [jsonInt, getInt, hclamp, Int32.ofInt_toInt]

theorem getInt64_jsonInt64 (n : UInt64) : .ofInt (jsonC.getInt64 (jsonInt64 n)) = n := by
  have hclamp : jsonObjectGetInt64 n.toInt64.toInt = n.toInt64.toInt := by
    have hlo := n.toInt64.le_toInt
    have hhi := n.toInt64.toInt_lt
    rw [jsonObjectGetInt64]
    omega
  have hmod : n.toInt64.toInt % 2 ^ 64 = n.toNat := by
    have hval : n.toInt64.toInt = (n.toNat : Int).bmod (2 ^ 64) := by
      rw [← Int64.toInt_toBitVec, UInt64.toBitVec_toInt64, BitVec.toInt_eq_toNat_bmod, UInt64.toNat_toBitVec]
    have hlt := n.toNat_lt
    rw [hval, show (2 : Int) ^ 64 = ((2 ^ 64 : Nat) : Int) from rfl, Int.bmod_emod]
    omega
  rw [jsonInt64, getInt64, hclamp, UInt64.ofInt, hmod, Int.toNat_natCast, UInt64.ofNat_toNat]

theorem getInt64_jsonTime (t : UInt32) : .ofInt (jsonC.getInt64 (jsonTime t)) = t := by
  have hlt := t.toNat_lt
  have hclamp : jsonObjectGetInt64 t.toNat = t.toNat := by
    rw [jsonObjectGetInt64]
    omega
  have hmod : (t.toNat : Int) % 2 ^ 32 = t.toNat := by omega
  rw [jsonTime, getInt64, hclamp, UInt32.ofInt, hmod, Int.toNat_natCast, UInt32.ofNat_toNat]

theorem getString_jsonString (s : CStr) : jsonC.getString (jsonString s) = some s := by
  rw [jsonString, getString, CStr.ofBytes_bytes]

theorem loadApp_jsonInt (n current : Int32) : jsonC.loadApp (jsonInt n) current = n := jsonC.getInt_jsonInt n

theorem clampCount_toNat_le (max : Nat) (count : Int32) :
    (clampCount max count).toInt.toNat ≤ count.toInt.toNat := by
  rw [clampCount]
  split
  · exact Nat.zero_le _
  · split
    · rename_i hlt
      have := Int32.lt_iff_toInt_lt.mp hlt
      omega
    · exact Nat.le_refl _

/-- A session as it is read: the places behind the recent apps are free. -/
def restoredSession (session : SessionStat) : SessionStat :=
  let count := clampCount MAX_RECENT_APPS session.recentAppCount
  { session with
    recentAppCount := count
    recentApps := firstOf count.toInt.toNat session.recentApps (.replicate _ 0) }

theorem loadOnlineSessionStat_serialize (session : SessionStat) :
    jsonC.loadOnlineSessionStat (serializeOnlineSessionStat session) = restoredSession session := by
  simp (disch := decide +kernel) only [loadOnlineSessionStat, serializeOnlineSessionStat, intField, int64Field,
    timeField, arrayField, field, get_jsonFields_cons, String.reduceEq, reduceIte, Option.map_some, Option.getD_some,
    getInt_jsonInt, getInt64_jsonInt64, getInt64_jsonTime, ← List.map_take, List.take_take,
    Nat.min_eq_left (clampCount_toNat_le MAX_RECENT_APPS session.recentAppCount),
    overwrite_take jsonC.loadApp_jsonInt]
  rfl

theorem loadHourTraffic_jsonTraffic (traffic current : TrafficStat) :
    jsonC.loadHourTraffic (jsonTraffic traffic) current = traffic := by
  simp (disch := decide +kernel) only [loadHourTraffic, jsonTraffic, int64Field, field, get_jsonFields_cons,
    String.reduceEq, reduceIte, Option.map_some, Option.getD_some, getInt64_jsonInt64]

theorem loadDailyStats_serialize (stat : DailyStat) :
    jsonC.loadDailyStats (serializeDailyStats stat) = stat := by
  have happs : ∀ apps current : Vector Int32 TOP_APP_PER_HOUR,
      jsonC.loadHourApps (.array (apps.toList.map jsonInt)) current = apps :=
    fun apps current => overwrite_map jsonC.loadApp_jsonInt apps current
  have htime : ∀ t current : UInt64, jsonC.loadHourTime (jsonInt64 t) current = t :=
    fun t _ => jsonC.getInt64_jsonInt64 t
  simp (disch := decide +kernel) only [loadDailyStats, serializeDailyStats, intField, timeField, arrayField, field,
    get_jsonFields_cons, String.reduceEq, reduceIte, Option.map_some, Option.getD_some, getInt_jsonInt,
    getInt64_jsonTime, overwrite_map happs, overwrite_map jsonC.loadHourTraffic_jsonTraffic,
    overwrite_map htime]

theorem loadTopApp_jsonTopApp (appIconExistsById : Int32 → Bool) (app current : TopApp) :
    jsonC.loadTopApp (jsonTopApp appIconExistsById app) current = app := by
  rw [jsonTopApp]
  split <;> simp (disch := decide +kernel) only [loadTopApp, intField, int64Field, field, List.cons_append,
    List.nil_append, get_jsonFields_cons, String.reduceEq, reduceIte, Option.map_some, Option.getD_some,
    getInt_jsonInt, getInt64_jsonInt64]

/-- The top apps as they are read. -/
def restoredTopApps (stat : TopAppsStat) : TopAppsStat :=
  { stat with count := clampCount MAX_TOP_APPS_PER_DAY stat.count }

theorem loadDailyTopApps_serialize (appIconExistsById : Int32 → Bool) (stat : TopAppsStat) :
    jsonC.loadDailyTopApps (serializeDailyTopAppsStats appIconExistsById stat) = restoredTopApps stat := by
  simp (disch := decide +kernel) only [loadDailyTopApps, serializeDailyTopAppsStats, intField, timeField,
    arrayField, field, get_jsonFields_cons, String.reduceEq, reduceIte, Option.map_some, Option.getD_some, getInt_jsonInt,
    getInt64_jsonTime, overwrite_map (jsonC.loadTopApp_jsonTopApp appIconExistsById)]
  rfl

/-- A client as it is read. -/
def restored (client : ClientNode) : ClientNode :=
  { client with
    runtime := {}
    onlineSession := restoredSession client.onlineSession
    dailyTopAppsStats := restoredTopApps client.dailyTopAppsStats }

/-- A file has everything of its client, whatever the daemon that reads it has of it. -/
theorem loadFields_clientJson (appIconExistsById : Int32 → Bool) (client : ClientNode)
    {node : ClientNode} (hmac : node.mac = client.mac) :
    jsonC.loadFields (clientJson appIconExistsById client) node = .ok (restored client) := by
  simp (disch := decide +kernel) only [loadFields, clientJson, textField, intField, timeField, field,
    get_jsonFields_cons, String.reduceEq, reduceIte, Option.map_some, Option.getD_some, getInt_jsonInt, getInt64_jsonTime,
    getString_jsonString, ArrayText.strncpy_text, ok_bind, loadOnlineSessionStat_serialize,
    loadDailyStats_serialize, loadDailyTopApps_serialize, hmac]
  rfl

end JsonC

/-! ## 6. The directory -/

/-- An address as the daemon has it. -/
structure NodeMac (mac : CStr) : Prop where
  nonempty : mac ≠ .empty
  fits : mac.strlen < MAX_MAC_LEN
  lower : ∀ c ∈ mac.bytes, c = 58 ∨ isxdigit c ∧ tolower c = c

theorem NodeMac.normalize {mac : CStr} (h : NodeMac mac) : normalizeMacLower mac = mac := by
  have hlower : mac.bytes.map tolower = mac.bytes := by
    refine (List.map_congr_left fun c hc => ?_).trans (List.map_id _)
    rcases h.lower c hc with rfl | ⟨-, hc⟩
    · decide
    · exact hc
  refine CStr.ext ?_
  change (mac.bytes.map tolower).take (MAX_MAC_LEN - 1) = mac.bytes
  rw [hlower]
  exact List.take_of_length_le (Nat.le_sub_one_of_lt h.fits)

theorem NodeMac.dirname_bytes {mac : CStr} (h : NodeMac mac) :
    (macToDirname mac).bytes = mac.bytes.map fun c => if c = 58 then 95 else c := by
  have hfits : mac.bytes.length ≤ 63 := Nat.le_trans (Nat.le_of_lt h.fits) (by decide)
  rw [macToDirname, List.take_of_length_le hfits, CStr.ofBytes_of_noNul]
  rw [List.mem_map]
  rintro ⟨c, hc, h0⟩
  split at h0
  · cases h0
  · exact mac.noNul (h0 ▸ hc)

/-- The name of a directory gives the address. -/
theorem NodeMac.dirname_inj {mac mac' : CStr} (h : NodeMac mac) (h' : NodeMac mac') :
    macToDirname mac = macToDirname mac' ↔ mac = mac' := by
  refine ⟨fun heq => ?_, congrArg _⟩
  have hback : ∀ {mac : CStr}, NodeMac mac →
      (macToDirname mac).bytes.map (fun c => if c = 95 then 58 else c) = mac.bytes := by
    intro mac h
    rw [h.dirname_bytes, List.map_map]
    refine (List.map_congr_left fun c hc => ?_).trans (List.map_id _)
    have hne : c ≠ 95 := by
      rintro rfl
      rcases h.lower 95 hc with h | ⟨h, -⟩
      · cases h
      · revert h
        decide
    rw [Function.comp]
    by_cases hcolon : c = 58
    · rw [if_pos hcolon, if_pos rfl, hcolon]
      rfl
    · rw [if_neg hcolon, if_neg hne]
      rfl
  exact CStr.ext (by rw [← hback h, heq, hback h'])

/-- No directory of a client is passed over. -/
theorem NodeMac.dirname_get {mac : CStr} (h : NodeMac mac) : (macToDirname mac).get 0 ≠ 46 := by
  rw [CStr.get, h.dirname_bytes]
  cases hbytes : mac.bytes with
  | nil => exact absurd (CStr.ext hbytes) h.nonempty
  | cons c rest =>
    have hc : c = 58 ∨ isxdigit c ∧ tolower c = c := h.lower c (hbytes ▸ List.mem_cons_self)
    change (if c = 58 then 95 else c) ≠ 46
    rintro hdot
    split at hdot
    · cases hdot
    · subst hdot
      revert hc
      decide

variable (appIconExistsById : Int32 → Bool)

/-- The directory of a client. -/
def entryOf (client : ClientNode) : BackupEntry :=
  ⟨macToDirname client.mac, .macDir (some (clientJson appIconExistsById client))⟩

/-- The clients of a run of saves, each as it was saved last. -/
def lastSaves (saves : List ClientNode) : List ClientNode :=
  saves.foldl (fun clients client => put ClientNode.mac client clients) []

theorem lastSaves_concat (saves : List ClientNode) (client : ClientNode) :
    lastSaves (saves ++ [client]) = put ClientNode.mac client (lastSaves saves) :=
  List.foldl_concat _ _ _ _

theorem plain_lastSaves {saves : List ClientNode} (h : ∀ c ∈ saves, NodeMac c.mac) :
    ∀ c ∈ lastSaves saves, NodeMac c.mac := by
  intro c hc
  have hfound := (lookup_eq_some_iff (@nodup_foldl_put _ _ _ ClientNode.mac saves)).mpr ⟨hc, rfl⟩
  rw [lookup_foldl_put] at hfound
  exact h c (List.mem_reverse.mp (mem_of_lookup hfound))

/-- The directory has the last file of every client. -/
theorem savedDir_eq {saves : List ClientNode} (h : ∀ c ∈ saves, NodeMac c.mac) :
    saves.foldl (saveClientBackupToFile appIconExistsById) [] =
      (lastSaves saves).map (entryOf appIconExistsById) := by
  induction saves using List.reverseRecOn with
  | nil => rfl
  | append_singleton saves client ih =>
    have hsaves : ∀ c ∈ saves, NodeMac c.mac := fun c hc => h c (List.mem_append_left _ hc)
    have hclient : NodeMac client.mac := h client (by simp)
    rw [List.foldl_concat, ih hsaves, lastSaves_concat, saveClientBackupToFile, put]
    refine upsert_map ?_ ?_ rfl
    · exact fun c hc => (plain_lastSaves hsaves c hc).dirname_inj hclient
    · intro c _ hmac
      rw [entryOf, entryOf, hmac]
      rfl

namespace JsonC

variable (jsonC : JsonC) (now today : UInt32)

/-- A directory adds its client to those that are read. -/
theorem loadEntry_entryOf {client : ClientNode} {clients : List ClientNode} (hplain : NodeMac client.mac)
    (hnew : lookup ClientNode.mac client.mac clients = none) :
    jsonC.loadEntry now today clients (entryOf appIconExistsById client) =
      .ok (restored client :: clients) := by
  have hmac : ((clientJson appIconExistsById client).get "mac").bind jsonC.getString = some client.mac := by
    rw [clientJson, get_jsonFields_cons (by decide +kernel) (by decide +kernel), if_pos rfl, Option.bind_some]
    exact jsonC.getString_jsonString client.mac
  have hnode : (newClient client.mac now today).mac = client.mac := hplain.normalize
  have hput : put ClientNode.mac (restored client) clients = restored client :: clients :=
    put_of_lookup_none hnew
  rw [loadEntry, entryOf, if_neg hplain.dirname_get]
  simp only [loadClientBackupFromFile, hmac, if_neg hplain.nonempty, hplain.normalize, hnew, Option.getD_none,
    jsonC.loadFields_clientJson appIconExistsById client hnode, ok_bind, hput]
  rfl

/-- Directories of different clients. -/
theorem load_entries {cs : List ClientNode} (hplain : ∀ c ∈ cs, NodeMac c.mac)
    (hnodup : (cs.map ClientNode.mac).Nodup) :
    jsonC.loadClientBackupFromFiles now today (cs.map (entryOf appIconExistsById)) [] =
      .ok (cs.map restored).reverse := by
  induction cs using List.reverseRecOn with
  | nil => rfl
  | append_singleton cs client ih =>
    rw [List.map_append, List.nodup_append] at hnodup
    have hnew : lookup ClientNode.mac client.mac (cs.map restored).reverse = none := by
      rw [lookup_eq_none_iff, List.map_reverse, List.mem_reverse, List.map_map]
      exact fun hmem => hnodup.2.2 _ hmem _ (List.mem_singleton_self _) rfl
    rw [loadClientBackupFromFiles, List.map_append, List.foldlM_append]
    have hcs := ih (fun c hc => hplain c (List.mem_append_left _ hc)) hnodup.1
    rw [loadClientBackupFromFiles] at hcs
    rw [hcs, ok_bind, List.map_singleton, List.foldlM_cons,
      jsonC.loadEntry_entryOf appIconExistsById now today (hplain client (by simp)) hnew, ok_bind,
      List.map_append, List.reverse_append]
    rfl

/-- **A daemon that starts has every client as it was saved last**, with nothing of its run: whatever the
daemons before it saved in which order, and in whatever order the directory is read. -/
theorem backups_restored {saves : List ClientNode} (hplain : ∀ c ∈ saves, NodeMac c.mac)
    {entries : List BackupEntry}
    (hperm : entries.Perm (saves.foldl (saveClientBackupToFile appIconExistsById) [])) :
    ∃ clients, jsonC.loadClientBackupFromFiles now today entries [] = .ok clients ∧
      (clients.map ClientNode.mac).Nodup ∧
      ∀ mac, lookup ClientNode.mac mac clients = (lookup ClientNode.mac mac saves.reverse).map restored := by
  rw [savedDir_eq appIconExistsById hplain] at hperm
  obtain ⟨cs, rfl, hcs⟩ : Relation.Comp (· = List.map (entryOf appIconExistsById) ·) List.Perm entries
      (lastSaves saves) := by
    rw [List.eq_map_comp_perm]
    exact hperm
  have hnodup : (cs.map ClientNode.mac).Nodup :=
    (hcs.map ClientNode.mac).nodup_iff.mpr (nodup_foldl_put saves)
  have hmacs : ((cs.map restored).reverse.map ClientNode.mac).Nodup := by
    rw [List.map_reverse, List.nodup_reverse, List.map_map]
    exact hnodup
  refine ⟨(cs.map restored).reverse, ?_, hmacs, fun mac => ?_⟩
  · exact jsonC.load_entries appIconExistsById now today
      (fun c hc => plain_lastSaves hplain c (hcs.mem_iff.mp hc)) hnodup
  · have hsaves : lookup ClientNode.mac mac cs = lookup ClientNode.mac mac saves.reverse :=
      (lookup_perm hcs hnodup).trans (lookup_foldl_put mac saves)
    rw [lookup_perm (List.reverse_perm _) hmacs, ← hsaves]
    have hkey : ∀ c, (restored c).mac = c.mac := fun _ => rfl
    exact lookup_map mac hkey cs

end JsonC

/-- json-c, where every other value is `0` and an empty text. -/
def plainJsonC : JsonC := ⟨fun _ => 0, fun _ => []⟩

/-- A phone with a counter above `2 ^ 63`, and what it has used last. -/
def phoneClient : ClientNode where
  mac := .lit "aa:bb:cc:dd:ee:01"
  offlineTime := 700
  onlineTime := 600
  runtime := { online := 1 }
  onlineSession :=
    { upBytes := 2 ^ 63 + 5, recentApps := #v[1001, 8001, 0, 0, 0], recentAppCount := 2, startTime := 600 }
  dailyStats := { date := 0, isToday := 1 }
  dailyTopAppsStats := {}

/-- A second client, and the directories the other way round. -/
theorem backups_restored_two :
    ∃ clients, plainJsonC.loadClientBackupFromFiles 800 0
        ([phoneClient, { phoneClient with mac := .lit "aa:bb:cc:dd:ee:02" },
          { phoneClient with offlineTime := 900 }].foldl (saveClientBackupToFile fun _ => false) []).reverse [] =
          .ok clients ∧ (clients.map ClientNode.mac).Nodup ∧
      ∀ mac, lookup ClientNode.mac mac clients =
        (lookup ClientNode.mac mac [phoneClient, { phoneClient with mac := .lit "aa:bb:cc:dd:ee:02" },
          { phoneClient with offlineTime := 900 }].reverse).map JsonC.restored := by
  refine plainJsonC.backups_restored (fun _ => false) 800 0 (fun c hc => ?_) (List.reverse_perm _)
  have hmac : c.mac = .lit "aa:bb:cc:dd:ee:01" ∨ c.mac = .lit "aa:bb:cc:dd:ee:02" := by
    simp only [List.mem_cons, List.not_mem_nil, or_false] at hc
    rcases hc with rfl | rfl | rfl
    · exact .inl rfl
    · exact .inr rfl
    · exact .inl rfl
  rcases hmac with h | h <;> rw [h] <;> exact ⟨by decide +kernel, by decide +kernel, by decide +kernel⟩

/-! ## 7. The daemon of the records -/

/-- The session of a client, as the records have it. -/
def SessionStat.user (session : SessionStat) : OnlineSessionStat where
  upBytes := session.upBytes
  downBytes := session.downBytes
  onlineDuration := session.onlineDuration
  activeDuration := session.activeDuration
  recentApps := (session.recentApps.toList.take session.recentAppCount.toInt.toNat).map Int32.toInt
  startTime := session.startTime

/-- A client, as the records have it. -/
def ClientNode.user (client : ClientNode) : UserNode where
  mac := client.mac
  online := client.runtime.online ≠ 0
  active := client.runtime.active.toInt
  lastOnlineState := client.runtime.lastOnlineState ≠ 0
  sessionOnlineRecorded := client.runtime.sessionOnlineRecorded ≠ 0
  isWireless := client.isWireless ≠ 0
  wirelessOnline := client.runtime.wirelessOnline ≠ 0
  expire := client.expire ≠ 0
  onlineTime := client.onlineTime
  offlineTime := client.offlineTime
  session := client.onlineSession.user

namespace JsonC

theorem clampCount_toNat (count : Int32) :
    (clampCount MAX_RECENT_APPS count).toInt.toNat = min MAX_RECENT_APPS count.toInt.toNat := by
  have hmax : (Int32.ofInt MAX_RECENT_APPS).toInt = 5 := by decide
  have h5 : MAX_RECENT_APPS = 5 := rfl
  rw [clampCount]
  split
  · rename_i hlt
    have := Int32.lt_iff_toInt_lt.mp hlt
    rw [Int32.toInt_zero] at this ⊢
    omega
  · rename_i hneg
    rw [Int32.lt_iff_toInt_lt, Int32.toInt_zero] at hneg
    split
    · rename_i hlt
      rw [Int32.lt_iff_toInt_lt] at hlt
      omega
    · rename_i hle
      rw [Int32.lt_iff_toInt_lt] at hle
      omega

theorem toList_firstOf {α : Type} {n k : Nat} (array rest : Vector α n) :
    (firstOf k array rest).toList.take k = array.toList.take k := by
  refine List.ext_getElem? fun i => ?_
  rw [List.getElem?_take, List.getElem?_take]
  split
  · rename_i hk
    by_cases hi : i < n
    · rw [List.getElem?_eq_getElem (by simpa using hi), List.getElem?_eq_getElem (by simpa using hi),
        Vector.getElem_toList, Vector.getElem_toList, firstOf, Vector.getElem_mapFinIdx, if_pos hk]
    · rw [List.getElem?_eq_none (by simpa using hi), List.getElem?_eq_none (by simpa using hi)]
  · rfl

/-- The session lists the recent apps that it listed. -/
theorem user_restoredSession (session : SessionStat) : (restoredSession session).user = session.user := by
  have hlength : session.recentApps.toList.length = MAX_RECENT_APPS := Vector.length_toList
  have happs : (restoredSession session).recentApps.toList.take
      (restoredSession session).recentAppCount.toInt.toNat =
        session.recentApps.toList.take session.recentAppCount.toInt.toNat := by
    change (firstOf _ session.recentApps _).toList.take
      (clampCount MAX_RECENT_APPS session.recentAppCount).toInt.toNat = _
    refine (toList_firstOf _ _).trans (List.take_eq_take_iff.mpr ?_)
    rw [clampCount_toNat, hlength]
    omega
  rw [SessionStat.user, SessionStat.user, happs]
  rfl

theorem user_restored (client : ClientNode) : (restored client).user =
    { client.user with
      online := false
      active := 0
      lastOnlineState := false
      sessionOnlineRecorded := false
      wirelessOnline := false } := by
  rw [ClientNode.user, ClientNode.user, ← user_restoredSession client.onlineSession]
  rfl

/-- Of the backups that the records keep, each adds its client as the file does. -/
theorem user_load {cs : List ClientNode} (now : UInt32) (hplain : ∀ c ∈ cs, NodeMac c.mac)
    (hnodup : (cs.map ClientNode.mac).Nodup) :
    (cs.map fun c => c.user.backup).foldl (loadClientBackup now) [] =
      (cs.map restored).reverse.map ClientNode.user := by
  induction cs using List.reverseRecOn with
  | nil => rfl
  | append_singleton cs client ih =>
    rw [List.map_append, List.nodup_append] at hnodup
    have hclient := hplain client (by simp)
    have hnew : lookup UserNode.mac client.mac ((cs.map restored).reverse.map ClientNode.user) = none := by
      rw [lookup_eq_none_iff, List.map_reverse, List.map_reverse, List.mem_reverse, List.map_map, List.map_map]
      exact fun hmem => hnodup.2.2 _ hmem _ (List.mem_singleton_self _) rfl
    rw [List.map_append, List.foldl_append, ih (fun c hc => hplain c (List.mem_append_left _ hc)) hnodup.1,
      List.map_append, List.reverse_append, List.map_append]
    change withClient client.mac now _ _ = _
    rw [withClient, if_neg hclient.nonempty, hclient.normalize, upsert, hnew]
    change _ :: _ = (restored client).user :: _
    rw [user_restored]
    congr 1
    rw [newUser, hclient.normalize]
    rfl

end JsonC

/-- The directory has the files that the records keep. -/
theorem user_savedDir (saves : List ClientNode) :
    (saves.map ClientNode.user).foldl saveClientBackup [] = (lastSaves saves).map fun c => c.user.backup := by
  induction saves using List.reverseRecOn with
  | nil => rfl
  | append_singleton saves client ih =>
    rw [List.map_append, List.foldl_append, ih, lastSaves_concat, put]
    change upsert ClientBackup.mac client.mac client.user.backup (fun _ => client.user.backup)
      ((lastSaves saves).map fun c => c.user.backup) = _
    exact upsert_map (fun _ _ => Iff.rfl) (fun _ _ _ => rfl) rfl

/-- The start of a daemon, as the records have it, is the one from the directory. -/
theorem restart_user (jsonC : JsonC) (now today : UInt32) {saves : List ClientNode}
    (hplain : ∀ c ∈ saves, NodeMac c.mac) :
    ∃ clients, jsonC.loadClientBackupFromFiles now today
        (saves.foldl (saveClientBackupToFile appIconExistsById) []) [] = .ok clients ∧
      clients.map ClientNode.user =
        ((saves.map ClientNode.user).foldl saveClientBackup []).foldl (loadClientBackup now) [] := by
  rw [savedDir_eq appIconExistsById hplain, user_savedDir]
  have hnodup := @nodup_foldl_put _ _ _ ClientNode.mac saves
  refine ⟨_, jsonC.load_entries appIconExistsById now today (plain_lastSaves hplain) hnodup, ?_⟩
  rw [JsonC.user_load now (plain_lastSaves hplain) hnodup]

end Oaf
