/-
# The control device

`/dev/fwx` (`fwx_config.c`): what is written to the open file is parsed when it is released, and goes to
the handler of its `api`.

* `FwxCdevFile`, `fwxCdevWrite`: the buffer.
* `fwxConfigRequest`: `fwx_config_handle`, up to what a handler finds in `data`.  `none` is a read behind
  the buffer, or a comparison with NULL.
* `release_isSome_iff`: when neither happens.

A handler whose request is `none` only prints.
-/
import Oaf.Filter.Api
import Oaf.Json.Texts

namespace Oaf

open CLib

/-! ## 1. The file -/

def BUF_SIZE : Nat := 256 <<< 10

/-- `struct fwx_cdev_file` -/
structure FwxCdevFile where
  size : Nat
  buf : List UInt8
  length_buf : buf.length = BUF_SIZE
  size_le : size ≤ BUF_SIZE

/-- `fwx_cdev_open`: the file is zeroed. -/
def fwxCdevOpen : FwxCdevFile where
  size := 0
  buf := List.replicate BUF_SIZE 0
  length_buf := List.length_replicate
  size_le := Nat.zero_le _

/-- A `write`: its bytes, and how many of them `copy_from_user` cannot read. -/
structure DeviceWrite where
  buffer : List UInt8
  unread : Nat := 0

/-- What `copy_from_user` writes: zeros in the place of what it cannot read. -/
def DeviceWrite.copied (w : DeviceWrite) : List UInt8 :=
  w.buffer.take (w.buffer.length - w.unread) ++ List.replicate (min w.unread w.buffer.length) 0

theorem DeviceWrite.length_copied (w : DeviceWrite) : w.copied.length = w.buffer.length := by
  rw [copied, List.length_append, List.length_take, List.length_replicate]
  omega

theorem DeviceWrite.copied_of_read (buffer : List UInt8) : DeviceWrite.copied { buffer } = buffer := by
  simp [copied]

/-- `fwx_cdev_write`.  A write has less than 2^31 bytes, and `size + count` does not wrap. -/
def fwxCdevWrite (file : FwxCdevFile) (w : DeviceWrite) : FwxCdevFile :=
  if h : BUF_SIZE < file.size + w.buffer.length then file
  else
    { size := if w.unread = 0 then file.size + w.buffer.length else file.size
      buf := file.buf.take file.size ++ w.copied ++ file.buf.drop (file.size + w.buffer.length)
      length_buf := by
        have hbuf := file.length_buf
        have hcopied := w.length_copied
        simp only [List.length_append, List.length_take, List.length_drop]
        omega
      size_le := by
        have hsize := file.size_le
        split <;> omega }

/-- The file after some writes. -/
def fwxCdevWrites (writes : List DeviceWrite) : FwxCdevFile := writes.foldl fwxCdevWrite fwxCdevOpen

/-- What has been written so far, in front of zeros. -/
structure FileHolds (file : FwxCdevFile) (text : List UInt8) : Prop where
  size : file.size = text.length
  buf : file.buf = text ++ List.replicate (BUF_SIZE - text.length) 0

theorem fileHolds_open : FileHolds fwxCdevOpen [] := ⟨rfl, rfl⟩

theorem fileHolds_write {file : FwxCdevFile} {text chunk : List UInt8} (h : FileHolds file text)
    (hfits : (text ++ chunk).length ≤ BUF_SIZE) :
    FileHolds (fwxCdevWrite file { buffer := chunk }) (text ++ chunk) := by
  obtain ⟨hsize, hbuf⟩ := h
  rw [List.length_append] at hfits
  have hroom : ¬BUF_SIZE < file.size + chunk.length := by omega
  rw [fwxCdevWrite, dif_neg hroom]
  constructor
  · rw [List.length_append, ← hsize]
    rfl
  · simp only [DeviceWrite.copied_of_read, hbuf, hsize, List.take_left, List.append_assoc]
    rw [← List.drop_drop, List.drop_left, List.drop_replicate, List.length_append, Nat.sub_sub]

/-- **However a text is cut into writes**, the buffer holds it in front of zeros. -/
theorem fileHolds_writes {chunks : List (List UInt8)} (hfits : chunks.flatten.length ≤ BUF_SIZE) :
    FileHolds (fwxCdevWrites (chunks.map fun chunk => { buffer := chunk })) chunks.flatten := by
  suffices hrun : ∀ (chunks : List (List UInt8)) (file : FwxCdevFile) (text : List UInt8), FileHolds file text →
      (text ++ chunks.flatten).length ≤ BUF_SIZE →
      FileHolds ((chunks.map fun chunk => { buffer := chunk }).foldl fwxCdevWrite file)
        (text ++ chunks.flatten) from hrun chunks fwxCdevOpen [] fileHolds_open hfits
  intro chunks
  induction chunks with
  | nil =>
    intro file text h _
    simpa using h
  | cons chunk chunks ih =>
    intro file text h hfits
    rw [List.flatten_cons, ← List.append_assoc] at hfits ⊢
    refine ih _ _ (fileHolds_write h ?_) hfits
    rw [List.length_append] at hfits
    omega

/-! ## 2. Items of a message -/

namespace KJson

/-- `valueint` -/
def valueint : KJson → Int
  | .number n => n
  | .true => 1
  | _ => 0

/-- `valuestring`: NULL in an item that is no string. -/
def valuestring : KJson → Option CStr
  | .string s => some s
  | _ => none

/-- What `cJSON_GetArrayItem` counts: the members of an object, too. -/
def children : KJson → List KJson
  | .array items => items
  | .object members => members.map (·.2)
  | _ => []

/-- `cJSON_GetObjectItem`.  The items of an array have no key: `strcasecmp` gets NULL. -/
def getObjectItem (object : KJson) (string : CStr) : Option (Option KJson) :=
  match object with
  | .array (_ :: _) => none
  | .object members =>
    some ((members.find? fun member => caseEq member.1.bytes string.bytes).map (·.2))
  | _ => some none

/-- What the handlers look at in an app id. -/
def token (v : KJson) : CJson where
  type := match v with
    | .number _ => .number
    | .string _ => .string
    | _ => .other
  valueint := v.valueint
  valuestring := v.valuestring

end KJson

/-- What the handlers look up in `data`. -/
def ruleRequest (data : KJson) : Option RuleRequest := do
  let ruleId ← data.getObjectItem (.lit "rule_id")
  let mode ← data.getObjectItem (.lit "mode")
  let enable ← data.getObjectItem (.lit "enable")
  let filterQuic ← data.getObjectItem (.lit "filter_quic")
  let macAction ← data.getObjectItem (.lit "mac_action")
  let macList ← data.getObjectItem (.lit "mac_list")
  let mac ← data.getObjectItem (.lit "mac")
  let appAction ← data.getObjectItem (.lit "app_action")
  let appIdList ← data.getObjectItem (.lit "app_id_list")
  let appId ← data.getObjectItem (.lit "app_id")
  return {
    ruleId := ruleId.map (·.valueint)
    mode := mode.map (·.valueint)
    enable := enable.map (·.valueint)
    filterQuic := filterQuic.map (·.valueint)
    macAction := macAction.map (·.valueint)
    macList := macList.map fun list => list.children.map (·.valuestring)
    mac := mac.map (·.valuestring)
    appAction := appAction.map (·.valueint)
    appIdList := appIdList.map fun list => list.children.map (·.token)
    appId := appId.map (·.token) }

/-! ## 3. Requests -/

/-- What a handler makes of `data`. -/
abbrev Handler := KJson → Option (Option FilterCall)

/-- A handler that looks into `data`, before anything else. -/
def looksUp (call : RuleRequest → Option FilterCall) : Handler := fun data => (ruleRequest data).map call

/-- A handler that does not. -/
def flushes (call : FilterCall) : Handler := fun _ => some (some call)

/-- `k_request_api_list` -/
def kRequestApiList : List (CStr × Handler) := [
  (.lit "add_mac_filter_rule", looksUp fun req => some (.addMacFilterRule req)),
  (.lit "del_mac_filter_rule", looksUp fun req => some (.delMacFilterRule req)),
  (.lit "mod_mac_filter_rule", looksUp fun req => some (.modMacFilterRule req)),
  (.lit "dump_mac_filter_rule", looksUp fun _ => none),
  (.lit "flush_mac_filter_rule", flushes .flushMacFilterRule),
  (.lit "add_app_filter_rule", looksUp fun req => some (.addAppFilterRule req)),
  (.lit "del_app_filter_rule", looksUp fun req => some (.delAppFilterRule req)),
  (.lit "mod_app_filter_rule", looksUp fun req => some (.modAppFilterRule req)),
  (.lit "dump_app_filter_rule", looksUp fun _ => none),
  (.lit "flush_app_filter_rule", flushes .flushAppFilterRule),
  (.lit "add_mac_filter_whitelist", looksUp fun req => some (.addMacFilterWhitelist req)),
  (.lit "del_mac_filter_whitelist", looksUp fun req => some (.delMacFilterWhitelist req)),
  (.lit "flush_mac_filter_whitelist", flushes .flushMacFilterWhitelist),
  (.lit "add_app_filter_whitelist", looksUp fun req => some (.addAppFilterWhitelist req)),
  (.lit "flush_app_filter_whitelist", flushes .flushAppFilterWhitelist),
  (.lit "add_record_whitelist", looksUp fun req => some (.addRecordWhitelist req)),
  (.lit "del_record_whitelist", looksUp fun req => some (.delRecordWhitelist req)),
  (.lit "flush_record_whitelist", flushes .flushRecordWhitelist)]

/-- The loop of `fwx_config_handle`. -/
def dispatch (api : CStr) (data : KJson) : Option (Option FilterCall) :=
  match kRequestApiList.find? fun item => item.1 == api with
  | some reqItem => reqItem.2 data
  | none => some none

/-- `fwx_config_handle`, behind the parser. -/
def handleItem (configObj : KJson) : Option (Option FilterCall) := do
  let apiObj ← configObj.getObjectItem (.lit "api")
  let dataObj ← configObj.getObjectItem (.lit "data")
  match apiObj with
  | none => return none
  | some apiObj => dispatch (← apiObj.valuestring) (dataObj.getD (.object []))

/-- `fwx_config_handle`.  What does not parse is printed, up to a NUL. -/
def fwxConfigRequest (uninit : Bytes → UInt32) (config : List UInt8) (len : Nat) :
    Option (Option FilterCall) :=
  if len = 0 then some none
  else
    match cJSONParse uninit config with
    | .fault => none
    | .fail => if 0 ∈ config then some none else none
    | .ok configObj _ => handleItem configObj

/-- `fwx_cdev_release` -/
def fwxCdevRelease (uninit : Bytes → UInt32) (file : FwxCdevFile) : Option (Option FilterCall) :=
  fwxConfigRequest uninit file.buf file.size

/-! ## 4. Safe messages -/

/-- An array that is not empty: a key cannot be looked up in it. -/
def KJson.Keyless (v : KJson) : Prop := ∃ item items, v = .array (item :: items)

/-- The first member of this key, up to case. -/
def KJson.member (v : KJson) (key : CStr) : Option KJson :=
  match v with
  | .object members => (members.find? fun member => caseEq member.1.bytes key.bytes).map (·.2)
  | _ => none

theorem getObjectItem_of_keyless {v : KJson} (h : v.Keyless) (key : CStr) : v.getObjectItem key = none := by
  obtain ⟨item, items, rfl⟩ := h
  rfl

theorem getObjectItem_of_not_keyless {v : KJson} (h : ¬v.Keyless) (key : CStr) :
    v.getObjectItem key = some (v.member key) := by
  cases v with
  | array items =>
    cases items with
    | nil => rfl
    | cons item items => exact absurd ⟨item, items, rfl⟩ h
  | _ => rfl

theorem ruleRequest_isSome_iff {data : KJson} : (ruleRequest data).isSome = true ↔ ¬data.Keyless := by
  constructor
  · intro h hkeyless
    rw [ruleRequest, getObjectItem_of_keyless hkeyless] at h
    cases h
  · intro h
    simp [ruleRequest, getObjectItem_of_not_keyless h]

/-- The requests whose handler looks into `data`: all but those that empty a list. -/
def lookupApis : List CStr := [
  .lit "add_mac_filter_rule", .lit "del_mac_filter_rule", .lit "mod_mac_filter_rule",
  .lit "dump_mac_filter_rule", .lit "add_app_filter_rule", .lit "del_app_filter_rule",
  .lit "mod_app_filter_rule", .lit "dump_app_filter_rule", .lit "add_mac_filter_whitelist",
  .lit "del_mac_filter_whitelist", .lit "add_app_filter_whitelist", .lit "add_record_whitelist",
  .lit "del_record_whitelist"]

/-- What an entry of `k_request_api_list` makes of `data`. -/
def HandlerOk (item : CStr × Handler) : Prop :=
  ∀ data, (item.2 data).isSome = true ↔ (item.1 ∈ lookupApis → ¬data.Keyless)

theorem handlerOk_looksUp {api : CStr} {call : RuleRequest → Option FilterCall} (h : api ∈ lookupApis) :
    HandlerOk (api, looksUp call) := by
  intro data
  change ((ruleRequest data).map call).isSome = true ↔ _
  rw [Option.isSome_map, ruleRequest_isSome_iff]
  exact ⟨fun hdata _ => hdata, fun hdata => hdata h⟩

theorem handlerOk_flushes {api : CStr} {call : FilterCall} (h : api ∉ lookupApis) :
    HandlerOk (api, flushes call) := fun _ => ⟨fun _ hapi => absurd hapi h, fun _ => rfl⟩

theorem handlerOk {item : CStr × Handler} (h : item ∈ kRequestApiList) : HandlerOk item := by
  simp only [kRequestApiList, List.mem_cons, List.not_mem_nil, or_false] at h
  obtain rfl | rfl | rfl | rfl | rfl | rfl | rfl | rfl | rfl | rfl | rfl | rfl | rfl | rfl | rfl | rfl |
    rfl | rfl := h
  all_goals first | exact handlerOk_looksUp (by decide) | exact handlerOk_flushes (by decide)

theorem lookupApis_listed : ∀ api ∈ lookupApis, api ∈ kRequestApiList.map (·.1) := by decide

theorem dispatch_isSome_iff {api : CStr} {data : KJson} :
    (dispatch api data).isSome = true ↔ (api ∈ lookupApis → ¬data.Keyless) := by
  rw [dispatch]
  split
  · rename_i item hfind
    have hentry := handlerOk (List.mem_of_find?_eq_some hfind) data
    have hapi : item.1 = api := by simpa using List.find?_some hfind
    rwa [hapi] at hentry
  · rename_i hfind
    have hnone : api ∉ lookupApis := by
      intro hapi
      have hlisted := lookupApis_listed api hapi
      obtain ⟨item, hitem, rfl⟩ := List.mem_map.mp hlisted
      simpa using List.find?_eq_none.mp hfind item hitem
    exact ⟨fun _ hapi => absurd hapi hnone, fun _ => rfl⟩

/-- The value names a request by a string, or none at all, and gives it something to look into. -/
structure Answerable (v : KJson) : Prop where
  keys : ¬v.Keyless
  api : ∀ a, v.member (.lit "api") = some a → ∃ s, a = .string s
  data : ∀ s, v.member (.lit "api") = some (.string s) → s ∈ lookupApis →
    ∀ d, v.member (.lit "data") = some d → ¬d.Keyless

theorem handleItem_isSome_iff {v : KJson} : (handleItem v).isSome = true ↔ Answerable v := by
  by_cases hkeys : v.Keyless
  · rw [handleItem, getObjectItem_of_keyless hkeys]
    exact ⟨fun h => (by cases h), fun h => absurd hkeys h.keys⟩
  rw [handleItem, getObjectItem_of_not_keyless hkeys, getObjectItem_of_not_keyless hkeys]
  simp only [Option.bind_eq_bind, Option.bind_some]
  cases hapi : v.member (.lit "api") with
  | none => exact ⟨fun _ => ⟨hkeys, by simp [hapi], by simp [hapi]⟩, fun _ => rfl⟩
  | some a =>
    cases a with
    | string api =>
      simp only [KJson.valuestring, Option.bind_some, dispatch_isSome_iff]
      constructor
      · intro h
        refine ⟨hkeys, fun a ha => ⟨api, ?_⟩, fun s hs hlisted d hd => ?_⟩
        · rw [hapi] at ha
          exact (Option.some.inj ha).symm
        · rw [hapi] at hs
          obtain rfl := KJson.string.inj (Option.some.inj hs)
          have hdata := h hlisted
          rwa [hd] at hdata
      · intro h hlisted
        cases hd : v.member (.lit "data") with
        | none => rintro ⟨_, _, hempty⟩; cases hempty
        | some d => exact h.data api hapi hlisted d hd
    | _ =>
      refine ⟨fun h => (by cases h), fun h => ?_⟩
      obtain ⟨s, hs⟩ := h.api _ hapi
      cases hs

/-- The message is not cut off by the end of the buffer, and asks for something that can be answered, or
holds a NUL when it is no message at all. -/
def SafeMessage (uninit : Bytes → UInt32) (file : FwxCdevFile) : Prop :=
  file.size = 0 ∨ ¬CutText uninit file.buf ∧
    (∀ v rest, ReadsText uninit file.buf v rest → Answerable v) ∧
      ((∀ v rest, ¬ReadsText uninit file.buf v rest) → 0 ∈ file.buf)

theorem fwxCdevRelease_isSome_iff (uninit : Bytes → UInt32) (file : FwxCdevFile) :
    (fwxCdevRelease uninit file).isSome = true ↔ SafeMessage uninit file := by
  rw [fwxCdevRelease, fwxConfigRequest, SafeMessage]
  by_cases hsize : file.size = 0
  · simp [hsize]
  rw [if_neg hsize, ← cJSONParse_fault_iff]
  simp only [← cJSONParse_ok_iff, hsize, false_or]
  cases cJSONParse uninit file.buf with
  | fault => simp
  | fail => simp
  | ok v rest => simp [handleItem_isSome_iff]

/-- **When the release of the file stays inside its buffer** and compares no string with NULL. -/
theorem release_isSome_iff (uninit : Bytes → UInt32) (writes : List DeviceWrite) :
    (fwxCdevRelease uninit (fwxCdevWrites writes)).isSome = true ↔
      SafeMessage uninit (fwxCdevWrites writes) :=
  fwxCdevRelease_isSome_iff uninit (fwxCdevWrites writes)

/-- A text that is not empty goes to the parser in front of zeros. -/
theorem release_text {text : List UInt8} (hfits : text.length ≤ BUF_SIZE)
    (uninit : Bytes → UInt32) :
    fwxCdevRelease uninit (fwxCdevWrites [{ buffer := text }]) =
      fwxConfigRequest uninit (text ++ List.replicate (BUF_SIZE - text.length) 0) text.length := by
  have hholds := @fileHolds_writes [text] (by simpa using hfits)
  rw [List.flatten_singleton] at hholds
  rw [fwxCdevRelease, ← hholds.buf, ← hholds.size]
  rfl

/-- The release of a text that reads as an item. -/
theorem release_parsed {uninit : Bytes → UInt32} {text rest : List UInt8} {item : KJson}
    (hfits : text.length ≤ BUF_SIZE) (hne : text ≠ [])
    (hparse : cJSONParse uninit (text ++ List.replicate (BUF_SIZE - text.length) 0) = .ok item rest) :
    fwxCdevRelease uninit (fwxCdevWrites [{ buffer := text }]) = handleItem item := by
  have hlen : text.length ≠ 0 := fun h => hne (List.length_eq_zero_iff.mp h)
  rw [release_text hfits, fwxConfigRequest, if_neg hlen, hparse]

/-- A newline alone is white space up to the end of the buffer and behind it; and the name of the request
in the other message is a number. -/
theorem newline_read_behind :
    fwxCdevRelease (fun _ => 0) (fwxCdevWrites [{ buffer := [10] }]) = none ∧
      fwxCdevRelease (fun _ => 0) (fwxCdevWrites [{ buffer := ascii "\x7b\"api\":1\x7d" }]) = none := by
  constructor
  · rw [release_text (by decide)]
    generalize BUF_SIZE - _ = zeros
    have hcut : cJSONParse (fun _ => 0) ([10] ++ List.replicate zeros 0) = .fault := by
      refine cJSONParse_fault_iff.mpr (.inl ?_)
      rw [List.all_append, List.all_replicate]
      simp [isBlank]
    rw [fwxConfigRequest, if_neg (by decide), hcut]
  · rw [release_text (by decide)]
    generalize List.replicate _ (0 : UInt8) = zeros
    have hread : cJSONParse (fun _ => 0) (ascii "\x7b\"api\":1\x7d" ++ zeros) =
        .ok (.object [(.lit "api", .number 1)]) zeros := by
      refine cJSONParse_ok_iff.mpr ⟨_, rfl, ?_⟩
      have hone : Reads (fun _ => 0) (49 :: 125 :: zeros) (.value (.number 1)) (125 :: zeros) :=
        .number (.inr (by decide)) rfl
      have hmember := @reads_lastMember_iff (fun _ => 0) (.lit "api") (by decide) (49 :: 125 :: zeros) rfl
        (.number 1) zeros
      exact reads_object_iff.mpr (hmember.mpr ⟨_, hone, rfl⟩)
    rw [fwxConfigRequest, if_neg (by decide), hread]
    rfl

end Oaf
