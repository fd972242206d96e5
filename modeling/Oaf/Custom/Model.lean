/-
# Custom applications as fwxd computes them

`fwx_custom_feature.c`: the applications a user defines.  They arrive as a JSON request, are kept
in a file with one line for each application, `id~name:[feature,feature,..]`, and are read back
from that file at every reload.  Nothing is proved here.

* `JsonObject` is a parsed request, as json-c hands it out; its string values are bytes, and a C
  function that reads one stops at the first NUL.
* A function that fails answers the text `set_error` was given.  Files are their bytes: opening,
  flushing and renaming always succeed, and so does `realloc`.
* A parser takes the bytes of a C string, since it cuts the string in place.
-/
import Oaf.Lib.CText
import Mathlib.Data.List.Sort

namespace Oaf

open CLib

/-! ## 1. Requests -/

/-- A value of json-c.  `null` is the NULL pointer. -/
inductive JsonObject where
  | null
  | boolean (b : Bool)
  | double
  | int (n : Int)
  | string (text : List UInt8)
  | array (items : List JsonObject)
  | object (fields : List (List UInt8 × JsonObject))

/-- `json_object_object_get_ex`; a value that is no object has no keys. -/
def JsonObject.get (object : JsonObject) (key : String) : Option JsonObject :=
  match object with
  | .object fields => (fields.find? (fun field => field.1 = ascii key)).map (·.2)
  | _ => none

/-- `json_object_get_int64` of an integer: the nearest one in range. -/
def jsonObjectGetInt64 (n : Int) : Int := max (-2 ^ 63) (min n (2 ^ 63 - 1))

def INT_MIN : Int := -2 ^ 31
def INT_MAX : Int := 2 ^ 31 - 1

/-- `json_object_get_int` of an integer. -/
def jsonObjectGetInt (n : Int) : Int := max INT_MIN (min n INT_MAX)

/-! ## 2. Applications -/

def CUSTOM_APP_MIN_SUFFIX : Int := 900
def CUSTOM_APP_MAX_SUFFIX : Int := 999
def CUSTOM_MAX_FEATURES : Nat := 16
def CUSTOM_MAX_PAYLOADS : Nat := 15
def CUSTOM_MAX_FEATURE_TEXT : Nat := 127
def CUSTOM_MAX_APP_LINE : Nat := 799
def CUSTOM_FALLBACK_CLASS_COUNT : Nat := 5
def MAX_SUPPORT_APP_NUM : Nat := 1024
def MAX_APP_TYPE : Nat := 16

/-- `custom_payload_t`. -/
structure CustomPayload where
  position : Int
  value : UInt8
deriving DecidableEq

/-- `custom_feature_t`.  The arrays have 4, 16, 32 and 64 bytes. -/
structure CustomFeature where
  protocol : CStr
  destPort : CStr := .empty
  domain : CStr := .empty
  uri : CStr := .empty
  payload : List CustomPayload := []
deriving DecidableEq

/-- `custom_app_t`. -/
structure CustomApp where
  appid : Int := 0
  classId : Int
  name : CStr
  features : List CustomFeature := []
deriving DecidableEq

/-- `custom_config_t`: its applications. -/
abbrev CustomConfig := List CustomApp

/-- `CLASS_NAME_TABLE`. -/
abbrev ClassNameTable := Fin MAX_APP_TYPE → CStr

/-- `has_builtin_classes`. -/
def hasBuiltinClasses (classes : ClassNameTable) : Bool :=
  (List.finRange MAX_APP_TYPE).any (fun i => (classes i).get 0 != 0)

/-- `class_is_available`.  The fallback classes are 1 to 5. -/
def classIsAvailable (classes : ClassNameTable) (classId : Int) : Bool :=
  if hasBuiltinClasses classes then
    if h : 1 ≤ classId ∧ classId ≤ MAX_APP_TYPE then
      (classes ⟨(classId - 1).toNat, by omega⟩).get 0 != 0
    else false
  else 1 ≤ classId && classId ≤ CUSTOM_FALLBACK_CLASS_COUNT

/-- `snprintf(dst, n, "%s", s)`. -/
def snprintfS (n : Nat) (s : CStr) : CStr := .ofBytes (s.bytes.take (n - 1))

/-- `trim_space`. -/
def trimSpace (text : CStr) : CStr :=
  ⟨trimSpaces text.bytes, fun h => text.noNul (mem_of_mem_trimSpaces h)⟩

/-- `has_forbidden_text_char`.  White space is looked for in the fields of a feature only. -/
def hasForbiddenTextChar (text : CStr) (appName : Bool) : Bool :=
  text.bytes.any (fun c =>
    (!appName && isspace c) || (ascii (if appName then ":~[];," else ";,[]")).contains c)

/-! ## 3. Ports and payloads -/

/-- `parse_integer`. -/
def parseInteger (text : List UInt8) (minimum maximum : Int) : Option Int :=
  if text = [] then none
  else
    let r := strtol10 text
    if r.erange || r.rest ≠ [] || r.value < minimum || maximum < r.value then none
    else some r.value

/-- What a `dest_port` text names. -/
inductive DestPort where
  | any
  | single (port : Int)
  | range (start stop : Int)
deriving DecidableEq

/-- The first half of `normalize_dest_port`: reading the text. -/
def scanDestPort (text : CStr) : Option DestPort :=
  if text.bytes = [] then some .any
  else if 16 ≤ text.strlen then none
  else
    match strchrSplit 45 text.bytes with
    | none => (parseInteger text.bytes 1 65535).map .single
    | some (before, after) =>
      if 45 ∈ after then none
      else
        match parseInteger before 1 65535, parseInteger after 1 65535 with
        | some start, some stop => if stop < start then none else some (.range start stop)
        | _, _ => none

/-- The second half: printing it again. -/
def DestPort.text : DestPort → List UInt8
  | .any => []
  | .single port => printInt port
  | .range start stop => printInt start ++ 45 :: printInt stop

/-- `normalize_dest_port` into an array of 16 bytes. -/
def normalizeDestPort (text : CStr) : Option CStr :=
  match scanDestPort text with
  | none => none
  | some port => if port.text.length < 16 then some (.ofBytes port.text) else none

/-- One item of `parse_payload_text`. -/
def parsePayloadItem (item : List UInt8) : Option CustomPayload :=
  match strchrSplit 58 item with
  | none => none
  | some (position, value) =>
    if 58 ∈ value then none
    else
      let r := strtol10 position
      if r.erange || r.rest ≠ [] || r.value < INT_MIN || INT_MAX < r.value then none
      else (hexByte value).map (fun v => ⟨r.value, v⟩)

/-- The loop of `parse_payload_text` over the texts between the `|`.  It ends at an empty text that comes last; in
front of another one the loop is at the `|`, and an empty text is read. -/
def parsePayloadItems : List CustomPayload → List (List UInt8) → Option (List CustomPayload)
  | payload, [] => some payload
  | payload, item :: rest =>
    if item = [] ∧ rest = [] then some payload
    else if CUSTOM_MAX_PAYLOADS ≤ payload.length then none
    else
      match parsePayloadItem item with
      | none => none
      | some p => parsePayloadItems (payload ++ [p]) rest

/-- `parse_payload_text`, into a feature without payload. -/
def parsePayloadText (text : List UInt8) : Option (List CustomPayload) :=
  if text = [] then some []
  else if text.getLast? = some 124 then none
  else parsePayloadItems [] (text.splitOn 124)

/-! ## 4. Features -/

/-- `validate_feature`: the feature with its port text normalized. -/
def validateFeature (feature : CustomFeature) : Except String CustomFeature :=
  if feature.protocol.bytes ≠ ascii "tcp" ∧ feature.protocol.bytes ≠ ascii "udp" then
    .error "protocol must be tcp or udp"
  else
    match normalizeDestPort feature.destPort with
    | none => .error "dest_port is invalid"
    | some normalizedPort =>
      let feature := { feature with destPort := snprintfS 16 normalizedPort }
      if 31 < feature.domain.strlen ∨ hasForbiddenTextChar feature.domain false then
        .error "domain is invalid"
      else if 63 < feature.uri.strlen ∨ hasForbiddenTextChar feature.uri false then
        .error "uri is invalid"
      else if feature.destPort.bytes = [] ∧ feature.domain.bytes = [] ∧ feature.uri.bytes = [] ∧
          feature.payload = [] then
        .error "feature match fields are empty"
      else .ok feature

/-- `parse_feature_text`. -/
def parseFeatureText (text : List UInt8) : Except String CustomFeature :=
  if text = [] ∨ CUSTOM_MAX_FEATURE_TEXT < text.length then .error "feature text is too long"
  else
    match splitExact 59 5 text with
    | some [protocol, unused, destPort, domain, uri, payload] =>
      if unused ≠ [] then .error "feature field format is invalid"
      else if protocol.length ≠ 3 then .error "protocol is invalid"
      else
        match normalizeDestPort (.ofBytes destPort) with
        | none => .error "dest_port is invalid"
        | some port =>
          if 32 ≤ domain.length ∨ 64 ≤ uri.length then .error "domain or uri is too long"
          else
            match parsePayloadText payload with
            | none => .error "payload format is invalid"
            | some items =>
              validateFeature
                { protocol := .ofBytes (protocol.map tolower), destPort := port,
                  domain := .ofBytes domain, uri := .ofBytes uri, payload := items }
    | _ => .error "feature field format is invalid"

/-- `"%d:%02x"`. -/
def payloadText (p : CustomPayload) : List UInt8 := printInt p.position ++ 58 :: printHex2 p.value

/-- The fields of a feature up to its payload. -/
def featureHead (feature : CustomFeature) : List UInt8 :=
  feature.protocol.bytes ++ 59 :: 59 :: (feature.destPort.bytes ++ 59 ::
    (feature.domain.bytes ++ 59 :: (feature.uri.bytes ++ [59])))

/-- `feature_to_text` into an array of 128 bytes. -/
def featureToText (feature : CustomFeature) : Option (List UInt8) :=
  if CUSTOM_MAX_FEATURE_TEXT + 1 ≤ (featureHead feature).length then none
  else
    match snprintfList (CUSTOM_MAX_FEATURE_TEXT + 1) 124 (featureHead feature) false
        (feature.payload.map payloadText) with
    | none => none
    | some text => if text.length ≤ CUSTOM_MAX_FEATURE_TEXT then some text else none

/-! ## 5. Lines -/

/-- `"%d~%s:["`. -/
def appHead (app : CustomApp) : List UInt8 :=
  printInt app.appid ++ 126 :: (app.name.bytes ++ ascii ":[")

/-- `app_to_line` into an array of 801 bytes. -/
def appToLine (app : CustomApp) : Option (List UInt8) :=
  if CUSTOM_MAX_APP_LINE + 2 ≤ (appHead app).length then none
  else
    match app.features.mapM featureToText with
    | none => none
    | some texts =>
      match snprintfList (CUSTOM_MAX_APP_LINE + 2) 44 (appHead app) false texts with
      | none => none
      | some text => if CUSTOM_MAX_APP_LINE < text.length + 1 then none else some (text ++ [93])

/-- `validate_app_identity` against the applications before it. -/
def validateAppIdentity (classes : ClassNameTable) (earlier : CustomConfig) (app : CustomApp) :
    Except String Unit :=
  if !classIsAvailable classes app.classId then .error "class_id is invalid"
  else if app.name.bytes = [] ∨ 63 < app.name.strlen ∨ hasForbiddenTextChar app.name true then
    .error "application name is invalid"
  else if app.appid ≠ 0 ∧ (app.appid - app.classId * 1000 < CUSTOM_APP_MIN_SUFFIX ∨
      CUSTOM_APP_MAX_SUFFIX < app.appid - app.classId * 1000) then
    .error "appid is outside the custom range"
  else if earlier.any (fun other =>
      other.name = app.name || (app.appid ≠ 0 && other.appid = app.appid)) then
    .error "appid or application name is duplicated"
  else .ok ()

/-- The features of a line: the loop of `parse_app_line` over the texts between the commas, which ends at an empty
text that comes last. -/
def parseFeatureTexts : List CustomFeature → List (List UInt8) →
    Except String (List CustomFeature)
  | features, [] => .ok features
  | features, text :: rest =>
    if text = [] ∧ rest = [] then .ok features
    else if CUSTOM_MAX_FEATURES ≤ features.length then
      .error "features must contain 1 to 16 items"
    else
      match parseFeatureText text with
      | .error e => .error e
      | .ok feature => parseFeatureTexts (features ++ [feature]) rest

/-- The id in front of the `~`, which may have white space behind it. -/
def parseAppid (text : List UInt8) : Option Int :=
  let r := strtol10 text
  if r.value ≤ 0 ∨ INT_MAX < r.value ∨ trimSpaces r.rest ≠ [] then none else some r.value

/-- `parse_app_line`: the configuration with one application more. -/
def parseAppLine (classes : ClassNameTable) (config : CustomConfig) (line : List UInt8) :
    Except String CustomConfig :=
  match strstrSplit (ascii ":[") line with
  | none => .error "custom feature line is invalid"
  | some (header, body) =>
    if CUSTOM_MAX_APP_LINE < line.length then .error "custom feature line is invalid"
    -- the last `]` is the last byte
    else if body.getLast? ≠ some 93 then .error "custom feature line is invalid"
    else if MAX_SUPPORT_APP_NUM ≤ config.length then .error "custom feature line is invalid"
    else
      match strchrSplit 126 header with
      | none => .error "custom feature line is invalid"
      | some (idText, nameText) =>
        let idText := trimSpaces idText
        let nameText := trimSpaces nameText
        if idText = [] ∨ nameText = [] then .error "custom feature line is invalid"
        else
          match parseAppid idText with
          | none => .error "custom feature line is invalid"
          | some appid =>
            if 64 ≤ nameText.length then .error "custom feature line is invalid"
            else
              let app : CustomApp :=
                { appid := appid, classId := appid / 1000, name := .ofBytes nameText }
              match validateAppIdentity classes config app with
              | .error e => .error e
              | .ok () =>
                let text := body.dropLast
                if text = [] ∨ text.getLast? = some 44 then
                  .error "features must contain 1 to 16 items"
                else
                  match parseFeatureTexts [] (text.splitOn 44) with
                  | .error e => .error e
                  | .ok features =>
                    if features = [] then .error "features must contain 1 to 16 items"
                    else .ok (config ++ [{ app with features := features }])

/-! ## 6. The file -/

/-- `app_compare`. -/
def appCompare (a b : CustomApp) : Int :=
  if a.classId ≠ b.classId then a.classId - b.classId else a.appid - b.appid

/-- The order `qsort` sorts by. -/
def AppLe (a b : CustomApp) : Prop := appCompare a b ≤ 0

instance : DecidableRel AppLe := fun a b => inferInstanceAs (Decidable (appCompare a b ≤ 0))

/-- `qsort(.., app_compare)`. -/
def sortApps (config : CustomConfig) : CustomConfig := config.insertionSort AppLe

/-- What the calls of `fgets` with a buffer of 1024 bytes read of a file, one after the other, and
whether the call met the end of the file; `cur` is what the current call has read. -/
def fgetsAll : List UInt8 → List UInt8 → List (List UInt8 × Bool)
  | cur, [] => if cur = [] then [] else [(cur, true)]
  | cur, c :: rest =>
    if c = 10 then (cur ++ [c], false) :: fgetsAll [] rest
    else if cur.length + 1 = 1023 then (cur ++ [c], false) :: fgetsAll [] rest
    else fgetsAll (cur ++ [c]) rest

/-- One round of the loop of `config_read_file`. -/
def readLine (classes : ClassNameTable) (config : CustomConfig) (lineNumber : Nat)
    (read : List UInt8 × Bool) : Except String CustomConfig :=
  let line := (CStr.ofBytes read.1).bytes
  if line ≠ [] ∧ line.getLast? ≠ some 10 ∧ !read.2 then
    .error ("invalid custom feature file at line " ++ toString lineNumber)
  else
    let line := line.rdropWhile (fun c => c == 10 || c == 13)
    if line = [] then .ok config
    else if line.take 7 = ascii "#class " then .ok config
    else parseAppLine classes config line

def readLines (classes : ClassNameTable) :
    CustomConfig → Nat → List (List UInt8 × Bool) → Except String CustomConfig
  | config, _, [] => .ok config
  | config, lineNumber, read :: rest =>
    match readLine classes config (lineNumber + 1) read with
    | .error e => .error e
    | .ok config => readLines classes config (lineNumber + 1) rest

/-- `config_read_file`; there may be no file. -/
def configReadFile (classes : ClassNameTable) (baseAppCount : Nat) (file : Option (List UInt8)) :
    Except String CustomConfig :=
  match file with
  | none => .ok []
  | some bytes =>
    match readLines classes [] 0 (fgetsAll [] bytes) with
    | .error e => .error e
    | .ok config =>
      if MAX_SUPPORT_APP_NUM < baseAppCount + config.length then
        .error "application table capacity is exceeded"
      else .ok (sortApps config)

/-- `config_write_file`: the bytes of the file. -/
def configWriteFile (config : CustomConfig) : Except String (List UInt8) :=
  match config.mapM appToLine with
  | none => .error "failed to save custom feature file"
  | some lines => .ok (lines.flatMap (· ++ [10]))

/-! ## 7. Requests to configurations -/

/-- The first loop of `allocate_appids`: the cells `used[class_id][suffix - 900]` of the ids that
are given. -/
def markUsed : List (Int × Int) → CustomConfig → Except String (List (Int × Int))
  | used, [] => .ok used
  | used, app :: rest =>
    if app.appid = 0 then markUsed used rest
    else
      let cell := (app.classId, app.appid % 1000 - CUSTOM_APP_MIN_SUFFIX)
      if cell ∈ used then .error "appid is duplicated" else markUsed (cell :: used) rest

/-- The suffixes, in the order they are tried. -/
def suffixes : List Int := (List.range 100).map (fun i : Nat => CUSTOM_APP_MIN_SUFFIX + i)

/-- The second loop: the first free suffix for each application without an id. -/
def assignAppids : List (Int × Int) → CustomConfig → Except String CustomConfig
  | _, [] => .ok []
  | used, app :: rest =>
    if app.appid ≠ 0 then
      match assignAppids used rest with
      | .error e => .error e
      | .ok apps => .ok (app :: apps)
    else
      match suffixes.find? (fun s => (app.classId, s - CUSTOM_APP_MIN_SUFFIX) ∉ used) with
      | none => .error "custom appid range is full"
      | some suffix =>
        match assignAppids ((app.classId, suffix - CUSTOM_APP_MIN_SUFFIX) :: used) rest with
        | .error e => .error e
        | .ok apps => .ok ({ app with appid := app.classId * 1000 + suffix } :: apps)

/-- `allocate_appids`. -/
def allocateAppids (config : CustomConfig) : Except String CustomConfig :=
  match markUsed [] config with
  | .error e => .error e
  | .ok used =>
    match assignAppids used config with
    | .error e => .error e
    | .ok apps => .ok (sortApps apps)

/-- One item of `parse_payload_json`. -/
def parsePayloadItemJson (item : JsonObject) : Except String CustomPayload :=
  match item.get "position", item.get "value" with
  | some (.int n), some (.string text) =>
    let position := jsonObjectGetInt64 n
    if position < INT_MIN ∨ INT_MAX < position then
      .error "payload position or value is invalid"
    else
      match hexByte (CStr.ofBytes text).bytes with
      | none => .error "payload position or value is invalid"
      | some value => .ok ⟨position, value⟩
  | _, _ => .error "payload item is invalid"

/-- `parse_payload_json`, where there is a `payload`. -/
def parsePayloadJson (array : JsonObject) : Except String (List CustomPayload) :=
  match array with
  | .null => .ok []
  | .array items =>
    if CUSTOM_MAX_PAYLOADS < items.length then .error "payload is invalid"
    else items.mapM parsePayloadItemJson
  | _ => .error "payload is invalid"

/-- The `protocol` of `parse_feature_json`. -/
def protocolJson (value : Option JsonObject) : Except String CStr :=
  match value with
  | some (.string text) =>
    let text := CStr.ofBytes text
    if text.strlen ≠ 3 then .error "protocol is invalid"
    else .ok (.ofBytes (text.bytes.map tolower))
  | _ => .error "protocol is required"

/-- The `dest_port` of `parse_feature_json`: a number, 0 for any port, or a text. -/
def destPortJson (value : Option JsonObject) : Except String CStr :=
  match value with
  | none => .ok .empty
  | some (.int n) =>
    let port := jsonObjectGetInt64 n
    if port < 0 ∨ 65535 < port then .error "dest_port is invalid"
    else if port = 0 then .ok .empty
    else .ok (.ofBytes (printInt port))
  | some (.string text) =>
    match normalizeDestPort (.ofBytes text) with
    | none => .error "dest_port is invalid"
    | some port => .ok port
  | some _ => .error "dest_port is invalid"

/-- The `domain` and the `uri` of `parse_feature_json`: at most `maximum` bytes, those behind a NUL
counted. -/
def textJson (maximum : Nat) (error : String) (value : Option JsonObject) : Except String CStr :=
  match value with
  | none => .ok .empty
  | some (.string text) =>
    if maximum < text.length then .error error
    else .ok (snprintfS (maximum + 1) (.ofBytes text))
  | some _ => .error error

def domainJson : Option JsonObject → Except String CStr := textJson 31 "domain is invalid"

def uriJson : Option JsonObject → Except String CStr := textJson 63 "uri is invalid"

def payloadJson (value : Option JsonObject) : Except String (List CustomPayload) :=
  match value with
  | none => .ok []
  | some array => parsePayloadJson array

/-- `parse_feature_json`. -/
def parseFeatureJson (object : JsonObject) : Except String CustomFeature := do
  let protocol ← protocolJson (object.get "protocol")
  let destPort ← destPortJson (object.get "dest_port")
  let domain ← domainJson (object.get "domain")
  let uri ← uriJson (object.get "uri")
  let payload ← payloadJson (object.get "payload")
  validateFeature
    { protocol := protocol, destPort := destPort, domain := domain, uri := uri, payload := payload }

/-- The `appid` of an item, 0 when it has none. -/
def appidJson (value : Option JsonObject) : Except String Int :=
  match value with
  | none => .ok 0
  | some (.int n) =>
    let number := jsonObjectGetInt64 n
    if number < 0 ∨ INT_MAX < number then .error "application item is invalid" else .ok number
  | some _ => .error "application item is invalid"

def classIdJson (value : Option JsonObject) : Except String Int :=
  match value with
  | some (.int n) => .ok (jsonObjectGetInt n)
  | _ => .error "application item is invalid"

/-- The `name` of an item, trimmed. -/
def nameJson (value : Option JsonObject) : Except String CStr :=
  match value with
  | some (.string text) =>
    if 63 < text.length then .error "application item is invalid"
    else .ok (trimSpace (snprintfS 64 (.ofBytes text)))
  | _ => .error "application item is invalid"

def featuresJson (value : Option JsonObject) : Except String (List CustomFeature) :=
  match value with
  | some (.array items) =>
    if items.length < 1 ∨ CUSTOM_MAX_FEATURES < items.length then
      .error "features must contain 1 to 16 items"
    else items.mapM parseFeatureJson
  | _ => .error "features must contain 1 to 16 items"

/-- One round of the loop of `config_from_json`. -/
def appFromJson (classes : ClassNameTable) (config : CustomConfig) (item : JsonObject) :
    Except String CustomConfig := do
  if MAX_SUPPORT_APP_NUM ≤ config.length then
    throw "application item is invalid"
  let appid ← appidJson (item.get "appid")
  let classId ← classIdJson (item.get "class_id")
  let name ← nameJson (item.get "name")
  validateAppIdentity classes config { appid := appid, classId := classId, name := name }
  let features ← featuresJson (item.get "features")
  return config ++ [{ appid := appid, classId := classId, name := name, features := features }]

/-- `config_from_json`. -/
def configFromJson (classes : ClassNameTable) (baseAppCount : Nat) (request : JsonObject) :
    Except String CustomConfig :=
  match request.get "app_list" with
  | some (.array items) => do
    let apps ← items.foldlM (appFromJson classes) []
    if MAX_SUPPORT_APP_NUM < baseAppCount + apps.length then
      throw "application table capacity is exceeded"
    let config ← allocateAppids apps
    if config.any (fun app => (appToLine app).isNone) then
      throw "serialized application line is too long"
    return config
  | _ => .error "app_list is required"

end Oaf
