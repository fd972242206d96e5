/-
# The feature loader as the kernel module computes it

`af_add_feature_msg_handle` and everything below it (`fwx_main.c`): one netlink message holds
one line, `id~name:[feature,feature,..]`; a feature is a `;`-separated record, its ports and
its payload bytes are `|`-separated lists.  Nothing is proved here.

* Every store into an array is checked: a function answers `.error a` when it writes outside the
  array `a`.  `beyond a` is the string that lies in memory right behind the array `a`, read when
  the array holds no terminator.
* The four loops `while (*p++)` are `tokens`.  A token is `begin .. p`, so `strncpy(x, begin,
  p - begin)` copies its `strlen` bytes; once the loop has ended `p` is one past the
  terminator and `p - begin` is `strlen + 1`.
-/
import Oaf.UrlAc.Model
import Oaf.Lib.CArray
import Oaf.Lib.KScan
import Mathlib.Logic.Function.Basic

namespace Oaf

open CLib

/-! ## 1. The arrays and the state -/

/-- The arrays that loading one message writes to. -/
inductive LoaderArray where
  | feature | protoStr | srcPortStr | dstPortStr | hostUrl | requestUrl | dict | searchStr | tmpBuf
  | onePortBuf | pureRange | rangeList | pos | posInfo
  | nodeHostUrl | nodeRequestUrl | nodeSearchStr | nodeFeature
deriving DecidableEq, Repr

/-- The strings found behind the arrays. -/
abbrev Beyond := LoaderArray → CStr

/-- The feature list, the automaton over it, and the allocator. -/
structure KernelState where
  afFeatureHead : List AfFeatureNode := []
  gUrlAc : AfUrlAc := {}
  gUrlAcDirty : Bool := true
  gFeatureCount : Int := 0
  kmem : Kmem

/-! ## 2. Ports -/

/-- `validate_range_value`: only blanks, `!`, `-` and digits. -/
def validateRangeValue (rangeStr : CStr) : Bool :=
  rangeStr.bytes.all (fun c => c == 32 || c == 33 || c == 45 || isdigit c)

/-- `k_trim` on an array. -/
def kTrim {n : Nat} (a : CArray n) (e : LoaderArray) (beyond : CStr) :
    Except LoaderArray (CArray n) :=
  let s := a.read beyond
  let t := Kernel.trim s.bytes
  if t = s.bytes then .ok a
  else do
    let a ← a.write e t
    a.store e t.length 0

/-- The range a text without blanks at its ends spells, when `sscanf` finds all of it. -/
def scanRange (neg : Bool) (pureRange : CStr) : Option RangeValue :=
  if pureRange.strchr 45 then
    match Kernel.vsscanf Kernel.isspace [.d, .lit 45, .d] pureRange.bytes with
    | [start, stop] => some ⟨neg, start, stop⟩
    | _ => none
  else
    match Kernel.vsscanf Kernel.isspace [.d] pureRange.bytes with
    | [start] => some ⟨neg, start, start⟩
    | _ => none

/-- `parse_range_value(range_str, &info->range_list[num])`.  The slot is written (`range->not`)
as soon as the text has been validated and trimmed. -/
def parseRangeValue (beyond : Beyond) (rangeStr : CArray 128) (num : Nat) :
    Except LoaderArray (Option RangeValue) := do
  if !validateRangeValue (rangeStr.read (beyond .onePortBuf)) then
    return none
  let rangeStr ← kTrim rangeStr .onePortBuf (beyond .onePortBuf)
  if MAX_PORT_RANGE_NUM ≤ num then
    throw .rangeList
  let s := rangeStr.read (beyond .onePortBuf)
  let neg := s.get 0 == 33
  let pureRange ← (CArray.zeros 128).strcpy .pureRange
    (if neg then .ofBytes s.bytes.tail else s)
  let pureRange ← kTrim pureRange .pureRange (beyond .pureRange)
  return scanRange neg (pureRange.read (beyond .pureRange))

/-- One item of `parse_port_info`; `k` is `p - begin`. -/
def portItem (beyond : Beyond) (info : PortInfo) (item : CStr) (k : Int) :
    Except LoaderArray PortInfo := do
  let onePortBuf ← (CArray.zeros 128).strncpy .onePortBuf item.bytes k
  match ← parseRangeValue beyond onePortBuf info.num with
  | some range => return { rangeList := info.rangeList ++ [range] }
  | none => return info

/-- `parse_port_info`.  The caller ignores its return value. -/
def parsePortInfo (beyond : Beyond) (portStr : CArray 16) (info : PortInfo) :
    Except LoaderArray PortInfo := do
  let portStr ← kTrim portStr .dstPortStr (beyond .dstPortStr)
  let s := portStr.read (beyond .dstPortStr)
  if s.strlen = 0 then
    return info
  let items := tokens 124 s
  let info ← items.1.foldlM (fun info item => portItem beyond info item item.strlen) info
  portItem beyond info items.2 (items.2.strlen + 1)

/-! ## 3. Payload positions -/

/-- The variables of the position loop in `__add_app_feature`: the array `pos`, the two numbers
`sscanf` stores into (kept when it stores none), and the entries of `pos_info` filled so far. -/
structure PosScan where
  pos : CArray 64 := .zeros 64
  index : Int := 0
  value : Int := 0
  posInfo : List AfPosInfo := []

/-- `k_sscanf(pos, "%d:%x", &index, &value)` and its return value. -/
def PosScan.sscanf (st : PosScan) (beyond : Beyond) : Nat × PosScan :=
  let vals := Kernel.vsscanf CLib.isspace [.d, .lit 58, .x] (st.pos.read (beyond .pos)).bytes
  (vals.length, { st with index := vals.getD 0 st.index, value := vals.getD 1 st.value })

/-- Filling `pos_info[pos_num++]`.  The value is an `unsigned char`. -/
def PosScan.push (st : PosScan) : Except LoaderArray PosScan :=
  if st.posInfo.length < MAX_POS_INFO_PER_FEATURE then
    .ok { st with posInfo := st.posInfo ++ [⟨st.index, (st.value % 256).toNat.toUInt8⟩] }
  else .error .posInfo

/-- The `while (*p++)` loop: the state, and whether it was left by `break`. -/
def posItems (beyond : Beyond) : PosScan → List CStr → Except LoaderArray (PosScan × Bool)
  | st, [] => .ok (st, false)
  | st, item :: rest => do
    let pos ← (CArray.zeros 64).strncpy .pos item.bytes item.strlen
    let st ← (({ st with pos := pos } : PosScan).sscanf beyond).2.push
    if MAX_POS_INFO_PER_FEATURE - 1 ≤ st.posInfo.length then
      return (st, true)
    posItems beyond st rest

/-- The copy into `pos` behind the loop.  After a `break`, `begin` is one past `p`. -/
def copyLastItem (pos : CArray 64) (dict : CStr) (broke : Bool) : Except LoaderArray (CArray 64) :=
  let items := tokens 124 dict
  if items.1 = [] then pos.strcpy .pos dict
  else if broke then pos.strncpy .pos items.2.bytes (-1)
  else pos.strncpy .pos items.2.bytes (items.2.strlen + 1)

/-- The last `k_sscanf`, whose entry counts only when both numbers are there. -/
def PosScan.finish (st : PosScan) (beyond : Beyond) : Except LoaderArray (List AfPosInfo) :=
  let r := st.sscanf beyond
  if r.1 = 2 then do
    let st ← r.2.push
    return st.posInfo
  else .ok r.2.posInfo

/-- The part of `__add_app_feature` that fills `pos_info`. -/
def parsePosInfo (beyond : Beyond) (dict : CStr) : Except LoaderArray (List AfPosInfo) := do
  let (st, broke) ← posItems beyond {} (tokens 124 dict).1
  let pos ← copyLastItem st.pos dict broke
  ({ st with pos := pos } : PosScan).finish beyond

/-! ## 4. One feature -/

/-- `__add_app_feature`.  The new node goes to the head of the list. -/
def addAppFeatureNode (beyond : Beyond) (st : KernelState) (feature : CStr) (appid : UInt32)
    (name : CStr) (proto srcPort : UInt32) (dportInfo : PortInfo)
    (hostUrl requestUrl dict searchStr : CStr) (ignore : Int) :
    Except LoaderArray KernelState := do
  let (ok, m) := st.kmem.kzalloc
  let st := { st with kmem := m }
  if !ok then
    return st
  let _ ← (CArray.zeros 128).strcpy .nodeHostUrl hostUrl
  let _ ← (CArray.zeros 128).strcpy .nodeRequestUrl requestUrl
  let _ ← (CArray.zeros MAX_SEARCH_STR_LEN).strcpy .nodeSearchStr searchStr
  let _ ← (CArray.zeros 128).strcpy .nodeFeature feature
  let posInfo ← parsePosInfo beyond dict
  let node : AfFeatureNode :=
    { addr := m.used, appId := appid, appName := .ofBytes (name.bytes.take 63), feature := feature,
      proto := proto, sport := srcPort, dportInfo := dportInfo, hostUrl := hostUrl,
      requestUrl := requestUrl, searchStr := searchStr, ignore := ignore, posInfo := posInfo }
  return { st with
    afFeatureHead := node :: st.afFeatureHead
    gUrlAcDirty := if 0 < hostUrl.strlen && !afIsRegexHostPattern hostUrl then true
      else st.gUrlAcDirty }

/-- `k_atoi`, in 32-bit arithmetic that wraps. -/
def kAtoi (s : CStr) : Int :=
  let l := s.bytes.dropWhile (fun c => c == 32 || c == 9)
  Kernel.toInt32 (Kernel.ofDigits 10 (l.takeWhile isdigit))

/-- `enum AF_FEATURE_PARAM_INDEX`: the fields of a feature, in order. -/
abbrev AfFeatureParam := Fin 8

def AF_PROTO_PARAM_INDEX : AfFeatureParam := 0
def AF_SRC_PORT_PARAM_INDEX : AfFeatureParam := 1
def AF_DST_PORT_PARAM_INDEX : AfFeatureParam := 2
def AF_HOST_URL_PARAM_INDEX : AfFeatureParam := 3
def AF_REQUEST_URL_PARAM_INDEX : AfFeatureParam := 4
def AF_DICT_PARAM_INDEX : AfFeatureParam := 5
def AF_STR_PARAM_INDEX : AfFeatureParam := 6
def AF_IGNORE_PARAM_INDEX : AfFeatureParam := 7

/-- The size of the buffer `add_app_feature` has for a field: `proto_str`, `src_port_str`,
`dst_port_str`, `host_url`, `request_url`, `dict`, `search_str`, `tmp_buf`. -/
def fieldSize (i : AfFeatureParam) : Nat := [16, 16, 16, 32, 128, 128, 128, 128].get i

/-- Those buffers by name. -/
def fieldArray (i : AfFeatureParam) : LoaderArray :=
  [.protoStr, .srcPortStr, .dstPortStr, .hostUrl, .requestUrl, .dict, .searchStr, .tmpBuf].get i

/-- The local variables of `add_app_feature` while it splits the feature. -/
structure FeatureFields where
  buf : (i : AfFeatureParam) → CArray (fieldSize i) := fun i => .zeros (fieldSize i)
  ignore : Int := 0
  paramNum : Nat := 0

/-- The string in the buffer of a field. -/
def FeatureFields.str (fs : FeatureFields) (beyond : Beyond) (i : AfFeatureParam) : CStr :=
  (fs.buf i).read (beyond (fieldArray i))

/-- `strncpy(buf, begin, p - begin)` for one field, and `k_atoi` on the last one. -/
def FeatureFields.copy (fs : FeatureFields) (beyond : Beyond) (i : AfFeatureParam) (field : CStr)
    (k : Int) : Except LoaderArray FeatureFields := do
  let a ← (fs.buf i).strncpy (fieldArray i) field.bytes k
  let fs := { fs with buf := Function.update fs.buf i a }
  return { fs with ignore := if i = AF_IGNORE_PARAM_INDEX then kAtoi (fs.str beyond i) else fs.ignore }

/-- The `switch` of `add_app_feature` at a `;`, with the `param_num++` behind it.  Fields after the
eighth are skipped. -/
def setField (beyond : Beyond) (fs : FeatureFields) (field : CStr) :
    Except LoaderArray FeatureFields := do
  let fs ← if h : fs.paramNum < 8 then fs.copy beyond ⟨fs.paramNum, h⟩ field field.strlen else pure fs
  return { fs with paramNum := fs.paramNum + 1 }

/-- What `add_app_feature` does with the text behind the last `;`: only two fields are looked for
there. -/
def setLastField (beyond : Beyond) (fs : FeatureFields) (field : CStr) :
    Except LoaderArray FeatureFields :=
  if fs.paramNum = AF_DICT_PARAM_INDEX then
    fs.copy beyond AF_DICT_PARAM_INDEX field (field.strlen + 1)
  else if fs.paramNum = AF_IGNORE_PARAM_INDEX then
    fs.copy beyond AF_IGNORE_PARAM_INDEX field (field.strlen + 1)
  else .ok fs

/-- The protocol a feature names; only two are supported. -/
def featureProto (protoStr : CStr) : Option UInt32 :=
  if protoStr.bytes = ascii "tcp" then some IPPROTO_TCP
  else if protoStr.bytes = ascii "udp" then some IPPROTO_UDP
  else none

/-- `sscanf(src_port_str, "%d", &src_port)`, stored into a `u_int32_t`. -/
def scanSrcPort (srcPortStr : CStr) : UInt32 :=
  ((Kernel.vsscanf Kernel.isspace [.d] srcPortStr.bytes).getD 0 0 % 2 ^ 32).toNat.toUInt32

/-- `add_app_feature`. -/
def addAppFeature (beyond : Beyond) (st : KernelState) (appid : UInt32) (name feature : CStr) :
    Except LoaderArray KernelState := do
  if feature.strlen < MIN_FEATURE_STR_LEN then
    return st
  let fields := tokens 59 feature
  let fs ← fields.1.foldlM (setField beyond) {}
  let fs ← setLastField beyond fs fields.2
  match featureProto (fs.str beyond AF_PROTO_PARAM_INDEX) with
  | none => return st
  | some proto =>
    let srcPort := scanSrcPort (fs.str beyond AF_SRC_PORT_PARAM_INDEX)
    let dportInfo ← parsePortInfo beyond (fs.buf AF_DST_PORT_PARAM_INDEX) {}
    addAppFeatureNode beyond st feature appid name proto srcPort dportInfo
      (fs.str beyond AF_HOST_URL_PARAM_INDEX) (fs.str beyond AF_REQUEST_URL_PARAM_INDEX)
      (fs.str beyond AF_DICT_PARAM_INDEX) (fs.str beyond AF_STR_PARAM_INDEX) fs.ignore

/-! ## 5. One message -/

/-- The text before the first `c`. -/
def beforeChar (c : UInt8) (l : List UInt8) : List UInt8 := l.takeWhile (· != c)

/-- The text behind the first `c`. -/
def afterChar (c : UInt8) (l : List UInt8) : List UInt8 := (l.dropWhile (· != c)).tail

/-- `af_parse_feature_app_header`: the app id, as it is stored, and the name. -/
def afParseFeatureAppHeader (featureStr : CStr) : Option (UInt32 × CStr) :=
  if !featureStr.strchr 58 then none
  else
    let header := beforeChar 58 featureStr.bytes
    if header.length = 0 || 128 ≤ header.length then none
    else if !header.contains 126 then none
    else
      let idText := Kernel.trim (beforeChar 126 header)
      let nameText := Kernel.trim (afterChar 126 header)
      if idText = [] || nameText = [] then none
      else
        match Kernel.kstrtol10 idText with
        | none => none
        | some id =>
          if id ≤ 0 then none
          else if Kernel.trim (idText.dropWhile (fun c => !Kernel.isspace c)) ≠ [] then none
          else some ((id % 2 ^ 32).toNat.toUInt32, .ofBytes (nameText.take 127))

/-- The loop of `af_init_feature` that looks for the brackets: the place behind the last `[`, and
the length up to a `]` that had a `[` before it, last one found. -/
def findBrackets : Nat → Option Nat → Nat → List UInt8 → Option Nat × Nat
  | _, pos, len, [] => (pos, len)
  | p, pos, len, c :: rest =>
    if c = 91 then findBrackets (p + 1) (some (p + 1)) len rest
    else
      match pos with
      | some b => if c = 93 then findBrackets (p + 1) pos (p - b) rest
                  else findBrackets (p + 1) pos len rest
      | none => findBrackets (p + 1) pos len rest

/-- What `af_init_feature` copies into `feature_buf`. -/
def featureBufOf (featureStr : CStr) : CStr :=
  match findBrackets 1 none 0 featureStr.bytes.tail with
  | (some pos, len) => .ofBytes ((featureStr.bytes.drop pos).take len)
  | (none, _) => .empty

/-- One feature text on its way into `add_app_feature`: the copy into `feature`; `k` is
`p - begin`. -/
def addFeatureText (beyond : Beyond) (appid : UInt32) (name : CStr)
    (st : KernelState × CArray 128) (text : CStr) (k : Nat) :
    Except LoaderArray (KernelState × CArray 128) := do
  let feature ← st.2.write .feature (CArray.padded text.bytes k)
  let feature ← feature.store .feature k 0
  return (← addAppFeature beyond st.1 appid name (feature.read (beyond .feature)), feature)

/-- The loop of `af_init_feature` over the features and the code behind it.  A feature that is too
long ends the loop, and then nothing is left to add. -/
def addFeatureTexts (beyond : Beyond) (appid : UInt32) (name : CStr) :
    KernelState × CArray 128 → List CStr → CStr → Except LoaderArray (KernelState × CArray 128)
  | st, [], last =>
    if MAX_FEATURE_STR_LEN < last.strlen + 1 then .ok st
    else addFeatureText beyond appid name st last (last.strlen + 1)
  | st, text :: rest, last =>
    if MAX_FEATURE_STR_LEN < text.strlen then .ok st
    else do
      let st ← addFeatureText beyond appid name st text text.strlen
      addFeatureTexts beyond appid name st rest last

/-- `af_init_feature`. -/
def afInitFeature (beyond : Beyond) (st : KernelState) (featureStr : CStr) :
    Except LoaderArray KernelState := do
  let (ok, m) := st.kmem.kzalloc
  let st := { st with kmem := m }
  if !ok then
    return st
  if featureStr.strchr 35 then
    return st
  match afParseFeatureAppHeader featureStr with
  | none => return st
  | some (appId, appName) =>
    let texts := tokens 44 (featureBufOf featureStr)
    let (st, _) ← addFeatureTexts beyond appId appName (st, .zeros 128) texts.1 texts.2
    return { st with gFeatureCount := st.gFeatureCount + 1 }

/-- `af_add_feature_msg_handle`.  `data` is the memory at the message, of which `len` bytes count. -/
def afAddFeatureMsgHandle (beyond : Beyond) (st : KernelState) (data : List UInt8) (len : Int) :
    Except LoaderArray KernelState :=
  if len ≤ 0 || (MAX_FEATURE_LINE_LEN : Int) ≤ len then .ok st
  else afInitFeature beyond st (.ofBytes (data.take len.toNat))

/-- `af_clean_feature_list`. -/
def afCleanFeatureList (st : KernelState) : KernelState :=
  { st with
    afFeatureHead := []
    gUrlAc := afAcResetLocked st.gUrlAc
    gUrlAcDirty := true
    gFeatureCount := 0 }

/-- `af_feature_load_done_msg_handle`; `none` is a rebuild that does not return. -/
def afFeatureLoadDoneMsgHandle (st : KernelState) : Option KernelState :=
  if st.gUrlAcDirty then
    match afRebuildUrlAcLocked st.gUrlAc st.kmem st.afFeatureHead with
    | none => none
    | some r => some { st with gUrlAc := r.g, gUrlAcDirty := r.dirty, kmem := r.m }
  else some st

end Oaf
