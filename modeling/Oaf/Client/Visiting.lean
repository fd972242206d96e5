/-
# Who visits what

The kernel keeps the last host name of each client (`update_url_visiting_info`) and prints one line a client
(`af_visiting_seq_show`); fwxd reads the lines back with `fgets` and `sscanf` and gives app and name to the
client whose address a line starts with (`update_client_visiting_info`).

A name comes from the wire.  The one of a TLS hello passes `check_domain`, the one of an HTTP request does not:
it goes up to `\r\n`, so it can hold a line feed, and what stands behind it is printed as a line of its own.

* `recordLines_other`: the lines of a record do nothing to another client, unless its name forges one.
* `visiting_isolated`: where no other client's name forges a line for a client, its entry depends on its own
  packets alone.
* `tls_not_forgesLine`: the names of TLS hellos never do.
-/
import Oaf.Dpi.ServerName
import Oaf.Hook.Rules
import Oaf.Lib.Lines
import Oaf.Match.Hosts

namespace Oaf

open CLib

/-! ## 1. The kernel's records -/

def MIN_REPORT_URL_LEN : Int := 4
def MAX_REPORT_URL_LEN : Nat := 64

/-- A text that fits `visiting_url`. -/
abbrev VisitingUrl := { url : CStr // url.strlen < MAX_REPORT_URL_LEN }

/-- `visiting_info_t`. -/
structure VisitingInfo where
  visitingApp : Int32
  appTime : UInt32
  visitingUrl : VisitingUrl
  urlTime : UInt32

/-- `af_client_info_t`, as far as it is shown here. -/
structure VisitRecord where
  mac : Mac
  visiting : VisitingInfo

/-- The place and the length of the name that `update_url_visiting_info` looks at. -/
def visitedField (flow : FlowInfo) : Option (Int × Int) :=
  if flow.https.matched then flow.https.urlPos.map (fun pos => (pos, flow.https.urlLen))
  else if flow.http.matched then flow.http.hostPos.map (fun pos => (pos, flow.http.hostLen))
  else none

/-- The name that is stored. -/
def visitedHost (lib : KernelLib) (flow : FlowInfo) : Option VisitingUrl :=
  if flow.matchByDns then none
  else
    match visitedField flow with
    | none => none
    | some (pos, len) =>
      if h : len < MIN_REPORT_URL_LEN ∨ MAX_REPORT_URL_LEN ≤ len then none
      else
        let host := CStr.ofBytes (bytesAt flow.l4Data pos len.toNat)
        if afIsIpLiteralHost lib host then none
        else some ⟨host, by
          have hlen := CStr.ofBytes_strlen_le (bytesAt flow.l4Data pos len.toNat)
          simp only [bytesAt, List.length_map, List.length_range] at hlen
          simp only [MIN_REPORT_URL_LEN, not_or, not_le] at h
          show (CStr.ofBytes (bytesAt flow.l4Data pos len.toNat)).strlen < MAX_REPORT_URL_LEN
          unfold bytesAt
          omega⟩

/-- `update_url_visiting_info`. -/
def updateUrlVisitingInfo (lib : KernelLib) (now : UInt32) (flow : FlowInfo) (visiting : VisitingInfo) :
    VisitingInfo :=
  match visitedHost lib flow with
  | none => visiting
  | some host => { visiting with visitingUrl := host, urlTime := now }

/-- What happens to a client: a packet is parsed (`dpi_main`) and its name is looked at, or
`af_update_client_app_info` takes over an app. -/
inductive VisitEvent where
  | packet (mac : Mac) (flow : FlowInfo) (now : UInt32)
  | app (mac : Mac) (appId : Int32) (now : UInt32)

def VisitEvent.mac : VisitEvent → Mac
  | .packet mac _ _ => mac
  | .app mac _ _ => mac

def VisitEvent.apply (lib : KernelLib) (visiting : VisitingInfo) : VisitEvent → VisitingInfo
  | .packet _ flow now => updateUrlVisitingInfo lib now (dpiMain flow) visiting
  | .app _ appId now => { visiting with visitingApp := appId, appTime := now }

/-- One event, on the record of its client. -/
def stepRecords (lib : KernelLib) (records : List VisitRecord) (event : VisitEvent) :
    List VisitRecord :=
  records.map (fun r =>
    if r.mac = event.mac then { r with visiting := event.apply lib r.visiting } else r)

/-- One event after the other. -/
def runRecords (lib : KernelLib) (records : List VisitRecord) (events : List VisitEvent) :
    List VisitRecord := events.foldl (stepRecords lib) records

/-! ## 2. `af_visiting_seq_show` -/

/-- `MAC_FMT`. -/
def macText (mac : Mac) : List UInt8 := [58].intercalate (mac.toList.map printHex2)

/-- `%-<width>s`. -/
def padRight (width : Nat) (text : List UInt8) : List UInt8 :=
  text ++ List.replicate (width - text.length) 32

/-- An app or a name of the last two minutes. -/
def freshApp (visiting : VisitingInfo) (now : UInt32) : Int :=
  if now - visiting.appTime < 120 then visiting.visitingApp.toInt else 0

def freshUrl (visiting : VisitingInfo) (now : UInt32) : List UInt8 :=
  if now - visiting.urlTime < 120 then visiting.visitingUrl.val.bytes else ascii "none"

/-- A line up to the name. -/
def recordHead (r : VisitRecord) (now : UInt32) : List UInt8 :=
  padRight 20 (macText r.mac) ++ 32 :: (padRight 12 (printInt (freshApp r.visiting now)) ++ [32])

/-- What is printed for a record, without the line feed at the end. -/
def recordText (r : VisitRecord) (now : UInt32) : List UInt8 :=
  recordHead r now ++ padRight 32 (freshUrl r.visiting now)

def titleText : List UInt8 :=
  padRight 20 (ascii "Mac") ++ 32 :: (padRight 12 (ascii "Appid") ++ 32 :: padRight 32 (ascii "Url"))

/-- The file. -/
def visitingText (records : List VisitRecord) (now : UInt32) : List UInt8 :=
  titleText ++ 10 :: records.flatMap (fun r => recordText r now ++ [10])

/-! ## 3. `update_client_visiting_info` -/

/-- `client_node_t`, as far as it is shown here. -/
structure VisitNode where
  mac : List UInt8
  visitingUrl : List UInt8
  visitingApp : Int
deriving DecidableEq

/-- The first node with an address in some spelling: `find_client_node`. -/
def findClientNode (nodes : List VisitNode) (mac : List UInt8) : Option VisitNode :=
  nodes.find? (fun node => caseEq node.mac mac)

/-- This node, written over. -/
def updateClientNode (new : VisitNode) (mac : List UInt8) : List VisitNode → List VisitNode
  | [] => []
  | node :: nodes =>
    if caseEq node.mac mac then new :: nodes else node :: updateClientNode new mac nodes

/-- `is_invalid_visit_url`. -/
def isInvalidVisitUrl (url : List UInt8) : Bool :=
  decide (url = []) || caseEq url (ascii "none") || caseEq url (ascii "undefined") ||
    caseEq url (ascii "null")

/-- What a line of three words leaves of its node; `find_client_node` brings the address to lower case. -/
def visitNode (mac app url : List UInt8) : VisitNode :=
  { mac := mac.map tolower
    visitingUrl := if isInvalidVisitUrl url then [] else url.take (MAX_REPORT_URL_LEN - 1)
    visitingApp := atoi app }

/-- The format of `sscanf`. -/
def visitFormat : List Nat := [31, 31, 63]

def readVisitLine (nodes : List VisitNode) (line : List UInt8) : List VisitNode :=
  match scanWords visitFormat line with
  | some [mac, app, url] => updateClientNode (visitNode mac app url) mac nodes
  | _ => nodes

/-- `update_client_visiting_info`: the first line is the title. -/
def updateClientVisitingInfo (nodes : List VisitNode) (text : List UInt8) : List VisitNode :=
  ((fgetsLines 256 text).drop 1).foldl readVisitLine nodes

/-! ## 4. What a line does to one client -/

theorem caseEq_iff {a b : List UInt8} : caseEq a b = true ↔ a.map tolower = b.map tolower := by
  simp [caseEq]

/-- What a line leaves of the node with an address. -/
def lineEffect (mac : List UInt8) (node : Option VisitNode) (line : List UInt8) : Option VisitNode :=
  match scanWords visitFormat line with
  | some [key, app, url] =>
    if caseEq key mac then node.map (fun _ => visitNode key app url) else node
  | _ => node

theorem findClientNode_update {new : VisitNode} {key mac : List UInt8}
    (hnew : new.mac.map tolower = key.map tolower) : ∀ nodes : List VisitNode,
    findClientNode (updateClientNode new key nodes) mac =
      if caseEq key mac then (findClientNode nodes mac).map (fun _ => new)
      else findClientNode nodes mac
  | [] => by simp [updateClientNode, findClientNode]
  | node :: nodes => by
    have hrest := @findClientNode_update new key mac hnew nodes
    simp only [findClientNode] at hrest ⊢
    unfold updateClientNode
    by_cases hnode : caseEq node.mac key = true
    · rw [if_pos hnode, List.find?_cons, List.find?_cons]
      have hsame : caseEq new.mac mac = caseEq node.mac mac ∧ caseEq key mac = caseEq node.mac mac := by
        simp only [caseEq, hnew, caseEq_iff.mp hnode, and_self]
      rw [hsame.1, hsame.2]
      cases caseEq node.mac mac <;> simp
    · rw [if_neg hnode, List.find?_cons, List.find?_cons, hrest]
      by_cases hmac : caseEq node.mac mac = true
      · have hkey : ¬ caseEq key mac = true := fun hkey =>
          hnode (caseEq_iff.mpr ((caseEq_iff.mp hmac).trans (caseEq_iff.mp hkey).symm))
        simp [hmac, hkey]
      · simp [hmac]

/-- **A line, for one client.** -/
theorem findClientNode_readVisitLine (nodes : List VisitNode) (line mac : List UInt8) :
    findClientNode (readVisitLine nodes line) mac = lineEffect mac (findClientNode nodes mac) line := by
  unfold readVisitLine lineEffect
  split
  · rename_i key app url hscan
    refine findClientNode_update ?_ nodes
    simp only [visitNode, List.map_map]
    exact List.map_congr_left (fun c _ => tolower_tolower c)
  · rfl

/-- All lines, for one client. -/
theorem findClientNode_readVisitLines (mac : List UInt8) : ∀ (lines : List (List UInt8))
    (nodes : List VisitNode), findClientNode (lines.foldl readVisitLine nodes) mac =
      lines.foldl (lineEffect mac) (findClientNode nodes mac)
  | [], _ => rfl
  | line :: lines, nodes => by
    rw [List.foldl_cons, List.foldl_cons, findClientNode_readVisitLines mac lines,
      findClientNode_readVisitLine]

/-! ## 5. The lines of a record -/

/-- The lines that a record makes. -/
def recordLines (r : VisitRecord) (now : UInt32) : List (List UInt8) :=
  ((recordText r now).splitOn 10).map (· ++ [10])

theorem padRight_length (width : Nat) (text : List UInt8) :
    (padRight width text).length = max width text.length := by
  simp only [padRight, List.length_append, List.length_replicate]
  omega

theorem not_mem_padRight {c : UInt8} {width : Nat} {text : List UInt8} (hc : c ≠ 32) (h : c ∉ text) :
    c ∉ padRight width text := by
  rw [padRight, List.mem_append, not_or]
  exact ⟨h, fun hmem => hc (List.eq_of_mem_replicate hmem)⟩

theorem printHex2_injective : Function.Injective printHex2 := by
  intro v w h
  have hv := v.toNat_lt
  have hw := w.toNat_lt
  simp only [printHex2, List.cons.injEq, and_true] at h
  have hhigh := congrArg Kernel.digitVal h.1
  have hlow := congrArg Kernel.digitVal h.2
  rw [digitVal_digitByte (by omega), digitVal_digitByte (by omega)] at hhigh hlow
  exact UInt8.toNat_inj.mp (by omega)

theorem tolower_digitByte {d : Nat} (h : d < 16) : tolower (digitByte d) = digitByte d := by
  revert h
  revert d
  decide

/-- A printed byte is two digits of lower case. -/
theorem mem_printHex2 {v c : UInt8} (h : c ∈ printHex2 v) : isxdigit c = true ∧ tolower c = c := by
  have hv := v.toNat_lt
  simp only [printHex2, List.mem_cons, List.not_mem_nil, or_false] at h
  rcases h with rfl | rfl
  · exact ⟨isxdigit_digitByte (by omega), tolower_digitByte (by omega)⟩
  · exact ⟨isxdigit_digitByte (by omega), tolower_digitByte (by omega)⟩

/-- The bytes of an address are digits of lower case and colons. -/
theorem mem_macText {mac : Mac} {c : UInt8} (h : c ∈ macText mac) :
    c = 58 ∨ isxdigit c = true ∧ tolower c = c := by
  refine (mem_intercalate h).imp_right (fun ⟨t, ht, hc⟩ => ?_)
  obtain ⟨v, -, rfl⟩ := List.mem_map.mp ht
  exact mem_printHex2 hc

theorem isspace_of_isxdigit {c : UInt8} (h : isxdigit c = true) : isspace c = false := by
  by_contra hspace
  simp only [isspace, isxdigit, isdigit, Bool.or_eq_true, Bool.and_eq_true, beq_iff_eq,
    decide_eq_true_eq, UInt8.le_iff_toNat_le, ← UInt8.toNat_inj, UInt8.reduceToNat,
    Bool.not_eq_false] at h hspace
  omega

theorem not_isspace_macText {mac : Mac} {c : UInt8} (h : c ∈ macText mac) : isspace c = false := by
  rcases mem_macText h with rfl | hc
  · rfl
  · exact isspace_of_isxdigit hc.1

theorem intercalate_pairs_length : ∀ {l : List (List UInt8)}, (∀ t ∈ l, t.length = 2) → l ≠ [] →
    ([58].intercalate l).length + 1 = 3 * l.length
  | [], _, hne => absurd rfl hne
  | [t], h, _ => by simp [h t (List.mem_singleton_self t)]
  | t :: u :: l, h, _ => by
    have hrest := @intercalate_pairs_length (u :: l) (fun v hv => h v (List.mem_cons_of_mem _ hv))
      (List.cons_ne_nil _ _)
    have ht := h t (List.mem_cons_self ..)
    rw [List.intercalate_cons_cons]
    simp only [List.length_append, List.length_cons, List.length_nil] at hrest ⊢
    omega

theorem macText_length (mac : Mac) : (macText mac).length = 17 := by
  have hlen : (mac.toList.map printHex2).length = 6 := by simp
  have hpairs := @intercalate_pairs_length (mac.toList.map printHex2)
    (fun t ht => by
      obtain ⟨v, -, rfl⟩ := List.mem_map.mp ht
      rfl)
    (fun hnil => by simp [hnil] at hlen)
  rw [hlen] at hpairs
  exact Nat.succ_injective hpairs

/-- Two addresses have two texts. -/
theorem macText_inj {mac mac' : Mac} (h : macText mac = macText mac') : mac = mac' := by
  have hwords : ∀ m : Mac, words 58 (macText m) = m.toList.map printHex2 := fun m => by
    refine words_intercalate (fun t ht => ?_) (fun t ht => ?_)
    · obtain ⟨v, -, rfl⟩ := List.mem_map.mp ht
      exact fun hmem => absurd (mem_printHex2 hmem).1 (by decide)
    · obtain ⟨v, -, rfl⟩ := List.mem_map.mp ht
      exact List.cons_ne_nil _ _
  have hlists := (hwords mac).symm.trans ((congrArg (words 58) h).trans (hwords mac'))
  exact Vector.toList_inj.mp (List.map_injective_iff.mpr printHex2_injective hlists)

/-- An address is in lower case. -/
theorem map_tolower_macText (mac : Mac) : (macText mac).map tolower = macText mac := by
  refine (List.map_congr_left (fun c hc => ?_)).trans (List.map_id _)
  rcases mem_macText hc with rfl | h
  · rfl
  · exact h.2

theorem caseEq_macText {mac mac' : Mac} :
    caseEq (macText mac) (macText mac') = true ↔ mac = mac' := by
  rw [caseEq_iff, map_tolower_macText, map_tolower_macText]
  exact ⟨macText_inj, fun h => congrArg macText h⟩

/-! ## 6. What a record says of others -/

/-- Behind a line feed of the name there is a line for the client: three words, its address first. -/
def ForgesLine (url : List UInt8) (mac : Mac) : Prop :=
  ∃ piece ∈ (url.splitOn 10).tail, ∃ key app name,
    scanWords visitFormat piece = some [key, app, name] ∧ caseEq key (macText mac) = true

theorem ten_not_mem_recordHead (r : VisitRecord) (now : UInt32) : 10 ∉ recordHead r now := by
  have hmac : 10 ∉ macText r.mac := fun h => absurd (not_isspace_macText h) (by decide)
  have happ : 10 ∉ printInt (freshApp r.visiting now) := not_mem_printInt (by decide) (by decide)
  simp only [recordHead, List.mem_append, List.mem_cons, List.not_mem_nil, or_false, not_or]
  exact ⟨not_mem_padRight (by decide) hmac, by decide, not_mem_padRight (by decide) happ, by decide⟩

/-- A line starts with the address of its record. -/
theorem recordHead_eq (r : VisitRecord) (now : UInt32) :
    ∃ rest, recordHead r now = macText r.mac ++ 32 :: rest := by
  refine ⟨List.replicate 2 32 ++ 32 :: (padRight 12 (printInt (freshApp r.visiting now)) ++ [32]), ?_⟩
  simp [recordHead, padRight, macText_length, List.replicate]

theorem freshApp_length (visiting : VisitingInfo) (now : UInt32) :
    (printInt (freshApp visiting now)).length ≤ 11 := by
  refine printInt_length_le (by decide) ?_
  unfold freshApp
  have h1 := visiting.visitingApp.le_toInt
  have h2 := visiting.visitingApp.toInt_lt
  split <;> omega

theorem freshUrl_length (visiting : VisitingInfo) (now : UInt32) :
    (freshUrl visiting now).length < MAX_REPORT_URL_LEN := by
  unfold freshUrl
  split
  · exact visiting.visitingUrl.property
  · decide

theorem recordText_length (r : VisitRecord) (now : UInt32) : (recordText r now).length < 98 := by
  have happ := freshApp_length r.visiting now
  have hurl := freshUrl_length r.visiting now
  simp only [recordText, recordHead, List.length_append, List.length_cons, padRight_length,
    macText_length, List.length_nil, MAX_REPORT_URL_LEN] at hurl ⊢
  omega

/-- The lines of a record: its own, with the start of the name, and what the name brings. -/
theorem recordLines_eq (r : VisitRecord) (now : UInt32) :
    ∃ (first : List UInt8) (pieces : List (List UInt8)), recordLines r now =
        (recordHead r now ++ first ++ [10]) :: pieces.map (· ++ [10]) ∧
      ∀ piece ∈ pieces, ∃ part ∈ ((freshUrl r.visiting now).splitOn 10).tail,
        scanWords visitFormat (piece ++ [10]) = scanWords visitFormat part := by
  obtain ⟨first, pieces, hurl, htext⟩ :=
    @splitOn_append_left 10 (padRight 32 (freshUrl r.visiting now)) _ (ten_not_mem_recordHead r now)
  refine ⟨first, pieces, ?_, fun piece hpiece => ?_⟩
  · rw [recordLines, recordText, htext, List.map_cons]
  · have hblank : ∀ c ∈ List.replicate (32 - (freshUrl r.visiting now).length) (32 : UInt8),
        isspace c = true := fun c hc => by
      rw [List.eq_of_mem_replicate hc]
      rfl
    have hparts := @splitOn_append_right 10
      (List.replicate (32 - (freshUrl r.visiting now).length) 32)
      (fun h => absurd (List.eq_of_mem_replicate h) (by decide)) (freshUrl r.visiting now)
    rw [show freshUrl r.visiting now ++ _ = padRight 32 (freshUrl r.visiting now) from rfl, hurl] at hparts
    have hline : scanWords visitFormat (piece ++ [10]) = scanWords visitFormat piece :=
      scanWords_append_blanks (fun c hc => by rw [List.mem_singleton.mp hc]; rfl) _ _
    rw [hline]
    cases hsplit : (freshUrl r.visiting now).splitOn 10 with
    | nil => exact absurd hsplit (List.splitOn_ne_nil _ _)
    | cons head parts =>
      rw [hsplit] at hparts
      obtain ⟨part, hpart, hsame⟩ := forall₂_exists_left (List.forall₂_cons.mp hparts).2 piece hpiece
      refine ⟨part, hpart, ?_⟩
      rcases hsame with rfl | rfl
      · rfl
      · exact scanWords_append_blanks hblank _ _

theorem foldl_lineEffect_eq {mac : List UInt8} {node : Option VisitNode} :
    ∀ {lines : List (List UInt8)}, (∀ line ∈ lines, lineEffect mac node line = node) →
    lines.foldl (lineEffect mac) node = node
  | [], _ => rfl
  | line :: lines, h => by
    rw [List.foldl_cons, h line (List.mem_cons_self ..)]
    exact foldl_lineEffect_eq (fun l hl => h l (List.mem_cons_of_mem _ hl))

/-- A line of another address. -/
theorem lineEffect_of_ne {mac line : List UInt8} {node : Option VisitNode}
    (h : ∀ key app url, scanWords visitFormat line = some [key, app, url] → caseEq key mac = false) :
    lineEffect mac node line = node := by
  unfold lineEffect
  split
  · rename_i key app url hscan
    rw [if_neg (by simp [h key app url hscan])]
  · rfl

/-- The first line of a record is for its own client. -/
theorem scanWords_recordHead {r : VisitRecord} {now : UInt32} {rest key app url : List UInt8}
    (h : scanWords visitFormat (recordHead r now ++ rest) = some [key, app, url]) :
    key = macText r.mac := by
  obtain ⟨more, hhead⟩ := recordHead_eq r now
  have hne : macText r.mac ≠ [] := fun hnil => by
    have := macText_length r.mac
    simp [hnil] at this
  have hword : CLib.scanWord 31 (recordHead r now ++ rest) = some (macText r.mac, 32 :: (more ++ rest)) := by
    rw [hhead, List.append_assoc, List.cons_append]
    exact scanWord_word hne (fun b hb => not_isspace_macText hb) (by rw [macText_length]; omega) rfl
  rw [visitFormat, scanWords, hword] at h
  obtain ⟨words, -, hcons⟩ := Option.map_eq_some_iff.mp h
  exact (List.cons.inj hcons).1.symm

/-- **The lines of another client's record** do nothing, unless its name forges one. -/
theorem recordLines_other {r : VisitRecord} {mac : Mac} (hmac : r.mac ≠ mac)
    (hquiet : ¬ ForgesLine r.visiting.visitingUrl.val.bytes mac) (now : UInt32)
    (node : Option VisitNode) :
    (recordLines r now).foldl (lineEffect (macText mac)) node = node := by
  obtain ⟨first, pieces, hlines, hpieces⟩ := recordLines_eq r now
  rw [hlines]
  refine foldl_lineEffect_eq (fun line hline => lineEffect_of_ne (fun key app url hscan => ?_))
  rcases List.mem_cons.mp hline with rfl | hline
  · rw [List.append_assoc] at hscan
    rw [scanWords_recordHead hscan, Bool.eq_false_iff, Ne, caseEq_macText]
    exact hmac
  · obtain ⟨piece, hpiece, rfl⟩ := List.mem_map.mp hline
    obtain ⟨part, hpart, hsame⟩ := hpieces piece hpiece
    rw [Bool.eq_false_iff]
    intro hkey
    unfold freshUrl at hpart
    split at hpart
    · exact hquiet ⟨part, hpart, key, app, url, hsame.symm.trans hscan, hkey⟩
    · have hnone : ((ascii "none").splitOn 10).tail = [] := by decide
      rw [hnone] at hpart
      exact absurd hpart List.not_mem_nil

/-! ## 7. The whole text -/

/-- Each line of the file is read by itself. -/
theorem fgetsLines_records (now : UInt32) : ∀ records : List VisitRecord,
    fgetsLines 256 (records.flatMap (fun r => recordText r now ++ [10])) =
      records.flatMap (fun r => recordLines r now)
  | [] => rfl
  | r :: records => by
    have hpieces : ∀ piece ∈ (recordText r now).splitOn 10, 10 ∉ piece ∧ piece.length + 1 < 256 := by
      intro piece hpiece
      have hlen := length_le_of_mem_splitOn hpiece
      have hshort := recordText_length r now
      exact ⟨not_mem_of_mem_splitOn hpiece, by omega⟩
    have hfirst := @fgetsLines_pieces 256 (records.flatMap (fun r => recordText r now ++ [10])) _
      (List.splitOn_ne_nil 10 (recordText r now)) hpieces
    rw [List.intercalate_splitOn] at hfirst
    rw [List.flatMap_cons, List.flatMap_cons, List.append_assoc, List.singleton_append, hfirst,
      fgetsLines_records now records]
    rfl

/-- **What a client gets**: the effects of all lines, in order. -/
theorem findClientNode_visiting (nodes : List VisitNode) (records : List VisitRecord) (now : UInt32)
    (mac : List UInt8) :
    findClientNode (updateClientVisitingInfo nodes (visitingText records now)) mac =
      (records.flatMap (fun r => recordLines r now)).foldl (lineEffect mac)
        (findClientNode nodes mac) := by
  have htitle := @fgetsLines_pieces 256 (records.flatMap (fun r => recordText r now ++ [10]))
    [titleText] (List.cons_ne_nil _ _) (by
      intro piece hpiece
      rw [List.mem_singleton.mp hpiece]
      decide)
  rw [List.intercalate_singleton] at htitle
  rw [updateClientVisitingInfo, findClientNode_readVisitLines, visitingText, htitle,
    fgetsLines_records]
  rfl

/-- The records of others fall away. -/
theorem foldl_records_own {mac : Mac} {now : UInt32} : ∀ {records : List VisitRecord},
    (∀ r ∈ records, r.mac ≠ mac → ¬ ForgesLine r.visiting.visitingUrl.val.bytes mac) →
    ∀ node : Option VisitNode,
      (records.flatMap (fun r => recordLines r now)).foldl (lineEffect (macText mac)) node =
        ((records.filter (·.mac = mac)).flatMap (fun r => recordLines r now)).foldl
          (lineEffect (macText mac)) node
  | [], _, _ => rfl
  | r :: records, h, node => by
    have hrest := @foldl_records_own mac now records (fun s hs => h s (List.mem_cons_of_mem _ hs))
    rw [List.flatMap_cons, List.foldl_append]
    by_cases hmac : r.mac = mac
    · rw [List.filter_cons_of_pos (by simpa using hmac), List.flatMap_cons, List.foldl_append]
      exact hrest _
    · rw [List.filter_cons_of_neg (by simpa using hmac),
        recordLines_other hmac (h r (List.mem_cons_self ..) hmac)]
      exact hrest _

/-! ## 8. Runs -/

/-- The name that an event stores. -/
def VisitEvent.host (lib : KernelLib) : VisitEvent → Option VisitingUrl
  | .packet _ flow _ => visitedHost lib (dpiMain flow)
  | .app _ _ _ => none

/-- No event of another client stores a name that forges a line for the client. -/
def NoForgery (lib : KernelLib) (mac : Mac) (events : List VisitEvent) : Prop :=
  ∀ event ∈ events, event.mac ≠ mac → ∀ host, event.host lib = some host →
    ¬ ForgesLine host.val.bytes mac

/-- No record of another client has such a name. -/
def QuietRecords (mac : Mac) (records : List VisitRecord) : Prop :=
  ∀ r ∈ records, r.mac ≠ mac → ¬ ForgesLine r.visiting.visitingUrl.val.bytes mac

theorem apply_visitingUrl (lib : KernelLib) (visiting : VisitingInfo) (event : VisitEvent) :
    (event.apply lib visiting).visitingUrl = (event.host lib).getD visiting.visitingUrl := by
  cases event with
  | packet mac flow now =>
    simp only [VisitEvent.apply, updateUrlVisitingInfo, VisitEvent.host]
    cases visitedHost lib (dpiMain flow) <;> rfl
  | app mac appId now => rfl

/-- One event keeps the records of others quiet. -/
theorem QuietRecords.step {lib : KernelLib} {mac : Mac} {records : List VisitRecord}
    (h : QuietRecords mac records) {event : VisitEvent}
    (hevent : event.mac ≠ mac → ∀ host, event.host lib = some host →
      ¬ ForgesLine host.val.bytes mac) :
    QuietRecords mac (stepRecords lib records event) := by
  intro r' hr' hmac
  obtain ⟨r, hr, rfl⟩ := List.mem_map.mp hr'
  split at hmac
  · rename_i hown
    rw [if_pos hown, apply_visitingUrl]
    cases hhost : event.host lib with
    | none => exact h r hr hmac
    | some host => exact hevent (fun heq => hmac (hown.trans heq)) host hhost
  · rename_i hother
    rw [if_neg hother]
    exact h r hr hmac

/-- **A run without forgery** keeps the records of others quiet. -/
theorem QuietRecords.run {lib : KernelLib} {mac : Mac} : ∀ {events : List VisitEvent}
    {records : List VisitRecord}, QuietRecords mac records → NoForgery lib mac events →
    QuietRecords mac (runRecords lib records events)
  | [], _, h, _ => h
  | event :: events, _, h, hevents => by
    have hrest := QuietRecords.run (h.step (hevents event (List.mem_cons_self ..)))
      (fun e he => hevents e (List.mem_cons_of_mem _ he))
    exact hrest

theorem filter_stepRecords (lib : KernelLib) (mac : Mac) (records : List VisitRecord)
    (event : VisitEvent) :
    (stepRecords lib records event).filter (·.mac = mac) =
      if event.mac = mac then stepRecords lib (records.filter (·.mac = mac)) event
      else records.filter (·.mac = mac) := by
  have hmac : ((fun r : VisitRecord => decide (r.mac = mac)) ∘ fun r =>
      if r.mac = event.mac then { r with visiting := event.apply lib r.visiting } else r) =
        fun r => decide (r.mac = mac) := by
    funext r
    simp only [Function.comp_apply]
    split <;> rfl
  rw [stepRecords, List.filter_map, hmac]
  split
  · rfl
  · rename_i hother
    refine (List.map_congr_left (fun r hr => if_neg (fun hown => hother ?_))).trans (List.map_id _)
    have hr' := (List.mem_filter.mp hr).2
    exact hown.symm.trans (of_decide_eq_true hr')

/-- A client's record depends on its own events. -/
theorem filter_runRecords (lib : KernelLib) (mac : Mac) : ∀ (events : List VisitEvent)
    (records : List VisitRecord),
    (runRecords lib records events).filter (·.mac = mac) =
      runRecords lib (records.filter (·.mac = mac)) (events.filter (·.mac = mac))
  | [], _ => rfl
  | event :: events, records => by
    have hrest := filter_runRecords lib mac events (stepRecords lib records event)
    rw [runRecords, List.foldl_cons]
    refine hrest.trans ?_
    rw [filter_stepRecords]
    by_cases hevent : event.mac = mac
    · rw [if_pos hevent, List.filter_cons_of_pos (by simpa using hevent)]
      rfl
    · rw [if_neg hevent, List.filter_cons_of_neg (by simpa using hevent)]

/-- **What a client gets depends on its own packets alone**, in two runs in which no other client's name forges
a line for it. -/
theorem visiting_isolated (lib : KernelLib) (nodes : List VisitNode) {mac : Mac}
    {records : List VisitRecord} (hrecords : QuietRecords mac records)
    {events events' : List VisitEvent} (h : NoForgery lib mac events) (h' : NoForgery lib mac events')
    (hsame : events.filter (·.mac = mac) = events'.filter (·.mac = mac)) (now : UInt32) :
    findClientNode (updateClientVisitingInfo nodes
        (visitingText (runRecords lib records events) now)) (macText mac) =
      findClientNode (updateClientVisitingInfo nodes
        (visitingText (runRecords lib records events') now)) (macText mac) := by
  rw [findClientNode_visiting, findClientNode_visiting, foldl_records_own (hrecords.run h),
    foldl_records_own (hrecords.run h'), filter_runRecords, filter_runRecords, hsame]

/-! ## 9. Names that cannot forge -/

theorem not_forgesLine {url : List UInt8} (h : 10 ∉ url) (mac : Mac) : ¬ ForgesLine url mac := by
  obtain ⟨first, pieces, hnil, hurl⟩ := @splitOn_append_left 10 [] url h
  rw [List.splitOn_nil, List.cons.injEq] at hnil
  obtain ⟨rfl, rfl⟩ := hnil
  rw [List.append_nil] at hurl
  rintro ⟨piece, hpiece, -⟩
  rw [hurl] at hpiece
  exact absurd hpiece List.not_mem_nil

theorem mem_bytesAt {m : Mem} {i : Int} {n : Nat} {c : UInt8} :
    c ∈ bytesAt m i n ↔ ∃ k < n, m (i + (k : Nat)) = c := by
  simp [bytesAt]

/-- The name of a TLS hello, if there is one, passes `check_domain`. -/
def DomainName (m : Mem) (https : HttpsProto) : Prop :=
  ∀ pos, https.matched = true → https.urlPos = some pos →
    ∀ k < https.urlLen.toNat, isDomainByte (m (pos + (k : Nat))) = true

theorem sniAt_domain {m : Mem} {dataLen i : Int} {urlLen : Nat}
    (h : (sniAt dataLen i).val m = some urlLen) :
    (checkDomain (i + HTTPS_URL_OFFSET) urlLen).val m = true := by
  rw [sniAt, Rd.val_bind, Rd.val_ite] at h
  split at h
  · rw [Rd.val_bind, Rd.val_ite] at h
    split at h
    · cases h
    · rw [Rd.val_ite] at h
      split at h
      · rw [Rd.val_bind, Rd.val_ite] at h
        split at h
        · rename_i hcheck
          obtain rfl := Option.some.inj h
          exact hcheck
        · cases h
      · cases h
  · cases h

/-- The scan finds such names only. -/
theorem dpiHttpsLoop_domain {m : Mem} {dataLen : Int} {flow : FlowInfo}
    (h : DomainName m flow.https) : ∀ (fuel : Nat) (i : Int),
    DomainName m ((dpiHttpsLoop dataLen flow fuel i).val m).2.https
  | 0, _ => h
  | fuel + 1, i => by
    rw [dpiHttpsLoop, Rd.val_ite]
    split
    · rw [Rd.val_ite]
      split
      · exact h
      · rw [Rd.val_bind]
        cases hsni : (sniAt dataLen i).val m with
        | none => exact dpiHttpsLoop_domain h fuel (i + 1)
        | some urlLen =>
          intro pos _ hpos k hk
          obtain rfl := Option.some.inj hpos
          exact checkDomain_iff.mp (sniAt_domain hsni) k (by simpa using hk)
    · exact h

theorem dpiHttpsProto_domain {m : Mem} {flow : FlowInfo} (h : DomainName m flow.https) :
    DomainName m ((dpiHttpsProto flow).val m).2.https := by
  rw [dpiHttpsProto, Rd.val_ite]
  split
  · exact h
  · rw [Rd.val_bind, Rd.val_ite]
    split
    · exact dpiHttpsLoop_domain h _ _
    · exact h

theorem dpiHttpProto_https (m : Mem) (flow : FlowInfo) :
    ((dpiHttpProto flow).val m).https = flow.https ∧
      ((dpiHttpProto flow).val m).l4Data = flow.l4Data := by
  rw [dpiHttpProto, Rd.val_ite]
  split
  · exact ⟨rfl, rfl⟩
  · rw [Rd.val_ite]
    split <;> exact ⟨rfl, rfl⟩

theorem dpiHttpsLoop_l4Data {m : Mem} {dataLen : Int} {flow : FlowInfo} : ∀ (fuel : Nat) (i : Int),
    ((dpiHttpsLoop dataLen flow fuel i).val m).2.l4Data = flow.l4Data
  | 0, _ => rfl
  | fuel + 1, i => by
    rw [dpiHttpsLoop, Rd.val_ite]
    split
    · rw [Rd.val_ite]
      split
      · rfl
      · rw [Rd.val_bind]
        cases (sniAt dataLen i).val m with
        | none => exact dpiHttpsLoop_l4Data fuel (i + 1)
        | some urlLen => rfl
    · rfl

theorem dpiHttpsProto_l4Data (m : Mem) (flow : FlowInfo) :
    ((dpiHttpsProto flow).val m).2.l4Data = flow.l4Data := by
  rw [dpiHttpsProto, Rd.val_ite]
  split
  · rfl
  · rw [Rd.val_bind, Rd.val_ite]
    split
    · exact dpiHttpsLoop_l4Data _ _
    · rfl

theorem dpiDnsMessage_https (m : Mem) (flow : FlowInfo) (payload dnsLen : Int) :
    ((dpiDnsMessage flow payload dnsLen).val m).2.https = flow.https ∧
      ((dpiDnsMessage flow payload dnsLen).val m).2.l4Data = flow.l4Data := by
  rw [dpiDnsMessage, Rd.val_bind, Rd.val_bind, Rd.val_ite]
  split
  · exact ⟨rfl, rfl⟩
  · rw [Rd.val_bind, Rd.val_ite]
    split <;> exact ⟨rfl, rfl⟩

theorem dpiDnsProto_https (m : Mem) (flow : FlowInfo) :
    ((dpiDnsProto flow).val m).2.https = flow.https ∧
      ((dpiDnsProto flow).val m).2.l4Data = flow.l4Data := by
  rw [dpiDnsProto, Rd.val_ite]
  split
  · exact ⟨rfl, rfl⟩
  · rw [Rd.val_ite]
    split
    · exact ⟨rfl, rfl⟩
    · rw [Rd.val_ite]
      split
      · rw [Rd.val_ite]
        split
        · exact ⟨rfl, rfl⟩
        · rw [Rd.val_bind, Rd.val_ite]
          split
          · exact ⟨rfl, rfl⟩
          · exact dpiDnsMessage_https m flow _ _
      · rw [Rd.val_ite]
        split
        · exact ⟨rfl, rfl⟩
        · exact dpiDnsMessage_https m flow _ _

/-- **A TLS hello does not forge**: of a flow that comes fresh to the parsers, a server name has no line
feed. -/
theorem tls_not_forgesLine {lib : KernelLib} {flow : FlowInfo} (hfresh : flow.https.matched = false)
    (htls : (dpiMain flow).https.matched = true) {host : VisitingUrl}
    (hhost : visitedHost lib (dpiMain flow) = some host) (mac : Mac) :
    ¬ ForgesLine host.val.bytes mac := by
  have hdomain : DomainName (dpiMain flow).l4Data (dpiMain flow).https := by
    obtain ⟨hhttp, hdata⟩ := dpiHttpProto_https flow.l4Data flow
    rw [dpiMain, (dpiDnsProto_https _ _).1, (dpiDnsProto_https _ _).2, dpiHttpsProto_l4Data]
    refine dpiHttpsProto_domain (fun pos hmatched => ?_)
    rw [hhttp, hfresh] at hmatched
    cases hmatched
  generalize dpiMain flow = parsed at htls hhost hdomain
  unfold visitedHost at hhost
  split at hhost
  · cases hhost
  · rw [visitedField, if_pos htls] at hhost
    cases hpos : parsed.https.urlPos with
    | none =>
      rw [hpos] at hhost
      cases hhost
    | some pos =>
      rw [hpos] at hhost
      dsimp only [Option.map_some] at hhost
      split_ifs at hhost
      obtain rfl := Option.some.inj hhost
      refine not_forgesLine (fun hmem => ?_) mac
      obtain ⟨k, hk, hbyte⟩ := mem_bytesAt.mp ((List.takeWhile_sublist _).mem hmem)
      have hname := hdomain pos htls hpos k hk
      rw [hbyte] at hname
      exact absurd hname (by decide)

/-! ## 10. Two neighbours -/

def victimMac : Mac := #v[10, 0, 0, 0, 0, 1]
def attackerMac : Mac := #v[10, 0, 0, 0, 0, 2]

/-- A TCP packet with a payload. -/
def httpFlow (payload : List UInt8) : FlowInfo where
  l4Protocol := IPPROTO_TCP
  l4Len := payload.length
  l4Data i := payload.getD i.toNat 0

/-- A client that has not visited anything. -/
def freshRecord (mac : Mac) : VisitRecord := ⟨mac, ⟨0, 0, ⟨.empty, by decide⟩, 0⟩⟩

def neighbours : List VisitRecord := [freshRecord victimMac, freshRecord attackerMac]

def victimNodes : List VisitNode := [⟨macText victimMac, [], 0⟩]

theorem neighbours_quiet : QuietRecords victimMac neighbours := by
  intro r hr _
  have hurl : r.visiting.visitingUrl.val.bytes = [] := by
    simp only [neighbours, List.mem_cons, List.not_mem_nil, or_false] at hr
    rcases hr with rfl | rfl <;> rfl
  rw [hurl]
  exact not_forgesLine List.not_mem_nil victimMac

/-- A request for a host, as it is sent. -/
def hostRequest (host : String) : FlowInfo :=
  httpFlow (ascii "GET / HTTP/1.1\r\nHost: " ++ ascii host ++ ascii "\r\n\r\n")

/-- The attacker asks for a plain host. -/
def plainRun : List VisitEvent := [.packet attackerMac (hostRequest "a.example.com") 1000]

/-- The attacker's host has a line feed and the victim's address behind it. -/
def forgingRun : List VisitEvent :=
  [.packet attackerMac (hostRequest "x\n0a:00:00:00:00:01 7 evil") 1000]

theorem plain_host : (visitedHost noAddresses (dpiMain (hostRequest "a.example.com"))).map
    (fun host => host.val.bytes) = some (ascii "a.example.com") := by decide

theorem plainRun_noForgery : NoForgery noAddresses victimMac plainRun := by
  intro event hevent _ host hhost
  rw [List.mem_singleton.mp hevent] at hhost
  have hplain := plain_host
  rw [show visitedHost noAddresses (dpiMain (hostRequest "a.example.com")) = some host from hhost] at hplain
  have hbytes : host.val.bytes = ascii "a.example.com" := Option.some.inj hplain
  rw [hbytes]
  exact not_forgesLine (by decide) victimMac

theorem visiting_isolated_neighbours :
    findClientNode (updateClientVisitingInfo victimNodes
        (visitingText (runRecords noAddresses neighbours plainRun) 1000)) (macText victimMac) =
      findClientNode (updateClientVisitingInfo victimNodes
        (visitingText (runRecords noAddresses neighbours []) 1000)) (macText victimMac) :=
  visiting_isolated noAddresses victimNodes neighbours_quiet plainRun_noForgery
    (fun _ hevent => absurd hevent List.not_mem_nil)
    (by simp [plainRun, VisitEvent.mac, attackerMac, victimMac]) 1000

/-- **A forged visit**: with the same packets of the victim, none, the victim visits app 7 at `evil` in the one
run and nothing in the other. -/
theorem visiting_forged :
    forgingRun.filter (·.mac = victimMac) = ([] : List VisitEvent).filter (·.mac = victimMac) ∧
    findClientNode (updateClientVisitingInfo victimNodes
        (visitingText (runRecords noAddresses neighbours forgingRun) 1000)) (macText victimMac) =
      some ⟨macText victimMac, ascii "evil", 7⟩ ∧
    findClientNode (updateClientVisitingInfo victimNodes
        (visitingText (runRecords noAddresses neighbours []) 1000)) (macText victimMac) =
      some ⟨macText victimMac, [], 0⟩ := by
  refine ⟨by simp [forgingRun, VisitEvent.mac, attackerMac, victimMac], ?_, ?_⟩
  · decide
  · decide

end Oaf
