/-
# The addresses of the LAN

`fwx_api_set_lan_info` replaces the first item of the list `network.lan.ipaddr` and keeps the rest;
`fwx_api_get_lan_info` reports the first.  Both take the list through a buffer:

    char list_buf[256]           replace_first_list_item, with items[32]
    char ipaddr_list_buf[128]    fwx_api_get_lan_info
    char dns_list_buf[128]       fwx_api_get_lan_info

`fwx_uci_get_list_value` joins the items there without looking at the size.  A prefix of 0 makes
`cidr2str` shift by 32, which C leaves undefined.

* `uciGetListValue_list`: the list is joined iff it fits.
* `setLanInfo_eq`, `getLanInfo_eq`: the two calls.
* `set_lan_info_iff`: the update keeps the other addresses, and is reported, iff the lists fit.
-/
import Oaf.Lib.Inet
import Oaf.MacFilter.Update

namespace Oaf

open CLib
open MacFilter (MAX_PARAM_LIST_LEN)

/-! ## 1. The functions -/

/-- What goes wrong in the two calls: a write behind a buffer, a shift by 32, or a list option that
is read as a string. -/
inductive LanFault
  | listBuf
  | ipaddrListBuf
  | dnsListBuf
  | shift
  | listAsString
deriving DecidableEq

/-- The loop of `fwx_uci_get_list_value`; `text` is what the buffer holds. -/
def listValueFrom (fault : LanFault) (outLen : Nat) :
    List UInt8 → Bool → List (List UInt8) → Except LanFault (List UInt8)
  | text, _, [] => .ok text
  | text, sep, item :: items =>
    if sep && outLen < text.length + 2 then .error fault
    else
      let text := if sep then text ++ [32] else text
      if outLen < text.length + item.length + 1 then .error fault
      else listValueFrom fault outLen (text ++ item) true items

/-- `fwx_uci_get_list_value` with a blank as delimiter; `none` is -1. -/
def uciGetListValue (fault : LanFault) (outLen : Nat) (value : Option UciValue) :
    Except LanFault (Option (List UInt8)) :=
  match value with
  | some (.list items) => (listValueFrom fault outLen [] false items).map some
  | _ => .ok none

/-- `fwx_uci_get_value` into a buffer of 32 bytes that is zero. -/
def uciGetValue (value : Option UciValue) : Except LanFault (List UInt8) :=
  match value with
  | some (.string text) => .ok (text.take 31)
  | some (.list _) => .error .listAsString
  | none => .ok []

/-- `fwx_uci_add_list` of an option of `network.lan`. -/
def uciAddList (name value : List UInt8) : List UciEdit :=
  if MAX_PARAM_LIST_LEN - 1 ≤ value.length + (ascii "network.lan." ++ name).length then []
  else [.add name value]

/-- `cidr2str`; `none` is `NULL`. -/
def cidr2str (cidr : Int) : Except LanFault (Option (List UInt8)) :=
  if cidr < 0 ∨ 32 < cidr then .ok none
  else if cidr = 0 then .error .shift
  else .ok (some (quadText (maskOf cidr.toNat)))

/-- `netmask_to_prefix`. -/
def netmaskToPrefix (maskStr : List UInt8) : Int :=
  match inetAton maskStr with
  | none => -1
  | some mask => if mask = maskOf (leadingOnes mask) then leadingOnes mask else -1

/-- `parse_ipaddr_list_token`, with 32 bytes for each part; `none` is -1. -/
def parseIpaddrListToken (token : List UInt8) :
    Except LanFault (Option (List UInt8 × List UInt8)) :=
  match strchrSplit 47 (token.take 63) with
  | none => .ok none
  | some (addr, bits) =>
    if addr = [] ∨ bits = [] then .ok none
    else if atoi bits < 0 ∨ 32 < atoi bits then .ok none
    else (cidr2str (atoi bits)).map fun mask => mask.map fun mask => (addr.take 31, mask.take 31)

/-- `replace_first_list_item` of `ipaddr`: what it changes. -/
def replaceFirstListItem (options : UciOptions) (name firstItem : List UInt8) :
    Except LanFault (List UciEdit) :=
  if firstItem = [] then .ok []
  else do
    let listBuf ← uciGetListValue .listBuf 256 (options name)
    let items := (words 32 (listBuf.getD [])).take 32
    return .delete name :: (uciAddList name firstItem ++ items.tail.flatMap (uciAddList name))

/-- A request of `fwx_api_set_lan_info`, without its `dhcp`. -/
structure LanRequest where
  ipaddr : Option (List UInt8)
  netmask : Option (List UInt8)
  proto : Option (List UInt8)
  gateway : Option (List UInt8)
  dns1 : Option (List UInt8)
  dns2 : Option (List UInt8)

/-- `fwx_uci_set_value` of an option, if there is a text for it. -/
def setOption (name : String) (text : Option (List UInt8)) : List UciEdit :=
  text.toList.map fun text => .set (ascii name) text

/-- The changes of `ipaddr`. -/
def ipaddrEdits (options : UciOptions) (req : LanRequest) : Except LanFault (List UciEdit) :=
  match req.ipaddr with
  | none => .ok []
  | some ipaddr =>
    let bits := netmaskToPrefix (req.netmask.getD [])
    if ipaddr = [] then .ok []
    else
      let bits := if bits < 0 then 24 else bits
      replaceFirstListItem options (ascii "ipaddr") ((ipaddr ++ 47 :: printInt bits).take 63)

/-- The name servers of a request. -/
def LanRequest.dns (req : LanRequest) : List (List UInt8) :=
  (req.dns1.toList ++ req.dns2.toList).filter (· ≠ [])

/-- The changes of `dns`. -/
def dnsEdits (req : LanRequest) : List UciEdit :=
  if req.dns1.isSome || req.dns2.isSome then
    .delete (ascii "dns") :: req.dns.map (.add (ascii "dns"))
  else []

/-- `fwx_api_set_lan_info`: the options of `network.lan` behind the call, and whether it succeeded.
A missing section is made first, which is no change of an option; the parameter buffers of libuci's
callers are not looked at. -/
def setLanInfo (uci : Libuci) (options : UciOptions) (req : LanRequest) :
    Except LanFault (UciOptions × Bool) :=
  if req.proto = some (ascii "pppoe") then .ok (options, false)
  else do
    let options := runEdits uci (setOption "proto" req.proto) options
    let edits ← ipaddrEdits options req
    return (runEdits uci (edits ++ .delete (ascii "netmask") :: setOption "gateway" req.gateway ++
      dnsEdits req) options, true)

/-- What `fwx_api_get_lan_info` reports of the addresses. -/
structure LanInfo where
  ipaddr : List UInt8
  netmask : List UInt8
  dns1 : List UInt8
  dns2 : List UInt8
deriving DecidableEq

/-- The first item of `network.lan.ipaddr`, if it parses. -/
def firstAddress (value : Option UciValue) : Except LanFault (Option (List UInt8 × List UInt8)) := do
  let ipaddrListBuf ← uciGetListValue .ipaddrListBuf 128 value
  match words 32 (ipaddrListBuf.getD []) with
  | [] => return none
  | token :: _ => parseIpaddrListToken token

/-- `fwx_api_get_lan_info`. -/
def getLanInfo (options : UciOptions) : Except LanFault LanInfo := do
  let (ipaddr, netmask) ← match ← firstAddress (options (ascii "ipaddr")) with
    | some found => pure found
    | none => do
      let ipaddr ← uciGetValue (options (ascii "ipaddr"))
      let netmask ← uciGetValue (options (ascii "netmask"))
      pure (ipaddr, netmask)
  let dnsListBuf ← uciGetListValue .dnsListBuf 128 (options (ascii "dns"))
  let dns := words 32 (dnsListBuf.getD [])
  return ⟨ipaddr, netmask, (dns.getD 0 []).take 31, (dns.getD 1 []).take 31⟩

/-- libuci adds to a list, and makes one of an option that is not there. -/
structure Libuci.AddsToLists (uci : Libuci) : Prop where
  add_none : ∀ text, text ≠ [] → uci.add none text = some (.list [text])
  add_list : ∀ items text, text ≠ [] → uci.add (some (.list items)) text = some (.list (items ++ [text]))

/-! ## 2. Lists in buffers -/

theorem listValueFrom_true (fault : LanFault) (outLen : Nat) : ∀ (items : List (List UInt8))
    (text : List UInt8), text.length < outLen →
    listValueFrom fault outLen text true items =
      if (text ++ items.flatMap (32 :: ·)).length < outLen then .ok (text ++ items.flatMap (32 :: ·))
      else .error fault
  | [], text, h => by simp [listValueFrom, h]
  | item :: items, text, h => by
    simp only [listValueFrom, Bool.true_and, if_true, decide_eq_true_eq]
    by_cases hsep : outLen < text.length + 2
    · have hlong : ¬ (text ++ (item :: items).flatMap (32 :: ·)).length < outLen := by
        simp only [List.flatMap_cons, List.length_append, List.length_cons]
        omega
      rw [if_pos hsep, if_neg hlong]
    · rw [if_neg hsep]
      by_cases hitem : outLen < (text ++ [32]).length + item.length + 1
      · have hlong : ¬ (text ++ (item :: items).flatMap (32 :: ·)).length < outLen := by
          simp only [List.length_append, List.length_singleton] at hitem
          simp only [List.flatMap_cons, List.length_append, List.length_cons]
          omega
        rw [if_pos hitem, if_neg hlong]
      · have hfit : (text ++ [32] ++ item).length < outLen := by
          rw [List.length_append]
          omega
        have hsame : text ++ [32] ++ item ++ items.flatMap (32 :: ·) =
            text ++ (item :: items).flatMap (32 :: ·) := by simp
        rw [if_neg hitem, listValueFrom_true fault outLen items _ hfit, hsame]

/-- **The items are joined** iff they fit. -/
theorem uciGetListValue_list (fault : LanFault) {outLen : Nat} (h : 0 < outLen)
    (items : List (List UInt8)) :
    uciGetListValue fault outLen (some (.list items)) =
      if ([32].intercalate items).length < outLen then .ok (some ([32].intercalate items))
      else .error fault := by
  rw [uciGetListValue]
  cases items with
  | nil =>
    rw [if_pos (by simpa using h)]
    rfl
  | cons item items =>
    rw [intercalate_cons_eq]
    simp only [listValueFrom, Bool.false_and, Bool.false_eq_true, if_false, List.nil_append,
      List.length_nil, Nat.zero_add]
    by_cases hitem : outLen < item.length + 1
    · have hlong : ¬ (item ++ items.flatMap (32 :: ·)).length < outLen := by
        rw [List.length_append]
        omega
      rw [if_pos hitem, if_neg hlong]
      rfl
    · rw [if_neg hitem, listValueFrom_true fault outLen items item (by omega)]
      split <;> rfl

/-- The items of an option that is a list. -/
def storedItems (value : Option UciValue) : List (List UInt8) :=
  match value with
  | some (.list items) => items
  | _ => []

/-- What is found in the buffer behind `fwx_uci_get_list_value`. -/
theorem uciGetListValue_eq (fault : LanFault) {outLen : Nat} (h : 0 < outLen)
    (value : Option UciValue) :
    (([32].intercalate (storedItems value)).length < outLen → ∃ text,
      uciGetListValue fault outLen value = .ok text ∧
        text.getD [] = [32].intercalate (storedItems value)) ∧
    (outLen ≤ ([32].intercalate (storedItems value)).length →
      uciGetListValue fault outLen value = .error fault) := by
  have hshort : ([32].intercalate ([] : List (List UInt8))).length < outLen := by simpa using h
  cases value with
  | none => exact ⟨fun _ => ⟨none, rfl, rfl⟩, fun hlong => absurd hshort (Nat.not_lt.mpr hlong)⟩
  | some value =>
    cases value with
    | string text =>
      exact ⟨fun _ => ⟨none, rfl, rfl⟩, fun hlong => absurd hshort (Nat.not_lt.mpr hlong)⟩
    | list items =>
      rw [uciGetListValue_list fault h items]
      exact ⟨fun hfit => ⟨_, if_pos hfit, rfl⟩, fun hlong => if_neg (Nat.not_lt.mpr hlong)⟩

/-- An item that a blank does not cut. -/
def ListItem (t : List UInt8) : Prop := t ≠ [] ∧ 32 ∉ t ∧ t.length ≤ 18

theorem words_items {items : List (List UInt8)} (h : ∀ t ∈ items, ListItem t) :
    words 32 ([32].intercalate items) = items :=
  words_intercalate (fun t ht => (h t ht).2.1) (fun t ht => (h t ht).1)

theorem uciAddList_short {name value : List UInt8} (h : name.length + value.length ≤ 1000) :
    uciAddList name value = [.add name value] := by
  have hkey : (ascii "network.lan.").length = 12 := by decide
  rw [uciAddList, if_neg]
  rw [List.length_append, hkey, MAX_PARAM_LIST_LEN]
  omega

/-- **The changes of a list**: it is deleted and built again, of 32 items at most. -/
theorem replaceFirstListItem_eq {options : UciOptions} {name first : List UInt8}
    (hname : name.length ≤ 100) (hfirst : first ≠ [] ∧ first.length ≤ 63)
    (h : ∀ t ∈ storedItems (options name), ListItem t) :
    (([32].intercalate (storedItems (options name))).length < 256 →
      replaceFirstListItem options name first = .ok (.delete name ::
        (first :: ((storedItems (options name)).take 32).tail).map (.add name))) ∧
    (256 ≤ ([32].intercalate (storedItems (options name))).length →
      replaceFirstListItem options name first = .error .listBuf) := by
  obtain ⟨hfit, hlong⟩ := uciGetListValue_eq .listBuf (by decide : 0 < 256) (options name)
  rw [replaceFirstListItem, if_neg hfirst.1]
  constructor
  · intro hlt
    obtain ⟨text, hget, htext⟩ := hfit hlt
    have hadds : ((storedItems (options name)).take 32).tail.flatMap (uciAddList name) =
        ((storedItems (options name)).take 32).tail.map (.add name) := by
      rw [List.map_eq_flatMap]
      refine List.flatMap_congr ?_
      intro t ht
      have hmem := List.mem_of_mem_take (List.mem_of_mem_tail ht)
      have hlen := (h t hmem).2.2
      exact uciAddList_short (by omega)
    rw [hget]
    simp only [bind, Except.bind, pure, Except.pure, htext, words_items h, hadds,
      uciAddList_short (show name.length + first.length ≤ 1000 by omega), List.map_cons,
      List.singleton_append]
  · intro hle
    rw [hlong hle]
    rfl

/-! ## 3. The options behind the calls -/

variable {uci : Libuci}

theorem runEdits_adds (hu : uci.AddsToLists) (name : List UInt8) :
    ∀ (texts items : List (List UInt8)) (options : UciOptions), (∀ t ∈ texts, t ≠ []) →
      options name = some (.list items) →
      runEdits uci (texts.map (.add name)) options name = some (.list (items ++ texts))
  | [], items, options, _, hitems => by simpa [runEdits] using hitems
  | t :: texts, items, options, h, hitems => by
    have hadd : (UciEdit.add name t).run uci options name = some (.list (items ++ [t])) := by
      rw [UciEdit.run, UciEdit.name, Function.update_self, UciEdit.value, hitems]
      exact hu.add_list items t (h t List.mem_cons_self)
    have hrest := runEdits_adds hu name texts (items ++ [t]) ((UciEdit.add name t).run uci options)
      (fun u hu => h u (List.mem_cons_of_mem t hu)) hadd
    rw [List.map_cons, runEdits, List.foldl_cons]
    rw [runEdits, List.append_assoc, List.singleton_append] at hrest
    exact hrest

/-- **A list that is deleted and built again** has the new items. -/
theorem storedItems_rebuilt (hu : uci.AddsToLists) (name : List UInt8) {texts : List (List UInt8)}
    (h : ∀ t ∈ texts, t ≠ []) (options : UciOptions) :
    storedItems (runEdits uci (.delete name :: texts.map (.add name)) options name) = texts ∧
      (texts ≠ [] → runEdits uci (.delete name :: texts.map (.add name)) options name =
        some (.list texts)) := by
  have hgone : (UciEdit.delete name).run uci options name = none := Function.update_self ..
  cases texts with
  | nil =>
    refine ⟨?_, fun hne => absurd rfl hne⟩
    rw [runEdits, List.map_nil, List.foldl_cons, List.foldl_nil, hgone]
    rfl
  | cons t texts =>
    have hfirst : (UciEdit.add name t).run uci ((UciEdit.delete name).run uci options) name =
        some (.list [t]) := by
      rw [UciEdit.run, UciEdit.name, Function.update_self, UciEdit.value, hgone]
      exact hu.add_none t (h t List.mem_cons_self)
    have hrun := runEdits_adds hu name texts [t] _ (fun u hu => h u (List.mem_cons_of_mem t hu)) hfirst
    have hall : runEdits uci (.delete name :: (t :: texts).map (.add name)) options name =
        some (.list (t :: texts)) := hrun
    rw [hall]
    exact ⟨rfl, fun _ => rfl⟩

theorem name_mem_adds {name n : List UInt8} {texts : List (List UInt8)}
    (h : n ∈ (texts.map (UciEdit.add name)).map UciEdit.name) : n = name := by
  rw [List.map_map] at h
  obtain ⟨t, -, rfl⟩ := List.mem_map.mp h
  rfl

/-- A list that is deleted and built again. -/
theorem name_mem_rebuild {name n : List UInt8} {texts : List (List UInt8)}
    (h : n ∈ (UciEdit.delete name :: texts.map (UciEdit.add name)).map UciEdit.name) : n = name := by
  rw [List.map_cons] at h
  rcases List.mem_cons.mp h with h | h
  · exact h
  · exact name_mem_adds h

theorem name_mem_setOption {name : String} {text : Option (List UInt8)} {n : List UInt8}
    (h : n ∈ (setOption name text).map UciEdit.name) : n = ascii name := by
  rw [setOption, List.map_map] at h
  obtain ⟨t, -, rfl⟩ := List.mem_map.mp h
  rfl

theorem name_mem_dnsEdits {req : LanRequest} {n : List UInt8}
    (h : n ∈ (dnsEdits req).map UciEdit.name) : n = ascii "dns" := by
  rw [dnsEdits] at h
  split at h
  · exact name_mem_rebuild h
  · cases h

/-- The edits between those of the addresses and those of the name servers. -/
theorem name_mem_netmaskEdits {gateway : Option (List UInt8)} {n : List UInt8}
    (h : n ∈ (UciEdit.delete (ascii "netmask") :: setOption "gateway" gateway).map UciEdit.name) :
    n = ascii "netmask" ∨ n = ascii "gateway" := by
  rcases List.mem_cons.mp h with h | h
  · exact Or.inl h
  · exact Or.inr (name_mem_setOption h)

/-- The name servers behind a request. -/
def dnsAfter (options : UciOptions) (req : LanRequest) : List (List UInt8) :=
  if req.dns1.isSome || req.dns2.isSome then req.dns else storedItems (options (ascii "dns"))

/-- The text of an address and its prefix length. -/
def lanItem (addr : UInt32) (len : Nat) : List UInt8 := quadText addr ++ 47 :: printNat len

/-- A request for an address with a mask, which is not refused. -/
structure LanRequest.Asks (req : LanRequest) (addr : UInt32) (len : Nat) : Prop where
  ipaddr : req.ipaddr = some (quadText addr)
  netmask : req.netmask = some (quadText (maskOf len))
  len_le : len ≤ 32
  proto : req.proto ≠ some (ascii "pppoe")

theorem netmaskToPrefix_maskText {len : Nat} (h : len ≤ 32) :
    netmaskToPrefix (quadText (maskOf len)) = len := by
  rw [netmaskToPrefix, inetAton_maskText len h]
  simp only [leadingOnes_maskOf len h, if_true]

theorem lanItem_listItem (addr : UInt32) {len : Nat} (h : len ≤ 32) : ListItem (lanItem addr len) := by
  have hdigits := printNat_length_le (n := len) (k := 2) (by decide) (by omega)
  have hquad := quadText_length_le addr
  refine ⟨by simp [lanItem], ?_, ?_⟩
  · intro hmem
    rcases List.mem_append.mp hmem with hmem | hmem
    · rcases mem_quadText hmem with hc | hc <;> exact absurd hc (by decide)
    · rcases List.mem_cons.mp hmem with hc | hc
      · exact absurd hc (by decide)
      · exact absurd (isdigit_of_mem_printNat hc) (by decide)
  · rw [lanItem, List.length_append, List.length_cons]
    omega

/-- What a request for an address does with the list. -/
theorem LanRequest.Asks.ipaddrEdits_eq {req : LanRequest} {addr : UInt32} {len : Nat} (hreq : req.Asks addr len)
    (options : UciOptions) :
    ipaddrEdits options req = replaceFirstListItem options (ascii "ipaddr") (lanItem addr len) := by
  have hbits : ¬ ((len : Int) < 0) := by omega
  have hprint : printInt (len : Int) = printNat len := by
    rw [printInt_of_nonneg (by omega)]
    rfl
  have hfirst : (lanItem addr len).take 63 = lanItem addr len :=
    List.take_of_length_le ((lanItem_listItem addr hreq.len_le).2.2.trans (by decide))
  rw [ipaddrEdits, hreq.ipaddr, hreq.netmask]
  simp only [Option.getD_some, netmaskToPrefix_maskText hreq.len_le, if_neg hbits, hprint]
  rw [if_neg (quadText_ne_nil addr)]
  exact congrArg _ hfirst

/-! ## 4. The two calls -/

/-- **`fwx_api_set_lan_info`**: the list is built again with the first item replaced, or does not
fit its buffer. -/
theorem setLanInfo_eq (hu : uci.AddsToLists) {options : UciOptions} {req : LanRequest}
    {addr : UInt32} {len : Nat} (hreq : req.Asks addr len)
    (h : ∀ t ∈ storedItems (options (ascii "ipaddr")), ListItem t) :
    (([32].intercalate (storedItems (options (ascii "ipaddr")))).length < 256 →
      ∃ options', setLanInfo uci options req = .ok (options', true) ∧
        options' (ascii "ipaddr") = some (.list (lanItem addr len ::
          ((storedItems (options (ascii "ipaddr"))).take 32).tail)) ∧
        storedItems (options' (ascii "dns")) = dnsAfter options req) ∧
    (256 ≤ ([32].intercalate (storedItems (options (ascii "ipaddr")))).length →
      setLanInfo uci options req = .error .listBuf) := by
  have hproto : ∀ n : List UInt8, n ≠ ascii "proto" →
      runEdits uci (setOption "proto" req.proto) options n = options n := fun n hn =>
    runEdits_of_not_mem (fun hmem => hn (name_mem_setOption hmem)) options
  have hsame := hproto (ascii "ipaddr") (by decide)
  have hdns := hproto (ascii "dns") (by decide)
  have hitem := lanItem_listItem addr hreq.len_le
  generalize hbefore : runEdits uci (setOption "proto" req.proto) options = before at hsame hdns
  obtain ⟨hfit, hlong⟩ := @replaceFirstListItem_eq before (ascii "ipaddr")
    (lanItem addr len) (by decide) ⟨hitem.1, hitem.2.2.trans (by decide)⟩ (by rwa [hsame])
  rw [hsame] at hfit hlong
  rw [setLanInfo, if_neg hreq.proto, hbefore]
  dsimp only
  constructor
  · intro hlt
    have hne : ∀ t ∈ lanItem addr len ::
        ((storedItems (options (ascii "ipaddr"))).take 32).tail, t ≠ [] := by
      intro t ht
      rcases List.mem_cons.mp ht with rfl | ht
      · exact hitem.1
      · exact (h t (List.mem_of_mem_take (List.mem_of_mem_tail ht))).1
    obtain ⟨-, hlist⟩ := storedItems_rebuilt hu (ascii "ipaddr") hne before
    have hlist := hlist (List.cons_ne_nil _ _)
    generalize hrebuild : UciEdit.delete (ascii "ipaddr") :: (lanItem addr len ::
      ((storedItems (options (ascii "ipaddr"))).take 32).tail).map (.add (ascii "ipaddr")) = rebuild
      at hfit hlist
    have hnames : ∀ n ∈ rebuild.map UciEdit.name, n = ascii "ipaddr" := by
      intro n hn
      rw [← hrebuild] at hn
      exact name_mem_rebuild hn
    refine ⟨_, by rw [hreq.ipaddrEdits_eq, hfit hlt]; rfl, ?_, ?_⟩
    · rw [List.append_assoc, runEdits_append]
      rw [runEdits_of_not_mem, hlist]
      rw [List.map_append, List.mem_append]
      rintro (hn | hn)
      · rcases name_mem_netmaskEdits hn with hn | hn <;> exact absurd hn (by decide)
      · exact absurd (name_mem_dnsEdits hn) (by decide)
    · rw [runEdits_append]
      generalize hcur : runEdits uci (rebuild ++
        UciEdit.delete (ascii "netmask") :: setOption "gateway" req.gateway) before = current
      have hkept : current (ascii "dns") = options (ascii "dns") := by
        rw [← hcur, runEdits_of_not_mem, hdns]
        rw [List.map_append, List.mem_append]
        rintro (hn | hn)
        · exact absurd (hnames _ hn) (by decide)
        · rcases name_mem_netmaskEdits hn with hn | hn <;> exact absurd hn (by decide)
      rw [dnsEdits, dnsAfter]
      split
      · refine (storedItems_rebuilt hu (ascii "dns") ?_ current).1
        intro t ht
        simpa using (List.mem_filter.mp ht).2
      · rw [← hkept]
        rfl
  · intro hle
    rw [hreq.ipaddrEdits_eq, hlong hle]
    rfl

theorem parseIpaddrListToken_lanItem (addr : UInt32) {len : Nat} (h : len ≤ 32) :
    parseIpaddrListToken (lanItem addr len) =
      if len = 0 then .error .shift
      else .ok (some (quadText addr, quadText (maskOf len))) := by
  have hitem := lanItem_listItem addr h
  have hslash : (47 : UInt8) ∉ quadText addr := by
    intro hmem
    rcases mem_quadText hmem with hc | hc <;> exact absurd hc (by decide)
  have hsplit : strchrSplit 47 ((lanItem addr len).take 63) = some (quadText addr, printNat len) := by
    rw [List.take_of_length_le (hitem.2.2.trans (by decide))]
    exact strchrSplit_append hslash _
  have hatoi : atoi (printNat len) = len := by
    have hread := @atoi_printInt (len : Int) (by omega) (by omega)
    rwa [printInt_of_nonneg (by omega), Int.toNat_natCast] at hread
  have hshort : ∀ a, (quadText a).take 31 = quadText a := fun a =>
    List.take_of_length_le ((quadText_length_le a).trans (by decide))
  rw [parseIpaddrListToken, hsplit]
  simp only [quadText_ne_nil, printNat_ne_nil, or_self, if_false, hatoi, cidr2str]
  have hrange : ¬ ((len : Int) < 0 ∨ (32 : Int) < len) := by omega
  rw [if_neg hrange, if_neg hrange]
  by_cases h0 : len = 0
  · have h0' : (len : Int) = 0 := by omega
    rw [if_pos h0, if_pos h0']
    rfl
  · have h0' : ¬ (len : Int) = 0 := by omega
    rw [if_neg h0, if_neg h0', Int.toNat_natCast]
    simp only [Except.map, Option.map_some, hshort]

/-- **`fwx_api_get_lan_info`**: the first item is reported, if both lists fit and its prefix is not
0. -/
theorem getLanInfo_iff {options : UciOptions} {addr : UInt32} {len : Nat} (hlen : len ≤ 32)
    {rest : List (List UInt8)}
    (hvalue : options (ascii "ipaddr") = some (.list (lanItem addr len :: rest)))
    (h : ∀ t ∈ rest, ListItem t) :
    (∃ info, getLanInfo options = .ok info ∧ info.ipaddr = quadText addr ∧
        info.netmask = quadText (maskOf len)) ↔
      ([32].intercalate (lanItem addr len :: rest)).length < 128 ∧ len ≠ 0 ∧
        ([32].intercalate (storedItems (options (ascii "dns")))).length < 128 := by
  obtain ⟨hdnsFit, hdnsLong⟩ :=
    uciGetListValue_eq .dnsListBuf (by decide : 0 < 128) (options (ascii "dns"))
  have hwords : words 32 ([32].intercalate (lanItem addr len :: rest)) = lanItem addr len :: rest := by
    refine words_items ?_
    intro t ht
    rcases List.mem_cons.mp ht with rfl | ht
    · exact lanItem_listItem addr hlen
    · exact h t ht
  have hparse := parseIpaddrListToken_lanItem addr hlen
  have hfirst : firstAddress (options (ascii "ipaddr")) =
      if ([32].intercalate (lanItem addr len :: rest)).length < 128 then
        parseIpaddrListToken (lanItem addr len)
      else .error .ipaddrListBuf := by
    rw [hvalue, firstAddress, uciGetListValue_list _ (by decide)]
    split
    · simp only [bind, Except.bind, Option.getD_some, hwords]
    · rfl
  rw [getLanInfo, hfirst]
  by_cases hfit : ([32].intercalate (lanItem addr len :: rest)).length < 128
  · by_cases h0 : len = 0
    · rw [if_pos hfit, hparse, if_pos h0]
      refine iff_of_false ?_ (fun hall => hall.2.1 h0)
      rintro ⟨info, hinfo, -⟩
      cases hinfo
    · rw [if_pos hfit, hparse, if_neg h0]
      by_cases hdns : ([32].intercalate (storedItems (options (ascii "dns")))).length < 128
      · obtain ⟨text, hget, -⟩ := hdnsFit hdns
        refine iff_of_true ⟨⟨quadText addr, quadText (maskOf len),
          ((words 32 (text.getD [])).getD 0 []).take 31,
          ((words 32 (text.getD [])).getD 1 []).take 31⟩, ?_, rfl, rfl⟩ ⟨hfit, h0, hdns⟩
        rw [hget]
        rfl
      · rw [hdnsLong (Nat.not_lt.mp hdns)]
        refine iff_of_false ?_ (fun hall => hdns hall.2.2)
        rintro ⟨info, hinfo, -⟩
        cases hinfo
  · rw [if_neg hfit]
    refine iff_of_false ?_ (fun hall => hfit hall.1)
    rintro ⟨info, hinfo, -⟩
    cases hinfo

/-! ## 5. The update -/

/-- What the two calls should do: the first item is replaced, the others stay, and the address and
the mask are reported. -/
def UpdatesAddress (uci : Libuci) (options : UciOptions) (req : LanRequest) (addr : UInt32)
    (len : Nat) : Prop :=
  ∃ options' info, setLanInfo uci options req = .ok (options', true) ∧
    options' (ascii "ipaddr") =
      some (.list (lanItem addr len :: (storedItems (options (ascii "ipaddr"))).tail)) ∧
    getLanInfo options' = .ok info ∧ info.ipaddr = quadText addr ∧
    info.netmask = quadText (maskOf len)

/-- **The address is updated, and the others stay**, iff the lists fit their buffers and the prefix
is not 0. -/
theorem set_lan_info_iff (hu : uci.AddsToLists) {options : UciOptions} {req : LanRequest}
    {addr : UInt32} {len : Nat} (hreq : req.Asks addr len)
    (h : ∀ t ∈ storedItems (options (ascii "ipaddr")), ListItem t) :
    UpdatesAddress uci options req addr len ↔
      ([32].intercalate (storedItems (options (ascii "ipaddr")))).length < 256 ∧
      (storedItems (options (ascii "ipaddr"))).length ≤ 32 ∧
      ([32].intercalate
        (lanItem addr len :: (storedItems (options (ascii "ipaddr"))).tail)).length < 128 ∧
      ([32].intercalate (dnsAfter options req)).length < 128 ∧ len ≠ 0 := by
  obtain ⟨hfit, hlong⟩ := setLanInfo_eq hu hreq h
  have htail : ∀ t ∈ (storedItems (options (ascii "ipaddr"))).tail, ListItem t :=
    fun t ht => h t (List.mem_of_mem_tail ht)
  by_cases hlt : ([32].intercalate (storedItems (options (ascii "ipaddr")))).length < 256
  · obtain ⟨options', hset, hlist, hdns⟩ := hfit hlt
    constructor
    · rintro ⟨options'', info, hset', hlist', hget⟩
      obtain ⟨rfl, -⟩ := Prod.mk.inj (Except.ok.inj (hset.symm.trans hset'))
      have hcut : ((storedItems (options (ascii "ipaddr"))).take 32).tail =
          (storedItems (options (ascii "ipaddr"))).tail := by
        have heq := UciValue.list.inj (Option.some.inj (hlist.symm.trans hlist'))
        exact (List.cons.inj heq).2
      have hcount : (storedItems (options (ascii "ipaddr"))).length ≤ 32 := by
        have hsize := congrArg List.length hcut
        rw [List.length_tail, List.length_tail, List.length_take] at hsize
        omega
      obtain ⟨hget1, hget2, hget3⟩ := (getLanInfo_iff hreq.len_le hlist' htail).mp ⟨info, hget⟩
      rw [hdns] at hget3
      exact ⟨hlt, hcount, hget1, hget3, hget2⟩
    · rintro ⟨-, hcount, hnew, hdnsFit, h0⟩
      rw [List.take_of_length_le hcount] at hlist
      rw [← hdns] at hdnsFit
      obtain ⟨info, hget⟩ := (getLanInfo_iff hreq.len_le hlist htail).mpr ⟨hnew, h0, hdnsFit⟩
      exact ⟨options', info, hset, hlist, hget⟩
  · refine iff_of_false ?_ (fun hall => hlt hall.1)
    rintro ⟨options', info, hset, -⟩
    rw [hlong (Nat.not_lt.mp hlt)] at hset
    cases hset

/-- libuci, where a string that a text is added to becomes the first item. -/
def listUci : Libuci where
  set _ text := some (.string text)
  add value text := match value with
    | none => some (.list [text])
    | some (.string first) => some (.list [first, text])
    | some (.list items) => some (.list (items ++ [text]))

theorem listUci_addsToLists : listUci.AddsToLists := ⟨fun _ _ => rfl, fun _ _ _ => rfl⟩

/-- 192.168.1.1 -/
def lanAddress : UInt32 := 0xc0a80101

/-- A section with nothing but `ipaddr`. -/
def lanOptions (items : List (List UInt8)) : UciOptions :=
  fun name => if name = ascii "ipaddr" then some (.list items) else none

/-- A request for an address with a mask of 24 bits. -/
def lanRequest (addr : UInt32) : LanRequest where
  ipaddr := some (quadText addr)
  netmask := some (quadText (maskOf 24))
  proto := none
  gateway := none
  dns1 := none
  dns2 := none

theorem lanRequest_asks (addr : UInt32) : (lanRequest addr).Asks addr 24 :=
  ⟨rfl, rfl, by decide, by simp [lanRequest]⟩

/-- The stored items of `lanOptions`. -/
theorem storedItems_lanOptions (items : List (List UInt8)) :
    storedItems (lanOptions items (ascii "ipaddr")) = items := by
  rw [lanOptions, if_pos rfl]
  rfl

/-- Three addresses, of which the first one is to change. -/
def threeAddresses : List (List UInt8) := [lanItem 0x0a000001 8, lanItem 0xc0a80201 24, lanItem 0xac100001 16]

theorem set_lan_info_iff_three :
    UpdatesAddress listUci (lanOptions threeAddresses) (lanRequest lanAddress) lanAddress 24 := by
  refine (set_lan_info_iff listUci_addsToLists (lanRequest_asks lanAddress) ?_).mpr ?_
  · rw [storedItems_lanOptions]
    intro t ht
    simp only [threeAddresses, List.mem_cons, List.not_mem_nil, or_false] at ht
    rcases ht with rfl | rfl | rfl
    · exact lanItem_listItem 0x0a000001 (by decide)
    · exact lanItem_listItem 0xc0a80201 (by decide)
    · exact lanItem_listItem 0xac100001 (by decide)
  · rw [storedItems_lanOptions]
    decide +kernel

/-- **Seven long addresses overrun the second buffer**: 192.168.100.100/24, seven times, of which
one becomes 192.168.100.101/24. -/
theorem seven_addresses_overrun :
    (∀ t ∈ storedItems (lanOptions (List.replicate 7 (lanItem 0xc0a86464 24)) (ascii "ipaddr")),
      ListItem t) ∧
    ¬ UpdatesAddress listUci (lanOptions (List.replicate 7 (lanItem 0xc0a86464 24)))
      (lanRequest 0xc0a86465) 0xc0a86465 24 := by
  rw [storedItems_lanOptions]
  have hitems : ∀ t ∈ List.replicate 7 (lanItem 0xc0a86464 24), ListItem t := by
    intro t ht
    rw [List.eq_of_mem_replicate ht]
    exact lanItem_listItem 0xc0a86464 (by decide)
  refine ⟨hitems, ?_⟩
  rintro ⟨options', info, -, hlist, hget⟩
  rw [storedItems_lanOptions] at hlist
  have hfit := ((getLanInfo_iff (by decide) hlist
    (fun t ht => hitems t (List.mem_of_mem_tail ht))).mp ⟨info, hget⟩).1
  exact absurd hfit (by decide +kernel)

end Oaf
