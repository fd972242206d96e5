/-
# Client names from the lease file

`update_client_hostname` reads `/tmp/dhcp.leases` line by line: the second to fourth word of a line go to
`mac_buf`, `ip_buf` and `hostname_buf`, without a bound, and what is in `hostname_buf` then becomes the name
of the client of `mac_buf`.  The file also has lines of another shape: a `duid` line has two words, so that
the name is the one of the line before, and an IPv6 lease has an identifier where the address is looked for.

* `importLine`: one line.
* `importLine_ok_iff`: when it does what it should, from the fields of the line.
* `lease_import_iff`: the same for a file.

The online state and the time of a new client are left out.
-/
import Oaf.Lib.CArray
import Oaf.Lib.CText
import Oaf.Lib.Keyed
import Oaf.Lib.Lines

namespace Oaf

open CLib Chains

/-! ## 1. The import -/

def MAX_MAC_LEN : Nat := 32
def MAX_IP_LEN : Nat := 32
def MAX_HOSTNAME_SIZE : Nat := 64

/-- `char b[n]` with a string in it. -/
abbrev TextBuf (n : Nat) := { text : CStr // text.strlen < n }

/-- `client_node_t`, as far as it is looked at here. -/
structure LeaseNode where
  mac : CStr
  ip : TextBuf MAX_IP_LEN
  hostname : CArray MAX_HOSTNAME_SIZE

/-- What is in the local buffers, and the client list. -/
structure LeaseState where
  macBuf : TextBuf 32 := ⟨.empty, by decide⟩
  ipBuf : TextBuf 32 := ⟨.empty, by decide⟩
  hostnameBuf : TextBuf 128 := ⟨.empty, by decide⟩
  nodes : List LeaseNode

/-- What is written outside. -/
inductive LeaseOverrun
  | macBuf | ipBuf | hostnameBuf | nullNode
deriving DecidableEq

/-- `%s` into a buffer. -/
def storeWord (n : Nat) (e : LeaseOverrun) (word : CStr) : Except LeaseOverrun (TextBuf n) :=
  if h : word.strlen < n then .ok ⟨word, h⟩ else .error e

/-- Up to `k` words of a line.  No word is longer than the line buffer. -/
def lineWords : Nat → List UInt8 → List CStr
  | 0, _ => []
  | k + 1, text =>
    match CLib.scanWord 256 text with
    | none => []
    | some (word, rest) => .ofBytes word :: lineWords k rest

/-- `sscanf(line_buf, "%*s %s %s %s", ..)`: buffers for which there is no word keep what they have. -/
def scanLease (st : LeaseState) (line : List UInt8) : Except LeaseOverrun LeaseState :=
  match lineWords 4 line with
  | [] | [_] => .ok st
  | [_, mac] => do return { st with macBuf := ← storeWord _ .macBuf mac }
  | [_, mac, ip] => do
    return { st with macBuf := ← storeWord _ .macBuf mac, ipBuf := ← storeWord _ .ipBuf ip }
  | _ :: mac :: ip :: hostname :: _ => do
    return { st with
      macBuf := ← storeWord _ .macBuf mac
      ipBuf := ← storeWord _ .ipBuf ip
      hostnameBuf := ← storeWord _ .hostnameBuf hostname }

theorem noNul_map_tolower {l : List UInt8} (h : 0 ∉ l) : 0 ∉ l.map tolower := by
  rw [List.mem_map]
  rintro ⟨c, hc, h0⟩
  refine h ?_
  have : c = 0 := by
    unfold tolower at h0
    split at h0
    · rename_i hupper
      simp only [Bool.and_eq_true, decide_eq_true_eq, UInt8.le_iff_toNat_le] at hupper
      have := congrArg UInt8.toNat h0
      simp only [UInt8.toNat_add, UInt8.reduceToNat] at this hupper
      omega
    · exact h0
  exact this ▸ hc

def lowerCase (s : CStr) : CStr := ⟨s.bytes.map tolower, noNul_map_tolower s.noNul⟩

/-- `normalize_mac_lower` into `MAX_MAC_LEN` bytes. -/
def normalizeMacLower (mac : CStr) : CStr :=
  ⟨(lowerCase mac).bytes.take (MAX_MAC_LEN - 1), fun h => (lowerCase mac).noNul (List.mem_of_mem_take h)⟩

/-- `find_client_node`, which also writes the address anew. -/
def isNode (mac : CStr) (node : LeaseNode) : Bool := caseEq node.mac.bytes (normalizeMacLower mac).bytes

/-- `strncpy(node->hostname, name, sizeof(node->hostname))`: it fills the array. -/
def setHostname (name : CStr) (node : LeaseNode) : LeaseNode :=
  { node with hostname := ⟨CArray.padded name.bytes MAX_HOSTNAME_SIZE, CArray.padded_length _ _⟩ }

/-- What `add_client_node` and the copy of `ip_buf` make of a new client. -/
def newNode (st : LeaseState) : LeaseNode :=
  { mac := normalizeMacLower st.macBuf.val, ip := st.ipBuf, hostname := .zeros _ }

/-- The node of `mac_buf`, found or added. -/
def leaseNode (st : LeaseState) : Except LeaseOverrun (List LeaseNode) :=
  let mac := st.macBuf.val
  if mac = .empty then .error .nullNode
  else if st.nodes.any (isNode mac) then
    .ok (updateFirst (isNode mac) (fun node => { node with mac := normalizeMacLower mac }) st.nodes)
  else .ok (newNode st :: st.nodes)

/-- A name is taken over when it is not empty and no `*`. -/
def takesName (name : CStr) : Bool := name ≠ .empty && name.get 0 ≠ 42

/-- One line of the loop. -/
def importLine (st : LeaseState) (line : List UInt8) : Except LeaseOverrun LeaseState :=
  if line.length ≤ 16 then .ok st
  else do
    let st ← scanLease st line
    let nodes ← leaseNode st
    let name := st.hostnameBuf.val
    if takesName name then
      return { st with nodes := updateFirst (isNode st.macBuf.val) (setHostname name) nodes }
    else return { st with nodes := nodes }

/-- `update_client_hostname`, on the text of the file. -/
def updateClientHostname (nodes : List LeaseNode) (text : List UInt8) :
    Except LeaseOverrun (List LeaseNode) :=
  return (← (fgetsLines 256 text).foldlM importLine { nodes := nodes }).nodes

/-! ## 2. Lease files -/

/-- A field of a line: text without white space. -/
structure LeaseField where
  text : CStr
  nonempty : text.bytes ≠ []
  noSpace : ∀ c ∈ text.bytes, isspace c = false

/-- The three kinds of lines. -/
inductive LeaseLine
  | ipv4 (expiry mac ip hostname clientId : LeaseField)
  | duid (hex : LeaseField)
  | ipv6 (expiry iaid ip hostname clientDuid : LeaseField)

/-- A field with this text. -/
def leaseField (s : String)
    (h : (!(CStr.lit s).bytes.isEmpty && (CStr.lit s).bytes.all fun c => !isspace c) = true) :
    LeaseField where
  text := .lit s
  nonempty := by
    rw [Bool.and_eq_true] at h
    simpa using h.1
  noSpace c hc := by
    rw [Bool.and_eq_true, List.all_eq_true] at h
    simpa using h.2 c hc

def duidWord : LeaseField := leaseField "duid" (by decide)

def LeaseLine.fields : LeaseLine → List LeaseField
  | .ipv4 expiry mac ip hostname clientId => [expiry, mac, ip, hostname, clientId]
  | .duid hex => [duidWord, hex]
  | .ipv6 expiry iaid ip hostname clientDuid => [expiry, iaid, ip, hostname, clientDuid]

/-- The line, without its line feed. -/
def LeaseLine.text (line : LeaseLine) : List UInt8 :=
  [32].intercalate (line.fields.map (·.text.bytes))

/-- A file of such lines. -/
def leaseText (file : List LeaseLine) : List UInt8 := file.flatMap fun line => line.text ++ [10]

/-- The word that is taken for an address. -/
def LeaseLine.key : LeaseLine → LeaseField
  | .ipv4 _ mac _ _ _ => mac
  | .duid hex => hex
  | .ipv6 _ iaid _ _ _ => iaid

/-- The words behind it, when there are any. -/
def LeaseLine.rest : LeaseLine → Option (LeaseField × LeaseField)
  | .ipv4 _ _ ip hostname _ => some (ip, hostname)
  | .ipv6 _ _ ip hostname _ => some (ip, hostname)
  | .duid _ => none

/-! ## 3. What an import should do -/

/-- The string in an array, when it has a terminator. -/
def arrayText {n : Nat} (a : CArray n) : Option CStr :=
  if 0 ∈ a.bytes then some (.ofBytes a.bytes) else none

/-- The name of a client, empty when there is no client; `none` without a terminator. -/
def nodeName : Option LeaseNode → Option CStr
  | none => some .empty
  | some node => arrayText node.hostname

/-- The name of the client of an address. -/
def hostnameOf (nodes : List LeaseNode) (mac : CStr) : Option CStr :=
  nodeName (nodes.find? (isNode mac))

def AllTerminated (nodes : List LeaseNode) : Prop := ∀ node ∈ nodes, 0 ∈ node.hostname.bytes

/-- The file has an IPv4 lease of the address with this name. -/
def HasLease (file : List LeaseLine) (mac name : CStr) : Prop :=
  ∃ expiry leaseMac ip hostname clientId,
    LeaseLine.ipv4 expiry leaseMac ip hostname clientId ∈ file ∧
      caseEq leaseMac.text.bytes mac.bytes = true ∧ hostname.text = name

/-- Every hostname stays terminated, and is changed only to that of an IPv4 lease of the client. -/
structure NamesKept (file : List LeaseLine) (before after : List LeaseNode) : Prop where
  terminated : AllTerminated after
  changed : ∀ mac : CStr, mac.strlen < MAX_MAC_LEN → hostnameOf after mac = hostnameOf before mac ∨
    ∃ name, hostnameOf after mac = some name ∧ HasLease file mac name

/-- Line by line, the import stays inside its buffers and keeps the names. -/
def LinesKept (file : List LeaseLine) : LeaseState → List (List UInt8) → Prop
  | _, [] => True
  | st, line :: lines => ∃ st', importLine st line = .ok st' ∧ NamesKept file st.nodes st'.nodes ∧
      LinesKept file st' lines

/-- What the import of a file should do. -/
structure ImportOk (nodes : List LeaseNode) (file : List LeaseLine) : Prop where
  inside : IsOk (updateClientHostname nodes (leaseText file))
  kept : LinesKept file { nodes := nodes } (fgetsLines 256 (leaseText file))

/-! ## 4. The words of a line -/

theorem lineWords_blank {c : UInt8} (h : isspace c = true) (k : Nat) (text : List UInt8) :
    lineWords k (c :: text) = lineWords k text := by
  cases k with
  | zero => rfl
  | succ k => rw [lineWords, lineWords, CLib.scanWord_blank h]

theorem LeaseField.ofBytes_text (f : LeaseField) : CStr.ofBytes f.text.bytes = f.text :=
  CStr.ofBytes_bytes f.text

/-- The words of fields with blanks between them. -/
theorem lineWords_fields (k : Nat) : ∀ {fields : List LeaseField}, fields ≠ [] →
    (∀ f ∈ fields, f.text.bytes.length ≤ 256) →
    lineWords k ([32].intercalate (fields.map (·.text.bytes)) ++ [10]) =
      (fields.map (·.text)).take k
  | [], hne, _ => absurd rfl hne
  | [f], _, hlen => by
    cases k with
    | zero => rfl
    | succ k =>
      have hword := @scanWord_word 256 f.text.bytes [] 10 f.nonempty f.noSpace
        (hlen f List.mem_cons_self) (by decide)
      have hend : lineWords k [10] = [] := by cases k <;> rfl
      rw [List.map_singleton, List.intercalate_singleton, lineWords, hword]
      simp [hend]
  | f :: g :: fields, _, hlen => by
    cases k with
    | zero => rfl
    | succ k =>
      have hrest := lineWords_fields k (List.cons_ne_nil g fields)
        fun f hf => hlen f (List.mem_cons_of_mem _ hf)
      have hword := fun rest => @scanWord_word 256 f.text.bytes rest 32 f.nonempty f.noSpace
        (hlen f List.mem_cons_self) (by decide)
      rw [List.map_cons, List.map_cons, List.intercalate_cons_cons, List.append_assoc,
        List.append_assoc, List.singleton_append, lineWords, hword]
      dsimp only
      rw [lineWords_blank (by decide), ← List.map_cons (f := fun f : LeaseField => f.text.bytes),
        hrest, f.ofBytes_text]
      rfl

theorem length_le_of_mem_intercalate {d : UInt8} {w : List UInt8} : ∀ {l : List (List UInt8)}, w ∈ l →
    w.length ≤ ([d].intercalate l).length
  | [], h => absurd h List.not_mem_nil
  | [v], h => by
    rw [List.mem_singleton.mp h, List.intercalate_singleton]
  | v :: u :: l, h => by
    rw [List.intercalate_cons_cons, List.length_append, List.length_append]
    rcases List.mem_cons.mp h with rfl | h
    · omega
    · have := length_le_of_mem_intercalate (d := d) h
      omega

theorem LeaseLine.fields_ne_nil (line : LeaseLine) : line.fields ≠ [] := by
  cases line <;> exact List.cons_ne_nil _ _

theorem LeaseLine.length_field {line : LeaseLine} {f : LeaseField} (h : f ∈ line.fields) :
    f.text.bytes.length ≤ line.text.length :=
  length_le_of_mem_intercalate (List.mem_map_of_mem h)

theorem LeaseLine.lf_not_mem_text (line : LeaseLine) : 10 ∉ line.text := by
  intro h
  rcases mem_intercalate h with h | ⟨w, hw, h⟩
  · exact absurd h (by decide)
  · obtain ⟨f, -, rfl⟩ := List.mem_map.mp hw
    exact absurd (f.noSpace 10 h) (by decide)

/-- The words that a line brings: its key, and what stands behind it. -/
theorem LeaseLine.lineWords_text {line : LeaseLine} (hlen : line.text.length < 255) :
    ∃ first, lineWords 4 (line.text ++ [10]) = first :: line.key.text ::
      (match line.rest with
      | none => []
      | some (ip, hostname) => [ip.text, hostname.text]) := by
  have hwords := lineWords_fields 4 line.fields_ne_nil fun f hf =>
    (LeaseLine.length_field hf).trans (by omega)
  rw [← LeaseLine.text] at hwords
  rw [hwords]
  cases line <;> exact ⟨_, rfl⟩

/-- The lines of a file are read back. -/
theorem fgetsLines_leaseText : ∀ {file : List LeaseLine}, (∀ line ∈ file, line.text.length < 255) →
    fgetsLines 256 (leaseText file) = file.map fun line => line.text ++ [10]
  | [], _ => rfl
  | line :: file, h => by
    have hrest := fgetsLines_leaseText fun l hl => h l (List.mem_cons_of_mem _ hl)
    have hpiece := @fgetsFrom_piece 256 (leaseText file) line.text [] line.lf_not_mem_text (by
        have := h line List.mem_cons_self
        simp only [List.length_nil]
        omega)
    rw [leaseText, List.flatMap_cons, List.append_assoc, List.singleton_append, ← leaseText]
    exact hpiece.trans (by rw [hrest, List.nil_append, List.map_cons])

/-! ## 5. Nodes by their address -/

/-- The address of a node, and one that is looked for, as `strcasecmp` sees them. -/
def nodeKey (node : LeaseNode) : CStr := lowerCase node.mac

def macKey (mac : CStr) : CStr := lowerCase (normalizeMacLower mac)

theorem lowerCase_eq_iff {s t : CStr} : lowerCase s = lowerCase t ↔ caseEq s.bytes t.bytes = true := by
  rw [caseEq, decide_eq_true_iff]
  exact ⟨fun h => congrArg CStr.bytes h, fun h => CStr.ext h⟩

theorem isNode_eq (mac : CStr) : isNode mac = fun node => nodeKey node == macKey mac := by
  funext node
  rw [Bool.eq_iff_iff, beq_iff_eq, isNode]
  exact lowerCase_eq_iff.symm

theorem hostnameOf_eq (nodes : List LeaseNode) (mac : CStr) :
    hostnameOf nodes mac = nodeName (lookup nodeKey (macKey mac) nodes) := by
  rw [hostnameOf, isNode_eq, lookup]

/-- An address that fits is compared as a whole. -/
theorem macKey_of_fits {mac : CStr} (h : mac.strlen < MAX_MAC_LEN) : macKey mac = lowerCase mac := by
  have htake : (lowerCase mac).bytes.take (MAX_MAC_LEN - 1) = (lowerCase mac).bytes := by
    refine List.take_of_length_le ?_
    rw [lowerCase, List.length_map]
    exact Nat.le_pred_of_lt h
  refine CStr.ext ?_
  change ((lowerCase mac).bytes.take (MAX_MAC_LEN - 1)).map tolower = mac.bytes.map tolower
  rw [htake, lowerCase, List.map_map]
  exact List.map_congr_left fun c _ => tolower_tolower c

theorem nodeKey_normalize (mac : CStr) (node : LeaseNode) :
    nodeKey { node with mac := normalizeMacLower mac } = macKey mac := rfl

theorem nodeKey_setHostname (name : CStr) (node : LeaseNode) :
    nodeKey (setHostname name node) = nodeKey node := rfl

theorem nodeKey_newNode (st : LeaseState) : nodeKey (newNode st) = macKey st.macBuf.val := rfl

theorem arrayText_zeros : arrayText (CArray.zeros MAX_HOSTNAME_SIZE) = some .empty := by decide

/-- A name that fits is terminated and read back. -/
theorem arrayText_setHostname {name : CStr} (h : name.strlen < MAX_HOSTNAME_SIZE) (node : LeaseNode) :
    arrayText (setHostname name node).hostname = some name := by
  have hlen : name.bytes.length < MAX_HOSTNAME_SIZE := h
  obtain ⟨d, hd⟩ : ∃ d, MAX_HOSTNAME_SIZE - name.bytes.length = d + 1 :=
    ⟨MAX_HOSTNAME_SIZE - name.bytes.length - 1, by omega⟩
  have hbytes : (setHostname name node).hostname.bytes = name.bytes ++ 0 :: List.replicate d 0 := by
    change CArray.padded name.bytes MAX_HOSTNAME_SIZE = _
    rw [CArray.padded, List.take_of_length_le hlen.le, hd, List.replicate_succ]
  rw [arrayText, hbytes, if_pos (by simp), CStr.ofBytes_append_nul]

/-- A name that does not fit leaves no terminator. -/
theorem not_mem_setHostname {name : CStr} (h : MAX_HOSTNAME_SIZE ≤ name.strlen) (node : LeaseNode) :
    0 ∉ (setHostname name node).hostname.bytes := by
  have hlen : MAX_HOSTNAME_SIZE - name.bytes.length = 0 := Nat.sub_eq_zero_of_le h
  change 0 ∉ CArray.padded name.bytes MAX_HOSTNAME_SIZE
  rw [CArray.padded, hlen, List.replicate_zero, List.append_nil]
  exact fun hmem => name.noNul (List.mem_of_mem_take hmem)

/-- The node of the buffer is there; no name is changed by looking for it. -/
theorem leaseNode_spec {st : LeaseState} (hne : st.macBuf.val ≠ .empty) :
    ∃ nodes, leaseNode st = .ok nodes ∧ (lookup nodeKey (macKey st.macBuf.val) nodes).isSome ∧
      (∀ mac, hostnameOf nodes mac = hostnameOf st.nodes mac) ∧
      (AllTerminated st.nodes → AllTerminated nodes) := by
  unfold leaseNode
  dsimp only
  rw [if_neg hne, isNode_eq]
  split
  · rename_i hany
    refine ⟨_, rfl, ?_, ?_, ?_⟩
    · rw [lookup_updateFirst (macKey st.macBuf.val) fun b _ => nodeKey_normalize st.macBuf.val b,
          if_pos rfl,
        Option.isSome_map, lookup, List.find?_isSome]
      simpa using hany
    · intro mac
      rw [hostnameOf_eq, hostnameOf_eq,
        lookup_updateFirst (macKey mac) fun b _ => nodeKey_normalize st.macBuf.val b]
      split
      · rename_i heq
        rw [heq]
        cases lookup nodeKey (macKey st.macBuf.val) st.nodes <;> rfl
      · rfl
    · intro hterm node hnode
      rcases of_mem_updateFirst hnode with hold | ⟨old, hold, -, rfl⟩
      · exact hterm node hold
      · exact hterm old hold
  · rename_i hnone
    have hnone : lookup nodeKey (macKey st.macBuf.val) st.nodes = none := by
      rw [lookup, List.find?_eq_none]
      simpa using hnone
    refine ⟨_, rfl, ?_, ?_, ?_⟩
    · rw [lookup_cons, if_pos (nodeKey_newNode st)]
      rfl
    · intro mac
      rw [hostnameOf_eq, hostnameOf_eq, lookup_cons, nodeKey_newNode]
      split
      · rename_i heq
        rw [← heq, hnone]
        exact arrayText_zeros
      · rfl
    · intro hterm node hnode
      rcases List.mem_cons.mp hnode with rfl | hold
      · exact (by decide : (0 : UInt8) ∈ (CArray.zeros MAX_HOSTNAME_SIZE).bytes)
      · exact hterm node hold

/-- A name is given to the node of an address, and to no other. -/
theorem hostnameOf_setHostname {nodes : List LeaseNode} {mac : CStr} (name m : CStr)
    (hsome : (lookup nodeKey (macKey mac) nodes).isSome) :
    hostnameOf (updateFirst (isNode mac) (setHostname name) nodes) m =
      if macKey m = macKey mac then arrayText (setHostname name
        ((lookup nodeKey (macKey mac) nodes).get hsome)).hostname
      else hostnameOf nodes m := by
  rw [isNode_eq, hostnameOf_eq, hostnameOf_eq, 
    lookup_updateFirst (macKey m) fun b hb => (nodeKey_setHostname name b).trans hb]
  split
  · obtain ⟨node, hnode⟩ := Option.isSome_iff_exists.mp hsome
    simp only [hnode, Option.map_some, Option.get_some]
    rfl
  · rfl

/-! ## 6. One line -/

/-- What is in `hostname_buf` after a line, when `old` was before. -/
def LeaseLine.name (line : LeaseLine) (old : CStr) : CStr :=
  match line.rest with
  | none => old
  | some (_, hostname) => hostname.text

/-- The fields of a line fit their buffers. -/
structure LeaseLine.Fits (line : LeaseLine) : Prop where
  key : line.key.text.strlen < 32
  ip : ∀ ip hostname, line.rest = some (ip, hostname) → ip.text.strlen < 32
  hostname : ∀ ip hostname, line.rest = some (ip, hostname) → hostname.text.strlen < 128

/-- A line is too short to be read, or it fits, and the name that it gives to a client fits too, and
is the one that the client has or that of an IPv4 lease of the client. -/
def LineOk (file : List LeaseLine) (st : LeaseState) (line : LeaseLine) : Prop :=
  line.text.length < 16 ∨
    line.Fits ∧ (takesName (line.name st.hostnameBuf.val) = true →
      (line.name st.hostnameBuf.val).strlen < MAX_HOSTNAME_SIZE ∧
        (hostnameOf st.nodes line.key.text = some (line.name st.hostnameBuf.val) ∨
          HasLease file line.key.text (line.name st.hostnameBuf.val)))

/-- The buffers after a line that fits. -/
theorem scanLease_of_fits {line : LeaseLine} (hlen : line.text.length < 255) (h : line.Fits)
    (st : LeaseState) : ∃ st', scanLease st (line.text ++ [10]) = .ok st' ∧
      st'.macBuf.val = line.key.text ∧ st'.hostnameBuf.val = line.name st.hostnameBuf.val ∧
      st'.nodes = st.nodes := by
  obtain ⟨first, hwords⟩ := LeaseLine.lineWords_text hlen
  have hkey : storeWord 32 .macBuf line.key.text = .ok ⟨_, h.key⟩ := dif_pos h.key
  rw [scanLease, hwords, LeaseLine.name]
  match hrest : line.rest with
  | none => exact ⟨{ st with macBuf := ⟨_, h.key⟩ }, by simp only [hkey]; rfl, rfl, rfl, rfl⟩
  | some (ip, hostname) =>
    have hip : storeWord 32 .ipBuf ip.text = .ok ⟨_, h.ip ip hostname hrest⟩ := dif_pos _
    have hhost : storeWord 128 .hostnameBuf hostname.text = .ok ⟨_, h.hostname ip hostname hrest⟩ :=
      dif_pos _
    exact ⟨{ st with
      macBuf := ⟨_, h.key⟩, ipBuf := ⟨_, h.ip ip hostname hrest⟩
      hostnameBuf := ⟨_, h.hostname ip hostname hrest⟩ }, by simp only [hkey, hip, hhost]; rfl,
      rfl, rfl, rfl⟩

/-- A line that is read without an overrun fits. -/
theorem fits_of_scanLease {line : LeaseLine} (hlen : line.text.length < 255) {st st' : LeaseState}
    (h : scanLease st (line.text ++ [10]) = .ok st') : line.Fits := by
  have hfits : ∀ {n : Nat} {e : LeaseOverrun} {word : CStr} {b : TextBuf n},
      storeWord n e word = .ok b → word.strlen < n := by
    intro n e word b hstore
    rw [storeWord] at hstore
    split at hstore
    · assumption
    · cases hstore
  obtain ⟨first, hwords⟩ := LeaseLine.lineWords_text hlen
  rw [scanLease, hwords] at h
  match hrest : line.rest with
  | none =>
    simp only [hrest] at h
    obtain ⟨mac, hmac, -⟩ := bind_eq_ok.mp h
    exact ⟨hfits hmac, fun i n heq => absurd (hrest.symm.trans heq) (Option.some_ne_none _).symm,
      fun i n heq => absurd (hrest.symm.trans heq) (Option.some_ne_none _).symm⟩
  | some (ip, hostname) =>
    simp only [hrest] at h
    obtain ⟨mac, hmac, h⟩ := bind_eq_ok.mp h
    obtain ⟨ipBuf, hip, h⟩ := bind_eq_ok.mp h
    obtain ⟨hostnameBuf, hhost, -⟩ := bind_eq_ok.mp h
    refine ⟨hfits hmac, fun i n heq => ?_, fun i n heq => ?_⟩
    · obtain ⟨rfl, rfl⟩ := Prod.mk.inj (Option.some.inj (hrest.symm.trans heq))
      exact hfits hip
    · obtain ⟨rfl, rfl⟩ := Prod.mk.inj (Option.some.inj (hrest.symm.trans heq))
      exact hfits hhost

/-- The state after a line that fits. -/
theorem importLine_of_fits {line : LeaseLine} (hlen : line.text.length < 255)
    (hread : 16 ≤ line.text.length) (h : line.Fits) (st : LeaseState) :
    ∃ nodes st', importLine st (line.text ++ [10]) = .ok st' ∧
      st'.hostnameBuf.val = line.name st.hostnameBuf.val ∧
      (lookup nodeKey (macKey line.key.text) nodes).isSome ∧
      (∀ mac, hostnameOf nodes mac = hostnameOf st.nodes mac) ∧
      (AllTerminated st.nodes → AllTerminated nodes) ∧
      st'.nodes = if takesName (line.name st.hostnameBuf.val) then
        updateFirst (isNode line.key.text) (setHostname (line.name st.hostnameBuf.val)) nodes
      else nodes := by
  obtain ⟨st1, hscan, hmac, hname, hnodes⟩ := scanLease_of_fits hlen h st
  have hne : st1.macBuf.val ≠ .empty := by
    rw [hmac]
    exact fun heq => line.key.nonempty (congrArg CStr.bytes heq)
  obtain ⟨nodes, hnode, hsome, hsame, hterm⟩ := leaseNode_spec hne
  have hlen17 : ¬(line.text ++ [10]).length ≤ 16 := by
    rw [List.length_append, List.length_singleton]
    omega
  rw [hmac] at hsome
  rw [hnodes] at hsame hterm
  let named := if takesName st1.hostnameBuf.val then
    updateFirst (isNode st1.macBuf.val) (setHostname st1.hostnameBuf.val) nodes else nodes
  refine ⟨nodes, { st1 with nodes := named }, ?_, hname, hsome, hsame, hterm,
    by rw [← hname, ← hmac]⟩
  rw [importLine, if_neg hlen17, hscan]
  change (leaseNode st1 >>= _) = _
  rw [hnode]
  change (if takesName st1.hostnameBuf.val = true then _ else _) = _
  simp only [named]
  split <;> rfl

/-- **One line**: it stays inside and keeps the names exactly when its fields meet `LineOk`. -/
theorem importLine_ok_iff {file : List LeaseLine} {line : LeaseLine}
    (hlen : line.text.length < 255) {st : LeaseState} (hterm : AllTerminated st.nodes) :
    LineOk file st line ↔ ∃ st', importLine st (line.text ++ [10]) = .ok st' ∧
      NamesKept file st.nodes st'.nodes := by
  have happend : (line.text ++ [10]).length = line.text.length + 1 := List.length_append
  by_cases hread : line.text.length < 16
  · refine ⟨fun _ => ⟨st, ?_, hterm, fun _ _ => .inl rfl⟩, fun _ => .inl hread⟩
    rw [importLine, if_pos (by omega)]
  · constructor
    · intro h
      obtain ⟨hfits, hname⟩ := h.resolve_left hread
      obtain ⟨nodes, st', himport, -, hsome, hsame, hkeep, hnodes⟩ :=
        importLine_of_fits hlen (by omega) hfits st
      refine ⟨st', himport, ?_⟩
      rw [hnodes]
      split
      · rename_i htakes
        obtain ⟨hfit, hgiven⟩ := hname htakes
        refine ⟨fun node hnode => ?_, fun mac hmac => ?_⟩
        · rcases of_mem_updateFirst hnode with hold | ⟨old, -, -, rfl⟩
          · exact hkeep hterm node hold
          · by_contra hmem
            have htext := arrayText_setHostname hfit old
            rw [arrayText, if_neg hmem] at htext
            cases htext
        · rw [hostnameOf_setHostname _ mac hsome, arrayText_setHostname hfit]
          split
          · rename_i heq
            rw [macKey_of_fits hmac, macKey_of_fits hfits.key] at heq
            have hof : hostnameOf st.nodes mac = hostnameOf st.nodes line.key.text := by
              rw [hostnameOf_eq, hostnameOf_eq, macKey_of_fits hmac, macKey_of_fits hfits.key, heq]
            rcases hgiven with hhas | ⟨expiry, leaseMac, ip, hostname, clientId, hmem, hcase, hhost⟩
            · exact .inl (by rw [hof, hhas])
            · refine .inr ⟨_, rfl, expiry, leaseMac, ip, hostname, clientId, hmem, ?_, hhost⟩
              rw [← lowerCase_eq_iff] at hcase ⊢
              exact hcase.trans heq.symm
          · exact .inl (hsame mac)
      · exact ⟨hkeep hterm, fun mac _ => .inl (hsame mac)⟩
    · rintro ⟨st', himport, hkept⟩
      have hfits : line.Fits := by
        rw [importLine, if_neg (by omega)] at himport
        obtain ⟨st1, hscan, -⟩ := bind_eq_ok.mp himport
        exact fits_of_scanLease hlen hscan
      obtain ⟨nodes, st1, himport1, -, hsome, hsame, hkeep, hnodes⟩ :=
        importLine_of_fits hlen (by omega) hfits st
      obtain rfl : st1 = st' := Except.ok.inj (himport1.symm.trans himport)
      refine .inr ⟨hfits, fun htakes => ?_⟩
      rw [if_pos htakes] at hnodes
      rw [hnodes] at hkept
      obtain ⟨node, hnode⟩ := Option.isSome_iff_exists.mp hsome
      have hfit : (line.name st.hostnameBuf.val).strlen < MAX_HOSTNAME_SIZE := by
        by_contra hlong
        have hfound : lookup nodeKey (macKey line.key.text)
            (updateFirst (isNode line.key.text) (setHostname (line.name st.hostnameBuf.val)) nodes) =
            some (setHostname (line.name st.hostnameBuf.val) node) := by
          rw [isNode_eq, lookup_updateFirst _ fun b hb => (nodeKey_setHostname _ b).trans hb,
            if_pos rfl, hnode]
          rfl
        exact not_mem_setHostname (Nat.le_of_not_lt hlong) node
          (hkept.terminated _ (mem_of_lookup hfound))
      refine ⟨hfit, ?_⟩
      have hchanged := hkept.changed line.key.text hfits.key
      rw [hostnameOf_setHostname _ _ hsome, if_pos rfl, arrayText_setHostname hfit] at hchanged
      rcases hchanged with hsame | ⟨name, hname, hlease⟩
      · exact .inl hsame.symm
      · obtain rfl := Option.some.inj hname
        exact .inr hlease

/-! ## 7. Files -/

/-- Every line meets `LineOk` in the state in which it is read. -/
def LinesOk (file : List LeaseLine) : LeaseState → List LeaseLine → Prop
  | _, [] => True
  | st, line :: lines => LineOk file st line ∧
      ∀ st', importLine st (line.text ++ [10]) = .ok st' → LinesOk file st' lines

theorem linesKept_iff {file : List LeaseLine} {lines : List LeaseLine}
    (hlen : ∀ line ∈ lines, line.text.length < 255) {st : LeaseState}
    (hterm : AllTerminated st.nodes) :
    LinesKept file st (lines.map fun line => line.text ++ [10]) ↔ LinesOk file st lines := by
  induction lines generalizing st with
  | nil => exact Iff.rfl
  | cons line lines ih =>
    have ih := @ih fun l hl => hlen l (List.mem_cons_of_mem _ hl)
    rw [List.map_cons, LinesKept, LinesOk, importLine_ok_iff (hlen line List.mem_cons_self) hterm]
    constructor
    · rintro ⟨st', himport, hkept, hrest⟩
      refine ⟨⟨st', himport, hkept⟩, fun st1 h1 => ?_⟩
      obtain rfl := Except.ok.inj (himport.symm.trans h1)
      exact (ih hkept.terminated).mp hrest
    · rintro ⟨⟨st', himport, hkept⟩, hrest⟩
      exact ⟨st', himport, hkept, (ih hkept.terminated).mpr (hrest st' himport)⟩

/-- Lines that are kept are read to the end. -/
theorem LinesKept.isOk {file : List LeaseLine} {st : LeaseState} {lines : List (List UInt8)}
    (h : LinesKept file st lines) : IsOk (lines.foldlM importLine st) := by
  induction lines generalizing st with
  | nil => exact isOk_ok st
  | cons line lines ih =>
    obtain ⟨st', himport, -, hrest⟩ := h
    obtain ⟨last, hlast⟩ := ih hrest
    refine ⟨last, ?_⟩
    rw [List.foldlM_cons, himport]
    exact hlast

/-- **The import of a lease file** stays inside its buffers and gives clients only the names of their
IPv4 leases if and only if each line meets `LineOk`. -/
theorem lease_import_iff {nodes : List LeaseNode} (hterm : AllTerminated nodes)
    {file : List LeaseLine} (hlen : ∀ line ∈ file, line.text.length < 255) :
    ImportOk nodes file ↔ LinesOk file { nodes := nodes } file := by
  rw [← linesKept_iff hlen hterm, ← fgetsLines_leaseText hlen]
  refine ⟨fun h => h.kept, fun h => ⟨?_, h⟩⟩
  obtain ⟨st, hst⟩ := h.isOk
  refine ⟨st.nodes, ?_⟩
  rw [updateClientHostname, hst]
  rfl

/-- Leases that fit, with names that are those of their clients, are taken in every state. -/
theorem linesOk_of_leases {file lines : List LeaseLine}
    (h : ∀ line ∈ lines, line.Fits ∧ ∀ old, takesName (line.name old) = true →
      (line.name old).strlen < MAX_HOSTNAME_SIZE ∧ HasLease file line.key.text (line.name old))
    (st : LeaseState) : LinesOk file st lines := by
  induction lines generalizing st with
  | nil => trivial
  | cons line lines ih =>
    obtain ⟨hfits, hname⟩ := h line List.mem_cons_self
    refine ⟨.inr ⟨hfits, fun htakes => ?_⟩, fun st' _ => ih (fun l hl => h l (List.mem_cons_of_mem _ hl)) st'⟩
    obtain ⟨hlen, hlease⟩ := hname _ htakes
    exact ⟨hlen, .inr hlease⟩

def laptopLease : LeaseLine :=
  .ipv4 (leaseField "1735689600" (by decide)) (leaseField "02:00:00:00:00:a7" (by decide))
    (leaseField "192.168.1.7" (by decide)) (leaseField "laptop" (by decide))
    (leaseField "*" (by decide))

/-- A lease without a host name. -/
def phoneLease : LeaseLine :=
  .ipv4 (leaseField "1735693200" (by decide)) (leaseField "02:00:00:00:00:b8" (by decide))
    (leaseField "192.168.1.8" (by decide)) (leaseField "*" (by decide))
    (leaseField "01:02:00:00:00:00:b8" (by decide))

def laptopLease6 : LeaseLine :=
  .ipv6 (leaseField "1735696800" (by decide)) (leaseField "33554599" (by decide))
    (leaseField "fd00::a7" (by decide)) (leaseField "*" (by decide))
    (leaseField "00:01:00:01" (by decide))

/-- The client of the first lease is known, under another name. -/
def knownLaptop : LeaseNode where
  mac := .lit "02:00:00:00:00:a7"
  ip := ⟨.lit "192.168.1.20", by decide⟩
  hostname := ⟨CArray.padded (ascii "guest") MAX_HOSTNAME_SIZE, CArray.padded_length _ _⟩

theorem lease_import_of_three : ImportOk [knownLaptop] [laptopLease, phoneLease, laptopLease6] := by
  have hterm : AllTerminated [knownLaptop] := by
    intro node hnode
    rw [List.mem_singleton.mp hnode]
    decide
  have hlen : ∀ line ∈ [laptopLease, phoneLease, laptopLease6], line.text.length < 255 := by decide +kernel
  refine (lease_import_iff hterm hlen).mpr (linesOk_of_leases ?_ _)
  have hfits : ∀ line ∈ [laptopLease, phoneLease, laptopLease6], line.Fits := by
    intro line hline
    simp only [List.mem_cons, List.not_mem_nil, or_false] at hline
    rcases hline with rfl | rfl | rfl <;>
    · refine ⟨by decide, ?_, ?_⟩ <;>
      · rintro ip hostname ⟨⟩
        decide
  intro line hline
  refine ⟨hfits line hline, fun old htakes => ?_⟩
  simp only [List.mem_cons, List.not_mem_nil, or_false] at hline
  rcases hline with rfl | rfl | rfl
  · have hlaptop : (CStr.lit "laptop").strlen < MAX_HOSTNAME_SIZE := by decide
    exact ⟨hlaptop, _, _, _, _, _, List.mem_cons_self, by decide, rfl⟩
  · cases htakes
  · cases htakes

/-- A `duid` line of the usual form is longer than `mac_buf`. -/
theorem duid_overruns_mac :
    ¬ImportOk []
      [.duid (leaseField "00:01:00:01:2a:bb:cc:dd:02:00:00:00:00:a7" (by decide))] := by
  rintro ⟨⟨nodes, hinside⟩, -⟩
  have herror : overrunOf (updateClientHostname [] (leaseText
      [.duid (leaseField "00:01:00:01:2a:bb:cc:dd:02:00:00:00:00:a7" (by decide))])) =
      some .macBuf := by decide +kernel
  rw [hinside] at herror
  cases herror

end Oaf
