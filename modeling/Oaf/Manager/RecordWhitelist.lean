/-
# The record whitelist, from the page to the kernel's clients

`fwx_record.c` keeps the clients whose visits are not recorded as a list of texts in `fwx_record`; the rule manager
writes it to `/proc/sys/fwx/record_whitelist`, and the kernel marks its clients with it.

On the way an address is a text that a page sends, an item of the list, a word of a buffer of 4096 bytes, a piece of a
line of at most 1023 bytes, and six bytes.

* `valid_iff`: the texts that the pages' check accepts are those of the addresses.
* `macsOf_content`: what the kernel reads of the line: the first `MAX_RECORD_MACS` addresses.
* `record_whitelist_kept`: **in every run** of calls, turns of the rule manager and packets the list is what was asked
  for, and the clients that the kernel marks are those of the first addresses of it.

The calls do not ask how many addresses there are: with 228 of them the list no longer fits the buffer, which is
`sprintf`ed into.  The section `whitelist` is always there, since the init script makes it.
-/
import Oaf.Client.Visiting
import Oaf.Hook.Clients
import Oaf.Manager.Blacklist

namespace Oaf

open CLib Runs Chains

/-! ## 1. The calls -/

/-- The white space of `normalize_mac`. -/
def isRecordBlank (c : UInt8) : Bool := c == 32 || c == 9 || c == 13 || c == 10

/-- `normalize_mac` into `norm_mac`, which is zero before; `null` has no text. -/
def normalizeMac (src : Option (List UInt8)) : List UInt8 :=
  match src with
  | none => []
  | some src => (((src.dropWhile isRecordBlank).rdropWhile isRecordBlank).take 31).map toupper

/-- `is_valid_mac`. -/
def isValidMac (mac : List UInt8) : Bool :=
  mac.length = 17 && mac.zipIdx.all fun p => if p.2 % 3 = 2 then p.1 == 58 else isxdigit p.1

/-- `mac_exists_in_array`. -/
def macExistsInArray (array : List (List UInt8)) (mac : List UInt8) : Bool := array.any (caseEq · mac)

/-- A text of a list, if it is an address that is not there yet. -/
def newRecordMac (array : List (List UInt8)) (text : Option (List UInt8)) : List (List UInt8) :=
  let normMac := normalizeMac text
  if isValidMac normMac && !macExistsInArray array normMac then [normMac] else []

/-- `load_record_whitelist_from_uci`. -/
def loadRecordWhitelistFromUci (whitelist : Option UciValue) : Except LanFault (List (List UInt8)) := do
  let whitelistBuf ← uciGetListValue .listBuf 4096 whitelist
  return (words 32 (whitelistBuf.getD [])).foldl (fun array token => array ++ newRecordMac array (some token)) []

/-- libuci, with `uci_del_list`: an item of a list goes. -/
structure LibuciLists extends Libuci where
  del : Option UciValue → List UInt8 → Option UciValue

/-- The texts of `mac_list` and `mac` in the requests; `none` if there is no such key. -/
inductive RecordCall where
  | get
  | set (macList : Option (List (Option (List UInt8))))
  | add (macList : Option (List (Option (List UInt8))))
  | del (mac : Option (Option (List UInt8)))

/-- What a call leaves: the option `whitelist`, and whether it wrote `RECORD_WHITELIST_STATE_FILE`. -/
structure RecordAnswer where
  whitelist : Option UciValue
  told : Bool := false

/-- The loop of `fwx_api_set_record_whitelist` and of `fwx_api_add_record_whitelist`: the option, the array and
whether something was added. -/
def addRecordMacs (uci : LibuciLists) :
    List (Option (List UInt8)) → Option UciValue → List (List UInt8) → Bool → Option UciValue × Bool
  | [], whitelist, _, added => (whitelist, added)
  | text :: rest, whitelist, array, added =>
    match newRecordMac array text with
    | [] => addRecordMacs uci rest whitelist array added
    | macs => addRecordMacs uci rest (macs.foldl uci.add whitelist) (array ++ macs) true

/-- `fwx_api_get_record_whitelist`, `fwx_api_set_record_whitelist`, `fwx_api_add_record_whitelist` and
`fwx_api_del_record_whitelist`. -/
def RecordCall.run (uci : LibuciLists) (whitelist : Option UciValue) : RecordCall → Except LanFault RecordAnswer
  | .get => do
    let _ ← loadRecordWhitelistFromUci whitelist
    return ⟨whitelist, false⟩
  | .set none | .add none | .del none => .ok ⟨whitelist, false⟩
  | .set (some macList) => .ok ⟨(addRecordMacs uci macList none [] false).1, true⟩
  | .add (some macList) => do
    let array ← loadRecordWhitelistFromUci whitelist
    let (whitelist, added) := addRecordMacs uci macList whitelist array false
    return ⟨whitelist, added⟩
  | .del (some mac) => do
    let normMac := normalizeMac mac
    if isValidMac normMac then
      let array ← loadRecordWhitelistFromUci whitelist
      if macExistsInArray array normMac then return ⟨uci.del whitelist normMac, true⟩
      else return ⟨whitelist, false⟩
    else return ⟨whitelist, false⟩

/-! ## 2. The rule manager and the kernel -/

/-- `append_section_macs`: the texts of an option, those that are not there yet. -/
def appendSectionMacs (macs : List (List UInt8)) (whitelist : Option UciValue) : List (List UInt8) :=
  let texts := match whitelist with
    | some (.list items) => items
    | some (.string text) => [text]
    | none => []
  texts.foldl (fun macs mac => if mac = [] ∨ macs.contains mac then macs else macs ++ [mac]) macs

/-- `load_record_whitelist` of the rule manager; the sections `record` of older versions count only if there is
nothing in the others. -/
def loadRecordWhitelist (whitelists records : List (Option UciValue)) : List (List UInt8) :=
  let macs := whitelists.foldl appendSectionMacs []
  if macs = [] then records.foldl appendSectionMacs [] else macs

/-- What `apply_record_whitelist` writes. -/
def recordContent (macs : List (List UInt8)) : List UInt8 :=
  if macs = [] then [10] else [44].intercalate macs

/-- `proc_dostring` into a buffer of `maxlen` bytes: up to the end of the line. -/
def procDostring (maxlen : Nat) (buffer : List UInt8) : List UInt8 :=
  (buffer.takeWhile fun c => c ≠ 0 ∧ c ≠ 10).take (maxlen - 1)

/-- A piece in the loop of `fwx_set_record_whitelist`. -/
def setRecordMac (s : MacConfig × Kmem) (token : List UInt8) : MacConfig × Kmem :=
  let token := (token.dropWhile Kernel.isspace).rdropWhile Kernel.isspace
  if token = [] then s
  else
    match macStrToBin (some (.ofBytes token)) with
    | none => s
    | some macBin => if fwxFindMacNode s.1 macBin then s else addMacNode s.2 s.1 macBin

/-- The list that `fwx_set_record_whitelist` makes; `strsep` also gives the pieces that are empty. -/
def fwxSetRecordWhitelist (kmem : Kmem) (macListStr : List UInt8) : MacConfig :=
  ((macListStr.splitOn 44).foldl setRecordMac (fwxMacConfigInit, kmem)).1

/-! ## 3. What they are for -/

/-- The address that a text names. -/
def namedRecordMac (text : Option (List UInt8)) : Option Mac :=
  if isValidMac (normalizeMac text) then macStrToBin (some (.ofBytes (normalizeMac text))) else none

/-- Addresses that are asked for: each stands where it was asked for first. -/
def askFor (asked macs : List Mac) : List Mac :=
  macs.foldl (fun asked mac => if mac ∈ asked then asked else asked ++ [mac]) asked

/-- **What a call asks for.** -/
def RecordCall.onAsked (asked : List Mac) : RecordCall → List Mac
  | .set (some macList) => askFor [] (macList.filterMap namedRecordMac)
  | .add (some macList) => askFor asked (macList.filterMap namedRecordMac)
  | .del (some mac) => (namedRecordMac mac).elim asked asked.erase
  | _ => asked

/-- How many addresses fit a line of 1023 bytes. -/
def MAX_RECORD_MACS : Nat := 56

/-- The option `whitelist`, the file `RECORD_WHITELIST_STATE_FILE`, the clients of the kernel, the addresses that were
asked for, and those that were when the rule manager wrote them last. -/
structure RecordState (w : Nat) where
  whitelist : Option UciValue
  told : Bool
  clients : ClientState w
  asked : List Mac
  written : List Mac

inductive RecordEvent where
  | call (c : RecordCall)
  /-- The rule manager looks at `RECORD_WHITELIST_STATE_FILE`. -/
  | turn (kmem : Kmem)
  | kernel (e : ClientEvent)

variable {w : Nat}

/-- A turn of the rule manager. -/
def RecordState.turn (gateway : Bool) (hz : Nat) (s : RecordState w) (kmem : Kmem) : RecordState w :=
  if s.told then
    let line := procDostring 1024 (recordContent (loadRecordWhitelist [s.whitelist] []))
    { s with
      told := false
      clients := s.clients.after gateway hz (.whitelist (fwxSetRecordWhitelist kmem line))
      written := s.asked }
  else s

/-- A step: a call that does not leave a buffer, a turn, or something that the kernel sees. -/
def recordStep (gateway : Bool) (hz : Nat) (uci : LibuciLists) (s : RecordState w) (e : RecordEvent)
    (t : RecordState w) : Prop :=
  match e with
  | .call c => ∃ answer, c.run uci s.whitelist = .ok answer ∧ t =
      { s with
        whitelist := answer.whitelist
        told := s.told || answer.told
        asked := c.onAsked s.asked }
  | .turn kmem => t = s.turn gateway hz kmem
  | .kernel e => t = { s with clients := s.clients.after gateway hz e }

/-- **The condition on a step**: no more addresses than the buffer takes, and memory for the nodes of the list; only
the rule manager writes it. -/
def RecordEvent.Ok (s : RecordState w) : RecordEvent → Prop
  | .call c => (c.onAsked s.asked).length ≤ 227
  | .turn kmem => kmem.AllOk
  | .kernel e => ∀ config, e ≠ .whitelist config

/-- `uci_del_list` takes an item out of its list; a list without items may be gone. -/
structure LibuciLists.Keeps (uci : LibuciLists) : Prop extends uci.toLibuci.KeepsTexts where
  del : ∀ items text, uci.del (some (.list items)) text = some (.list (items.filter (· ≠ text))) ∨
    items.filter (· ≠ text) = [] ∧ uci.del (some (.list items)) text = none

/-! ## 4. Texts of addresses -/

/-- An address as the list has it. -/
def upperMac (mac : Mac) : List UInt8 := (macText mac).map toupper

theorem upperMac_length (mac : Mac) : (upperMac mac).length = 17 := by rw [upperMac, List.length_map, macText_length]

theorem mem_upperMac {mac : Mac} {c : UInt8} (h : c ∈ upperMac mac) :
    (c = 58 ∨ isxdigit c = true) ∧ ¬ (97 ≤ c ∧ c ≤ 122) := by
  obtain ⟨b, hb, rfl⟩ := List.mem_map.mp h
  have hdigit : ∀ c : UInt8, isxdigit c = true → isxdigit (toupper c) = true :=
    forall_byte (p := fun c => isxdigit c = true → isxdigit (toupper c) = true) (by decide +kernel)
  refine ⟨?_, toupper_upper b⟩
  rcases mem_macText hb with rfl | ⟨hx, -⟩
  · exact .inl rfl
  · exact .inr (hdigit b hx)

/-- The bytes of an address are none that cut a text. -/
theorem upperMac_plain {mac : Mac} {c : UInt8} (h : c ∈ upperMac mac) :
    48 ≤ c ∧ c ≤ 70 := by
  obtain ⟨hc, hupper⟩ := mem_upperMac h
  have hall : ∀ c : UInt8, (c = 58 ∨ isxdigit c = true) ∧ ¬ (97 ≤ c ∧ c ≤ 122) → 48 ≤ c ∧ c ≤ 70 :=
    forall_byte (p := fun c => (c = 58 ∨ isxdigit c = true) ∧ ¬ (97 ≤ c ∧ c ≤ 122) → 48 ≤ c ∧ c ≤ 70)
      (by decide +kernel)
  exact hall c ⟨hc, hupper⟩

theorem not_mem_upperMac {mac : Mac} {c : UInt8} (h : ¬ (48 ≤ c ∧ c ≤ 70)) : c ∉ upperMac mac :=
  fun hmem => h (upperMac_plain hmem)

theorem upperMac_ne_nil (mac : Mac) : upperMac mac ≠ [] := fun h => by
  have := upperMac_length mac
  rw [h] at this
  cases this

theorem ofBytes_upperMac (mac : Mac) : (CStr.ofBytes (upperMac mac)).bytes = upperMac mac :=
  CStr.ofBytes_of_noNul (not_mem_upperMac (by decide))

theorem caseEq_upperMac {mac mac' : Mac} : caseEq (upperMac mac) (upperMac mac') = true ↔ mac = mac' := by
  have hlower : ∀ m : Mac, (upperMac m).map tolower = macText m := fun m => by
    rw [upperMac, List.map_map]
    refine (List.map_congr_left fun c _ => tolower_toupper c).trans (map_tolower_macText m)
  rw [caseEq_iff, hlower, hlower]
  exact ⟨macText_inj, congrArg macText⟩

theorem upperMac_inj : Function.Injective upperMac := fun mac mac' h =>
  caseEq_upperMac.mp (by rw [h, caseEq_iff])

theorem scanHexByte_printHex2 (v : UInt8) (rest : List UInt8) : scanHexByte (printHex2 v ++ rest) = some v := by
  have hv := v.toNat_lt
  have hpair : scanHexByte (printHex2 v) = some v :=
    forall_byte (p := fun v => scanHexByte (printHex2 v) = some v) (by decide +kernel) v
  have hspace : Kernel.isspace (digitByte (v.toNat / 16)) = false := by
    have hall : ∀ d < 16, Kernel.isspace (digitByte d) = false := by decide
    exact hall _ (by omega)
  rw [← hpair, scanHexByte, scanHexByte, printHex2, List.cons_append, List.dropWhile_cons_of_neg (by simp [hspace]),
    List.dropWhile_cons_of_neg (by simp [hspace])]
  rfl

/-- A pair of digits, and what comes behind the colon. -/
theorem macBytes_printHex2 (n : Nat) (v : UInt8) (rest : List UInt8) :
    macBytes (n + 1) (printHex2 v ++ 58 :: rest) = (macBytes n rest).map (v :: ·) := by
  have hdrop : ((printHex2 v ++ 58 :: rest).dropWhile (· != 58)) = 58 :: rest := by
    have hne : ∀ c ∈ printHex2 v, (c != 58) = true := by
      intro c hc
      rw [bne_iff_ne]
      rintro rfl
      exact absurd (mem_printHex2 hc).1 (by decide)
    rw [List.dropWhile_append_of_pos hne]
    rfl
  have hbytes : macBytes (n + 1) (printHex2 v ++ 58 :: rest) = (do
      let byte ← scanHexByte (printHex2 v ++ 58 :: rest)
      return byte :: (← macBytes n ((printHex2 v ++ 58 :: rest).dropWhile (· != 58)).tail)) := rfl
  rw [hbytes, scanHexByte_printHex2, hdrop, Option.bind_eq_bind, Option.bind_some, List.tail_cons]
  cases macBytes n rest <;> rfl

theorem macBytes_last (v : UInt8) : macBytes 1 (printHex2 v) = some [v] :=
  forall_byte (p := fun v => macBytes 1 (printHex2 v) = some [v]) (by decide +kernel) v

theorem macText_eq (a b c d e f : UInt8) : macText #v[a, b, c, d, e, f] =
    printHex2 a ++ 58 :: (printHex2 b ++ 58 :: (printHex2 c ++ 58 :: (printHex2 d ++ 58 ::
      (printHex2 e ++ 58 :: printHex2 f)))) := rfl

theorem exists_mac : ∀ mac : Mac, ∃ a b c d e f, mac = #v[a, b, c, d, e, f]
  | ⟨⟨[a, b, c, d, e, f]⟩, _⟩ => ⟨a, b, c, d, e, f, rfl⟩

/-- The kernel reads an address as the one that it is the text of. -/
theorem macStrToBin_upperMac (mac : Mac) : macStrToBin (some (.ofBytes (upperMac mac))) = some mac := by
  obtain ⟨a, b, c, d, e, f, rfl⟩ := exists_mac mac
  have hbytes : macBytes 6 (upperMac #v[a, b, c, d, e, f]) = some [a, b, c, d, e, f] := by
    refine (macBytes_luaUpper 6 (macText #v[a, b, c, d, e, f])).trans ?_
    simp only [macText_eq, macBytes_printHex2, macBytes_last, Option.map_some]
  simp only [macStrToBin, Option.bind_eq_bind, Option.bind_some, ofBytes_upperMac, hbytes]
  rfl

/-- An address that is cut behind its last colon is none. -/
theorem macStrToBin_cut (mac : Mac) : macStrToBin (some (.ofBytes ((upperMac mac).take 15))) = none := by
  have hbytes : (CStr.ofBytes ((upperMac mac).take 15)).bytes = (upperMac mac).take 15 :=
    CStr.ofBytes_of_noNul fun h => not_mem_upperMac (by decide) (List.mem_of_mem_take h)
  have hnone : macBytes 6 ((upperMac mac).take 15) = none := by
    rw [upperMac, ← List.map_take]
    refine (macBytes_luaUpper 6 ((macText mac).take 15)).trans ?_
    obtain ⟨a, b, c, d, e, f, rfl⟩ := exists_mac mac
    have htake : (macText #v[a, b, c, d, e, f]).take 15 = printHex2 a ++ 58 :: (printHex2 b ++ 58 ::
        (printHex2 c ++ 58 :: (printHex2 d ++ 58 :: (printHex2 e ++ 58 :: [])))) := rfl
    have hempty : macBytes 1 [] = none := rfl
    simp only [htake, macBytes_printHex2, hempty, Option.map_none]
  simp only [macStrToBin, Option.bind_eq_bind, Option.bind_some, hbytes, hnone, Option.bind_none]

/-! ### What the check accepts -/

theorem isValidMac_upperMac (mac : Mac) : isValidMac (upperMac mac) = true := by
  obtain ⟨a, b, c, d, e, f, rfl⟩ := exists_mac mac
  have hdigits : ∀ v : UInt8, isxdigit (toupper (digitByte (v.toNat / 16))) = true ∧
      isxdigit (toupper (digitByte (v.toNat % 16))) = true :=
    forall_byte (p := fun v => isxdigit (toupper (digitByte (v.toNat / 16))) = true ∧
      isxdigit (toupper (digitByte (v.toNat % 16))) = true) (by decide +kernel)
  simp [isValidMac, upperMac, macText_eq, printHex2, hdigits, List.zipIdx]
  decide

/-- Two digits are a byte. -/
theorem pair_of_digits {x y : UInt8} (hx : isxdigit x = true ∧ ¬ (97 ≤ x ∧ x ≤ 122))
    (hy : isxdigit y = true ∧ ¬ (97 ≤ y ∧ y ≤ 122)) : ∃ v, (printHex2 v).map toupper = [x, y] := by
  have hdigit : ∀ c : UInt8, isxdigit c = true ∧ ¬ (97 ≤ c ∧ c ≤ 122) →
      ∃ d ∈ List.range 16, toupper (digitByte d) = c :=
    forall_byte (p := fun c => isxdigit c = true ∧ ¬ (97 ≤ c ∧ c ≤ 122) →
      ∃ d ∈ List.range 16, toupper (digitByte d) = c) (by decide +kernel)
  obtain ⟨m, hm, rfl⟩ := hdigit x hx
  obtain ⟨n, hn, rfl⟩ := hdigit y hy
  rw [List.mem_range] at hm hn
  refine ⟨(16 * m + n).toUInt8, ?_⟩
  have hval : (16 * m + n).toUInt8.toNat = 16 * m + n := UInt8.toNat_ofNat_of_lt' (by change _ < 256; omega)
  rw [printHex2, hval, show (16 * m + n) / 16 = m by omega, show (16 * m + n) % 16 = n by omega]
  rfl

/-- What the check says of 17 bytes. -/
theorem valid_digits {x₀ x₁ x₂ x₃ x₄ x₅ x₆ x₇ x₈ x₉ y₀ y₁ y₂ y₃ y₄ y₅ y₆ : UInt8}
    (h : isValidMac [x₀, x₁, x₂, x₃, x₄, x₅, x₆, x₇, x₈, x₉, y₀, y₁, y₂, y₃, y₄, y₅, y₆] = true) :
    [x₂, x₅, x₈, y₁, y₄] = [58, 58, 58, 58, 58] ∧
      ∀ c ∈ [x₀, x₁, x₃, x₄, x₆, x₇, x₉, y₀, y₂, y₃, y₅, y₆], isxdigit c = true := by
  simp [isValidMac, List.zipIdx] at h
  simp [h]

/-- **The texts that are accepted**, in upper case, are those of the addresses. -/
theorem valid_iff {t : List UInt8} (hupper : ∀ c ∈ t, ¬ (97 ≤ c ∧ c ≤ 122)) :
    isValidMac t = true ↔ ∃ mac, t = upperMac mac := by
  constructor
  · intro h
    have hlen : t.length = 17 := by
      rw [isValidMac, Bool.and_eq_true, decide_eq_true_eq] at h
      exact h.1
    match t, hlen with
    | [x₀, x₁, x₂, x₃, x₄, x₅, x₆, x₇, x₈, x₉, y₀, y₁, y₂, y₃, y₄, y₅, y₆], _ =>
      obtain ⟨hcolons, hdigits⟩ := valid_digits h
      have hdigit : ∀ c ∈ [x₀, x₁, x₃, x₄, x₆, x₇, x₉, y₀, y₂, y₃, y₅, y₆],
          isxdigit c = true ∧ ¬ (97 ≤ c ∧ c ≤ 122) := by
        intro c hc
        refine ⟨hdigits c hc, hupper c ?_⟩
        simp only [List.mem_cons, List.not_mem_nil, or_false] at hc ⊢
        tauto
      simp only [List.cons.injEq, and_true] at hcolons
      obtain ⟨rfl, rfl, rfl, rfl, rfl⟩ := hcolons
      obtain ⟨a, ha⟩ := pair_of_digits (hdigit x₀ (by simp)) (hdigit x₁ (by simp))
      obtain ⟨b, hb⟩ := pair_of_digits (hdigit x₃ (by simp)) (hdigit x₄ (by simp))
      obtain ⟨c, hc⟩ := pair_of_digits (hdigit x₆ (by simp)) (hdigit x₇ (by simp))
      obtain ⟨d, hd⟩ := pair_of_digits (hdigit x₉ (by simp)) (hdigit y₀ (by simp))
      obtain ⟨e, he⟩ := pair_of_digits (hdigit y₂ (by simp)) (hdigit y₃ (by simp))
      obtain ⟨f, hf⟩ := pair_of_digits (hdigit y₅ (by simp)) (hdigit y₆ (by simp))
      have hcolon : toupper 58 = 58 := rfl
      refine ⟨#v[a, b, c, d, e, f], ?_⟩
      simp only [upperMac, macText_eq, List.map_append, List.map_cons, ha, hb, hc, hd, he, hf, hcolon,
        List.cons_append, List.nil_append]
  · rintro ⟨mac, rfl⟩
    exact isValidMac_upperMac mac

/-! ## 5. The list -/

theorem normalizeMac_upper (text : Option (List UInt8)) : ∀ c ∈ normalizeMac text, ¬ (97 ≤ c ∧ c ≤ 122) := by
  intro c hc
  cases text with
  | none => cases hc
  | some text =>
    obtain ⟨b, -, rfl⟩ := List.mem_map.mp hc
    exact toupper_upper b

theorem normalizeMac_upperMac (mac : Mac) : normalizeMac (some (upperMac mac)) = upperMac mac := by
  have hblank : ∀ c ∈ upperMac mac, isRecordBlank c = false := by
    intro c hc
    have hall : ∀ c : UInt8, 48 ≤ c ∧ c ≤ 70 → isRecordBlank c = false :=
      forall_byte (p := fun c => 48 ≤ c ∧ c ≤ 70 → isRecordBlank c = false) (by decide +kernel)
    exact hall c (upperMac_plain hc)
  have hlen : (upperMac mac).length ≤ 31 := by
    rw [upperMac_length]
    decide
  rw [normalizeMac, trim_of_forall hblank, List.take_of_length_le hlen]
  exact map_toupper_of_upper fun c hc => (mem_upperMac hc).2

/-- A text names an address exactly if the check accepts it, and is the text of this address then. -/
theorem namedRecordMac_cases (text : Option (List UInt8)) :
    (isValidMac (normalizeMac text) = false ∧ namedRecordMac text = none) ∨
      ∃ mac, isValidMac (normalizeMac text) = true ∧ namedRecordMac text = some mac ∧
        normalizeMac text = upperMac mac := by
  cases hvalid : isValidMac (normalizeMac text) with
  | false => exact .inl ⟨rfl, by rw [namedRecordMac, hvalid]; rfl⟩
  | true =>
    obtain ⟨mac, hmac⟩ := (valid_iff (normalizeMac_upper text)).mp hvalid
    refine .inr ⟨mac, rfl, ?_, hmac⟩
    rw [namedRecordMac, if_pos hvalid, hmac, macStrToBin_upperMac]

theorem macExistsInArray_upperMac (asked : List Mac) (mac : Mac) :
    macExistsInArray (asked.map upperMac) (upperMac mac) = decide (mac ∈ asked) := by
  rw [macExistsInArray, List.any_map, Bool.eq_iff_iff, List.any_eq_true, decide_eq_true_eq]
  constructor
  · rintro ⟨m, hm, heq⟩
    rwa [← caseEq_upperMac.mp heq]
  · exact fun hmem => ⟨mac, hmem, caseEq_upperMac.mpr rfl⟩

/-- What a text adds to the addresses that are there. -/
theorem newRecordMac_eq (asked : List Mac) (text : Option (List UInt8)) :
    asked.map upperMac ++ newRecordMac (asked.map upperMac) text =
      (askFor asked (namedRecordMac text).toList).map upperMac := by
  rw [newRecordMac]
  rcases namedRecordMac_cases text with ⟨hvalid, hnone⟩ | ⟨mac, hvalid, hsome, htext⟩
  · rw [hvalid, hnone]
    exact List.append_nil _
  · rw [hvalid, hsome, htext, macExistsInArray_upperMac]
    by_cases hmem : mac ∈ asked <;> simp [askFor, hmem]

theorem askFor_cons (asked : List Mac) (mac : Mac) (macs : List Mac) :
    askFor asked (mac :: macs) = askFor (askFor asked [mac]) macs := rfl

theorem askFor_single (asked : List Mac) (mac : Mac) :
    askFor asked [mac] = if mac ∈ asked then asked else asked ++ [mac] := rfl

theorem nodup_askFor {asked : List Mac} (h : asked.Nodup) (macs : List Mac) : (askFor asked macs).Nodup := by
  induction macs generalizing asked with
  | nil => exact h
  | cons mac macs ih =>
    rw [askFor_cons]
    refine ih ?_
    rw [askFor_single]
    split
    · exact h
    · rename_i hnew
      exact (List.nodup_append_comm.mp (List.nodup_cons.mpr ⟨hnew, h⟩ : ([mac] ++ asked).Nodup))

/-- Addresses that are not there yet. -/
theorem askFor_new {asked macs : List Mac} (h : (asked ++ macs).Nodup) : askFor asked macs = asked ++ macs := by
  induction macs generalizing asked with
  | nil => exact (List.append_nil asked).symm
  | cons mac macs ih =>
    have hnew : mac ∉ asked := fun hmem =>
      (List.nodup_append.mp h).2.2 mac hmem mac List.mem_cons_self rfl
    rw [List.append_cons] at h
    rw [askFor_cons, askFor_single, if_neg hnew, ih h, ← List.append_cons]

/-- The option is a list with these items; without items it may be gone. -/
def IsList (value : Option UciValue) (items : List (List UInt8)) : Prop :=
  value = some (.list items) ∨ items = [] ∧ value = none

theorem IsList.storedItems {value : Option UciValue} {items : List (List UInt8)} (h : IsList value items) :
    storedItems value = items := by
  rcases h with rfl | ⟨rfl, rfl⟩ <;> rfl

variable {uci : LibuciLists} {value : Option UciValue} {asked : List Mac}

theorem IsList.add (huci : uci.Keeps) {items : List (List UInt8)} (h : IsList value items) (mac : Mac) :
    IsList (uci.add value (upperMac mac)) (items ++ [upperMac mac]) := by
  have hprint : IsPrintable (upperMac mac) := fun c hc => by
    obtain ⟨hlo, hhi⟩ := upperMac_plain hc
    exact ⟨UInt8.le_trans (by decide) hlo, UInt8.lt_of_le_of_lt hhi (by decide)⟩
  rcases h with rfl | ⟨rfl, rfl⟩
  · exact .inl (huci.addList items _ (upperMac_ne_nil mac) hprint)
  · exact .inl (huci.addNone _ (upperMac_ne_nil mac) hprint)

/-- The loop of a call asks for what its texts name. -/
theorem addRecordMacs_spec (huci : uci.Keeps) : ∀ (texts : List (Option (List UInt8))) (value : Option UciValue)
    (asked : List Mac) (added : Bool), IsList value (asked.map upperMac) →
    IsList (addRecordMacs uci texts value (asked.map upperMac) added).1
      ((askFor asked (texts.filterMap namedRecordMac)).map upperMac) ∧
    ((addRecordMacs uci texts value (asked.map upperMac) added).2 = false →
      added = false ∧ askFor asked (texts.filterMap namedRecordMac) = asked)
  | [], value, asked, added, h => ⟨h, fun hadded => ⟨hadded, rfl⟩⟩
  | text :: rest, value, asked, added, h => by
    rw [addRecordMacs]
    rcases namedRecordMac_cases text with ⟨hvalid, hnone⟩ | ⟨mac, hvalid, hsome, htext⟩
    · have hnew : newRecordMac (asked.map upperMac) text = [] := by rw [newRecordMac, hvalid]; rfl
      rw [hnew, List.filterMap_cons_none hnone]
      exact addRecordMacs_spec huci rest value asked added h
    · rw [List.filterMap_cons_some hsome, askFor_cons, askFor_single]
      have hnew : newRecordMac (asked.map upperMac) text = if mac ∈ asked then [] else [upperMac mac] := by
        rw [newRecordMac, hvalid, htext, macExistsInArray_upperMac]
        by_cases hmem : mac ∈ asked <;> simp [hmem]
      rw [hnew]
      by_cases hmem : mac ∈ asked
      · rw [if_pos hmem, if_pos hmem]
        exact addRecordMacs_spec huci rest value asked added h
      · rw [if_neg hmem, if_neg hmem]
        have hlist := h.add huci mac
        have harray : asked.map upperMac ++ [upperMac mac] = (asked ++ [mac]).map upperMac := by
          rw [List.map_append, List.map_singleton]
        dsimp only [List.foldl]
        rw [harray] at hlist ⊢
        obtain ⟨hitems, htold⟩ := addRecordMacs_spec huci rest _ _ true hlist
        exact ⟨hitems, fun hadded => absurd (htold hadded).1 (by decide)⟩

theorem intercalate_upperMac_length (asked : List Mac) (d : UInt8) :
    ([d].intercalate (asked.map upperMac)).length = 18 * asked.length - 1 := by
  cases asked with
  | nil => rfl
  | cons mac macs =>
    have hrest : ∀ macs : List Mac, ((macs.map upperMac).flatMap (d :: ·)).length = 18 * macs.length := by
      intro macs
      induction macs with
      | nil => rfl
      | cons m macs ih =>
        rw [List.map_cons, List.flatMap_cons, List.length_append, List.length_cons, ih, upperMac_length,
          List.length_cons]
        omega
    rw [List.map_cons, intercalate_cons_eq, List.length_append, hrest, upperMac_length, List.length_cons]
    omega

theorem filterMap_namedRecordMac (asked : List Mac) :
    (asked.map upperMac).filterMap (fun token => namedRecordMac (some token)) = asked := by
  rw [List.filterMap_map]
  refine (List.filterMap_congr fun mac _ => ?_).trans List.filterMap_some
  change namedRecordMac (some (upperMac mac)) = some mac
  rw [namedRecordMac, normalizeMac_upperMac, if_pos (isValidMac_upperMac mac), macStrToBin_upperMac]

/-- **What is stored is loaded**, as long as it fits the buffer. -/
theorem loadRecordWhitelistFromUci_stored (h : IsList value (asked.map upperMac)) (hnodup : asked.Nodup)
    (hfew : asked.length ≤ 227) : loadRecordWhitelistFromUci value = .ok (asked.map upperMac) := by
  have hfits : ([32].intercalate (storedItems value)).length < 4096 := by
    rw [h.storedItems, intercalate_upperMac_length]
    omega
  obtain ⟨text, hget, htext⟩ := (uciGetListValue_eq .listBuf (by decide) value).1 hfits
  have hwords : words 32 (text.getD []) = asked.map upperMac := by
    rw [htext, h.storedItems]
    refine words_intercalate (fun t ht => ?_) fun t ht => ?_
    · obtain ⟨mac, -, rfl⟩ := List.mem_map.mp ht
      exact not_mem_upperMac (by decide)
    · obtain ⟨mac, -, rfl⟩ := List.mem_map.mp ht
      exact upperMac_ne_nil mac
  have hfold : ∀ (tokens : List (List UInt8)) (there : List Mac),
      tokens.foldl (fun array token => array ++ newRecordMac array (some token)) (there.map upperMac) =
        (askFor there (tokens.filterMap fun token => namedRecordMac (some token))).map upperMac := by
    intro tokens
    induction tokens with
    | nil => exact fun _ => rfl
    | cons token tokens ih =>
      intro there
      rw [List.foldl_cons, newRecordMac_eq, ih]
      cases hnamed : namedRecordMac (some token) with
      | none => rw [@List.filterMap_cons_none _ _ (fun token => namedRecordMac (some token)) _ _ hnamed]; rfl
      | some mac =>
        rw [@List.filterMap_cons_some _ _ (fun token => namedRecordMac (some token)) _ _ _ hnamed, askFor_cons]
        rfl
  rw [loadRecordWhitelistFromUci, hget]
  simp only [bind, Except.bind, pure, Except.pure, hwords]
  have hall := hfold (asked.map upperMac) []
  rw [List.map_nil, filterMap_namedRecordMac, askFor_new (List.nil_append asked ▸ hnodup)] at hall
  rw [hall]
  rfl

theorem IsList.del (huci : uci.Keeps) (h : IsList value (asked.map upperMac)) (hnodup : asked.Nodup) {mac : Mac}
    (hmem : mac ∈ asked) : IsList (uci.del value (upperMac mac)) ((asked.erase mac).map upperMac) := by
  have hitems : (asked.map upperMac).filter (· ≠ upperMac mac) = (asked.erase mac).map upperMac := by
    rw [List.filter_map, hnodup.erase_eq_filter]
    congr 1
    refine List.filter_congr fun m _ => ?_
    rw [Function.comp, bne, Bool.eq_iff_iff, decide_eq_true_eq, Bool.not_eq_true', beq_eq_false_iff_ne,
      upperMac_inj.ne_iff]
  rcases h with rfl | ⟨hnil, -⟩
  · rw [← hitems]
    exact huci.del (asked.map upperMac) (upperMac mac)
  · rw [List.map_eq_nil_iff.mp hnil] at hmem
    cases hmem

/-- **One call**: it does not leave a buffer, stores what is asked for, and tells the rule manager of a change. -/
theorem run_spec (huci : uci.Keeps) (h : IsList value (asked.map upperMac)) (hnodup : asked.Nodup)
    (hfew : asked.length ≤ 227) (c : RecordCall) : ∃ answer, c.run uci value = .ok answer ∧
      IsList answer.whitelist ((c.onAsked asked).map upperMac) ∧ (c.onAsked asked).Nodup ∧
      (answer.told = false → c.onAsked asked = asked) := by
  have hload := loadRecordWhitelistFromUci_stored h hnodup hfew
  have hsame : ∃ answer, Except.ok (ε := LanFault) ⟨value, false⟩ = .ok answer ∧
      IsList (RecordAnswer.whitelist answer) (asked.map upperMac) ∧ asked.Nodup ∧
      (answer.told = false → asked = asked) := ⟨_, rfl, h, hnodup, fun _ => rfl⟩
  cases c with
  | get =>
    refine ⟨⟨value, false⟩, ?_, h, hnodup, fun _ => rfl⟩
    rw [RecordCall.run, hload]
    rfl
  | set macList =>
    cases macList with
    | none => exact hsame
    | some macList =>
      obtain ⟨hitems, -⟩ := addRecordMacs_spec huci macList none [] false (.inr ⟨rfl, rfl⟩)
      exact ⟨_, rfl, hitems, nodup_askFor List.nodup_nil _, fun htold => nomatch htold⟩
  | add macList =>
    cases macList with
    | none => exact hsame
    | some macList =>
      obtain ⟨hitems, htold⟩ := addRecordMacs_spec huci macList value asked false h
      refine ⟨⟨_, _⟩, ?_, hitems, nodup_askFor hnodup _, fun hadded => (htold hadded).2⟩
      rw [RecordCall.run, hload]
      rfl
  | del mac =>
    cases mac with
    | none => exact hsame
    | some mac =>
      rw [RecordCall.run, RecordCall.onAsked]
      rcases namedRecordMac_cases mac with ⟨hvalid, hnone⟩ | ⟨m, hvalid, hsome, htext⟩
      · rw [hvalid, hnone]
        exact hsame
      · simp only [hsome, htext, isValidMac_upperMac, if_true, hload, macExistsInArray_upperMac, ok_bind,
          Option.elim_some, decide_eq_true_eq]
        by_cases hmem : m ∈ asked
        · rw [if_pos hmem]
          exact ⟨⟨_, true⟩, rfl, h.del huci hnodup hmem, hnodup.erase m, fun htold => nomatch htold⟩
        · rw [if_neg hmem, List.erase_of_not_mem hmem]
          exact hsame

/-! ## 6. The line -/

theorem appendSectionMacs_new : ∀ (items macs : List (List UInt8)), (macs ++ items).Nodup → (∀ t ∈ items, t ≠ []) →
    items.foldl (fun macs mac => if mac = [] ∨ macs.contains mac then macs else macs ++ [mac]) macs = macs ++ items
  | [], macs, _, _ => (List.append_nil macs).symm
  | t :: items, macs, hnodup, hne => by
    have hnew : ¬ (t = [] ∨ macs.contains t = true) := by
      rintro (h | hmem)
      · exact hne t List.mem_cons_self h
      · exact (List.nodup_append.mp hnodup).2.2 t (List.contains_iff_mem.mp hmem) t List.mem_cons_self rfl
    rw [List.append_cons] at hnodup
    rw [List.foldl_cons, if_neg hnew, appendSectionMacs_new items _ hnodup fun u hu => hne u (List.mem_cons_of_mem _ hu),
      ← List.append_cons]

/-- The rule manager loads what is stored. -/
theorem loadRecordWhitelist_stored (h : IsList value (asked.map upperMac)) (hnodup : asked.Nodup) :
    loadRecordWhitelist [value] [] = asked.map upperMac := by
  have hmacs : appendSectionMacs [] value = asked.map upperMac := by
    have hitems := appendSectionMacs_new (asked.map upperMac) [] (hnodup.map upperMac_inj) fun t ht => by
      obtain ⟨mac, -, rfl⟩ := List.mem_map.mp ht
      exact upperMac_ne_nil mac
    rcases h with rfl | ⟨hnil, rfl⟩
    · exact hitems
    · rw [hnil]
      rfl
  rw [loadRecordWhitelist, List.foldl_cons, List.foldl_nil, hmacs]
  split
  · rename_i hnil
    rw [hnil]
    rfl
  · rfl

/-- **What gets into the kernel's buffer**: the first addresses, and the next one without its last byte. -/
theorem line_eq (asked : List Mac) : procDostring 1024 (recordContent (asked.map upperMac)) =
    [44].intercalate ((asked.take MAX_RECORD_MACS).map upperMac ++
      (asked[MAX_RECORD_MACS]?.map fun mac => (upperMac mac).take 15).toList) := by
  have hplain : ∀ c ∈ [44].intercalate (asked.map upperMac), (c ≠ 0 ∧ c ≠ 10 : Bool) = true := by
    intro c hc
    rcases mem_intercalate hc with rfl | ⟨t, ht, hmem⟩
    · rfl
    · obtain ⟨mac, -, rfl⟩ := List.mem_map.mp ht
      have hall : ∀ c : UInt8, 48 ≤ c ∧ c ≤ 70 → (c ≠ 0 ∧ c ≠ 10 : Bool) = true :=
        forall_byte (p := fun c => 48 ≤ c ∧ c ≤ 70 → (c ≠ 0 ∧ c ≠ 10 : Bool) = true) (by decide +kernel)
      exact hall c (upperMac_plain hmem)
  have hlength := intercalate_upperMac_length asked 44
  by_cases hnil : asked = []
  · rw [hnil]
    rfl
  have hcontent : recordContent (asked.map upperMac) = [44].intercalate (asked.map upperMac) := by
    rw [recordContent, if_neg (by simpa using hnil)]
  rw [hcontent, procDostring, List.takeWhile_eq_self_iff.mpr (by simpa using hplain)]
  rcases Nat.lt_or_ge MAX_RECORD_MACS asked.length with hmany | hfew
  · have hfirst : (asked.take MAX_RECORD_MACS).length = MAX_RECORD_MACS :=
      List.length_take_of_le (Nat.le_of_lt hmany)
    have hsplit : asked.map upperMac = (asked.take MAX_RECORD_MACS).map upperMac ++
        upperMac asked[MAX_RECORD_MACS] :: (asked.drop (MAX_RECORD_MACS + 1)).map upperMac := by
      rw [← List.map_cons, ← List.map_append, List.cons_getElem_drop_succ, List.take_append_drop]
    have hne : (asked.take MAX_RECORD_MACS).map upperMac ≠ [] := by
      rw [ne_eq, List.map_eq_nil_iff]
      intro h
      rw [h] at hfirst
      cases hfirst
    have hshort := intercalate_upperMac_length (asked.take MAX_RECORD_MACS) 44
    rw [hfirst] at hshort
    rw [List.getElem?_eq_getElem hmany, Option.map_some, Option.toList_some, hsplit,
      intercalate_append (List.cons_ne_nil _ _) hne, intercalate_append (List.cons_ne_nil _ _) hne,
      List.intercalate_singleton, intercalate_cons_eq, List.take_append, hshort]
    have hrest : 1024 - 1 - (18 * MAX_RECORD_MACS - 1) = 15 + 1 := rfl
    have hall : ([44].intercalate ((asked.take MAX_RECORD_MACS).map upperMac)).length ≤ 1024 - 1 := by
      rw [hshort]
      decide
    rw [hrest, List.take_of_length_le hall, List.take_succ_cons,
      List.take_append_of_le_length (by rw [upperMac_length]; decide)]
  · rw [List.take_of_length_le hfew, List.getElem?_eq_none hfew, Option.map_none, Option.toList_none, List.append_nil]
    refine List.take_of_length_le ?_
    rw [hlength]
    rw [MAX_RECORD_MACS] at hfew
    omega

/-- The address that the kernel reads in a piece. -/
def recordToken (token : List UInt8) : Option Mac :=
  let token := (token.dropWhile Kernel.isspace).rdropWhile Kernel.isspace
  if token = [] then none else macStrToBin (some (.ofBytes token))

theorem trim_upperMac {token : List UInt8} {mac : Mac} (h : ∀ c ∈ token, c ∈ upperMac mac) :
    (token.dropWhile Kernel.isspace).rdropWhile Kernel.isspace = token := by
  refine trim_of_forall fun c hc => ?_
  have hall : ∀ c : UInt8, 48 ≤ c ∧ c ≤ 70 → Kernel.isspace c = false :=
    forall_byte (p := fun c => 48 ≤ c ∧ c ≤ 70 → Kernel.isspace c = false) (by decide +kernel)
  exact hall c (upperMac_plain (h c hc))

theorem recordToken_upperMac (mac : Mac) : recordToken (upperMac mac) = some mac := by
  rw [recordToken, trim_upperMac fun c hc => hc, if_neg (upperMac_ne_nil mac), macStrToBin_upperMac]

theorem recordToken_cut (mac : Mac) : recordToken ((upperMac mac).take 15) = none := by
  rw [recordToken, trim_upperMac fun c hc => List.mem_of_mem_take hc, macStrToBin_cut, ite_self]

/-- The pieces of the line make the list of their addresses. -/
theorem find_setRecordMacs : ∀ (tokens : List (List UInt8)) (s : MacConfig × Kmem) (mac : Mac), s.2.AllOk →
    (fwxFindMacNode (tokens.foldl setRecordMac s).1 mac = true ↔
      fwxFindMacNode s.1 mac = true ∨ mac ∈ tokens.filterMap recordToken)
  | [], s, mac, _ => by simp
  | token :: tokens, (config, kmem), mac, hok => by
    have hstep : (setRecordMac (config, kmem) token).2.AllOk ∧
        (fwxFindMacNode (setRecordMac (config, kmem) token).1 mac = true ↔
          fwxFindMacNode config mac = true ∨ recordToken token = some mac) := by
      rw [setRecordMac, recordToken]
      dsimp only
      split
      · exact ⟨hok, by simp⟩
      · cases macStrToBin _ with
        | none => exact ⟨hok, by simp⟩
        | some m =>
          dsimp only
          split
          · rename_i hfound
            refine ⟨hok, (or_iff_left_of_imp ?_).symm⟩
            rintro h
            rw [← Option.some.inj h]
            exact hfound
          · refine ⟨(addMacNode_snd kmem config m).symm ▸ hok.kzalloc, ?_⟩
            rw [find_addMacNode, Option.some.injEq, eq_comm (a := mac), and_iff_left (show kmem.kzalloc.1 = true from hok _)]
    rw [List.foldl_cons, find_setRecordMacs tokens _ mac hstep.1, hstep.2, List.mem_filterMap, List.mem_filterMap]
    simp only [List.mem_cons, exists_eq_or_imp, or_assoc]

/-- **What the kernel reads of the line.** -/
theorem macsOf_content {kmem : Kmem} (hok : kmem.AllOk) (asked : List Mac) (mac : Mac) :
    fwxFindMacNode (fwxSetRecordWhitelist kmem (procDostring 1024 (recordContent (asked.map upperMac)))) mac = true ↔
      mac ∈ asked.take MAX_RECORD_MACS := by
  have hinit : fwxFindMacNode fwxMacConfigInit mac = false := rfl
  have hpieces : ∀ t ∈ (asked.take MAX_RECORD_MACS).map upperMac ++
      (asked[MAX_RECORD_MACS]?.map fun mac => (upperMac mac).take 15).toList, 44 ∉ t := by
    intro t ht
    rcases List.mem_append.mp ht with ht | ht
    · obtain ⟨m, -, rfl⟩ := List.mem_map.mp ht
      exact not_mem_upperMac (by decide)
    · obtain ⟨m, -, rfl⟩ := Option.map_eq_some_iff.mp (Option.mem_toList.mp ht)
      exact fun hmem => not_mem_upperMac (by decide) (List.mem_of_mem_take hmem)
  have hmacs : ((asked.take MAX_RECORD_MACS).map upperMac ++
      (asked[MAX_RECORD_MACS]?.map fun mac => (upperMac mac).take 15).toList).filterMap recordToken =
        asked.take MAX_RECORD_MACS := by
    have hfirst : ((asked.take MAX_RECORD_MACS).map upperMac).filterMap recordToken = asked.take MAX_RECORD_MACS := by
      rw [List.filterMap_map]
      exact (List.filterMap_congr fun m _ => recordToken_upperMac m).trans List.filterMap_some
    have hcut : ((asked[MAX_RECORD_MACS]?.map fun mac => (upperMac mac).take 15).toList).filterMap recordToken = [] := by
      cases asked[MAX_RECORD_MACS]? with
      | none => rfl
      | some m => exact List.filterMap_cons_none (recordToken_cut m)
    rw [List.filterMap_append, hfirst, hcut, List.append_nil]
  rw [fwxSetRecordWhitelist, line_eq, find_setRecordMacs _ _ mac hok, hinit, Bool.false_eq_true, false_or]
  by_cases hnil : asked = []
  · rw [hnil]
    rfl
  · have hne : (asked.take MAX_RECORD_MACS).map upperMac ++
        (asked[MAX_RECORD_MACS]?.map fun mac => (upperMac mac).take 15).toList ≠ [] := by
      refine List.append_ne_nil_of_left_ne_nil ?_ _
      rw [ne_eq, List.map_eq_nil_iff, List.take_eq_nil_iff]
      exact fun h => h.elim (by decide) hnil
    rw [List.splitOn_intercalate _ hpieces hne, hmacs]

/-! ## 7. Runs -/

/-- Every client is marked as the kernel's list says. -/
def Marked (s : ClientState w) : Prop :=
  ∀ node, s.table.Holds node → node.info.recordWhitelist = fwxFindMacNode s.whitelist node.info.mac

theorem seen_recordWhitelist (node : AfClient w) (source : ClientSource) (jiffies : BitVec w) :
    (node.seen source jiffies).info.recordWhitelist = node.info.recordWhitelist := by
  cases source <;> rfl

variable {gateway : Bool} {hz : Nat}

theorem marked_packet {s : ClientState w} (h : Marked s) (pkt : ClientPacket) (kmalloc : Bool) :
    Marked (s.after gateway hz (.packet pkt kmalloc)) := by
  intro node hnode
  simp only [ClientState.after, afClientHook] at hnode ⊢
  split at hnode
  · exact h node hnode
  split at hnode
  · rcases holds_of_modify hnode with hmem | ⟨i, -, hmem⟩
    · rcases of_mem_updateFirst hmem with hold | ⟨old, hold, -, rfl⟩
      · exact h node ⟨_, hold⟩
      · rw [seen_mac, seen_recordWhitelist]
        exact h old ⟨_, hold⟩
    · exact h node ⟨i, hmem⟩
  · split at hnode
    · rcases holds_of_modify hnode with hmem | ⟨i, -, hmem⟩
      · rcases List.mem_cons.mp hmem with rfl | hold
        · -- the client is new, and marked by its list
          rw [seen_mac, seen_recordWhitelist]
        · exact h node ⟨_, hold⟩
      · exact h node ⟨i, hmem⟩
    · exact h node hnode

/-- Each event keeps the marks, and only a new list changes the list. -/
theorem marked_after {s : ClientState w} (h : Marked s) (e : ClientEvent) : Marked (s.after gateway hz e) := by
  cases e with
  | packet pkt kmalloc => exact marked_packet h pkt kmalloc
  | gatewayPacket src =>
    intro node hnode
    obtain ⟨old, hold, hinfo⟩ := holds_refreshByIp hnode
    exact hinfo ▸ h old hold
  | expire => exact fun node hnode => h node (holds_checkClientExpire hnode)
  | time elapsed => exact h
  | whitelist config =>
    rintro node ⟨i, hmem⟩
    obtain ⟨old, -, rfl⟩ := List.mem_map.mp hmem
    rfl

theorem whitelist_after (s : ClientState w) {e : ClientEvent} (h : ∀ config, e ≠ .whitelist config) :
    (s.after gateway hz e).whitelist = s.whitelist := by
  cases e with
  | whitelist config => exact absurd rfl (h config)
  | _ => rfl

/-- **The invariant.** -/
structure RecordKept (s : RecordState w) : Prop where
  stored : IsList s.whitelist (s.asked.map upperMac)
  nodup : s.asked.Nodup
  few : s.asked.length ≤ 227
  marked : Marked s.clients
  kernel : ∀ mac, fwxFindMacNode s.clients.whitelist mac = true ↔ mac ∈ s.written.take MAX_RECORD_MACS
  told : s.told = false → s.written = s.asked

theorem recordKept_turn {s : RecordState w} (h : RecordKept s) {kmem : Kmem} (hok : kmem.AllOk) :
    RecordKept (s.turn gateway hz kmem) := by
  rw [RecordState.turn]
  split
  · refine ⟨h.stored, h.nodup, h.few, marked_after h.marked _, fun mac => ?_, fun _ => rfl⟩
    rw [loadRecordWhitelist_stored h.stored h.nodup]
    exact macsOf_content hok s.asked mac
  · exact h

/-- Each step keeps it. -/
theorem recordKept_step (huci : uci.Keeps) {s t : RecordState w} {e : RecordEvent} (h : RecordKept s) (hok : e.Ok s)
    (hstep : recordStep gateway hz uci s e t) : RecordKept t := by
  cases e with
  | call c =>
    obtain ⟨answer, hrun, rfl⟩ := hstep
    obtain ⟨answer', hrun', hstored, hnodup, htold⟩ := run_spec huci h.stored h.nodup h.few c
    obtain rfl := Except.ok.inj (hrun.symm.trans hrun')
    refine ⟨hstored, hnodup, hok, h.marked, h.kernel, fun htold' => ?_⟩
    obtain ⟨hs, hanswer⟩ := Bool.or_eq_false_iff.mp htold'
    exact (h.told hs).trans (htold hanswer).symm
  | turn kmem =>
    obtain rfl := hstep
    exact recordKept_turn h hok
  | kernel e =>
    obtain rfl := hstep
    refine ⟨h.stored, h.nodup, h.few, marked_after h.marked e, fun mac => ?_, h.told⟩
    rw [whitelist_after s.clients hok]
    exact h.kernel mac

/-- Nobody has asked for an address, and the kernel has no client. -/
def RecordState.init (jiffies : BitVec w) : RecordState w := ⟨none, false, { jiffies := jiffies }, [], []⟩

theorem recordKept_init (jiffies : BitVec w) : RecordKept (RecordState.init jiffies) where
  stored := .inr ⟨rfl, rfl⟩
  nodup := List.nodup_nil
  few := Nat.zero_le _
  marked := fun _ ⟨_, hmem⟩ => absurd hmem List.not_mem_nil
  kernel := fun _ => ⟨fun h => (Bool.false_ne_true h).elim, fun h => absurd h List.not_mem_nil⟩
  told := fun _ => rfl

/-- **The record whitelist is kept.**  In every run of calls, turns of the rule manager and packets, the stored list has
each address that is asked for once, upper case; no call leaves its buffer, and each works on just these addresses; the
clients that the kernel marks are those of the first `MAX_RECORD_MACS` addresses that were asked for when the rule
manager looked last, and it has looked at all there is unless the file tells it to. -/
theorem record_whitelist_kept (huci : uci.Keeps) {jiffies : BitVec w} {s : RecordState w}
    (h : Reaches (recordStep gateway hz uci) (fun s e => e.Ok s) (RecordState.init jiffies) s) :
    (storedItems s.whitelist = s.asked.map upperMac ∧ s.asked.Nodup ∧
      loadRecordWhitelistFromUci s.whitelist = .ok (s.asked.map upperMac)) ∧
    (∀ c : RecordCall, ∃ answer, c.run uci s.whitelist = .ok answer ∧
      storedItems answer.whitelist = (c.onAsked s.asked).map upperMac ∧
      (answer.told = false → c.onAsked s.asked = s.asked)) ∧
    (∀ node, s.clients.table.Holds node →
      (node.info.recordWhitelist = true ↔ node.info.mac ∈ s.written.take MAX_RECORD_MACS)) ∧
    (s.told = false → s.written = s.asked) := by
  have hkept : RecordKept s := h.invariant (fun _ _ _ hs hok hstep => recordKept_step huci hs hok hstep)
    (recordKept_init jiffies)
  refine ⟨⟨hkept.stored.storedItems, hkept.nodup, ?_⟩, fun c => ?_, fun node hnode => ?_, hkept.told⟩
  · exact loadRecordWhitelistFromUci_stored hkept.stored hkept.nodup hkept.few
  · obtain ⟨answer, hrun, hstored, -, htold⟩ := run_spec huci hkept.stored hkept.nodup hkept.few c
    exact ⟨answer, hrun, hstored.storedItems, htold⟩
  · rw [hkept.marked node hnode]
    exact hkept.kernel node.info.mac

/-- A libuci that keeps texts, and an empty list as one. -/
def plainLists : LibuciLists where
  toLibuci := MacFilter.plainUci
  del
    | some (.list items), text => some (.list (items.filter (· ≠ text)))
    | value, _ => value

theorem plainLists_keeps : plainLists.Keeps where
  toKeepsTexts := plainUci_keepsTexts
  del := fun _ _ => .inl rfl

/-- The page asks for the phone, in other words. -/
def setPhone : RecordCall := .set (some [some (ascii " 02:00:00:00:00:01"), none, some (ascii "phone")])

/-- The phone has sent a packet, and is asked for. -/
def phoneAskedFor : RecordState 64 where
  whitelist := (addRecordMacs plainLists [some (ascii " 02:00:00:00:00:01"), none, some (ascii "phone")] none [] false).1
  told := true
  clients := clientsAfter [phonePacket 100]
  asked := setPhone.onAsked []
  written := []

/-- The rule manager looks, and the kernel marks the phone. -/
theorem record_whitelist_kept_phone : ∃ s : RecordState 64,
    Reaches (recordStep true 100 plainLists) (fun s e => e.Ok s) (RecordState.init 0) s ∧
      s.asked = [phoneMac] ∧ s.told = false ∧
      ∃ node, s.clients.table.Holds node ∧ node.info.mac = phoneMac ∧ node.info.recordWhitelist = true := by
  have hasked : setPhone.onAsked [] = [phoneMac] := by decide +kernel
  have hfew : (setPhone.onAsked []).length ≤ 227 := by
    rw [hasked]
    decide
  have hcall : Reaches (recordStep true 100 plainLists) (fun s e => e.Ok s) (RecordState.init 0) phoneAskedFor :=
    (Reaches.refl.tail (e := .kernel (phonePacket 100)) (fun _ h => nomatch h) rfl).tail (e := .call setPhone) hfew
      ⟨_, rfl, rfl⟩
  have hturn : Reaches (recordStep true 100 plainLists) (fun s e => e.Ok s) (RecordState.init 0)
      (phoneAskedFor.turn true 100 ⟨fun _ => true, 0⟩) := hcall.tail (e := .turn ⟨fun _ => true, 0⟩) (fun _ => rfl) rfl
  obtain ⟨-, -, hmarked, -⟩ := record_whitelist_kept plainLists_keeps hturn
  obtain ⟨old, hold, hmac⟩ : ∃ old, old ∈ phoneAskedFor.clients.table (getMacHashCode phoneMac) ∧
      old.info.mac = phoneMac := ⟨_, List.mem_cons_self, rfl⟩
  have hholds : (phoneAskedFor.turn true 100 ⟨fun _ => true, 0⟩).clients.table.Holds _ :=
    ⟨getMacHashCode phoneMac, List.mem_map_of_mem hold⟩
  refine ⟨_, hturn, hasked, rfl, _, hholds, hmac, (hmarked _ hholds).mpr ?_⟩
  change old.info.mac ∈ (setPhone.onAsked []).take MAX_RECORD_MACS
  rw [hmac, hasked]
  exact List.mem_cons_self

end Oaf
