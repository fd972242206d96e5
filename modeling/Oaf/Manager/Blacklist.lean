/-
# The blacklist, from the page to the kernel

`fwx_api_add_mac_blacklist` and `fwx_api_del_mac_blacklist` (`fwx_ubus.c`) load the blacklist, change it in an array of
64 addresses and write the whole list back; `load_mac_blacklist` (`rule_manager.lua`) reads it for the kernel.

A ledger is the set of the addresses that were asked for and not taken back.

* `addList_spec`: an array with a bound against the set it stands for.
* `blacklist_kept`: **in every run of the calls** the stored list is the ledger, sorted; nothing is written behind a
  buffer; a call is refused exactly if it names no address or one too many; and the list of the clients, the page of a
  client and the rule manager all take the same addresses from it.

An address is any text without blanks: the calls do not ask for more, and make it upper case.  One with a blank in it
would be read back as two.
-/
import Oaf.Client.Permission
import Oaf.Lib.Runs
import Oaf.Manager.Loaded
import Oaf.Manager.MainLoop

namespace Oaf

open CLib Runs

/-! ## 1. The calls -/

/-- `normalize_mac_value` of a JSON value; `null` has no text. -/
def normalizeJsonMac (text : Option (List UInt8)) : List UInt8 := (text.map normalizeMacValue).getD []

/-- `mac_blacklist_has_item`. -/
def macBlacklistHasItem (macs : List (List UInt8)) (mac : List UInt8) : Bool :=
  mac ≠ [] && macs.any (caseEq · mac)

/-- `macs`, `valid_count` and `overflow` of `fwx_api_add_mac_blacklist`. -/
structure BlacklistAdd where
  macs : List (List UInt8)
  validCount : Nat := 0
  overflow : Bool := false

/-- One address; with `true` there was no room for it. -/
def BlacklistAdd.add (s : BlacklistAdd) (text : Option (List UInt8)) : BlacklistAdd × Bool :=
  let normalizedMac := normalizeJsonMac text
  if normalizedMac = [] then (s, false)
  else
    let s := { s with validCount := s.validCount + 1 }
    if macBlacklistHasItem s.macs normalizedMac then (s, false)
    else if MAX_SUPPORT_DEV_NUM ≤ s.macs.length then ({ s with overflow := true }, true)
    else ({ s with macs := s.macs ++ [normalizedMac] }, false)

/-- The loop over `mac_list`, which an address without room ends. -/
def BlacklistAdd.addList : BlacklistAdd → List (Option (List UInt8)) → BlacklistAdd
  | s, [] => s
  | s, text :: rest => if (s.add text).2 then (s.add text).1 else (s.add text).1.addList rest

/-- The request of `fwx_api_add_mac_blacklist`: the texts of `mac` and of the elements of `mac_list`. -/
structure AddBlacklistRequest where
  mac : Option (Option (List UInt8)) := none
  macList : Option (List (Option (List UInt8))) := none

/-- `fwx_api_add_mac_blacklist` up to `save_mac_blacklist_items`; `none` is `API_CODE_ERROR`. -/
def addMacBlacklist (blacklist : Option UciValue) (req : AddBlacklistRequest) :
    Except LanFault (Option (List (List UInt8))) := do
  let macs ← loadMacBlacklistItems blacklist MAX_SUPPORT_DEV_NUM
  let s : BlacklistAdd := ⟨macs, 0, false⟩
  let s := req.mac.elim s fun mac => (s.add mac).1
  let s := req.macList.elim s s.addList
  if s.validCount = 0 ∨ s.overflow then return none
  else return some (s.macs.insertionSort fun a b => a.map tolower ≤ b.map tolower)

/-- `fwx_api_del_mac_blacklist` up to `save_mac_blacklist_items`. -/
def delMacBlacklist (blacklist : Option UciValue) (mac : Option (List UInt8)) :
    Except LanFault (Option (List (List UInt8))) := do
  let normalizedMac := normalizeJsonMac mac
  if normalizedMac = [] then return none
  else
    let macs ← loadMacBlacklistItems blacklist MAX_SUPPORT_DEV_NUM
    return some (macs.filter fun item => !caseEq item normalizedMac)

/-- `MAC_BLACKLIST_UCI_LIST`, in the section `base`. -/
def macListOption : List UInt8 := ascii "mac_list"

/-- `save_mac_blacklist_items`. -/
def saveMacBlacklistItems (macs : List (List UInt8)) : List UciEdit :=
  .delete macListOption :: (macs.filter (· ≠ [])).map (.add macListOption)

/-- The two calls. -/
inductive BlacklistCall where
  | add (req : AddBlacklistRequest)
  | del (mac : Option (List UInt8))

/-- What a call writes, if it writes. -/
def BlacklistCall.items (call : BlacklistCall) (blacklist : Option UciValue) :
    Except LanFault (Option (List (List UInt8))) :=
  match call with
  | .add req => addMacBlacklist blacklist req
  | .del mac => delMacBlacklist blacklist mac

/-! ## 2. What they are for -/

/-- The addresses of a request. -/
def AddBlacklistRequest.texts (req : AddBlacklistRequest) : List (Option (List UInt8)) :=
  req.mac.toList ++ req.macList.getD []

/-- The addresses that some texts name. -/
def namedMacs (texts : List (Option (List UInt8))) : Finset (List UInt8) :=
  ((texts.map normalizeJsonMac).filter (· ≠ [])).toFinset

/-- The call names an address, and there is room for those that it names. -/
def BlacklistCall.Accepted (ledger : Finset (List UInt8)) : BlacklistCall → Prop
  | .add req => namedMacs req.texts ≠ ∅ ∧ (ledger ∪ namedMacs req.texts).card ≤ MAX_SUPPORT_DEV_NUM
  | .del mac => normalizeJsonMac mac ≠ []

instance BlacklistCall.decidableAccepted (ledger : Finset (List UInt8)) (call : BlacklistCall) :
    Decidable (call.Accepted ledger) := by
  cases call <;> unfold BlacklistCall.Accepted <;> infer_instance

/-- **The ledger behind a call.** -/
def BlacklistCall.onLedger (ledger : Finset (List UInt8)) (call : BlacklistCall) : Finset (List UInt8) :=
  if call.Accepted ledger then
    match call with
    | .add req => ledger ∪ namedMacs req.texts
    | .del mac => ledger.erase (normalizeJsonMac mac)
  else ledger

/-- The options of the section `base`, the file `MACFILTER_RULES_STATE_FILE`, and the ledger. -/
structure BlacklistState where
  options : UciOptions
  rulesChanged : Bool
  ledger : Finset (List UInt8)

/-- A call that does not leave a buffer. -/
def blacklistStep (uci : Libuci) (s : BlacklistState) (call : BlacklistCall) (t : BlacklistState) : Prop :=
  ∃ written, call.items (s.options macListOption) = .ok written ∧ t =
    { options := written.elim s.options fun macs => runEdits uci (saveMacBlacklistItems macs) s.options
      rulesChanged := s.rulesChanged || written.isSome
      ledger := call.onLedger s.ledger }

/-- A text that names nothing, or an address without blanks. -/
def PlainMac (text : Option (List UInt8)) : Prop := ∀ c ∈ normalizeJsonMac text, 33 ≤ c ∧ c < 127

/-- **The condition on a call.** -/
def BlacklistCall.Ok (_ : BlacklistState) : BlacklistCall → Prop
  | .add req => ∀ text ∈ req.texts, PlainMac text
  | .del mac => PlainMac mac

/-! ## 3. Addresses as they are stored -/

/-- An address of the blacklist: upper case, at most 31 bytes, and no blanks. -/
structure BlacklistEntry (t : List UInt8) : Prop where
  nonempty : t ≠ []
  length_le : t.length ≤ 31
  visible : ∀ c ∈ t, 33 ≤ c ∧ c < 127
  upper : ∀ c ∈ t, ¬ (97 ≤ c ∧ c ≤ 122)

theorem toupper_upper (c : UInt8) : ¬ (97 ≤ toupper c ∧ toupper c ≤ 122) :=
  forall_byte (p := fun c => ¬ (97 ≤ toupper c ∧ toupper c ≤ 122)) (by decide +kernel) c

theorem toupper_of_upper {c : UInt8} (h : ¬ (97 ≤ c ∧ c ≤ 122)) : toupper c = c := by
  rw [toupper, if_neg (by simpa using h)]

theorem isspace_visible (c : UInt8) : 33 ≤ c ∧ c < 127 → isspace c = false :=
  forall_byte (p := fun c => 33 ≤ c ∧ c < 127 → isspace c = false) (by decide +kernel) c

theorem tolower_toupper (c : UInt8) : tolower (toupper c) = tolower c :=
  forall_byte (p := fun c => tolower (toupper c) = tolower c) (by decide +kernel) c

theorem toupper_tolower (c : UInt8) : toupper (tolower c) = toupper c :=
  forall_byte (p := fun c => toupper (tolower c) = toupper c) (by decide +kernel) c

theorem map_toupper_of_upper {t : List UInt8} (h : ∀ c ∈ t, ¬ (97 ≤ c ∧ c ≤ 122)) : t.map toupper = t :=
  (List.map_congr_left fun c hc => toupper_of_upper (h c hc)).trans (List.map_id t)

/-- A stored address is the given one in upper case iff they are equal up to case. -/
theorem caseEq_upper {t mac : List UInt8} (h : ∀ c ∈ t, ¬ (97 ≤ c ∧ c ≤ 122)) :
    caseEq t mac = true ↔ t = mac.map toupper := by
  rw [caseEq, decide_eq_true_eq]
  constructor
  · intro heq
    have hup := congrArg (List.map toupper) heq
    simp only [List.map_map, Function.comp_def, toupper_tolower] at hup
    rwa [map_toupper_of_upper h] at hup
  · rintro rfl
    simp only [List.map_map, Function.comp_def, tolower_toupper]

/-- **What the normalising leaves** is stored as it is. -/
theorem blacklistEntry_normalize {text : Option (List UInt8)} (h : PlainMac text) (hne : normalizeJsonMac text ≠ []) :
    BlacklistEntry (normalizeJsonMac text) where
  nonempty := hne
  length_le := by
    cases text with
    | none => exact absurd rfl hne
    | some text =>
      rw [normalizeJsonMac, Option.map_some, Option.getD_some, normalizeMacValue, List.length_map]
      exact List.length_take_le 31 _
  visible := h
  upper := by
    intro c hc
    cases text with
    | none => exact absurd rfl hne
    | some text =>
      rw [normalizeJsonMac, Option.map_some, Option.getD_some, normalizeMacValue] at hc
      obtain ⟨b, -, rfl⟩ := List.mem_map.mp hc
      exact toupper_upper b

theorem normalizeMacValue_entry {t : List UInt8} (h : BlacklistEntry t) : normalizeMacValue t = t := by
  rw [normalizeMacValue, trimSpaces_of_forall fun c hc => isspace_visible c (h.visible c hc),
    List.take_of_length_le h.length_le, map_toupper_of_upper h.upper]

theorem blank_not_mem {t : List UInt8} (h : BlacklistEntry t) : (32 : UInt8) ∉ t := fun hmem =>
  absurd (h.visible 32 hmem).1 (by decide)

theorem BlacklistEntry.printable {t : List UInt8} (h : BlacklistEntry t) : IsPrintable t := fun c hc =>
  ⟨UInt8.le_trans (by decide) (h.visible c hc).1, (h.visible c hc).2⟩

/-- Among stored addresses equality up to case is equality. -/
theorem any_caseEq_iff {macs : List (List UInt8)} (h : ∀ t ∈ macs, BlacklistEntry t) (mac : List UInt8) :
    macs.any (caseEq · mac) = true ↔ mac.map toupper ∈ macs := by
  rw [List.any_eq_true]
  constructor
  · rintro ⟨t, ht, heq⟩
    rw [(caseEq_upper (h t ht).upper).mp heq] at ht
    exact ht
  · intro hmem
    exact ⟨_, hmem, (caseEq_upper (h _ hmem).upper).mpr rfl⟩

/-! ## 4. The array against the set -/

/-- The array has the addresses of this set, each once. -/
structure BlacklistArray (macs : List (List UInt8)) (ledger : Finset (List UInt8)) : Prop where
  nodup : macs.Nodup
  mem : ∀ t, t ∈ macs ↔ t ∈ ledger
  entries : ∀ t ∈ macs, BlacklistEntry t
  few : ledger.card ≤ MAX_SUPPORT_DEV_NUM

namespace BlacklistArray

variable {macs : List (List UInt8)} {ledger : Finset (List UInt8)}

theorem length_eq (h : BlacklistArray macs ledger) : macs.length = ledger.card := by
  have hset : macs.toFinset = ledger := Finset.ext fun t => by rw [List.mem_toFinset, h.mem]
  rw [← hset, List.toFinset_card_of_nodup h.nodup]

/-- One address more. -/
theorem insert (h : BlacklistArray macs ledger) {t : List UInt8} (ht : BlacklistEntry t) (hnew : t ∉ macs)
    (hroom : macs.length < MAX_SUPPORT_DEV_NUM) : BlacklistArray (macs ++ [t]) (Insert.insert t ledger) where
  nodup := List.nodup_append.mpr ⟨h.nodup, List.nodup_singleton t, fun a ha b hb hab =>
    hnew (by rw [← List.mem_singleton.mp hb, ← hab]; exact ha)⟩
  mem := fun u => by rw [List.mem_append, List.mem_singleton, Finset.mem_insert, h.mem, or_comm]
  entries := fun u hu => (List.mem_append.mp hu).elim (h.entries u) fun hu => List.mem_singleton.mp hu ▸ ht
  few := by
    have hcard : (Insert.insert t ledger).card = ledger.card + 1 :=
      Finset.card_insert_of_notMem fun hmem => hnew ((h.mem t).mpr hmem)
    rw [hcard, ← h.length_eq]
    exact hroom

end BlacklistArray

theorem namedMacs_cons (text : Option (List UInt8)) (rest : List (Option (List UInt8))) :
    namedMacs (text :: rest) =
      if normalizeJsonMac text = [] then namedMacs rest else insert (normalizeJsonMac text) (namedMacs rest) := by
  rw [namedMacs, namedMacs, List.map_cons, List.filter_cons]
  by_cases h : normalizeJsonMac text = [] <;> simp [h]

/-- **The loop against the set**, by induction on the texts. -/
theorem addList_spec : ∀ (texts : List (Option (List UInt8))) (s : BlacklistAdd) (ledger : Finset (List UInt8)),
    (∀ text ∈ texts, PlainMac text) → BlacklistArray s.macs ledger →
    ((s.addList texts).validCount = 0 ↔ s.validCount = 0 ∧ namedMacs texts = ∅) ∧
    ((ledger ∪ namedMacs texts).card ≤ MAX_SUPPORT_DEV_NUM →
      (s.addList texts).overflow = s.overflow ∧
        BlacklistArray (s.addList texts).macs (ledger ∪ namedMacs texts)) ∧
    (MAX_SUPPORT_DEV_NUM < (ledger ∪ namedMacs texts).card → (s.addList texts).overflow = true)
  | [], s, ledger, _, h => by
    have hnone : namedMacs [] = ∅ := rfl
    rw [BlacklistAdd.addList, hnone, Finset.union_empty]
    exact ⟨by simp, fun _ => ⟨rfl, h⟩, fun hmany => absurd h.few (Nat.not_le.mpr hmany)⟩
  | text :: rest, s, ledger, hplain, h => by
    have hrest : ∀ t ∈ rest, PlainMac t := fun t ht => hplain t (List.mem_cons_of_mem _ ht)
    rw [BlacklistAdd.addList, BlacklistAdd.add, namedMacs_cons]
    by_cases hempty : normalizeJsonMac text = []
    · rw [if_pos hempty, if_pos hempty]
      exact addList_spec rest s ledger hrest h
    · have hentry := blacklistEntry_normalize (hplain text (List.mem_cons_self ..)) hempty
      have hhas : macBlacklistHasItem s.macs (normalizeJsonMac text) = true ↔ normalizeJsonMac text ∈ ledger := by
        rw [macBlacklistHasItem, ← h.mem, Bool.and_eq_true, decide_eq_true_eq, any_caseEq_iff h.entries,
          map_toupper_of_upper hentry.upper]
        exact and_iff_right hempty
      rw [if_neg hempty, if_neg hempty]
      dsimp only
      by_cases hold : normalizeJsonMac text ∈ ledger
      · obtain ⟨hcount, hroom, hfull⟩ :=
          addList_spec rest { s with validCount := s.validCount + 1 } ledger hrest h
        rw [if_pos (hhas.mpr hold), Finset.union_insert, Finset.insert_eq_of_mem (Finset.mem_union_left _ hold)]
        refine ⟨?_, hroom, hfull⟩
        simp [hcount]
      · rw [if_neg (hhas.not.mpr hold), Finset.union_insert]
        by_cases hmax : MAX_SUPPORT_DEV_NUM ≤ s.macs.length
        · rw [if_pos hmax, if_pos rfl]
          have hcard : MAX_SUPPORT_DEV_NUM < (insert (normalizeJsonMac text) (ledger ∪ namedMacs rest)).card := by
            rw [h.length_eq] at hmax
            have hmore : (insert (normalizeJsonMac text) ledger).card = ledger.card + 1 :=
              Finset.card_insert_of_notMem hold
            have hle : (insert (normalizeJsonMac text) ledger).card ≤
                (insert (normalizeJsonMac text) (ledger ∪ namedMacs rest)).card :=
              Finset.card_le_card (Finset.insert_subset_insert _ Finset.subset_union_left)
            omega
          exact ⟨by simp, fun hfit => absurd hfit (Nat.not_le.mpr hcard), fun _ => rfl⟩
        · rw [if_neg hmax, if_neg Bool.false_ne_true]
          have hnew : normalizeJsonMac text ∉ s.macs := fun hmem => hold ((h.mem _).mp hmem)
          obtain ⟨hcount, hroom, hfull⟩ := addList_spec rest
            { s with macs := s.macs ++ [normalizeJsonMac text], validCount := s.validCount + 1 } _ hrest
            (h.insert hentry hnew (Nat.lt_of_not_le hmax))
          rw [Finset.insert_union] at hroom hfull
          refine ⟨?_, hroom, hfull⟩
          simp [hcount]

/-! ## 5. The stored list -/

/-- The stored list is this set, sorted. -/
structure BlacklistStored (value : Option UciValue) (ledger : Finset (List UInt8)) : Prop
    extends BlacklistArray (storedItems value) ledger where
  sorted : (storedItems value).Pairwise fun a b => a.map tolower ≤ b.map tolower

theorem blacklistStored_none : BlacklistStored none ∅ where
  nodup := List.nodup_nil
  mem := fun t => iff_of_false List.not_mem_nil (Finset.notMem_empty t)
  entries := fun _ ht => absurd ht List.not_mem_nil
  few := Nat.zero_le _
  sorted := List.Pairwise.nil

/-- Entries fit `list_buf`: 64 of them, each with a blank. -/
theorem flatMap_entries_length : ∀ {items : List (List UInt8)}, (∀ t ∈ items, BlacklistEntry t) →
    (items.flatMap (32 :: ·)).length ≤ 32 * items.length
  | [], _ => Nat.le_refl _
  | t :: items, h => by
    have ht := (h t (List.mem_cons_self ..)).length_le
    have hrest := flatMap_entries_length fun u hu => h u (List.mem_cons_of_mem _ hu)
    rw [List.flatMap_cons, List.length_append, List.length_cons, List.length_cons]
    omega

theorem intercalate_entries_length {items : List (List UInt8)} (h : ∀ t ∈ items, BlacklistEntry t) :
    ([32].intercalate items).length ≤ 32 * items.length := by
  cases items with
  | nil => exact Nat.le_refl _
  | cons t items =>
    have ht := (h t (List.mem_cons_self ..)).length_le
    have hrest := flatMap_entries_length fun u hu => h u (List.mem_cons_of_mem _ hu)
    rw [intercalate_cons_eq, List.length_append, List.length_cons]
    omega

/-- Entries that are not there yet are taken one after the other. -/
theorem foldl_loadBlacklistItem {maxCount : Nat} : ∀ (items macs : List (List UInt8)), (macs ++ items).Nodup →
    (∀ t ∈ macs ++ items, BlacklistEntry t) → (macs ++ items).length ≤ maxCount →
    items.foldl (loadBlacklistItem maxCount) macs = macs ++ items
  | [], macs, _, _, _ => (List.append_nil macs).symm
  | t :: items, macs, hnodup, hentries, hlen => by
    have ht : BlacklistEntry t := hentries t (by simp)
    have hmacs : ∀ u ∈ macs, BlacklistEntry u := fun u hu => hentries u (List.mem_append_left _ hu)
    have hnew : macs.any (caseEq · t) = false := by
      rw [Bool.eq_false_iff]
      intro hany
      rw [any_caseEq_iff hmacs, map_toupper_of_upper ht.upper] at hany
      exact (List.nodup_append.mp hnodup).2.2 t hany t (List.mem_cons_self ..) rfl
    have hroom : macs.length < maxCount := by
      rw [List.length_append, List.length_cons] at hlen
      omega
    rw [List.append_cons] at hnodup hentries hlen
    rw [List.foldl_cons, loadBlacklistItem, normalizeMacValue_entry ht, if_pos ⟨hroom, ht.nonempty, hnew⟩,
      foldl_loadBlacklistItem items _ hnodup hentries hlen, ← List.append_cons]

variable {value : Option UciValue} {ledger : Finset (List UInt8)}

/-- The words in `list_buf` are the stored items. -/
theorem listBuf_stored (h : BlacklistStored value ledger) :
    ∃ text, uciGetListValue .listBuf 4096 value = .ok text ∧ words 32 (text.getD []) = storedItems value := by
  have hlen : (storedItems value).length ≤ MAX_SUPPORT_DEV_NUM := h.length_eq ▸ h.few
  have hfits : ([32].intercalate (storedItems value)).length < 4096 := by
    have := intercalate_entries_length h.entries
    rw [MAX_SUPPORT_DEV_NUM] at hlen
    omega
  obtain ⟨text, hget, htext⟩ := (uciGetListValue_eq .listBuf (by decide) value).1 hfits
  refine ⟨text, hget, ?_⟩
  rw [htext]
  exact words_intercalate (fun t ht => blank_not_mem (h.entries t ht)) fun t ht => (h.entries t ht).nonempty

/-- **What is stored is loaded**, and stays inside of `list_buf`. -/
theorem loadMacBlacklistItems_stored (h : BlacklistStored value ledger) :
    loadMacBlacklistItems value MAX_SUPPORT_DEV_NUM = .ok (storedItems value) := by
  have hlen : ([] ++ storedItems value).length ≤ MAX_SUPPORT_DEV_NUM := by
    rw [List.nil_append, h.length_eq]
    exact h.few
  obtain ⟨text, hget, hwords⟩ := listBuf_stored h
  rw [loadMacBlacklistItems, hget]
  simp only [bind, Except.bind, pure, Except.pure, hwords, blacklistItems]
  rw [foldl_loadBlacklistItem (storedItems value) [] h.nodup h.entries hlen, List.nil_append,
    h.sorted.insertionSort_eq]

/-- The page of a client finds its address in whatever case. -/
theorem isMacInBlacklistUci_stored (h : BlacklistStored value ledger) (mac : List UInt8) :
    isMacInBlacklistUci value mac = .ok (decide (mac.map toupper ∈ ledger)) := by
  by_cases hmac : mac = []
  · have hno : mac.map toupper ∉ ledger := fun hmem =>
      (h.entries _ ((h.mem _).mpr hmem)).nonempty (by rw [hmac, List.map_nil])
    rw [isMacInBlacklistUci, if_pos hmac, decide_eq_false hno]
  · obtain ⟨text, hget, hwords⟩ := listBuf_stored h
    have hhas : (storedItems value).any (caseEq · mac) = decide (mac.map toupper ∈ ledger) := by
      rw [Bool.eq_iff_iff, any_caseEq_iff h.entries, h.mem, decide_eq_true_eq]
    rw [isMacInBlacklistUci, if_neg hmac, hget]
    simp only [bind, Except.bind, pure, Except.pure, hwords, hhas]

/-- The list of the clients does too. -/
theorem isBlacklistMac_stored (h : BlacklistStored value ledger) (mac : List UInt8) :
    isBlacklistMac (storedItems value) mac = true ↔ mac.map toupper ∈ ledger := by
  rw [isBlacklistMac, Bool.and_eq_true, decide_eq_true_eq, any_caseEq_iff h.entries, h.mem, and_iff_right_iff_imp]
  rintro hmem rfl
  exact (h.entries _ ((h.mem _).mpr hmem)).nonempty rfl

/-- The addresses of the rule manager. -/
theorem macSet_stored (h : BlacklistStored value ledger) :
    macSet (loadMacBlacklist ((storedItems value).map CStr.ofBytes)) =
      {mac | ∃ t ∈ ledger, macStrToBin (some (.ofBytes t)) = some mac} := by
  rw [macSet_loadMacBlacklist]
  ext mac
  constructor
  · rintro ⟨text, htext, hmac⟩
    obtain ⟨t, ht, rfl⟩ := List.mem_map.mp htext
    exact ⟨t, (h.mem t).mp ht, hmac⟩
  · rintro ⟨t, ht, hmac⟩
    exact ⟨_, List.mem_map_of_mem ((h.mem t).mpr ht), hmac⟩

/-! ## 6. The calls on the stored list -/

/-- The array is sorted before it is stored. -/
theorem BlacklistArray.sort {macs : List (List UInt8)} (h : BlacklistArray macs ledger) :
    BlacklistArray (macs.insertionSort fun a b => a.map tolower ≤ b.map tolower) ledger where
  nodup := (List.perm_insertionSort _ _).nodup_iff.mpr h.nodup
  mem := fun t => by rw [List.mem_insertionSort, h.mem]
  entries := fun t ht => h.entries t ((List.mem_insertionSort _).mp ht)
  few := h.few

/-- What a call writes. -/
structure Written (macs : List (List UInt8)) (ledger : Finset (List UInt8)) : Prop
    extends BlacklistArray macs ledger where
  sorted : macs.Pairwise fun a b => a.map tolower ≤ b.map tolower

theorem namedMacs_append (a b : List (Option (List UInt8))) : namedMacs (a ++ b) = namedMacs a ∪ namedMacs b := by
  rw [namedMacs, List.map_append, List.filter_append, List.toFinset_append]
  rfl

/-- An overflow stays. -/
theorem addList_overflow : ∀ (texts : List (Option (List UInt8))) (s : BlacklistAdd), s.overflow = true →
    (s.addList texts).overflow = true
  | [], _, h => h
  | text :: rest, s, h => by
    have hadd : (s.add text).1.overflow = true := by
      rw [BlacklistAdd.add]
      dsimp only
      split
      · exact h
      · split
        · exact h
        · split
          · rfl
          · exact h
    rw [BlacklistAdd.addList]
    split
    · exact hadd
    · exact addList_overflow rest _ hadd

/-- `mac` is a list of one, and `mac_list` comes behind it. -/
theorem addList_single (s : BlacklistAdd) (text : Option (List UInt8)) : s.addList [text] = (s.add text).1 := by
  rw [BlacklistAdd.addList, BlacklistAdd.addList, ite_self]

/-- **A whole request against the set.** -/
theorem addRequest_spec {macs : List (List UInt8)} (h : BlacklistArray macs ledger)
    {a b : List (Option (List UInt8))} (hplain : ∀ text ∈ a ++ b, PlainMac text) {s : BlacklistAdd}
    (hs : s = ((⟨macs, 0, false⟩ : BlacklistAdd).addList a).addList b) :
    (namedMacs (a ++ b) ≠ ∅ ∧ (ledger ∪ namedMacs (a ++ b)).card ≤ MAX_SUPPORT_DEV_NUM →
      s.validCount ≠ 0 ∧ s.overflow = false ∧ BlacklistArray s.macs (ledger ∪ namedMacs (a ++ b))) ∧
    (¬ (namedMacs (a ++ b) ≠ ∅ ∧ (ledger ∪ namedMacs (a ++ b)).card ≤ MAX_SUPPORT_DEV_NUM) →
      s.validCount = 0 ∨ s.overflow = true) := by
  subst hs
  obtain ⟨hcount, hroom, hfull⟩ := addList_spec a ⟨macs, 0, false⟩ ledger
    (fun t ht => hplain t (List.mem_append_left _ ht)) h
  rw [namedMacs_append]
  rcases Nat.lt_or_ge MAX_SUPPORT_DEV_NUM (ledger ∪ namedMacs a).card with hmany | hfew
  · -- there is no room for the first part already
    have hmore : (ledger ∪ namedMacs a).card ≤ (ledger ∪ (namedMacs a ∪ namedMacs b)).card :=
      Finset.card_le_card (Finset.union_subset_union_right Finset.subset_union_left)
    exact ⟨fun hfit => absurd (hmore.trans hfit.2) (Nat.not_le.mpr hmany),
      fun _ => .inr (addList_overflow b _ (hfull hmany))⟩
  · obtain ⟨hover, harray⟩ := hroom hfew
    obtain ⟨hcount', hroom', hfull'⟩ := addList_spec b _ _
      (fun t ht => hplain t (List.mem_append_right _ ht)) harray
    rw [Finset.union_assoc] at hroom' hfull'
    have hzero : (((⟨macs, 0, false⟩ : BlacklistAdd).addList a).addList b).validCount = 0 ↔
        namedMacs a ∪ namedMacs b = ∅ := by
      rw [hcount', hcount, Finset.union_eq_empty]
      simp
    constructor
    · rintro ⟨hne, hfit⟩
      obtain ⟨hover', harray'⟩ := hroom' hfit
      exact ⟨hzero.not.mpr hne, hover'.trans hover, harray'⟩
    · intro hno
      by_cases hne : namedMacs a ∪ namedMacs b = ∅
      · exact .inl (hzero.mpr hne)
      · exact .inr (hfull' (Nat.lt_of_not_le fun hfit => hno ⟨hne, hfit⟩))

theorem addMacBlacklist_spec (h : BlacklistStored value ledger) {req : AddBlacklistRequest}
    (hplain : ∀ text ∈ req.texts, PlainMac text) :
    ((BlacklistCall.add req).Accepted ledger → ∃ macs, addMacBlacklist value req = .ok (some macs) ∧
      Written macs (ledger ∪ namedMacs req.texts)) ∧
    (¬ (BlacklistCall.add req).Accepted ledger → addMacBlacklist value req = .ok none) := by
  have hmac : ∀ s : BlacklistAdd, (req.mac.elim s fun mac => (s.add mac).1) = s.addList req.mac.toList := by
    intro s
    cases req.mac with
    | none => rfl
    | some mac => exact (addList_single s mac).symm
  have hlist : ∀ s : BlacklistAdd, req.macList.elim s s.addList = s.addList (req.macList.getD []) := by
    intro s
    cases req.macList <;> rfl
  obtain ⟨hyes, hno⟩ := addRequest_spec h.toBlacklistArray hplain rfl
  rw [addMacBlacklist, loadMacBlacklistItems_stored h]
  simp only [bind, Except.bind, hmac, hlist]
  constructor
  · intro haccepted
    obtain ⟨hcount, hover, harray⟩ := hyes haccepted
    rw [if_neg (by simp [hcount, hover])]
    exact ⟨_, rfl, harray.sort, List.pairwise_insertionSort _ _⟩
  · intro hrefused
    rw [if_pos (hno hrefused)]
    rfl

theorem delMacBlacklist_spec (h : BlacklistStored value ledger) (mac : Option (List UInt8)) (hplain : PlainMac mac) :
    ((BlacklistCall.del mac).Accepted ledger → ∃ macs, delMacBlacklist value mac = .ok (some macs) ∧
      Written macs (ledger.erase (normalizeJsonMac mac))) ∧
    (¬ (BlacklistCall.del mac).Accepted ledger → delMacBlacklist value mac = .ok none) := by
  rw [delMacBlacklist]
  constructor
  · intro haccepted
    have hentry := blacklistEntry_normalize hplain haccepted
    have hother : ∀ t ∈ storedItems value, (!caseEq t (normalizeJsonMac mac)) = true ↔ t ≠ normalizeJsonMac mac := by
      intro t ht
      rw [Bool.not_eq_true', Bool.eq_false_iff, ne_eq, caseEq_upper (h.entries t ht).upper,
        map_toupper_of_upper hentry.upper]
    rw [if_neg (show ¬ normalizeJsonMac mac = [] from haccepted), loadMacBlacklistItems_stored h]
    refine ⟨_, rfl, ⟨h.nodup.filter _, fun t => ?_, fun t ht => h.entries t (List.mem_of_mem_filter ht), ?_⟩,
      h.sorted.filter _⟩
    · rw [List.mem_filter, Finset.mem_erase, ← h.mem]
      constructor
      · rintro ⟨ht, hne⟩
        exact ⟨(hother t ht).mp hne, ht⟩
      · rintro ⟨hne, ht⟩
        exact ⟨ht, (hother t ht).mpr hne⟩
    · exact (Finset.card_erase_le).trans h.few
  · intro hrefused
    rw [if_pos (not_not.mp hrefused)]
    rfl

variable {uci : Libuci}

/-- The texts are added in their order. -/
theorem foldl_adds (huci : uci.KeepsTexts) (name : List UInt8) : ∀ (texts items : List (List UInt8)),
    (∀ t ∈ texts, BlacklistEntry t) →
    (texts.map (UciEdit.add name)).foldl (fun value edit => edit.value uci value) (some (.list items)) =
      some (.list (items ++ texts))
  | [], items, _ => by rw [List.append_nil]; rfl
  | t :: texts, items, h => by
    have ht := h t (List.mem_cons_self ..)
    rw [List.map_cons, List.foldl_cons, UciEdit.value, huci.addList items t ht.nonempty ht.printable,
      foldl_adds huci name texts _ fun u hu => h u (List.mem_cons_of_mem _ hu), ← List.append_cons]

/-- **The list that is written** is the one that is stored. -/
theorem stored_save (huci : uci.KeepsTexts) {macs : List (List UInt8)} (h : Written macs ledger)
    (options : UciOptions) :
    BlacklistStored (runEdits uci (saveMacBlacklistItems macs) options macListOption) ledger := by
  have hall : macs.filter (· ≠ []) = macs :=
    List.filter_eq_self.mpr fun t ht => decide_eq_true (h.entries t ht).nonempty
  have hstored : storedItems (runEdits uci (saveMacBlacklistItems macs) options macListOption) = macs := by
    rw [saveMacBlacklistItems, hall, runEdits, List.foldl_cons, ← runEdits, runEdits_textAdds]
    have hgone : (UciEdit.delete macListOption).run uci options macListOption = none := Function.update_self ..
    rw [hgone]
    cases macs with
    | nil => rfl
    | cons t macs =>
      have ht := h.entries t (List.mem_cons_self ..)
      rw [List.map_cons, List.foldl_cons, UciEdit.value, huci.addNone t ht.nonempty ht.printable,
        foldl_adds huci _ macs [t] fun u hu => h.entries u (List.mem_cons_of_mem _ hu)]
      rfl
  refine ⟨?_, ?_⟩
  · rw [hstored]
    exact h.toBlacklistArray
  · rw [hstored]
    exact h.sorted

/-- **One call.**  It does not leave a buffer, and what it stores is the ledger behind it. -/
theorem call_stored {s : BlacklistState} (h : BlacklistStored (s.options macListOption) s.ledger)
    {call : BlacklistCall} (hok : call.Ok s) :
    ∃ written, call.items (s.options macListOption) = .ok written ∧ (written.isSome = true ↔ call.Accepted s.ledger) ∧
      ∀ macs, written = some macs → Written macs (call.onLedger s.ledger) := by
  have hspec : (call.Accepted s.ledger → ∃ macs, call.items (s.options macListOption) = .ok (some macs) ∧
      Written macs (call.onLedger s.ledger)) ∧
      (¬ call.Accepted s.ledger → call.items (s.options macListOption) = .ok none) := by
    cases call with
    | add req =>
      refine ⟨fun haccepted => ?_, (addMacBlacklist_spec h hok).2⟩
      rw [BlacklistCall.onLedger, if_pos haccepted]
      exact (addMacBlacklist_spec h hok).1 haccepted
    | del mac =>
      refine ⟨fun haccepted => ?_, (delMacBlacklist_spec h mac hok).2⟩
      rw [BlacklistCall.onLedger, if_pos haccepted]
      exact (delMacBlacklist_spec h mac hok).1 haccepted
  by_cases haccepted : call.Accepted s.ledger
  · obtain ⟨macs, hitems, hwritten⟩ := hspec.1 haccepted
    refine ⟨some macs, hitems, iff_of_true rfl haccepted, fun m hm => ?_⟩
    obtain rfl := Option.some.inj hm
    exact hwritten
  · exact ⟨none, hspec.2 haccepted, iff_of_false Bool.false_ne_true haccepted, fun _ hm => nomatch hm⟩

/-- The invariant of a run. -/
structure BlacklistKept (s : BlacklistState) : Prop where
  stored : BlacklistStored (s.options macListOption) s.ledger
  /-- The rule manager was told of every change. -/
  told : s.ledger ≠ ∅ → s.rulesChanged = true

theorem blacklistStep_kept (huci : uci.KeepsTexts) (s : BlacklistState) (call : BlacklistCall) (t : BlacklistState)
    (h : BlacklistKept s) (hok : call.Ok s) (hstep : blacklistStep uci s call t) : BlacklistKept t := by
  obtain ⟨written, hitems, rfl⟩ := hstep
  obtain ⟨written', hitems', haccepted, hwritten⟩ := call_stored h.stored hok
  rw [hitems] at hitems'
  obtain rfl := Except.ok.inj hitems'
  cases written with
  | none =>
    have hsame : call.onLedger s.ledger = s.ledger := if_neg (haccepted.not.mp Bool.false_ne_true)
    refine ⟨?_, fun hne => ?_⟩
    · dsimp only [Option.elim]
      rw [hsame]
      exact h.stored
    · dsimp only at hne ⊢
      rw [hsame] at hne
      rw [h.told hne]
      rfl
  | some macs => exact ⟨stored_save huci (hwritten macs rfl) s.options, fun _ => Bool.or_true _⟩

/-- **In every run of the calls** the stored list is the ledger: sorted, every address once, 64 at most.  No call
leaves a buffer, and one is refused exactly if it names no address or one for which there is no room.  The list of the
clients and the page of a client find exactly the addresses of the ledger, in whatever case, and the rule manager loads
them. -/
theorem blacklist_kept (huci : uci.KeepsTexts) {options : UciOptions} (hstart : options macListOption = none)
    {s : BlacklistState} (h : Reaches (blacklistStep uci) BlacklistCall.Ok ⟨options, false, ∅⟩ s) :
    BlacklistKept s ∧
    (∀ call : BlacklistCall, call.Ok s → ∃ written, call.items (s.options macListOption) = .ok written ∧
      (written.isSome = true ↔ call.Accepted s.ledger)) ∧
    loadMacBlacklistItems (s.options macListOption) MAX_SUPPORT_DEV_NUM = .ok (storedItems (s.options macListOption)) ∧
    (∀ mac, (isBlacklistMac (storedItems (s.options macListOption)) mac = true ↔ mac.map toupper ∈ s.ledger) ∧
      isMacInBlacklistUci (s.options macListOption) mac = .ok (decide (mac.map toupper ∈ s.ledger))) ∧
    macSet (loadMacBlacklist ((storedItems (s.options macListOption)).map CStr.ofBytes)) =
      {mac | ∃ t ∈ s.ledger, macStrToBin (some (.ofBytes t)) = some mac} := by
  have hinit : BlacklistKept ⟨options, false, ∅⟩ :=
    ⟨by dsimp only; rw [hstart]; exact blacklistStored_none, fun hne => absurd rfl hne⟩
  have hkept := h.invariant (blacklistStep_kept huci) hinit
  refine ⟨hkept, fun call hok => ?_, loadMacBlacklistItems_stored hkept.stored, fun mac => ⟨?_, ?_⟩, ?_⟩
  · obtain ⟨written, hitems, haccepted, -⟩ := call_stored hkept.stored hok
    exact ⟨written, hitems, haccepted⟩
  · exact isBlacklistMac_stored hkept.stored mac
  · exact isMacInBlacklistUci_stored hkept.stored mac
  · exact macSet_stored hkept.stored

/-- The page adds two addresses. -/
def addTwo : BlacklistCall :=
  .add { mac := some (some (ascii "02:00:00:00:00:a7")), macList := some [some (ascii " 02:00:00:00:00:B8"), none] }

/-- It takes one back. -/
def delOne : BlacklistCall := .del (some (ascii "02:00:00:00:00:b8"))

theorem blacklist_kept_two : ∃ s,
    Reaches (blacklistStep MacFilter.plainUci) BlacklistCall.Ok ⟨fun _ => none, false, ∅⟩ s ∧
      s.ledger = {ascii "02:00:00:00:00:A7"} ∧ BlacklistKept s ∧
      isMacInBlacklistUci (s.options macListOption) (ascii "02:00:00:00:00:a7") = .ok true := by
  have hadd : addTwo.Ok ⟨fun _ => none, false, ∅⟩ := by
    unfold BlacklistCall.Ok addTwo PlainMac
    decide +kernel
  have hdel : ∀ s, delOne.Ok s := by
    intro s
    unfold BlacklistCall.Ok delOne PlainMac
    decide +kernel
  obtain ⟨first, hfirst, -⟩ := (blacklist_kept plainUci_keepsTexts rfl .refl).2.1 addTwo hadd
  have hstep : blacklistStep MacFilter.plainUci ⟨fun _ => none, false, ∅⟩ addTwo _ := ⟨first, hfirst, rfl⟩
  have hone := Reaches.tail .refl hadd hstep
  obtain ⟨second, hsecond, -⟩ := (blacklist_kept plainUci_keepsTexts rfl hone).2.1 delOne (hdel _)
  have hstep' : blacklistStep MacFilter.plainUci _ delOne _ := ⟨second, hsecond, rfl⟩
  have htwo := Reaches.tail hone (hdel _) hstep'
  have hledger : delOne.onLedger (addTwo.onLedger ∅) = {ascii "02:00:00:00:00:A7"} := by decide +kernel
  obtain ⟨hkept, -, -, hfound, -⟩ := blacklist_kept plainUci_keepsTexts rfl htwo
  refine ⟨_, htwo, hledger, hkept, ?_⟩
  rw [(hfound (ascii "02:00:00:00:00:a7")).2]
  refine congrArg Except.ok (decide_eq_true ?_)
  dsimp only
  rw [hledger]
  decide

end Oaf
