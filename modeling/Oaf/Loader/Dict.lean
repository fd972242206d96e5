/-
# The payload dictionary of a feature

A `dict` field is a list of items `pos:hex`, joined by `|`.  `__add_app_feature` should store
the first sixteen of them.

Its loop stops at fifteen entries, where the `begin` it has just set is one past `p`; the copy
of the last item then has a length of -1.  So sixteen items overrun `pos`, and fifteen are the
most that are stored.  An item of 64 bytes fills `pos` without a terminator, and `%x` reads on
behind the array.

* `parsePosInfo_dict_iff`: the items are stored iff there are at most fifteen, each of them
  shorter than `pos`.
-/
import Oaf.Lib.Words
import Oaf.Loader.Spec

namespace Oaf

open CLib

/-! ## 1. Items -/

/-- One item: a decimal `int`, a colon, and one or two hexadecimal digits. -/
structure DictItem where
  neg : Bool
  digits : List UInt8
  hex : List UInt8
  digits_ne : digits ≠ []
  digits_dec : ∀ c ∈ digits, isdigit c = true
  hex_ne : hex ≠ []
  hex_hex : ∀ c ∈ hex, isxdigit c = true
  hex_len : hex.length ≤ 2
  int_lo : -2 ^ 31 ≤ Kernel.decVal neg digits
  int_hi : Kernel.decVal neg digits < 2 ^ 31

namespace DictItem

variable (item : DictItem)

def bytes : List UInt8 := Kernel.decText item.neg item.digits ++ 58 :: item.hex

theorem mem_bytes {c : UInt8} (h : c ∈ item.bytes) :
    isdigit c = true ∨ isxdigit c = true ∨ c = 45 ∨ c = 58 := by
  rw [bytes, Kernel.decText, List.mem_append, List.mem_cons] at h
  rcases h with h | h | h
  · split at h
    · rcases List.mem_cons.mp h with h | h
      · exact Or.inr (Or.inr (Or.inl h))
      · exact Or.inl (item.digits_dec c h)
    · exact Or.inl (item.digits_dec c h)
  · exact Or.inr (Or.inr (Or.inr h))
  · exact Or.inr (Or.inl (item.hex_hex c h))

theorem notMem_bytes {c : UInt8} (hdec : isdigit c = false) (hhex : isxdigit c = false)
    (hminus : c ≠ 45) (hcolon : c ≠ 58) : c ∉ item.bytes := by
  intro h
  rcases item.mem_bytes h with h | h | h | h
  · rw [hdec] at h
    cases h
  · rw [hhex] at h
    cases h
  · exact hminus h
  · exact hcolon h

/-- The item as a text. -/
def text : CStr := ⟨item.bytes, item.notMem_bytes (by decide) (by decide) (by decide) (by decide)⟩

/-- The entry it stands for, its value taken modulo 256. -/
def entry : AfPosInfo :=
  ⟨Kernel.decVal item.neg item.digits, (Kernel.ofDigits 16 item.hex).toUInt8⟩

end DictItem

/-- A `dict` field. -/
def dictStr (items : List DictItem) : CStr where
  bytes := [124].intercalate (items.map (·.bytes))
  noNul := by
    intro h
    rcases mem_intercalate h with h | ⟨l, hl, h⟩
    · exact absurd h (by decide)
    · obtain ⟨item, -, rfl⟩ := List.mem_map.mp hl
      exact item.text.noNul h

/-! ## 2. What is scanned -/

variable {item : DictItem}

/-- The item with more hexadecimal digits behind it. -/
theorem scan_dictItem {more : List UInt8} (hmore : ∀ c ∈ more, isxdigit c = true)
    (hlen : more.length ≤ 1) {text : CStr} (htext : text.bytes = item.bytes ++ more) (v : PosVals) :
    v.scan text = (2, { v with
      index := Kernel.decVal item.neg item.digits
      value := Kernel.ofDigits 16 (item.hex ++ more) }) := by
  have hhex : ∀ c ∈ item.hex ++ more, isxdigit c = true := by
    intro c hc
    rcases List.mem_append.mp hc with hc | hc
    · exact item.hex_hex c hc
    · exact hmore c hc
  have hne : item.hex ++ more ≠ [] := by simp [item.hex_ne]
  have hlen7 : (item.hex ++ more).length ≤ 7 := by
    have := item.hex_len
    rw [List.length_append]
    omega
  have hbytes : text.bytes =
      Kernel.decText item.neg item.digits ++ 58 :: (item.hex ++ more) := by
    rw [htext, DictItem.bytes, List.append_assoc, List.cons_append]
  have hd := Kernel.scanD_decText item.digits_ne item.digits_dec item.int_lo item.int_hi
    (noDigitHead_cons (c := 58) (l := item.hex ++ more) (by decide))
  have hdrop : (Kernel.decText item.neg item.digits ++ 58 :: (item.hex ++ more)).dropWhile
      CLib.isspace = Kernel.decText item.neg item.digits ++ 58 :: (item.hex ++ more) := by
    obtain ⟨c, l, hl⟩ := List.exists_cons_of_ne_nil item.digits_ne
    have hc := item.digits_dec c (by simp [hl])
    rw [Kernel.decText]
    split
    · rw [List.cons_append, List.dropWhile_cons_of_neg (by decide)]
    · rw [hl, List.cons_append, List.dropWhile_cons_of_neg (by simp [isspace_of_isdigit hc])]
  have hx := Kernel.scanX_hexDigits hne hhex hlen7
  have hxdrop : (item.hex ++ more).dropWhile CLib.isspace = item.hex ++ more := by
    obtain ⟨c, l, hl⟩ := List.exists_cons_of_ne_nil hne
    have hc := (Kernel.isxdigit_facts (hhex c (by simp [hl]))).2.2
    rw [hl, List.dropWhile_cons_of_neg (by simp [hc])]
  unfold PosVals.scan
  rw [hbytes]
  simp [Kernel.vsscanf, hdrop, hd, hxdrop, hx]

/-- The bytes behind `pos` that are read as part of an item that fills it. -/
def DictItem.behind (item : DictItem) (more : List UInt8) : List UInt8 :=
  if item.text.strlen < 64 then [] else more

/-- The entry that is stored for an item. -/
def DictItem.stored (item : DictItem) (more : List UInt8) : AfPosInfo :=
  ⟨Kernel.decVal item.neg item.digits,
    (Kernel.ofDigits 16 (item.hex ++ item.behind more)).toUInt8⟩

theorem toUInt8_of_mod (n : Nat) : ((n : Int) % 256).toNat.toUInt8 = n.toUInt8 := by
  rw [show ((n : Int) % 256).toNat = n % 256 by omega, Nat.toUInt8_eq, Nat.toUInt8_eq,
    ← UInt8.toNat_inj, UInt8.toNat_ofNat', UInt8.toNat_ofNat']
  omega

theorem push_dictItem {beyond : CStr} (hmore : ∀ c ∈ beyond.bytes, isxdigit c = true)
    (hlen : beyond.bytes.length ≤ 1) (v : PosVals) :
    (v.scan (posText beyond item.text)).2.push.posInfo =
      v.posInfo ++ [item.stored beyond.bytes] := by
  have hbehind : ∀ c ∈ item.behind beyond.bytes, isxdigit c = true := by
    rw [DictItem.behind]
    split
    · simp
    · exact hmore
  have hbehindLen : (item.behind beyond.bytes).length ≤ 1 := by
    rw [DictItem.behind]
    split
    · simp
    · exact hlen
  have htext : (posText beyond item.text).bytes = item.bytes ++ item.behind beyond.bytes := by
    rw [posText, DictItem.behind]
    split
    · rw [List.append_nil]
      rfl
    · refine CStr.ofBytes_of_noNul fun h => ?_
      rcases List.mem_append.mp h with h | h
      · exact item.text.noNul h
      · exact beyond.noNul h
  rw [scan_dictItem hbehind hbehindLen htext]
  simp only [PosVals.push, DictItem.stored, toUInt8_of_mod]

theorem foldl_dictItems {beyond : CStr} (hmore : ∀ c ∈ beyond.bytes, isxdigit c = true)
    (hlen : beyond.bytes.length ≤ 1) (items : List DictItem) (v : PosVals) :
    ((items.map (·.text)).foldl (fun (v : PosVals) t => (v.scan (posText beyond t)).2.push)
      v).posInfo = v.posInfo ++ items.map (·.stored beyond.bytes) := by
  induction items generalizing v with
  | nil => simp
  | cons item items ih =>
    rw [List.map_cons, List.foldl_cons, ih, push_dictItem hmore hlen, List.map_cons,
      List.append_assoc, List.singleton_append]

theorem tokens_dictStr (init : List DictItem) (last : DictItem) :
    tokens 124 (dictStr (init ++ [last])) = (init.map (·.text), last.text) := by
  have hbar : ∀ item : DictItem, (124 : UInt8) ∉ item.text.bytes := by
    intro item
    exact item.notMem_bytes (by decide) (by decide) (by decide) (by decide)
  refine tokens_intercalate ?_ (hbar last) ?_ ?_
  · intro t ht
    obtain ⟨item, -, rfl⟩ := List.mem_map.mp ht
    exact hbar item
  · simp only [dictStr, List.map_append, List.map_map, List.map_cons, List.map_nil]
    rfl
  · intro t ht
    have hmem : t ∈ (init ++ [last]).map (·.text) := by
      rw [List.map_append]
      exact List.mem_of_head? ht
    obtain ⟨item, -, rfl⟩ := List.mem_map.mp hmem
    simp [DictItem.text, DictItem.bytes]

theorem DictItem.stored_nil (item : DictItem) : item.stored [] = item.entry := by
  have hbehind : item.behind [] = [] := by
    rw [DictItem.behind, ite_self]
  rw [DictItem.stored, hbehind, List.append_nil, DictItem.entry]

/-- **The positions of a dictionary** whose items are copied without an overrun. -/
theorem dictPositionsRead_items {beyond : CStr} (hmore : ∀ c ∈ beyond.bytes, isxdigit c = true)
    (hlen : beyond.bytes.length ≤ 1) (init : List DictItem) (last : DictItem) :
    dictPositionsRead beyond (dictStr (init ++ [last])) =
      init.map (·.stored beyond.bytes) ++ [last.entry] := by
  have hscan : ∀ v : PosVals, v.scan last.text = (2, { v with
      index := Kernel.decVal last.neg last.digits
      value := Kernel.ofDigits 16 last.hex }) := by
    intro v
    have h := @scan_dictItem last [] (by simp) (by simp) last.text (by rw [List.append_nil]; rfl) v
    rwa [List.append_nil] at h
  have hinit := foldl_dictItems hmore hlen init {}
  rw [List.nil_append] at hinit
  rw [dictPositionsRead, tokens_dictStr]
  generalize (init.map (·.text)).foldl
    (fun (v : PosVals) t => (v.scan (posText beyond t)).2.push) {} = v at hinit ⊢
  rw [PosVals.finish, hscan, if_pos rfl]
  simp only [PosVals.push, hinit, toUInt8_of_mod, DictItem.entry]

/-! ## 3. `pos_info` -/

/-- The first sixteen items are stored, whatever lies behind the arrays. -/
def StoresItems (items : List DictItem) : Prop :=
  ∀ beyond, parsePosInfo beyond (dictStr items) =
    .ok ((items.take MAX_POS_INFO_PER_FEATURE).map (·.entry))

/-- Another digit changes the value modulo 256. -/
theorem exists_digit (v : Nat) (hv : v < 256) :
    ∃ c : UInt8, isxdigit c = true ∧ (v * 16 + Kernel.digitVal c) % 256 ≠ v % 256 := by
  rcases Nat.eq_zero_or_pos v with rfl | hpos
  · exact ⟨49, by decide, by decide⟩
  · refine ⟨48, by decide, ?_⟩
    have hzero : Kernel.digitVal 48 = 0 := by decide
    rw [hzero]
    omega

theorem DictItem.value_lt (item : DictItem) : Kernel.ofDigits 16 item.hex < 256 := by
  have hlt : Kernel.ofDigits 16 item.hex < 16 ^ item.hex.length :=
    Kernel.ofDigits_lt fun c hc => (Kernel.isxdigit_facts (item.hex_hex c hc)).1
  have hle : (16 : Nat) ^ item.hex.length ≤ 16 ^ 2 := Nat.pow_le_pow_right (by decide) item.hex_len
  omega

/-- **The items are stored iff there are fifteen at most, each shorter than its buffer.** -/
theorem parsePosInfo_dict_iff (items : List DictItem) :
    StoresItems items ↔ items.length ≤ 15 ∧ ∀ item ∈ items, item.text.strlen < 64 := by
  rcases List.eq_nil_or_concat items with rfl | ⟨init, last, rfl⟩
  · refine iff_of_true (fun beyond => ?_) (by simp)
    have hfits : DictFits (dictStr []) := ⟨by decide, by simp [dictStr, tokens], by decide⟩
    rw [parsePosInfo_ok beyond hfits, dictPositionsRead_short (by simp [dictStr, tokens])]
    rfl
  · rw [List.concat_eq_append]
    have htokens := tokens_dictStr init last
    constructor
    · intro h
      have hfits := (parsePosInfo_spec (fun _ => .empty) _).2 ⟨_, h (fun _ => .empty)⟩
      have hcount := hfits.count
      have hitems := hfits.items
      have hlast := hfits.last
      rw [htokens, List.length_map, MAX_POS_INFO_PER_FEATURE] at hcount
      rw [htokens] at hitems hlast
      refine ⟨by rw [List.length_append, List.length_singleton]; omega, ?_⟩
      intro item hitem
      rcases List.mem_append.mp hitem with hitem | hitem
      · -- an item that fills `pos` is read together with a digit behind it
        by_contra hfull
        obtain ⟨c, hc, hother⟩ := exists_digit (Kernel.ofDigits 16 item.hex) item.value_lt
        have hnul : (0 : UInt8) ∉ [c] := by
          intro h0
          rw [← List.mem_singleton.mp h0] at hc
          exact absurd hc (by decide)
        have hread := h (fun _ => ⟨[c], hnul⟩)
        have hall : (init ++ [last]).take MAX_POS_INFO_PER_FEATURE = init ++ [last] := by
          refine List.take_of_length_le ?_
          rw [List.length_append, List.length_singleton, MAX_POS_INFO_PER_FEATURE]
          omega
        rw [parsePosInfo_ok _ hfits, dictPositionsRead_items (by simpa using hc) (by simp), hall,
          List.map_append, List.map_singleton] at hread
        have hmap := List.append_cancel_right (Except.ok.inj hread)
        have hentry := List.map_inj_left.mp hmap item hitem
        have hvalue := congrArg AfPosInfo.value hentry
        simp only [DictItem.stored, DictItem.behind, if_neg hfull, DictItem.entry,
          Kernel.ofDigits_concat, Nat.toUInt8_eq, ← UInt8.toNat_inj, UInt8.toNat_ofNat'] at hvalue
        exact hother hvalue
      · rw [List.mem_singleton.mp hitem]
        exact hlast
    · rintro ⟨hcount, hshort⟩ beyond
      rw [List.length_append, List.length_singleton] at hcount
      have hinit : ∀ t ∈ init.map (·.text), t.strlen < 64 := by
        intro t ht
        obtain ⟨item, hitem, rfl⟩ := List.mem_map.mp ht
        exact hshort item (List.mem_append_left _ hitem)
      have hfits : DictFits (dictStr (init ++ [last])) := by
        refine ⟨?_, ?_, ?_⟩
        · rw [htokens, List.length_map, MAX_POS_INFO_PER_FEATURE]
          omega
        · rw [htokens]
          exact fun t ht => (hinit t ht).le
        · rw [htokens]
          exact hshort last (by simp)
      have hall : (init ++ [last]).take MAX_POS_INFO_PER_FEATURE = init ++ [last] := by
        refine List.take_of_length_le ?_
        rw [List.length_append, List.length_singleton, MAX_POS_INFO_PER_FEATURE]
        omega
      have hshort' : ∀ t ∈ (tokens 124 (dictStr (init ++ [last]))).1, t.strlen < 64 := by
        rw [htokens]
        exact hinit
      rw [parsePosInfo_ok beyond hfits, dictPositionsRead_short hshort',
        ← dictPositionsRead_short hshort' .empty, dictPositionsRead_items (by simp) (by simp), hall,
        List.map_append, List.map_singleton]
      congr 2
      exact List.map_congr_left fun item _ => item.stored_nil

/-- The item `0:0`. -/
def zeroItem : DictItem where
  neg := false
  digits := [48]
  hex := [48]
  digits_ne := by simp
  digits_dec := by simp [isdigit]
  hex_ne := by simp
  hex_hex := by simp [isxdigit, isdigit]
  hex_len := by simp
  int_lo := by decide
  int_hi := by decide

/-- **Sixteen items overrun `pos`**: the copy of the last one has a length of -1. -/
theorem sixteen_items_overrun :
    (dictStr (List.replicate 16 zeroItem)).strlen ≤ 127 ∧
      ¬ IsOk (parsePosInfo (fun _ => .empty) (dictStr (List.replicate 16 zeroItem))) ∧
      ¬ StoresItems (List.replicate 16 zeroItem) := by
  refine ⟨by decide, ?_, ?_⟩
  · intro h
    have hcount := ((parsePosInfo_spec _ _).2 h).count
    rw [show List.replicate 16 zeroItem = List.replicate 15 zeroItem ++ [zeroItem] from rfl,
      tokens_dictStr] at hcount
    exact absurd hcount (by decide)
  · intro h
    have hcount := ((parsePosInfo_spec (fun _ => .empty) _).2 ⟨_, h (fun _ => .empty)⟩).count
    rw [show List.replicate 16 zeroItem = List.replicate 15 zeroItem ++ [zeroItem] from rfl,
      tokens_dictStr] at hcount
    exact absurd hcount (by decide)

end Oaf
