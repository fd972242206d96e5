/-
# What each loader function does, once

One statement for each function of `Loader.Model`, on the texts instead of the arrays: what it
answers when its texts fit, and that it overruns an array when they do not.  `rangeOf`,
`dictPositions` and the fields of a feature are plain functions of the text; nothing behind an
array (`beyond`) shows up in them, because a text that fits is read up to its own terminator.

* `parseRangeValue_spec`, `portItem_spec`, `parsePortInfo_spec`: the port list (`PortsFit`).
* `parsePosInfo_isOk_iff`: the payload positions (`DictFits`).
* `setFields_spec`: the fields of one feature.
-/
import Oaf.Loader.Model

namespace Oaf

open CLib

/-! ## 1. Ports -/

/-- `k_trim` of a terminated string. -/
theorem kTrim_spec {n : Nat} {a : CArray n} {s : CStr} (h : ∀ b, a.read b = s) (hs : s.strlen < n)
    (e : LoaderArray) (beyond : CStr) :
    ∃ a', kTrim a e beyond = .ok a' ∧ ∀ b, a'.read b = Kernel.trimStr s := by
  unfold kTrim
  rw [h beyond]
  by_cases ht : Kernel.trim s.bytes = s.bytes
  · refine ⟨a, by simp [ht], fun b => ?_⟩
    rw [h b]
    exact CStr.ext ht.symm
  · have hlt : (Kernel.trimStr s).strlen < n :=
      Nat.lt_of_le_of_lt (Kernel.trimStr_strlen_le s) hs
    obtain ⟨a', a'', h1, h2, h3⟩ := CArray.write_store_read (a := a) (e := e) hlt
    refine ⟨a'', ?_, h3⟩
    simp only [if_neg ht]
    exact (congrArg (· >>= _) h1).trans h2

/-- The range of one item of a port list. -/
def rangeOf (item : CStr) : Option RangeValue :=
  if validateRangeValue item then
    let s := Kernel.trimStr item
    let neg := s.get 0 == 33
    scanRange neg (Kernel.trimStr (if neg then .ofBytes s.bytes.tail else s))
  else none

/-- **One item.**  It overruns `range_list` when it is valid and five ranges are there already. -/
theorem parseRangeValue_spec (beyond : Beyond) {rangeStr : CArray 128} {item : CStr}
    (h : ∀ b, rangeStr.read b = item) (hlen : item.strlen < 128) (num : Nat) :
    (num < MAX_PORT_RANGE_NUM ∨ validateRangeValue item = false →
      parseRangeValue beyond rangeStr num = .ok (rangeOf item)) ∧
    (validateRangeValue item = true → MAX_PORT_RANGE_NUM ≤ num →
      parseRangeValue beyond rangeStr num = .error .rangeList) := by
  obtain ⟨a1, h1, h2⟩ := kTrim_spec h hlen .onePortBuf (beyond .onePortBuf)
  have hlt : (Kernel.trimStr item).strlen < 128 :=
    Nat.lt_of_le_of_lt (Kernel.trimStr_strlen_le item) hlen
  unfold parseRangeValue rangeOf
  rw [h]
  cases hv : validateRangeValue item with
  | false => simp [pure, Except.pure]
  | true =>
    simp only [Bool.not_true, Bool.false_eq_true, if_false, if_true, h1, ok_bind, h2]
    refine ⟨fun hnum => ?_, fun _ hnum => by simp [hnum, throw, throwThe, MonadExceptOf.throw]⟩
    have hnum' : ¬ MAX_PORT_RANGE_NUM ≤ num := by simpa using hnum
    have hpure : (if (Kernel.trimStr item).get 0 == 33 then
        CStr.ofBytes (Kernel.trimStr item).bytes.tail else Kernel.trimStr item).strlen < 128 := by
      split
      · have h3 := CStr.ofBytes_strlen_le (Kernel.trimStr item).bytes.tail
        rw [List.length_tail] at h3
        rw [CStr.strlen] at hlt
        omega
      · exact hlt
    obtain ⟨a2, h3, h4⟩ := CArray.strcpy_read (a := .zeros 128) (e := LoaderArray.pureRange) hpure
    obtain ⟨a3, h5, h6⟩ := kTrim_spec h4 hpure .pureRange (beyond .pureRange)
    rw [if_neg hnum', h3, ok_bind, h5, ok_bind, h6]
    rfl

/-- The port list with one more item scanned. -/
def PortInfo.addItem (info : PortInfo) (item : CStr) : PortInfo :=
  ⟨info.rangeList ++ (rangeOf item).toList⟩

theorem portItem_spec (beyond : Beyond) (info : PortInfo) {item : CStr} (hlen : item.strlen < 127)
    {k : Int} (hk : k = item.strlen ∨ k = item.strlen + 1) :
    (info.num < MAX_PORT_RANGE_NUM ∨ validateRangeValue item = false →
      portItem beyond info item k = .ok (info.addItem item)) ∧
    (validateRangeValue item = true → MAX_PORT_RANGE_NUM ≤ info.num →
      portItem beyond info item k = .error .rangeList) := by
  obtain ⟨a, h1, h2⟩ : ∃ a, (CArray.zeros 128).strncpy LoaderArray.onePortBuf item.bytes k = .ok a ∧
      ∀ b, a.read b = item := by
    rcases hk with rfl | rfl
    · obtain ⟨a, h1, h2⟩ := CArray.zeros_strncpy (n := 128) (e := LoaderArray.onePortBuf)
        (s := item) (by omega)
      exact ⟨a, h1, h2.read (by omega)⟩
    · exact CArray.strncpy_read (by omega)
  obtain ⟨h3, h4⟩ := parseRangeValue_spec beyond h2 (by omega) info.num
  unfold portItem PortInfo.addItem
  rw [h1, ok_bind]
  refine ⟨fun hnum => ?_, fun hv hnum => by rw [h4 hv hnum]; rfl⟩
  rw [h3 hnum]
  cases hr : rangeOf item with
  | none => simp [pure, Except.pure]
  | some r => simp [pure, Except.pure]

/-- The last item is copied with its terminator, which changes nothing. -/
theorem portItem_last (beyond : Beyond) (info : PortInfo) {item : CStr} (hlen : item.strlen < 127) :
    portItem beyond info item (item.strlen + 1) = portItem beyond info item item.strlen := by
  obtain ⟨h1, h2⟩ := portItem_spec beyond info hlen (Or.inl rfl)
  obtain ⟨h3, h4⟩ := portItem_spec beyond info hlen (Or.inr rfl)
  by_cases hfit : info.num < MAX_PORT_RANGE_NUM ∨ validateRangeValue item = false
  · rw [h1 hfit, h3 hfit]
  · rw [not_or, Nat.not_lt, Bool.not_eq_false] at hfit
    rw [h2 hfit.2 hfit.1, h4 hfit.2 hfit.1]

/-- No item is valid once there are five ranges, `num` of them from before. -/
def PortsFitFrom (num : Nat) (items : List CStr) : Prop :=
  ∀ pre item post, items = pre ++ item :: post → validateRangeValue item = true →
    num + (pre.filterMap rangeOf).length < MAX_PORT_RANGE_NUM

theorem portsFitFrom_cons {num : Nat} {item : CStr} {rest : List CStr} :
    PortsFitFrom num (item :: rest) ↔
      (num < MAX_PORT_RANGE_NUM ∨ validateRangeValue item = false) ∧
        PortsFitFrom (num + (rangeOf item).toList.length) rest := by
  constructor
  · intro h
    refine ⟨?_, ?_⟩
    · cases hv : validateRangeValue item with
      | false => exact Or.inr rfl
      | true => exact Or.inl (by simpa using h [] item rest rfl hv)
    · intro pre x post hrest hv
      have h1 := h (item :: pre) x post (by rw [hrest]; rfl) hv
      cases hr : rangeOf item <;> simp [hr] at h1 ⊢ <;> omega
  · rintro ⟨h0, h1⟩ pre x post hrest hv
    cases pre with
    | nil =>
      simp only [List.nil_append, List.cons.injEq] at hrest
      rw [hrest.1, hv] at h0
      simpa using h0
    | cons y pre =>
      simp only [List.cons_append, List.cons.injEq] at hrest
      have h2 := h1 pre x post hrest.2 hv
      rw [hrest.1] at h2
      cases hr : rangeOf y <;> simp [hr] at h2 ⊢ <;> omega

theorem portItems_spec (beyond : Beyond) : ∀ (items : List CStr) (info : PortInfo),
    (∀ item ∈ items, item.strlen < 127) →
    (PortsFitFrom info.num items →
      items.foldlM (fun info item => portItem beyond info item item.strlen) info =
        .ok ⟨info.rangeList ++ items.filterMap rangeOf⟩) ∧
    (¬ PortsFitFrom info.num items →
      items.foldlM (fun info item => portItem beyond info item item.strlen) info =
        .error .rangeList)
  | [], info, _ => by
    refine ⟨fun _ => by simp [pure, Except.pure], fun h => absurd ?_ h⟩
    intro pre item post h
    simp at h
  | item :: rest, info, hlen => by
    obtain ⟨h1, h2⟩ := portItem_spec beyond info (hlen item (List.mem_cons_self ..)) (Or.inl rfl)
    obtain ⟨h3, h4⟩ := portItems_spec beyond rest (info.addItem item)
      (fun x hx => hlen x (List.mem_cons_of_mem _ hx))
    have hnum : (info.addItem item).num = info.num + (rangeOf item).toList.length := by
      simp [PortInfo.addItem, PortInfo.num]
    rw [hnum] at h3 h4
    rw [portsFitFrom_cons, List.foldlM_cons]
    constructor
    · rintro ⟨hitem, hrest⟩
      rw [h1 hitem, ok_bind, h3 hrest]
      cases hr : rangeOf item <;> simp [PortInfo.addItem, hr]
    · intro hno
      by_cases hitem : info.num < MAX_PORT_RANGE_NUM ∨ validateRangeValue item = false
      · rw [h1 hitem, ok_bind, h4 (fun hrest => hno ⟨hitem, hrest⟩)]
      · rw [not_or, Nat.not_lt, Bool.not_eq_false] at hitem
        rw [h2 hitem.2 hitem.1, error_bind]

/-- The items `parse_port_info` scans. -/
def portItems (portStr : CStr) : List CStr :=
  let s := Kernel.trimStr portStr
  if s.strlen = 0 then [] else (tokens 124 s).1 ++ [(tokens 124 s).2]

/-- The ports of a feature fit `range_list`. -/
def PortsFit (portStr : CStr) : Prop := PortsFitFrom 0 (portItems portStr)

theorem portItems_strlen_le {s item : CStr} (h : item ∈ portItems s) : item.strlen ≤ s.strlen := by
  have h1 := tokens_strlen_le 124 (Kernel.trimStr s)
  have h2 := Kernel.trimStr_strlen_le s
  unfold portItems at h
  dsimp only at h
  split at h
  · cases h
  · rcases List.mem_append.mp h with h | h
    · exact (h1.1 item h).trans h2
    · rw [List.mem_singleton.mp h]
      exact h1.2.trans h2

/-- **`parse_port_info`** on a terminated text. -/
theorem parsePortInfo_spec (beyond : Beyond) {a : CArray 16} {s : CStr} (h : ∀ b, a.read b = s)
    (hlen : s.strlen < 16) :
    (PortsFit s → parsePortInfo beyond a {} = .ok ⟨(portItems s).filterMap rangeOf⟩) ∧
    (¬ PortsFit s → parsePortInfo beyond a {} = .error .rangeList) := by
  obtain ⟨a', h1, h2⟩ := kTrim_spec h hlen .dstPortStr (beyond .dstPortStr)
  have hrun : parsePortInfo beyond a {} =
      (portItems s).foldlM (fun info item => portItem beyond info item item.strlen) {} := by
    unfold parsePortInfo portItems
    rw [h1, ok_bind, h2]
    by_cases h0 : (Kernel.trimStr s).strlen = 0
    · simp [h0]
    · have hlast : (tokens 124 (Kernel.trimStr s)).2.strlen < 127 := by
        have h3 := (tokens_strlen_le 124 (Kernel.trimStr s)).2
        have h4 := Kernel.trimStr_strlen_le s
        omega
      simp only [if_neg h0, List.foldlM_append, List.foldlM_cons, List.foldlM_nil, bind_pure]
      congr 1
      funext info
      exact portItem_last beyond info hlast
  have hitems : ∀ item ∈ portItems s, item.strlen < 127 := by
    intro item hitem
    have := portItems_strlen_le hitem
    omega
  have hspec := portItems_spec beyond (portItems s) {} hitems
  rw [hrun]
  exact hspec

/-! ## 2. Payload positions -/

/-- The variables of the position loop that are not arrays. -/
structure PosVals where
  index : Int := 0
  value : Int := 0
  posInfo : List AfPosInfo := []

def PosScan.vals (st : PosScan) : PosVals := ⟨st.index, st.value, st.posInfo⟩

/-- Scanning one item, and its return value. -/
def PosVals.scan (v : PosVals) (item : CStr) : Nat × PosVals :=
  let vals := Kernel.vsscanf CLib.isspace [.d, .lit 58, .x] item.bytes
  (vals.length, { v with index := vals.getD 0 v.index, value := vals.getD 1 v.value })

def PosVals.push (v : PosVals) : PosVals :=
  { v with posInfo := v.posInfo ++ [⟨v.index, (v.value % 256).toNat.toUInt8⟩] }

/-- The last item counts only when both numbers are there. -/
def PosVals.finish (v : PosVals) (item : CStr) : List AfPosInfo :=
  if (v.scan item).1 = 2 then (v.scan item).2.push.posInfo else v.posInfo

/-- The positions a `dict` field spells. -/
def dictPositions (dict : CStr) : List AfPosInfo :=
  ((tokens 124 dict).1.foldl (fun (v : PosVals) item => (v.scan item).2.push) {}).finish
    (tokens 124 dict).2

/-- The positions of a feature fit `pos` and leave the loop without `break`. -/
structure DictFits (dict : CStr) : Prop where
  count : (tokens 124 dict).1.length < MAX_POS_INFO_PER_FEATURE - 1
  items : ∀ t ∈ (tokens 124 dict).1, t.strlen ≤ 64
  last : (tokens 124 dict).2.strlen < 64

theorem PosScan.sscanf_spec (st : PosScan) (beyond : Beyond) {item : CStr}
    (h : st.pos.read (beyond .pos) = item) :
    (st.sscanf beyond).1 = (st.vals.scan item).1 ∧
      (st.sscanf beyond).2.vals = (st.vals.scan item).2 ∧
      (st.sscanf beyond).2.posInfo = st.posInfo := by
  unfold PosScan.sscanf PosVals.scan
  rw [h]
  exact ⟨rfl, rfl, rfl⟩

/-- What is scanned for an item copied into `pos`: with 64 bytes it has no terminator there. -/
def posText (beyond item : CStr) : CStr :=
  if item.strlen < 64 then item else .ofBytes (item.bytes ++ beyond.bytes)

theorem posText_of_lt {beyond item : CStr} (h : item.strlen < 64) : posText beyond item = item :=
  if_pos h

theorem read_posText {a : CArray 64} {item : CStr} (h : a.Holds item)
    (beyond : CStr) : a.read beyond = posText beyond item := by
  rcases Nat.lt_or_eq_of_le h.fits with hlt | heq
  · rw [h.read hlt, posText_of_lt hlt]
  · have hfull := h.read_full heq beyond
    rw [posText, if_neg (by omega)]
    refine CStr.ext ?_
    rw [← hfull, CStr.ofBytes_bytes]

theorem PosScan.push_spec (st : PosScan) (h : st.posInfo.length < MAX_POS_INFO_PER_FEATURE) :
    ∃ st', st.push = .ok st' ∧ st'.vals = st.vals.push ∧
      st'.posInfo.length = st.posInfo.length + 1 :=
  ⟨_, if_pos h, rfl, by simp⟩

/-- The loop, when it is not left by `break`. -/
theorem posItems_ok (beyond : Beyond) : ∀ (items : List CStr) (st : PosScan),
    st.posInfo.length + items.length < MAX_POS_INFO_PER_FEATURE - 1 →
    (∀ t ∈ items, t.strlen ≤ 64) →
    ∃ st', posItems beyond st items = .ok (st', false) ∧
      st'.posInfo.length = st.posInfo.length + items.length ∧
      st'.vals = items.foldl (fun v item => (v.scan (posText (beyond .pos) item)).2.push) st.vals
  | [], st, _, _ => ⟨st, rfl, rfl, rfl⟩
  | item :: rest, st, hcount, hlen => by
    rw [List.length_cons, MAX_POS_INFO_PER_FEATURE] at hcount
    obtain ⟨pos, h1, h2⟩ := CArray.zeros_strncpy (n := 64) (e := LoaderArray.pos)
      (hlen item (List.mem_cons_self ..))
    have hinfo : (({ st with pos := pos } : PosScan).sscanf beyond).2.posInfo = st.posInfo := rfl
    obtain ⟨st1, h3, h4, h5⟩ := PosScan.push_spec
      (({ st with pos := pos } : PosScan).sscanf beyond).2
      (by rw [hinfo, MAX_POS_INFO_PER_FEATURE]; omega)
    rw [hinfo] at h5
    obtain ⟨st', h6, h7, h8⟩ := posItems_ok beyond rest st1
      (by rw [h5, MAX_POS_INFO_PER_FEATURE]; omega)
      (fun t ht => hlen t (List.mem_cons_of_mem _ ht))
    have hgo : ¬ MAX_POS_INFO_PER_FEATURE - 1 ≤ st1.posInfo.length := by
      rw [h5, MAX_POS_INFO_PER_FEATURE]
      omega
    refine ⟨st', ?_, by rw [h7, h5, List.length_cons]; omega, ?_⟩
    · simp only [posItems, h1, ok_bind, h3, if_neg hgo, h6]
    · have hvals := (PosScan.sscanf_spec ({ st with pos := pos } : PosScan) beyond
        (read_posText h2 (beyond .pos))).2.1
      rw [h8, h4, hvals, List.foldl_cons]
      rfl

/-- The loop, when it runs into no overrun: the items fit, or it was left by `break`. -/
theorem posItems_cases (beyond : Beyond) : ∀ (items : List CStr) (st : PosScan) {r : PosScan × Bool},
    posItems beyond st items = .ok r → st.posInfo.length < MAX_POS_INFO_PER_FEATURE - 1 →
    (r.2 = true ∧ items ≠ []) ∨
      (st.posInfo.length + items.length < MAX_POS_INFO_PER_FEATURE - 1 ∧
        ∀ t ∈ items, t.strlen ≤ 64)
  | [], st, r, h, hst => Or.inr ⟨hst, by simp⟩
  | item :: rest, st, r, h, hst => by
    by_cases hlen : item.strlen ≤ 64
    · obtain ⟨pos, h1, _⟩ := CArray.zeros_strncpy (n := 64) (e := LoaderArray.pos) hlen
      obtain ⟨st1, h3, _, h5⟩ := PosScan.push_spec
        (({ st with pos := pos } : PosScan).sscanf beyond).2
        (Nat.lt_of_lt_of_le hst (by decide))
      have hinfo : (({ st with pos := pos } : PosScan).sscanf beyond).2.posInfo = st.posInfo := rfl
      rw [hinfo] at h5
      simp only [posItems, h1, ok_bind, h3] at h
      split at h
      · left
        cases h
        exact ⟨rfl, by simp⟩
      · rename_i hgo
        rcases posItems_cases beyond rest st1 h (by omega) with ⟨hr, _⟩ | ⟨h6, h7⟩
        · exact Or.inl ⟨hr, by simp⟩
        · refine Or.inr ⟨by rw [List.length_cons]; omega, ?_⟩
          intro t ht
          rcases List.mem_cons.mp ht with rfl | ht
          · exact hlen
          · exact h7 t ht
    · rw [posItems, CArray.strncpy_eq_error (Or.inr (by omega)), error_bind] at h
      cases h

theorem PosScan.finish_spec (st : PosScan) (beyond : Beyond) {item : CStr}
    (h : ∀ b, st.pos.read b = item) (hlen : st.posInfo.length < MAX_POS_INFO_PER_FEATURE) :
    st.finish beyond = .ok (st.vals.finish item) := by
  obtain ⟨h1, h2, h3⟩ := st.sscanf_spec beyond (h (beyond .pos))
  obtain ⟨st', h4, h5, _⟩ := PosScan.push_spec (st.sscanf beyond).2 (by rw [h3]; exact hlen)
  unfold PosScan.finish PosVals.finish
  dsimp only
  rw [h1]
  split
  · rw [h4, ← h2, ← h5]
    rfl
  · rw [h3]
    rfl

/-- The copy of the last item, which is all of `dict` when there is no `|`. -/
theorem copyLastItem_ok (a : CArray 64) {dict : CStr} (h : (tokens 124 dict).2.strlen < 64) :
    ∃ pos, copyLastItem a dict false = .ok pos ∧ ∀ b, pos.read b = (tokens 124 dict).2 := by
  simp only [copyLastItem, Bool.false_eq_true, if_false]
  split
  · rename_i hnil
    rw [tokens_nil hnil] at h ⊢
    exact CArray.strcpy_read h
  · exact CArray.strncpy_read h

theorem copyLastItem_error (a : CArray 64) {dict : CStr} {broke : Bool}
    (h : broke = true ∧ (tokens 124 dict).1 ≠ [] ∨ broke = false ∧ 64 ≤ (tokens 124 dict).2.strlen) :
    copyLastItem a dict broke = .error .pos := by
  rcases h with ⟨rfl, hne⟩ | ⟨rfl, hlen⟩
  · simp only [copyLastItem, if_neg hne, if_true]
    exact CArray.strncpy_eq_error (Or.inl (by decide))
  · simp only [copyLastItem, Bool.false_eq_true, if_false]
    split
    · rename_i hnil
      rw [tokens_nil hnil] at hlen
      exact CArray.strcpy_eq_error hlen
    · exact CArray.strncpy_eq_error (Or.inr (by omega))

/-- The positions, read off the text and what lies behind `pos`. -/
def dictPositionsRead (beyond dict : CStr) : List AfPosInfo :=
  ((tokens 124 dict).1.foldl (fun (v : PosVals) item => (v.scan (posText beyond item)).2.push)
    {}).finish (tokens 124 dict).2

theorem dictPositionsRead_short {dict : CStr} (h : ∀ t ∈ (tokens 124 dict).1, t.strlen < 64)
    (beyond : CStr) : dictPositionsRead beyond dict = dictPositions dict := by
  have hfold : ∀ v : PosVals,
      (tokens 124 dict).1.foldl (fun (v : PosVals) item => (v.scan (posText beyond item)).2.push) v =
        (tokens 124 dict).1.foldl (fun (v : PosVals) item => (v.scan item).2.push) v := by
    intro v
    refine List.foldl_ext _ _ _ fun w t ht => ?_
    rw [posText_of_lt (h t ht)]
  rw [dictPositionsRead, hfold, dictPositions]

theorem parsePosInfo_ok (beyond : Beyond) {dict : CStr} (h : DictFits dict) :
    parsePosInfo beyond dict = .ok (dictPositionsRead (beyond .pos) dict) := by
  have hcount := h.count
  obtain ⟨st, h1, h2, h3⟩ := posItems_ok beyond (tokens 124 dict).1 {}
    (by simpa using h.count) h.items
  obtain ⟨pos, h4, h5⟩ := copyLastItem_ok st.pos h.last
  have hlen : st.posInfo.length < MAX_POS_INFO_PER_FEATURE := by
    rw [h2]
    simp only [MAX_POS_INFO_PER_FEATURE, List.length_nil] at hcount ⊢
    omega
  have h6 := PosScan.finish_spec { st with pos := pos } beyond h5 hlen
  have h7 : ({ st with pos := pos } : PosScan).vals = st.vals := rfl
  rw [h7, h3] at h6
  simp only [parsePosInfo, h1, ok_bind, h4]
  exact h6

/-- **The positions.**  With room they are read off the text; else an array is overrun. -/
theorem parsePosInfo_spec (beyond : Beyond) (dict : CStr) :
    (DictFits dict → ∃ l, parsePosInfo beyond dict = .ok l ∧
      ((∀ t ∈ (tokens 124 dict).1, t.strlen < 64) → l = dictPositions dict)) ∧
    (IsOk (parsePosInfo beyond dict) → DictFits dict) := by
  constructor
  · intro h
    exact ⟨_, parsePosInfo_ok beyond h, fun hshort => dictPositionsRead_short hshort _⟩
  · intro h
    unfold parsePosInfo at h
    obtain ⟨⟨st, broke⟩, h1, h2⟩ := isOk_bind.mp h
    obtain ⟨pos, h3, _⟩ := isOk_bind.mp h2
    rcases posItems_cases beyond _ _ h1 (by decide) with ⟨hb, hne⟩ | ⟨h4, h5⟩
    · rw [copyLastItem_error st.pos (Or.inl ⟨hb, hne⟩)] at h3
      cases h3
    · obtain ⟨st', h6, _⟩ := posItems_ok beyond _ _ h4 h5
      rw [h1] at h6
      cases h6
      refine ⟨by simpa using h4, h5, ?_⟩
      by_contra hlast
      rw [copyLastItem_error st.pos (Or.inr ⟨rfl, by omega⟩)] at h3
      cases h3

/-! ## 3. The fields of a feature -/

/-- The variables after the fields `l`: each buffer is zeroed, and written at most once. -/
structure FieldsAre (fs : FeatureFields) (l : List CStr) : Prop where
  paramNum : fs.paramNum = l.length
  buf : ∀ i : AfFeatureParam, (fs.buf i).Holds (l.getD i .empty)
  fresh : ∀ i : AfFeatureParam, l.length ≤ i → fs.buf i = .zeros (fieldSize i)
  ignore : (l.getD 7 .empty).strlen < 128 → fs.ignore = kAtoi (l.getD 7 .empty)

theorem kAtoi_empty : kAtoi .empty = 0 := by decide

theorem fieldsAre_nil : FieldsAre {} [] where
  paramNum := rfl
  buf := fun _ => CArray.zeros_holds
  fresh := fun _ _ => rfl
  ignore := fun _ => kAtoi_empty.symm

theorem getD_concat (l : List CStr) (x : CStr) (i : Nat) :
    (l ++ [x]).getD i .empty = if i = l.length then x else l.getD i .empty := by
  simp only [List.getD_eq_getElem?_getD]
  rcases Nat.lt_trichotomy i l.length with h | rfl | h
  · rw [List.getElem?_append_left h, if_neg (Nat.ne_of_lt h)]
  · simp
  · rw [List.getElem?_eq_none (by simp; omega), List.getElem?_eq_none (by omega),
      if_neg (Nat.ne_of_gt h)]

/-- A field that fits its buffer is copied. -/
theorem copy_ok (beyond : Beyond) {fs : FeatureFields} {l : List CStr} (h : FieldsAre fs l)
    {i : AfFeatureParam} (hi : l.length = i) {x : CStr} {k : Int}
    (hk : k = x.strlen ∧ x.strlen ≤ fieldSize i ∨ k = x.strlen + 1 ∧ x.strlen < fieldSize i) :
    ∃ fs', fs.copy beyond i x k = .ok fs' ∧
      FieldsAre { fs' with paramNum := fs'.paramNum + 1 } (l ++ [x]) := by
  obtain ⟨a, h1, h2⟩ : ∃ a, (fs.buf i).strncpy (fieldArray i) x.bytes k = .ok a ∧ a.Holds x := by
    rw [h.fresh i (by omega)]
    rcases hk with ⟨rfl, hle⟩ | ⟨rfl, hlt⟩
    · exact CArray.zeros_strncpy hle
    · exact CArray.zeros_strncpy_nul hlt
  refine ⟨_, by simp only [FeatureFields.copy, h1, ok_bind]; rfl, ?_⟩
  have hbuf : ∀ j : AfFeatureParam,
      (Function.update fs.buf i a j).Holds ((l ++ [x]).getD j .empty) := by
    intro j
    rw [getD_concat]
    by_cases hj : j = i
    · subst hj
      rw [if_pos hi.symm, Function.update_self]
      exact h2
    · rw [if_neg (fun hj' => hj (Fin.ext (hj'.trans hi))), Function.update_of_ne hj]
      exact h.buf j
  refine ⟨by simp [h.paramNum], hbuf, ?_, ?_⟩
  · intro j hj
    rw [List.length_append, List.length_singleton] at hj
    have hne : j ≠ i := by
      rintro rfl
      omega
    exact (Function.update_of_ne hne _ _).trans (h.fresh j (by omega))
  · intro hlen
    by_cases h7 : i = AF_IGNORE_PARAM_INDEX
    · simp only [if_pos h7]
      congr 1
      subst h7
      exact (hbuf AF_IGNORE_PARAM_INDEX).read hlen _
    · simp only [if_neg h7]
      have hne : ¬ (7 : Nat) = l.length := fun h8 => h7 (Fin.ext (hi.symm.trans h8.symm))
      rw [getD_concat, if_neg hne] at hlen ⊢
      exact h.ignore hlen

theorem copy_error (beyond : Beyond) {fs : FeatureFields} {i : AfFeatureParam} {x : CStr} {k : Int}
    (hk : (fieldSize i : Int) < k) : fs.copy beyond i x k = .error (fieldArray i) := by
  rw [FeatureFields.copy, CArray.strncpy_eq_error (Or.inr hk), error_bind]

/-- The fields fit their buffers. -/
def FieldsFit (l : List CStr) : Prop :=
  ∀ i : AfFeatureParam, (l.getD i .empty).strlen ≤ fieldSize i

theorem fieldsFit_concat {l : List CStr} {x : CStr} :
    FieldsFit (l ++ [x]) ↔
      FieldsFit l ∧ ∀ i : AfFeatureParam, l.length = i → x.strlen ≤ fieldSize i := by
  constructor
  · intro h
    refine ⟨fun i => ?_, fun i hi => ?_⟩
    · by_cases hi : (i : Nat) = l.length
      · rw [List.getD_eq_getElem?_getD, List.getElem?_eq_none (by omega)]
        exact Nat.zero_le _
      · have := h i
        rwa [getD_concat, if_neg hi] at this
    · have := h i
      rwa [getD_concat, if_pos hi.symm] at this
  · rintro ⟨h1, h2⟩ i
    rw [getD_concat]
    split
    · rename_i hi
      exact h2 i hi.symm
    · exact h1 i

/-- **The fields.**  When they fit, each buffer holds its field afterwards. -/
theorem setFields_ok (beyond : Beyond) : ∀ {l : List CStr}, FieldsFit l →
    ∃ fs, l.foldlM (setField beyond) {} = .ok fs ∧ FieldsAre fs l := by
  intro l
  induction l using List.reverseRecOn with
  | nil => exact fun _ => ⟨{}, rfl, fieldsAre_nil⟩
  | append_singleton l x ih =>
    intro hfit
    obtain ⟨hl, hx⟩ := fieldsFit_concat.mp hfit
    obtain ⟨fs, h1, h2⟩ := ih hl
    rw [List.foldlM_append, h1, ok_bind, List.foldlM_cons]
    by_cases hlt : fs.paramNum < 8
    · have hi : l.length = (⟨fs.paramNum, hlt⟩ : AfFeatureParam).val := h2.paramNum.symm
      obtain ⟨fs', h3, h4⟩ := copy_ok beyond h2 hi (x := x) (k := x.strlen) (Or.inl ⟨rfl, hx _ hi⟩)
      refine ⟨_, ?_, h4⟩
      simp only [setField, dif_pos hlt, h3, ok_bind]
      rfl
    · refine ⟨{ fs with paramNum := fs.paramNum + 1 }, by simp only [setField, dif_neg hlt]; rfl, ?_⟩
      have hlen := h2.paramNum
      have hget : ∀ i : Nat, i < 8 → (l ++ [x]).getD i .empty = l.getD i .empty := by
        intro i hi
        rw [getD_concat, if_neg (by omega)]
      refine ⟨by simp [hlen], fun i => ?_, fun i hi => ?_, fun h7 => ?_⟩
      · rw [hget i i.isLt]
        exact h2.buf i
      · have := i.isLt
        rw [List.length_append, List.length_singleton] at hi
        omega
      · rw [hget 7 (by decide)] at h7 ⊢
        exact h2.ignore h7

theorem setFields_fit (beyond : Beyond) : ∀ {l : List CStr},
    IsOk (l.foldlM (setField beyond) {}) → FieldsFit l := by
  intro l
  induction l using List.reverseRecOn with
  | nil => exact fun _ _ => Nat.zero_le _
  | append_singleton l x ih =>
    intro h
    rw [List.foldlM_append] at h
    obtain ⟨fs, h1, h2⟩ := isOk_bind.mp h
    have hl : FieldsFit l := ih ⟨fs, h1⟩
    refine fieldsFit_concat.mpr ⟨hl, fun i hi => ?_⟩
    obtain ⟨fs', h3, h4⟩ := setFields_ok beyond hl
    rw [h1] at h3
    cases h3
    by_contra hlong
    have hlt : fs.paramNum < 8 := by
      rw [h4.paramNum, hi]
      exact i.isLt
    have hpi : (⟨fs.paramNum, hlt⟩ : AfFeatureParam) = i := Fin.ext (h4.paramNum.trans hi)
    rw [List.foldlM_cons, setField, dif_pos hlt, hpi, copy_error beyond (by omega)] at h2
    exact not_isOk_error _ h2

/-! ## 4. One feature -/

/-- The fields of a feature as the code sees them: those before a `;`, and the text behind the last
one where that is the `dict` or the `ignore` field. -/
def fieldTexts (text : CStr) : List CStr :=
  let fields := tokens 59 text
  if fields.1.length = AF_DICT_PARAM_INDEX ∨ fields.1.length = AF_IGNORE_PARAM_INDEX then
    fields.1 ++ [fields.2]
  else fields.1

/-- One field, empty when it is missing. -/
def fieldText (text : CStr) (i : AfFeatureParam) : CStr := (fieldTexts text).getD i .empty

/-- What a feature's text must be like for its load to stay inside every array. -/
structure FeatureFits (text : CStr) : Prop where
  fields : FieldsFit (fieldTexts text)
  node : ∀ proto, featureProto (fieldText text AF_PROTO_PARAM_INDEX) = some proto →
    (fieldText text AF_DST_PORT_PARAM_INDEX).strlen < 16 ∧
      PortsFit (fieldText text AF_DST_PORT_PARAM_INDEX) ∧
      (fieldText text AF_HOST_URL_PARAM_INDEX).strlen < 32 ∧
      (fieldText text AF_STR_PARAM_INDEX).strlen < MAX_SEARCH_STR_LEN ∧
      DictFits (fieldText text AF_DICT_PARAM_INDEX)

/-- The node a feature becomes. -/
def featureNode (addr : Nat) (appid : UInt32) (name text : CStr) (proto sport : UInt32)
    (posInfo : List AfPosInfo) : AfFeatureNode :=
  { addr := addr, appId := appid, appName := .ofBytes (name.bytes.take 63), feature := text,
    proto := proto, sport := sport,
    dportInfo := ⟨(portItems (fieldText text AF_DST_PORT_PARAM_INDEX)).filterMap rangeOf⟩,
    hostUrl := fieldText text AF_HOST_URL_PARAM_INDEX,
    requestUrl := fieldText text AF_REQUEST_URL_PARAM_INDEX,
    searchStr := fieldText text AF_STR_PARAM_INDEX,
    ignore := kAtoi (fieldText text AF_IGNORE_PARAM_INDEX), posInfo := posInfo }

/-- `list_add` of a node, and the dirty flag. -/
def KernelState.addNode (st : KernelState) (node : AfFeatureNode) : KernelState :=
  { st with
    afFeatureHead := node :: st.afFeatureHead
    gUrlAcDirty := node.literalHost || st.gUrlAcDirty }

/-- What loading one feature does to the state. -/
def KernelState.addFeature (st : KernelState) (appid : UInt32) (name text : CStr) (sport : UInt32)
    (posInfo : List AfPosInfo) : KernelState :=
  if text.strlen < MIN_FEATURE_STR_LEN then st
  else
    match featureProto (fieldText text AF_PROTO_PARAM_INDEX) with
    | none => st
    | some proto =>
      let st' := { st with kmem := st.kmem.kzalloc.2 }
      if st.kmem.outcome st.kmem.used then
        st'.addNode (featureNode st'.kmem.used appid name text proto sport posInfo)
      else st'

theorem fieldText_strlen_le (text : CStr) (i : AfFeatureParam) :
    (fieldText text i).strlen ≤ text.strlen := by
  have hmem : ∀ t ∈ fieldTexts text, t.strlen ≤ text.strlen := by
    obtain ⟨h1, h2⟩ := tokens_strlen_le 59 text
    intro t ht
    unfold fieldTexts at ht
    dsimp only at ht
    split at ht
    · rcases List.mem_append.mp ht with ht | ht
      · exact h1 t ht
      · rw [List.mem_singleton.mp ht]
        exact h2
    · exact h1 t ht
  unfold fieldText
  rw [List.getD_eq_getElem?_getD]
  cases hget : (fieldTexts text)[(i : Nat)]? with
  | none => exact Nat.zero_le _
  | some t => exact hmem t (List.mem_of_getElem? hget)

/-- The split and the text behind the last `;`, together. -/
theorem splitFields_spec (beyond : Beyond) {text : CStr} (hlen : text.strlen < 128) :
    (FieldsFit (fieldTexts text) →
      ∃ fs fs', (tokens 59 text).1.foldlM (setField beyond) {} = .ok fs ∧
        setLastField beyond fs (tokens 59 text).2 = .ok fs' ∧
        (∀ i, (fs'.buf i).Holds (fieldText text i)) ∧
        fs'.ignore = kAtoi (fieldText text AF_IGNORE_PARAM_INDEX)) ∧
    (IsOk ((tokens 59 text).1.foldlM (setField beyond) {}) → FieldsFit (fieldTexts text)) := by
  have hlast : (tokens 59 text).2.strlen < 128 :=
    Nat.lt_of_le_of_lt (tokens_strlen_le 59 text).2 hlen
  have h7 : (fieldText text AF_IGNORE_PARAM_INDEX).strlen < 128 :=
    Nat.lt_of_le_of_lt (fieldText_strlen_le text _) hlen
  -- the text behind the last `;` goes to a buffer of 128 bytes
  have hsize : ∀ i : AfFeatureParam, (tokens 59 text).1.length = i →
      ((tokens 59 text).1.length = AF_DICT_PARAM_INDEX ∨
        (tokens 59 text).1.length = AF_IGNORE_PARAM_INDEX) →
      fieldSize i = 128 := by
    intro i hi h
    rcases h with h | h
    · rw [Fin.ext (hi.symm.trans h)]
      rfl
    · rw [Fin.ext (hi.symm.trans h)]
      rfl
  constructor
  · intro hfit
    unfold fieldText at h7 ⊢
    by_cases hend : (tokens 59 text).1.length = AF_DICT_PARAM_INDEX ∨
        (tokens 59 text).1.length = AF_IGNORE_PARAM_INDEX
    · have htexts : fieldTexts text = (tokens 59 text).1 ++ [(tokens 59 text).2] := if_pos hend
      rw [htexts] at hfit h7 ⊢
      obtain ⟨fs, h1, h2⟩ := setFields_ok beyond (fieldsFit_concat.mp hfit).1
      have hcopy : ∀ i : AfFeatureParam, (tokens 59 text).1.length = i → ∃ fs',
          fs.copy beyond i (tokens 59 text).2 ((tokens 59 text).2.strlen + 1) = .ok fs' ∧
            FieldsAre { fs' with paramNum := fs'.paramNum + 1 }
              ((tokens 59 text).1 ++ [(tokens 59 text).2]) := fun i hi =>
        copy_ok beyond h2 hi (Or.inr ⟨rfl, by rw [hsize i hi hend]; exact hlast⟩)
      rcases hend with hend | hend
      · obtain ⟨fs', h3, h4⟩ := hcopy AF_DICT_PARAM_INDEX hend
        exact ⟨fs, fs', h1, by rw [setLastField, if_pos (h2.paramNum.trans hend), h3], h4.buf,
          h4.ignore h7⟩
      · obtain ⟨fs', h3, h4⟩ := hcopy AF_IGNORE_PARAM_INDEX hend
        refine ⟨fs, fs', h1, ?_, h4.buf, h4.ignore h7⟩
        rw [setLastField, if_neg (by rw [h2.paramNum, hend]; decide), if_pos (h2.paramNum.trans hend), h3]
    · have htexts : fieldTexts text = (tokens 59 text).1 := if_neg hend
      rw [htexts] at hfit h7 ⊢
      obtain ⟨fs, h1, h2⟩ := setFields_ok beyond hfit
      rw [not_or] at hend
      refine ⟨fs, fs, h1, ?_, h2.buf, h2.ignore h7⟩
      rw [setLastField, if_neg (by rw [h2.paramNum]; exact hend.1),
        if_neg (by rw [h2.paramNum]; exact hend.2)]
  · intro h
    have hfit := setFields_fit beyond h
    unfold fieldTexts
    dsimp only
    split
    · rename_i hend
      refine fieldsFit_concat.mpr ⟨hfit, fun i hi => ?_⟩
      rw [hsize i hi hend]
      omega
    · exact hfit

/-- A field that fills `proto_str` names no protocol, whatever lies behind it. -/
theorem featureProto_read {a : CArray 16} {s : CStr} (h : a.Holds s) (beyond : CStr) :
    featureProto (a.read beyond) = featureProto s := by
  rcases Nat.lt_or_eq_of_le h.fits with hlt | heq
  · rw [h.read hlt]
  · have hlong : ∀ t : CStr, 16 ≤ t.strlen → featureProto t = none := by
      intro t ht
      rw [CStr.strlen] at ht
      unfold featureProto
      rw [if_neg, if_neg] <;>
        · intro h0
          rw [h0] at ht
          exact absurd ht (by decide)
    rw [hlong s (by omega), hlong]
    rw [CStr.strlen, h.read_full heq, List.length_append, ← CStr.strlen]
    omega

/-- **`__add_app_feature`**, when its texts fit. -/
theorem addAppFeatureNode_ok (beyond : Beyond) (st : KernelState) {feature : CStr} (appid : UInt32)
    (name : CStr) (proto srcPort : UInt32) (dportInfo : PortInfo)
    {hostUrl requestUrl dict searchStr : CStr} (ignore : Int) (hfeature : feature.strlen < 128)
    (hhost : hostUrl.strlen < 128) (hrequest : requestUrl.strlen < 128)
    (hsearch : searchStr.strlen < MAX_SEARCH_STR_LEN) (hdict : DictFits dict) :
    ∃ posInfo, ((∀ t ∈ (tokens 124 dict).1, t.strlen < 64) → posInfo = dictPositions dict) ∧
      addAppFeatureNode beyond st feature appid name proto srcPort dportInfo hostUrl requestUrl dict
          searchStr ignore =
        .ok (if st.kmem.outcome st.kmem.used then
          ({ st with kmem := st.kmem.kzalloc.2 } : KernelState).addNode
            { addr := st.kmem.kzalloc.2.used, appId := appid, appName := .ofBytes (name.bytes.take 63),
              feature := feature, proto := proto, sport := srcPort, dportInfo := dportInfo,
              hostUrl := hostUrl, requestUrl := requestUrl, searchStr := searchStr, ignore := ignore,
              posInfo := posInfo }
          else { st with kmem := st.kmem.kzalloc.2 }) := by
  obtain ⟨posInfo, h1, h2⟩ := (parsePosInfo_spec beyond dict).1 hdict
  obtain ⟨a1, h3, _⟩ := CArray.strcpy_read (a := .zeros 128) (e := LoaderArray.nodeHostUrl) hhost
  obtain ⟨a2, h4, _⟩ := CArray.strcpy_read (a := .zeros 128) (e := LoaderArray.nodeRequestUrl) hrequest
  obtain ⟨a3, h5, _⟩ := CArray.strcpy_read (a := .zeros MAX_SEARCH_STR_LEN)
    (e := LoaderArray.nodeSearchStr) hsearch
  obtain ⟨a4, h6, _⟩ := CArray.strcpy_read (a := .zeros 128) (e := LoaderArray.nodeFeature) hfeature
  refine ⟨posInfo, h2, ?_⟩
  unfold addAppFeatureNode
  cases hm : st.kmem.outcome st.kmem.used with
  | false => simp [hm, pure, Except.pure]
  | true =>
    simp only [Kmem.kzalloc_fst, hm, Bool.not_true, Bool.false_eq_true, if_false, if_true, h3, h4, h5,
      h6, h1, ok_bind]
    have hdirty : ∀ b : Bool, (if (decide (0 < hostUrl.strlen) && !afIsRegexHostPattern hostUrl) = true
        then true else b) = (hostUrl.strlen != 0 && !afIsRegexHostPattern hostUrl || b) := by
      intro b
      by_cases h0 : hostUrl.strlen = 0
      · simp [h0]
      · have hpos : 0 < hostUrl.strlen := Nat.pos_of_ne_zero h0
        cases afIsRegexHostPattern hostUrl <;> simp [h0, hpos]
    rw [hdirty]
    rfl

/-- **`add_app_feature`** on a text that fits.  The source port and the positions are those of the
text, unless a field fills its buffer to the last byte. -/
theorem addAppFeature_ok (beyond : Beyond) (st : KernelState) (appid : UInt32) (name : CStr)
    {text : CStr} (hlen : text.strlen < 128)
    (h : MIN_FEATURE_STR_LEN ≤ text.strlen → FeatureFits text) :
    ∃ sport posInfo,
      ((fieldText text AF_SRC_PORT_PARAM_INDEX).strlen < 16 →
        sport = scanSrcPort (fieldText text AF_SRC_PORT_PARAM_INDEX)) ∧
      ((∀ t ∈ (tokens 124 (fieldText text AF_DICT_PARAM_INDEX)).1, t.strlen < 64) →
        posInfo = dictPositions (fieldText text AF_DICT_PARAM_INDEX)) ∧
      addAppFeature beyond st appid name text = .ok (st.addFeature appid name text sport posInfo) := by
  by_cases hmin : text.strlen < MIN_FEATURE_STR_LEN
  · refine ⟨_, _, fun _ => rfl, fun _ => rfl, ?_⟩
    rw [addAppFeature, if_pos hmin, KernelState.addFeature, if_pos hmin]
    rfl
  · have hfits := h (by omega)
    obtain ⟨fs, fs', h1, h2, h3, h4⟩ := (splitFields_spec beyond hlen).1 hfits.fields
    have hread : ∀ i, (fieldText text i).strlen < fieldSize i → fs'.str beyond i = fieldText text i :=
      fun i hi => (h3 i).read hi _
    have hread128 : ∀ i, fieldSize i = 128 → fs'.str beyond i = fieldText text i := fun i hi =>
      hread i (by rw [hi]; exact Nat.lt_of_le_of_lt (fieldText_strlen_le text i) hlen)
    have hproto : featureProto (fs'.str beyond AF_PROTO_PARAM_INDEX) =
        featureProto (fieldText text AF_PROTO_PARAM_INDEX) :=
      featureProto_read (h3 AF_PROTO_PARAM_INDEX) _
    cases hp : featureProto (fieldText text AF_PROTO_PARAM_INDEX) with
    | none =>
      refine ⟨_, _, fun _ => rfl, fun _ => rfl, ?_⟩
      simp only [addAppFeature, if_neg hmin, h1, ok_bind, h2, hproto, hp, KernelState.addFeature]
      rfl
    | some proto =>
      obtain ⟨h5, h6, h7, h8, h9⟩ := hfits.node proto hp
      have hports := (parsePortInfo_spec beyond
        (fun b => (h3 AF_DST_PORT_PARAM_INDEX).read (h5 : _ < 16) b) h5).1 h6
      have hhost : (fieldText text AF_HOST_URL_PARAM_INDEX).strlen < 128 := by omega
      obtain ⟨posInfo, h10, h11⟩ := addAppFeatureNode_ok beyond st appid name proto
        (scanSrcPort (fs'.str beyond AF_SRC_PORT_PARAM_INDEX))
        ⟨(portItems (fieldText text AF_DST_PORT_PARAM_INDEX)).filterMap rangeOf⟩
        (kAtoi (fieldText text AF_IGNORE_PARAM_INDEX)) hlen hhost
        (Nat.lt_of_le_of_lt (fieldText_strlen_le text AF_REQUEST_URL_PARAM_INDEX) hlen) h8 h9
      refine ⟨scanSrcPort (fs'.str beyond AF_SRC_PORT_PARAM_INDEX), posInfo, fun h12 => ?_, h10, ?_⟩
      · exact congrArg scanSrcPort (hread AF_SRC_PORT_PARAM_INDEX h12)
      · simp only [addAppFeature, if_neg hmin, h1, ok_bind, h2, hproto, hp, hports,
          hread AF_HOST_URL_PARAM_INDEX h7, hread128 AF_REQUEST_URL_PARAM_INDEX rfl,
          hread128 AF_DICT_PARAM_INDEX rfl, hread128 AF_STR_PARAM_INDEX rfl, h4, h11,
          KernelState.addFeature, featureNode]

end Oaf
