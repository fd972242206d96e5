/-
# Category statistics of a rule

The detail file of the rule manager says of each rule how many apps of which category it has; the category of
an app id is its thousands.  `parse_app_rule_category_stats` counts a range by jumping from the end of one
category to the next.  It is given the tokens of UCI, which may be any text, and its numbers are doubles.

* `idsOfToken`: the app ids that a token stands for.
* `rangeLoop_eq`: what the loop counts, and that it ends.
* `rangeLoop_endless`: a range that reaches 2 ^ 53 is counted for ever.
* **`categoryStats_eq`**: below that, the statistics are those of counting one by one.
-/
import Mathlib.Data.Finset.Sort
import Oaf.Lib.Double
import Oaf.MacFilter.TimeRules
import Oaf.Manager.Model

namespace Oaf

open CLib MacFilter

/-! ## 1. Numbers -/

/-- The binary exponent of a hexadecimal number, if that is all there is. -/
def hexExponent : List UInt8 → Option Int
  | [] => some 0
  | c :: text =>
    let (neg, digits) := takeSign text
    if tolower c = 112 ∧ digits ≠ [] ∧ digits.all isdigit then
      some (if neg then -(tonumber digits : Int) else tonumber digits)
    else none

/-- A hexadecimal number without its sign, with a fraction and an exponent or without. -/
def hexNumber : List UInt8 → Option ℚ
  | 48 :: x :: text =>
    let whole := text.takeWhile isxdigit
    let (fraction, rest) :=
      match text.dropWhile isxdigit with
      | 46 :: rest => (rest.takeWhile isxdigit, rest.dropWhile isxdigit)
      | rest => ([], rest)
    if tolower x = 120 ∧ whole ++ fraction ≠ [] then
      (hexExponent rest).map fun e =>
        (Kernel.ofDigits 16 (whole ++ fraction) : ℚ) / 16 ^ fraction.length * 2 ^ e
    else none
  | _ => none

/-- The words of `strtod` for what is no number, with what may stand in brackets behind them. -/
def isNanWord (word : List UInt8) : Bool :=
  word == ascii "nan" ||
    (ascii "nan(").isPrefixOf word && word.getLast? == some 41 &&
      ((word.drop 4).dropLast.all fun c => isdigit c || (97 ≤ c && c ≤ 122) || c == 95)

/-- `tonumber`: the double that `strtod` reads from the whole text. -/
def toDouble (text : List UInt8) : Option Double :=
  let (neg, word) := takeSign (trimSpaces text)
  if word.map tolower = ascii "inf" ∨ word.map tolower = ascii "infinity" then some (.inf neg)
  else if isNanWord (word.map tolower) then some .nan
  else
    match hexNumber word with
    | some q => some (.round (if neg then -q else q))
    | none => (luaTonumber text).map .round

/-- `token:match("^%s*(%d+)%s*%-%s*(%d+)%s*$")`. -/
def luaMatchRange (token : List UInt8) : Option (List UInt8 × List UInt8) :=
  match luaDigits token with
  | none => none
  | some (startStr, rest) =>
    match rest.dropWhile isspace with
    | 45 :: rest =>
      match luaDigits rest with
      | none => none
      | some (endStr, rest) => if rest.dropWhile isspace = [] then some (startStr, endStr) else none
    | _ => none

/-! ## 2. The function -/

/-- A Lua table whose keys are numbers. -/
abbrev NumberTable := AList fun _ : Double => Double

/-- `add_category_count`. -/
def addCategoryCount (categoryCountMap : NumberTable) (categoryId count : Double) : NumberTable :=
  if categoryId ≤ 0 ∨ count ≤ 0 then categoryCountMap
  else categoryCountMap.insert categoryId ((categoryCountMap.lookup categoryId).getD 0 + count)

/-- `math.min`. -/
def luaMin (x y : Double) : Double := if y < x then y else x

/-- The loop of `add_range_category_count`, for so many rounds. -/
def rangeLoop (finish : Double) : Nat → Double → NumberTable → Double → Option (NumberTable × Double)
  | 0, _, _, _ => none
  | fuel + 1, cur, categoryCountMap, total =>
    if cur ≤ finish then
      let categoryId := (cur / 1000).floor
      if categoryId ≤ 0 then rangeLoop finish fuel (cur + 1) categoryCountMap total
      else
        let categoryEnd := categoryId * 1000 + 999
        let segEnd := luaMin finish categoryEnd
        let segCount := segEnd - cur + 1
        rangeLoop finish fuel (segEnd + 1) (addCategoryCount categoryCountMap categoryId segCount)
          (total + segCount)
    else some (categoryCountMap, total)

/-- `add_range_category_count`: the table, and the total. -/
def addRangeCategoryCount (fuel : Nat) (categoryCountMap : NumberTable) (startId endId : List UInt8) :
    Option (NumberTable × Double) :=
  let cur := (toDouble startId).getD 0
  let finish := (toDouble endId).getD 0
  if cur ≤ 0 ∨ finish ≤ 0 then some (categoryCountMap, 0)
  else if finish < cur then rangeLoop cur fuel finish categoryCountMap 0
  else rangeLoop finish fuel cur categoryCountMap 0

/-- The loop over `app_list`, for one token. -/
def countToken (fuel : Nat) (state : NumberTable × Double) (token : CStr) :
    Option (NumberTable × Double) :=
  let (categoryCountMap, appCount) := state
  match luaMatchRange token.bytes with
  | some (startStr, endStr) =>
    (addRangeCategoryCount fuel categoryCountMap startStr endStr).map fun (categoryCountMap, total) =>
      (categoryCountMap, appCount + total)
  | none =>
    match toDouble token.bytes with
    | none => some state
    | some appNum =>
      let categoryId := (appNum / 1000).floor
      if 0 < appNum ∧ 0 < categoryId then
        some (addCategoryCount categoryCountMap categoryId 1, appCount + 1)
      else some state

/-- An element of `category_stats`. -/
structure CategoryStat where
  id : Double
  count : Double
deriving DecidableEq

/-- The results: `category_ids`, `category_stats` and `app_count`. -/
structure CategoryStats where
  categoryIds : List Double
  categoryStats : List CategoryStat
  appCount : Double
deriving DecidableEq

/-- `parse_app_rule_category_stats`.  `pairs` is the order in which a table is gone through, and the loop of a
range is given so many rounds. -/
def parseAppRuleCategoryStats (pairs : NumberTable → List Double) (fuel : Nat) (appIds : List CStr) :
    Option CategoryStats :=
  (appIds.foldlM (countToken fuel) (∅, 0)).map fun (categoryCountMap, appCount) =>
    let categoryStats :=
      (pairs categoryCountMap).map fun id => ⟨id, (categoryCountMap.lookup id).getD 0⟩
    { categoryIds := (pairs categoryCountMap).mergeSort fun a b => !decide (b < a)
      categoryStats := categoryStats.mergeSort fun a b => !decide (b.id < a.id)
      appCount := appCount }

/-! ## 3. Counting one by one -/

/-- The app ids of a token: the numbers between the two of a range, if both are positive, or the integer part
of a positive number. -/
def idsOfToken (token : CStr) : List Nat :=
  match luaMatchRange token.bytes with
  | some (startStr, endStr) =>
    let first := min (tonumber startStr) (tonumber endStr)
    let last := max (tonumber startStr) (tonumber endStr)
    if first = 0 then [] else List.range' first (last + 1 - first)
  | none =>
    match toDouble token.bytes with
    | some (.num q _) => if 0 < q then [⌊q⌋₊] else []
    | _ => []

/-- Those of all tokens that have a category, as often as they are named. -/
def countedIds (appIds : List CStr) : List Nat := (appIds.flatMap idsOfToken).filter (1000 ≤ ·)

/-- How many ids are of a category. -/
def categoryCount (ids : List Nat) (category : Nat) : Nat := ids.countP (· / 1000 = category)

/-- The categories of ids, in order. -/
def categories (ids : List Nat) : List Nat := (ids.map (· / 1000)).toFinset.sort

theorem mem_categories {ids : List Nat} {c : Nat} : c ∈ categories ids ↔ 0 < categoryCount ids c := by
  simp [categories, categoryCount, List.countP_pos_iff]

theorem categoryCount_append (ids seg : List Nat) (c : Nat) :
    categoryCount (ids ++ seg) c = categoryCount ids c + categoryCount seg c := List.countP_append ..

theorem categories_pairwise (ids : List Nat) : (categories ids).Pairwise (· < ·) :=
  (Finset.sortedLT_sort _).pairwise

/-- Every id is of one category. -/
theorem sum_categoryCount (ids : List Nat) :
    ((categories ids).map (categoryCount ids)).sum = ids.length := by
  have hcount : categoryCount ids = fun c => (ids.map (· / 1000)).count c := by
    funext c
    rw [List.count, List.countP_map]
    exact List.countP_congr (fun id _ => by simp)
  have hperm : (categories ids).Perm (ids.map (· / 1000)).dedup := by
    refine (List.perm_ext_iff_of_nodup (Finset.sort_nodup ..) (List.nodup_dedup _)).mpr (fun c => ?_)
    rw [Finset.mem_sort, List.mem_toFinset, List.mem_dedup]
  rw [hcount, (hperm.map _).sum_eq, List.sum_map_count_dedup_eq_length, List.length_map]

/-! ## 4. The table -/

/-- The table of the counts of a list of ids. -/
structure CountsOf (categoryCountMap : NumberTable) (ids : List Nat) : Prop where
  lookup : ∀ c : Nat, c ≤ 2 ^ 53 → categoryCountMap.lookup (c : Double) =
    if categoryCount ids c = 0 then none else some (categoryCount ids c : Double)
  keys : ∀ x ∈ categoryCountMap.keys, ∃ c : Nat, c ≤ 2 ^ 53 ∧ x = c

theorem countsOf_empty : CountsOf ∅ [] where
  lookup _ _ := rfl
  keys _ hx := absurd hx List.not_mem_nil

/-- Ids of one category are added to the table at once. -/
theorem CountsOf.add {categoryCountMap : NumberTable} {ids seg : List Nat} {c : Nat}
    (h : CountsOf categoryCountMap ids) (hseg : ∀ id ∈ seg, id / 1000 = c) (hne : seg ≠ []) (h0 : 0 < c)
    (hc : c ≤ 2 ^ 53) (hlen : ids.length + seg.length ≤ 2 ^ 53) :
    CountsOf (addCategoryCount categoryCountMap c seg.length) (ids ++ seg) := by
  have hids : ∀ c', categoryCount ids c' ≤ ids.length := fun c' => List.countP_le_length
  have hguard : ¬ ((c : Double) ≤ 0 ∨ (seg.length : Double) ≤ 0) := by
    rw [Double.natCast_le_zero hc, Double.natCast_le_zero (by omega), List.length_eq_zero_iff]
    exact not_or.mpr ⟨h0.ne', hne⟩
  have hvalue : ((categoryCountMap.lookup (c : Double)).getD 0 + (seg.length : Double)) =
      (categoryCount (ids ++ seg) c : Double) := by
    have hcount : categoryCount seg c = seg.length :=
      List.countP_eq_length.mpr (fun id hid => decide_eq_true (hseg id hid))
    have hgetD : (categoryCountMap.lookup (c : Double)).getD 0 = (categoryCount ids c : Double) := by
      rw [h.lookup c hc]
      split
      · rename_i hzero
        rw [hzero]
        rfl
      · rfl
    have := hids c
    rw [hgetD, Double.natCast_add (by omega) (by omega), categoryCount_append, hcount]
  rw [addCategoryCount, if_neg hguard, hvalue]
  constructor
  · intro c' hc'
    rcases eq_or_ne c' c with rfl | hdiff
    · have hpos : categoryCount (ids ++ seg) c' ≠ 0 := by
        obtain ⟨id, hid⟩ := List.exists_mem_of_ne_nil seg hne
        exact (List.countP_pos_iff.mpr
          ⟨id, List.mem_append_right _ hid, decide_eq_true (hseg id hid)⟩).ne'
      rw [AList.lookup_insert, if_neg hpos]
    · have hother : categoryCount seg c' = 0 :=
        List.countP_eq_zero.mpr (fun id hid => by simpa [hseg id hid] using hdiff.symm)
      have hkey : (c' : Double) ≠ c := fun heq => hdiff ((Double.natCast_inj hc' hc).mp heq)
      rw [AList.lookup_insert_ne hkey, h.lookup c' hc', categoryCount_append, hother, Nat.add_zero]
  · intro x hx
    rw [AList.keys_insert, List.mem_cons] at hx
    rcases hx with rfl | hx
    · exact ⟨c, hc, rfl⟩
    · exact h.keys x (List.mem_of_mem_erase hx)

/-! ## 5. A range -/

/-- The ids of a range that have a category. -/
def rangeIds (cur finish : Nat) : List Nat := (List.range' cur (finish + 1 - cur)).filter (1000 ≤ ·)

theorem rangeIds_of_lt {cur finish : Nat} (h : finish < cur) : rangeIds cur finish = [] := by
  rw [rangeIds, Nat.sub_eq_zero_of_le h]
  rfl

/-- Below 1000 nothing is counted. -/
theorem rangeIds_small {cur finish : Nat} (hle : cur ≤ finish) (h : cur < 1000) :
    rangeIds cur finish = rangeIds (cur + 1) finish := by
  have hsucc : finish + 1 - cur = finish + 1 - (cur + 1) + 1 := by omega
  rw [rangeIds, hsucc, List.range'_succ, List.filter_cons_of_neg (by simpa using h), rangeIds]

/-- From there on, a piece of the range is counted as a whole. -/
theorem rangeIds_split {cur mid finish : Nat} (h : 1000 ≤ cur) (hcur : cur ≤ mid) (hmid : mid ≤ finish) :
    rangeIds cur finish = List.range' cur (mid + 1 - cur) ++ rangeIds (mid + 1) finish := by
  have hpiece : (List.range' cur (mid + 1 - cur)).filter (1000 ≤ ·) = List.range' cur (mid + 1 - cur) :=
    List.filter_eq_self.mpr (fun id hid => by
      have := (List.mem_range'_1.mp hid).1
      exact decide_eq_true (h.trans this))
  have hrest : List.range' cur (finish + 1 - cur) =
      List.range' cur (mid + 1 - cur) ++ List.range' (mid + 1) (finish + 1 - (mid + 1)) := by
    have := @List.range'_append_1 cur (mid + 1 - cur) (finish + 1 - (mid + 1))
    rw [show cur + (mid + 1 - cur) = mid + 1 by omega] at this
    rw [this]
    congr 1
    omega
  rw [rangeIds, hrest, List.filter_append, hpiece, rangeIds]

theorem luaMin_natCast {m n : Nat} (hm : m ≤ 2 ^ 53) : luaMin m n = (min m n : Nat) := by
  unfold luaMin
  rcases le_or_gt m n with h | h
  · rw [if_neg (Double.not_natCast_lt h hm), min_eq_left h]
  · rw [if_pos ((Double.natCast_lt (by omega) hm).mpr h), min_eq_right h.le]

/-- The category of a number. -/
theorem floor_category {n : Nat} (h0 : 0 < n) (hn : n ≤ 2 ^ 53) :
    ((n : Double) / 1000).floor = (n / 1000 : Nat) :=
  Double.natCast_floor_div h0 hn (by norm_num) (by norm_num : 1000 ≤ 2 ^ 53)

/-- `category_end`. -/
theorem categoryEnd_eq {c : Nat} (hc : c * 1000 ≤ 2 ^ 53) :
    (c : Double) * 1000 + 999 = (c * 1000 + 999 : Nat) := by
  have hmul : (c : Double) * 1000 = (c * 1000 : Nat) :=
    Double.natCast_mul (by omega) (by norm_num : 1000 ≤ 2 ^ 53)
  rw [hmul]
  exact Double.natCast_add hc (by norm_num : 999 ≤ 2 ^ 53)

/-- One round on a number that has a category: the rest of the category, or of the range. -/
theorem rangeLoop_succ {fuel cur finish total : Nat} {categoryCountMap : NumberTable}
    (hle : cur ≤ finish) (hbig : 1000 ≤ cur) (hfinish : finish < 2 ^ 53) (htotal : total ≤ 2 ^ 53) :
    let mid := min finish (cur / 1000 * 1000 + 999)
    rangeLoop finish (fuel + 1) cur categoryCountMap total =
      rangeLoop finish fuel (mid + 1 : Nat)
        (addCategoryCount categoryCountMap (cur / 1000 : Nat) (mid + 1 - cur : Nat))
        (total + (mid + 1 - cur) : Nat) := by
  intro mid
  have hmid : cur ≤ mid := le_min hle (by omega)
  have hmid' : mid ≤ finish := min_le_left ..
  have hcategory : ¬ ((cur / 1000 : Nat) : Double) ≤ 0 := by
    rw [Double.natCast_le_zero (by omega)]
    omega
  have hseg : luaMin finish (cur / 1000 * 1000 + 999 : Nat) = mid := luaMin_natCast hfinish.le
  have hcount : (mid : Double) - cur + 1 = (mid + 1 - cur : Nat) := by
    rw [Double.natCast_sub hmid (by omega), Double.natCast_add_one (by omega)]
    congr 1
    omega
  rw [rangeLoop, if_pos ((Double.natCast_le (by omega) hfinish.le).mpr hle)]
  simp only [floor_category (by omega : 0 < cur) (by omega : cur ≤ 2 ^ 53), if_neg hcategory,
    categoryEnd_eq (by omega : cur / 1000 * 1000 ≤ 2 ^ 53), hseg, hcount,
    Double.natCast_add_one (by omega : mid ≤ 2 ^ 53),
    Double.natCast_add htotal (by omega : mid + 1 - cur ≤ 2 ^ 53)]

/-- **What the loop of a range counts.** -/
theorem rangeLoop_eq {fuel cur finish total : Nat} {categoryCountMap : NumberTable} {ids : List Nat}
    (hfuel : finish + 1 - cur < fuel) (h0 : 0 < cur) (hcur : cur ≤ finish + 1) (hfinish : finish < 2 ^ 53)
    (hmap : CountsOf categoryCountMap ids)
    (hids : ids.length + (rangeIds cur finish).length ≤ 2 ^ 53)
    (htotal : total + (rangeIds cur finish).length ≤ 2 ^ 53) :
    ∃ categoryCountMap', rangeLoop finish fuel cur categoryCountMap total =
        some (categoryCountMap', ((total + (rangeIds cur finish).length : Nat) : Double)) ∧
      CountsOf categoryCountMap' (ids ++ rangeIds cur finish) := by
  induction fuel generalizing cur total categoryCountMap ids with
  | zero => omega
  | succ fuel ih =>
    rcases lt_or_ge finish cur with hend | hle
    · have hgt : ¬ (cur : Double) ≤ finish := by
        rw [Double.natCast_le (by omega) hfinish.le]
        omega
      refine ⟨categoryCountMap, ?_, ?_⟩
      · rw [rangeLoop, if_neg hgt, rangeIds_of_lt hend]
        rfl
      · rwa [rangeIds_of_lt hend, List.append_nil]
    rcases lt_or_ge cur 1000 with hsmall | hbig
    · -- the slow path, one number at a time
      have hcategory : ((cur / 1000 : Nat) : Double) ≤ 0 := by
        rw [Double.natCast_le_zero (by omega)]
        omega
      rw [rangeIds_small hle hsmall] at hids htotal ⊢
      rw [rangeLoop, if_pos ((Double.natCast_le (by omega) hfinish.le).mpr hle)]
      simp only [floor_category h0 (by omega : cur ≤ 2 ^ 53), if_pos hcategory,
        Double.natCast_add_one (by omega : cur ≤ 2 ^ 53)]
      exact ih (by omega) (by omega) (by omega) hmap hids htotal
    · have hmid : cur ≤ min finish (cur / 1000 * 1000 + 999) := le_min hle (by omega)
      have hmid' : min finish (cur / 1000 * 1000 + 999) ≤ finish := min_le_left ..
      have hcategory : min finish (cur / 1000 * 1000 + 999) ≤ cur / 1000 * 1000 + 999 := min_le_right ..
      rw [rangeIds_split hbig hmid hmid'] at hids htotal ⊢
      rw [rangeLoop_succ hle hbig hfinish (by omega)]
      generalize min finish (cur / 1000 * 1000 + 999) = mid at *
      have hlen : (List.range' cur (mid + 1 - cur)).length = mid + 1 - cur := List.length_range'
      rw [List.length_append, hlen] at hids htotal ⊢
      have hmap' := @CountsOf.add _ _ (List.range' cur (mid + 1 - cur)) (cur / 1000) hmap
        (fun id hid => by
          have := List.mem_range'_1.mp hid
          omega)
        (by rw [← List.length_pos_iff, hlen]; omega) (by omega) (by omega) (by omega)
      rw [hlen] at hmap'
      obtain ⟨categoryCountMap', hloop, hcounts⟩ := @ih (mid + 1) (total + (mid + 1 - cur)) _ _ (by omega)
        (by omega) (by omega) hmap'
        (by rw [List.length_append, hlen]; omega) (by omega)
      refine ⟨categoryCountMap', ?_, ?_⟩
      · rw [hloop, Nat.add_assoc]
      · rwa [← List.append_assoc]

/-- A range that ends at 2 ^ 53 does not end: one more is 2 ^ 53 again. -/
theorem rangeLoop_endless (fuel : Nat) {cur : Nat} (h0 : 0 < cur) (hcur : cur ≤ 2 ^ 53)
    (categoryCountMap : NumberTable) (total : Double) :
    rangeLoop (2 ^ 53 : Nat) fuel cur categoryCountMap total = none := by
  induction fuel generalizing cur categoryCountMap total with
  | zero => rfl
  | succ fuel ih =>
    rw [rangeLoop, if_pos ((Double.natCast_le hcur le_rfl).mpr hcur)]
    simp only [floor_category h0 hcur, Double.natCast_le_zero (by omega : cur / 1000 ≤ 2 ^ 53),
      categoryEnd_eq (by omega : cur / 1000 * 1000 ≤ 2 ^ 53), luaMin_natCast le_rfl]
    -- the next number is a natural number up to 2 ^ 53 again
    have hnext {n : Nat} (hn : n ≤ 2 ^ 53) (categoryCountMap : NumberTable) (total : Double) :
        rangeLoop (2 ^ 53 : Nat) fuel (n + 1) categoryCountMap total = none := by
      rw [Double.natCast_add_one hn]
      rcases hn.lt_or_eq with hlt | rfl
      · exact ih n.succ_pos hlt ..
      · rw [Double.two_pow_53_add_one]
        exact ih (by norm_num) le_rfl ..
    split
    · exact hnext hcur ..
    · exact hnext (min_le_left ..) ..

/-! ## 6. Tokens -/

theorem isdigit_of_luaDigits {text digits rest : List UInt8} (h : luaDigits text = some (digits, rest)) :
    digits ≠ [] ∧ ∀ c ∈ digits, isdigit c = true := by
  simp only [luaDigits] at h
  split at h
  · cases h
  · rename_i hne
    cases h
    exact ⟨hne, fun c hc => List.mem_takeWhile_imp hc⟩

theorem isdigit_of_luaMatchRange {token startStr endStr : List UInt8}
    (h : luaMatchRange token = some (startStr, endStr)) :
    (startStr ≠ [] ∧ ∀ c ∈ startStr, isdigit c = true) ∧ endStr ≠ [] ∧ ∀ c ∈ endStr, isdigit c = true := by
  unfold luaMatchRange at h
  split at h
  · cases h
  · rename_i start rest hstart
    split at h
    · split at h
      · cases h
      · rename_i hend
        split at h
        · cases h
          exact ⟨isdigit_of_luaDigits hstart, isdigit_of_luaDigits hend⟩
        · cases h
    · cases h

theorem mem_of_isNanWord {word : List UInt8} (h : isNanWord word = true) : 110 ∈ word := by
  rw [isNanWord, Bool.or_eq_true, Bool.and_eq_true, Bool.and_eq_true] at h
  rcases h with h | ⟨⟨h, -⟩, -⟩
  · rw [eq_of_beq h]
    decide
  · exact (List.isPrefixOf_iff_prefix.mp h).subset (by decide)

/-- `tonumber` of digits. -/
theorem toDouble_digits {digits : List UInt8} (hne : digits ≠ []) (h : ∀ c ∈ digits, isdigit c = true) :
    toDouble digits = some (tonumber digits : Double) := by
  have hlower : digits.map tolower = digits :=
    (List.map_congr_left (fun c hc => tolower_of_isdigit (h c hc))).trans (List.map_id _)
  have hinf : ¬ (digits = ascii "inf" ∨ digits = ascii "infinity") := by
    rintro (rfl | rfl) <;> exact absurd (h 105 (by decide)) (by decide)
  have hnan : ¬ isNanWord digits = true := fun hnan =>
    absurd (h 110 (mem_of_isNanWord hnan)) (by decide)
  have hhex : hexNumber digits = none := by
    unfold hexNumber
    split
    · rename_i x text
      have hx : ¬ tolower x = 120 := by
        rw [tolower_of_isdigit (h x (by simp))]
        rintro rfl
        exact absurd (h 120 (by simp)) (by decide)
      simp [hx]
    · rfl
  simp only [toDouble, takeSign_number hne h, hlower, if_neg hinf, if_neg hnan, hhex,
    luaTonumber_number hne h]
  rfl

/-- The ids of a token that have a category. -/
def tokenCounted (token : CStr) : List Nat := (idsOfToken token).filter (1000 ≤ ·)

theorem addRange_eq {startStr endStr : List UInt8} {categoryCountMap : NumberTable} {ids : List Nat}
    {first last : Nat} (hstart : startStr ≠ [] ∧ ∀ c ∈ startStr, isdigit c = true)
    (hend : endStr ≠ [] ∧ ∀ c ∈ endStr, isdigit c = true)
    (hfirst : first = min (tonumber startStr) (tonumber endStr))
    (hlast : last = max (tonumber startStr) (tonumber endStr)) (h0 : 0 < first) (hlt : last < 2 ^ 53)
    (hmap : CountsOf categoryCountMap ids) (hids : ids.length + (rangeIds first last).length ≤ 2 ^ 53)
    {fuel : Nat} (hfuel : last + 1 < fuel) :
    ∃ categoryCountMap', addRangeCategoryCount fuel categoryCountMap startStr endStr =
        some (categoryCountMap', ((rangeIds first last).length : Double)) ∧
      CountsOf categoryCountMap' (ids ++ rangeIds first last) := by
  have hloop := @rangeLoop_eq fuel first last 0 categoryCountMap ids (by omega) h0 (by omega) hlt hmap hids
    (by omega)
  rw [Nat.zero_add] at hloop
  simp only [addRangeCategoryCount, toDouble_digits hstart.1 hstart.2, toDouble_digits hend.1 hend.2,
    Option.getD_some]
  rw [if_neg (by rw [Double.natCast_le_zero (by omega), Double.natCast_le_zero (by omega)]; omega)]
  rcases lt_or_ge (tonumber endStr) (tonumber startStr) with hswap | hle
  · rw [if_pos ((Double.natCast_lt (by omega) (by omega)).mpr hswap)]
    rw [min_eq_right hswap.le] at hfirst
    rw [max_eq_left hswap.le] at hlast
    rw [← hfirst, ← hlast]
    exact hloop
  · rw [if_neg (by rw [Double.natCast_lt (by omega) (by omega)]; omega)]
    rw [min_eq_left hle] at hfirst
    rw [max_eq_right hle] at hlast
    rw [← hfirst, ← hlast]
    exact hloop

/-- A token is counted: its ids are in the table and in the total besides those before. -/
def CountsToken (fuel : Nat) (token : CStr) (categoryCountMap : NumberTable) (ids : List Nat) : Prop :=
  ∃ categoryCountMap', countToken fuel (categoryCountMap, (ids.length : Double)) token =
      some (categoryCountMap', ((ids ++ tokenCounted token).length : Double)) ∧
    CountsOf categoryCountMap' (ids ++ tokenCounted token)

section Token

variable {token : CStr} {categoryCountMap : NumberTable} {ids : List Nat} {fuel : Nat}

/-- A token without such ids, which changes nothing. -/
theorem CountsOf.countsNothing (hmap : CountsOf categoryCountMap ids) (hcounted : tokenCounted token = [])
    (hcode : countToken fuel (categoryCountMap, (ids.length : Double)) token =
      some (categoryCountMap, (ids.length : Double))) :
    CountsToken fuel token categoryCountMap ids := by
  rw [CountsToken, hcounted, List.append_nil]
  exact ⟨_, hcode, hmap⟩

/-- A positive number: its integer part is one id, if it has a category. -/
theorem CountsOf.countsNumber (hmap : CountsOf categoryCountMap ids)
    (hrange : luaMatchRange token.bytes = none) {q : ℚ} {hq : Double.IsFloat q} (hpos : 0 < q)
    (happ : toDouble token.bytes = some (.num q hq)) (hlt : ∀ id ∈ tokenCounted token, id < 2 ^ 53)
    (hids : ids.length + (tokenCounted token).length ≤ 2 ^ 53) :
    CountsToken fuel token categoryCountMap ids := by
  have hcounted : tokenCounted token = [⌊q⌋₊].filter (1000 ≤ ·) := by
    simp [tokenCounted, idsOfToken, hrange, happ, hpos]
  have hfloor : ⌊q⌋₊ < 2 ^ 53 := by
    by_contra hge
    exact hge (hlt _ (by rw [hcounted]; simp; omega))
  have hle : q ≤ 2 ^ 53 := by
    have : (⌊q⌋₊ : ℚ) + 1 ≤ 2 ^ 53 := by exact_mod_cast hfloor
    exact (Nat.lt_floor_add_one q).le.trans this
  have hcategory : (Double.num q hq / 1000).floor = (⌊q⌋₊ / 1000 : Nat) :=
    Double.floor_div hq hpos hle (by norm_num) (by norm_num : 1000 ≤ 2 ^ 53)
  have hguard : (0 : Double) < (⌊q⌋₊ / 1000 : Nat) ↔ 1000 ≤ ⌊q⌋₊ := by
    refine (Double.natCast_lt (Nat.zero_le _) (by omega)).trans ?_
    omega
  rcases lt_or_ge ⌊q⌋₊ 1000 with hsmall | hbig
  · refine hmap.countsNothing ?_ ?_
    · simp [hcounted, hsmall]
    · simp only [countToken, hrange, happ, hcategory, hguard]
      rw [if_neg (fun h => hsmall.not_ge h.2)]
  · have hone : tokenCounted token = [⌊q⌋₊] := by
      rw [hcounted, List.filter_singleton]
      simp [hbig]
    rw [hone] at hids
    rw [CountsToken, hone]
    have hadd := @CountsOf.add _ _ [⌊q⌋₊] (⌊q⌋₊ / 1000) hmap (by simp) (by simp) (by omega) (by omega) hids
    refine ⟨_, ?_, hadd⟩
    simp only [countToken, hrange, happ, hcategory, hguard]
    rw [if_pos ⟨Double.pos_iff.mpr (Or.inr ⟨q, hq, rfl, hpos⟩), hbig⟩,
      Double.natCast_add_one (by simp at hids; omega), List.length_append]
    rfl

/-- A token that is no range. -/
theorem CountsOf.countsSingle (hmap : CountsOf categoryCountMap ids)
    (hrange : luaMatchRange token.bytes = none) (hinf : toDouble token.bytes ≠ some (.inf false))
    (hlt : ∀ id ∈ tokenCounted token, id < 2 ^ 53)
    (hids : ids.length + (tokenCounted token).length ≤ 2 ^ 53) :
    CountsToken fuel token categoryCountMap ids := by
  cases happ : toDouble token.bytes with
  | none =>
    refine hmap.countsNothing ?_ ?_
    · simp [tokenCounted, idsOfToken, hrange, happ]
    · simp [countToken, hrange, happ]
  | some appNum =>
    by_cases hpos : 0 < appNum
    · obtain rfl | ⟨q, hq, rfl, hqpos⟩ := Double.pos_iff.mp hpos
      · exact absurd happ hinf
      · exact hmap.countsNumber hrange hqpos happ hlt hids
    · have hno : idsOfToken token = [] := by
        cases appNum with
        | num q hq =>
          have hq' : ¬ 0 < q := fun hq' => hpos (Double.pos_iff.mpr (Or.inr ⟨q, hq, rfl, hq'⟩))
          simp [idsOfToken, hrange, happ, hq']
        | _ => simp [idsOfToken, hrange, happ]
      refine hmap.countsNothing ?_ ?_
      · rw [tokenCounted, hno, List.filter_nil]
      · simp [countToken, hrange, happ, hpos]

/-- **One token**: the ids it names are counted. -/
theorem CountsOf.countsToken (hmap : CountsOf categoryCountMap ids)
    (hinf : toDouble token.bytes ≠ some (.inf false)) (hlt : ∀ id ∈ tokenCounted token, id < 2 ^ 53)
    (hids : ids.length + (tokenCounted token).length ≤ 2 ^ 53) (hfuel : 2 ^ 53 < fuel) :
    CountsToken fuel token categoryCountMap ids := by
  cases hrange : luaMatchRange token.bytes with
  | none => exact hmap.countsSingle hrange hinf hlt hids
  | some bounds =>
    obtain ⟨startStr, endStr⟩ := bounds
    obtain ⟨hstart, hend⟩ := isdigit_of_luaMatchRange hrange
    generalize hfirst : min (tonumber startStr) (tonumber endStr) = first
    generalize hlast : max (tonumber startStr) (tonumber endStr) = last
    have hids' : idsOfToken token = if first = 0 then [] else List.range' first (last + 1 - first) := by
      simp only [idsOfToken, hrange, hfirst, hlast]
    rcases Nat.eq_zero_or_pos first with hzero | hpos
    · -- a bound that is 0
      have hbound : ((tonumber startStr : Double) ≤ 0 ∨ (tonumber endStr : Double) ≤ 0) := by
        rcases min_choice (tonumber startStr) (tonumber endStr) with hmin | hmin
        · exact Or.inl ((Double.natCast_le_zero (by omega)).mpr (by omega))
        · exact Or.inr ((Double.natCast_le_zero (by omega)).mpr (by omega))
      refine hmap.countsNothing (by rw [tokenCounted, hids', if_pos hzero, List.filter_nil]) ?_
      simp only [countToken, hrange, addRangeCategoryCount, toDouble_digits hstart.1 hstart.2,
        toDouble_digits hend.1 hend.2, Option.getD_some]
      rw [if_pos hbound]
      change some (_, (ids.length : Double) + (0 : Nat)) = _
      rw [Double.natCast_add (by omega) (Nat.zero_le _)]
      rfl
    · have hcounted : tokenCounted token = rangeIds first last := by
        rw [tokenCounted, hids', if_neg hpos.ne', rangeIds]
      have hlast' : last < 2 ^ 53 := by
        by_contra hge
        refine hge (hlt last ?_)
        rw [hcounted, rangeIds, List.mem_filter, List.mem_range'_1]
        exact ⟨by omega, decide_eq_true (by omega)⟩
      rw [hcounted] at hids
      rw [CountsToken, hcounted]
      obtain ⟨categoryCountMap', hrun, hcounts⟩ := addRange_eq hstart hend hfirst.symm hlast.symm hpos hlast'
        hmap hids (show last + 1 < fuel by omega)
      refine ⟨categoryCountMap', ?_, hcounts⟩
      simp only [countToken, hrange, hrun, Option.map_some]
      rw [Double.natCast_add (by omega) (by omega), List.length_append]

end Token

/-- **All tokens.** -/
theorem countTokens_eq {appIds : List CStr} {categoryCountMap : NumberTable} {ids : List Nat}
    (hinf : ∀ token ∈ appIds, toDouble token.bytes ≠ some (.inf false))
    (hlt : ∀ id ∈ countedIds appIds, id < 2 ^ 53)
    (hmap : CountsOf categoryCountMap ids) (hids : ids.length + (countedIds appIds).length ≤ 2 ^ 53)
    {fuel : Nat} (hfuel : 2 ^ 53 < fuel) :
    ∃ categoryCountMap', appIds.foldlM (countToken fuel) (categoryCountMap, (ids.length : Double)) =
        some (categoryCountMap', ((ids ++ countedIds appIds).length : Double)) ∧
      CountsOf categoryCountMap' (ids ++ countedIds appIds) := by
  induction appIds generalizing categoryCountMap ids with
  | nil => exact ⟨categoryCountMap, by rw [countedIds]; simp, by rw [countedIds]; simpa using hmap⟩
  | cons token appIds ih =>
    have hcons : countedIds (token :: appIds) = tokenCounted token ++ countedIds appIds := by
      rw [countedIds, List.flatMap_cons, List.filter_append, tokenCounted, countedIds]
    rw [hcons] at hlt hids ⊢
    rw [List.length_append] at hids
    obtain ⟨hinf, hinf'⟩ := List.forall_mem_cons.mp hinf
    obtain ⟨hlt, hlt'⟩ := List.forall_mem_append.mp hlt
    obtain ⟨categoryCountMap₁, hstep, hmap₁⟩ := hmap.countsToken hinf hlt (by omega) hfuel
    obtain ⟨categoryCountMap', hrun, hmap'⟩ := ih hinf' hlt' hmap₁ (by rw [List.length_append]; omega)
    rw [List.append_assoc] at hrun hmap'
    exact ⟨categoryCountMap', by rw [List.foldlM_cons, hstep]; exact hrun, hmap'⟩

/-! ## 7. The lists -/

/-- A list that has to be sorted, and is something of each of some numbers in order. -/
theorem mergeSort_of_perm {α : Type} {f : Nat → α} {le : α → α → Bool} {l : List α} {numbers : List Nat}
    (hperm : l.Perm (numbers.map f)) (hsorted : numbers.Pairwise (· < ·))
    (hle : ∀ a ∈ numbers, ∀ b ∈ numbers, decide (a ≤ b) = le (f a) (f b)) :
    l.mergeSort le = numbers.map f := by
  obtain ⟨m, rfl, hm⟩ : Relation.Comp (· = List.map f ·) List.Perm l numbers := by
    rwa [List.eq_map_comp_perm]
  have hsort : m.mergeSort (fun a b => decide (a ≤ b)) = numbers := by
    have hm' : (m.mergeSort (fun a b => decide (a ≤ b))).Pairwise (· ≤ ·) := by
      refine (List.pairwise_mergeSort (fun a b c hab hbc => ?_) (fun a b => ?_) m).imp of_decide_eq_true
      · exact decide_eq_true ((of_decide_eq_true hab).trans (of_decide_eq_true hbc))
      · simpa using Nat.le_total a b
    exact List.Perm.eq_of_pairwise' hm' (hsorted.imp Nat.le_of_lt) ((List.mergeSort_perm ..).trans hm)
  rw [← List.map_mergeSort (r := fun a b => decide (a ≤ b)), hsort]
  exact fun a ha b hb => hle a (hm.subset ha) b (hm.subset hb)

section Lists

variable {categoryCountMap : NumberTable} {ids : List Nat}

theorem category_le (hlt : ∀ id ∈ ids, id < 2 ^ 53) {c : Nat} (hc : c ∈ categories ids) : c ≤ 2 ^ 53 := by
  obtain ⟨id, hid, hcat⟩ := List.countP_pos_iff.mp (mem_categories.mp hc)
  have := hlt id hid
  have := of_decide_eq_true hcat
  omega

/-- The keys of the table. -/
theorem CountsOf.keys_perm (h : CountsOf categoryCountMap ids) (hlt : ∀ id ∈ ids, id < 2 ^ 53) :
    categoryCountMap.keys.Perm ((categories ids).map Nat.cast) := by
  have hnodup : ((categories ids).map (Nat.cast : Nat → Double)).Nodup :=
    List.Nodup.map_on
      (fun a ha b hb heq => (Double.natCast_inj (category_le hlt ha) (category_le hlt hb)).mp heq)
      ((categories_pairwise ids).imp Nat.ne_of_lt)
  refine (List.perm_ext_iff_of_nodup categoryCountMap.nodupKeys hnodup).mpr (fun x => ?_)
  have hkey {c : Nat} (hc : c ≤ 2 ^ 53) :
      (c : Double) ∈ categoryCountMap.keys ↔ c ∈ categories ids := by
    rw [← AList.mem_keys, ← AList.lookup_isSome, h.lookup c hc, mem_categories]
    split <;> simp <;> omega
  rw [List.mem_map]
  constructor
  · intro hx
    obtain ⟨c, hc, rfl⟩ := h.keys x hx
    exact ⟨c, (hkey hc).mp hx, rfl⟩
  · rintro ⟨c, hc, rfl⟩
    exact (hkey (category_le hlt hc)).mpr hc

/-- The statistics of counting one by one. -/
def countOneByOne (ids : List Nat) : CategoryStats where
  categoryIds := (categories ids).map Nat.cast
  categoryStats := (categories ids).map fun c : Nat => ⟨c, categoryCount ids c⟩
  appCount := ids.length

theorem CountsOf.stats {pairs : NumberTable → List Double} (hpairs : ∀ table, (pairs table).Perm table.keys)
    (h : CountsOf categoryCountMap ids) (hlt : ∀ id ∈ ids, id < 2 ^ 53) :
    ((pairs categoryCountMap).mergeSort fun a b => !decide (b < a)) = (countOneByOne ids).categoryIds ∧
      (((pairs categoryCountMap).map fun id =>
          (⟨id, (categoryCountMap.lookup id).getD 0⟩ : CategoryStat)).mergeSort
        fun a b => !decide (b.id < a.id)) = (countOneByOne ids).categoryStats := by
  have hkeys := (hpairs categoryCountMap).trans (h.keys_perm hlt)
  have hle : ∀ a ∈ categories ids, ∀ b ∈ categories ids,
      decide (a ≤ b) = !decide ((b : Double) < a) := by
    intro a ha b hb
    rw [← decide_not, decide_eq_decide, Double.natCast_lt (category_le hlt hb) (category_le hlt ha), not_lt]
  constructor
  · exact mergeSort_of_perm hkeys (categories_pairwise ids) hle
  · refine mergeSort_of_perm (f := fun c : Nat => (⟨c, categoryCount ids c⟩ : CategoryStat)) ?_
      (categories_pairwise ids) hle
    have hvalue : (categories ids).map (fun c : Nat => (⟨c, categoryCount ids c⟩ : CategoryStat)) =
        ((categories ids).map (Nat.cast : Nat → Double)).map
          (fun id => ⟨id, (categoryCountMap.lookup id).getD 0⟩) := by
      rw [List.map_map]
      refine List.map_congr_left (fun c hc => ?_)
      have hpos := mem_categories.mp hc
      rw [Function.comp_apply, h.lookup c (category_le hlt hc), if_neg hpos.ne', Option.getD_some]
    rw [hvalue]
    exact hkeys.map _

end Lists

/-- **The statistics are those of counting one by one**, as long as the doubles count exactly: no token is an
infinity, every counted id is below 2 ^ 53, and there are at most 2 ^ 53 of them. -/
theorem categoryStats_eq {pairs : NumberTable → List Double} (hpairs : ∀ table, (pairs table).Perm table.keys)
    (appIds : List CStr) (hinf : ∀ token ∈ appIds, toDouble token.bytes ≠ some (.inf false))
    (hlt : ∀ id ∈ countedIds appIds, id < 2 ^ 53) (hlen : (countedIds appIds).length ≤ 2 ^ 53) :
    (∃ n, ∀ fuel, n ≤ fuel →
        parseAppRuleCategoryStats pairs fuel appIds = some (countOneByOne (countedIds appIds))) ∧
      (countOneByOne (countedIds appIds)).categoryIds.Pairwise (· < ·) ∧
      ((categories (countedIds appIds)).map (categoryCount (countedIds appIds))).sum =
        (countedIds appIds).length := by
  refine ⟨⟨2 ^ 53 + 1, fun fuel hfuel => ?_⟩, ?_, sum_categoryCount _⟩
  · obtain ⟨categoryCountMap, hrun, hcounts⟩ :=
      countTokens_eq hinf hlt countsOf_empty (by simpa using hlen) hfuel
    rw [List.nil_append] at hrun hcounts
    obtain ⟨hids, hstats⟩ := hcounts.stats hpairs hlt
    have hrun' : appIds.foldlM (countToken fuel) (∅, 0) = _ := hrun
    rw [parseAppRuleCategoryStats, hrun', Option.map_some]
    simp only [hids, hstats]
    rfl
  · refine List.pairwise_map.mpr ((categories_pairwise _).imp_of_mem (fun ha hb hab => ?_))
    exact (Double.natCast_lt (category_le hlt ha) (category_le hlt hb)).mpr hab

theorem categoryStats_eq_mixed :
    (∃ n, ∀ fuel, n ≤ fuel →
        parseAppRuleCategoryStats AList.keys fuel [.lit "2001-1998", .lit "1500", .lit "x"] =
          some (countOneByOne [1998, 1999, 2000, 2001, 1500])) ∧
      (countOneByOne [1998, 1999, 2000, 2001, 1500]).categoryIds.Pairwise (· < ·) ∧
      ((categories [1998, 1999, 2000, 2001, 1500]).map
        (categoryCount [1998, 1999, 2000, 2001, 1500])).sum = 5 := by
  have hids : countedIds [.lit "2001-1998", .lit "1500", .lit "x"] = [1998, 1999, 2000, 2001, 1500] := by
    decide +kernel
  have := @categoryStats_eq AList.keys (fun _ => List.Perm.refl _)
    [.lit "2001-1998", .lit "1500", .lit "x"] (by decide +kernel) (by rw [hids]; decide)
    (by rw [hids]; decide)
  rwa [hids] at this

/-- A range that reaches 2 ^ 53 is counted for ever.  Besides, `tonumber` takes fractions for app ids and
rounds large ones to another category, and a range from 0 is no range. -/
theorem large_range_endless :
    (∀ pairs fuel, parseAppRuleCategoryStats pairs fuel [.lit "9007199254740992-9007199254740992"] = none) ∧
      parseAppRuleCategoryStats AList.keys 0 [.lit "1500.5"] = some ⟨[1], [⟨1, 1⟩], 1⟩ ∧
      parseAppRuleCategoryStats AList.keys 0 [.lit "9007199254740999"] =
        some ⟨[9007199254741], [⟨9007199254741, 1⟩], 1⟩ ∧
      parseAppRuleCategoryStats AList.keys 0 [.lit "0-1500"] = some ⟨[], [], 0⟩ := by
  refine ⟨fun pairs fuel => ?_, by decide +kernel, by decide +kernel, by decide +kernel⟩
  have hrange : luaMatchRange (CStr.lit "9007199254740992-9007199254740992").bytes =
      some (ascii "9007199254740992", ascii "9007199254740992") := by decide +kernel
  have hnumber : toDouble (ascii "9007199254740992") = some ((2 ^ 53 : Nat) : Double) :=
    toDouble_digits (by decide) (by decide +kernel)
  have hpos : ¬ ((2 ^ 53 : Nat) : Double) ≤ 0 := by
    rw [Double.natCast_le_zero le_rfl]
    norm_num
  have hself : ¬ ((2 ^ 53 : Nat) : Double) < (2 ^ 53 : Nat) := by
    rw [Double.natCast_lt le_rfl le_rfl]
    exact lt_irrefl _
  have hnone (categoryCountMap : NumberTable) : addRangeCategoryCount fuel categoryCountMap
      (ascii "9007199254740992") (ascii "9007199254740992") = none := by
    simp only [addRangeCategoryCount, hnumber, Option.getD_some]
    rw [if_neg (not_or.mpr ⟨hpos, hpos⟩), if_neg hself]
    exact rangeLoop_endless fuel (by norm_num) le_rfl ..
  rw [parseAppRuleCategoryStats, List.foldlM_cons]
  simp [countToken, hrange, hnone]

end Oaf
