/-
# Weekly limits

A MAC-filter rule keeps its limits in one text, `1:60,2:60,..,0:120`: minutes or megabytes for each day of
the week.  fwxd reads it with `normalize_limit_str`, which shows and stores what it read; the rule manager,
which enforces the limits, reads the same text with `parse_week_limit_rules`.

The two agree on what a pair looks like except for the blanks `\v` and `\f`, and on what its numbers
are except that fwxd's are 32-bit and wrap.

* `readLimit_eq`: what fwxd reads off a pair, in terms of what the rule manager's pattern matches.
* `limits_agree_iff`: exactly when the seven days come out the same.
* `lastPairsAgree_of_ordinary`: they do for numbers that fit and blanks that both sides know.
* `normalizeLimitStr_idem`: what fwxd wrote it reads back unchanged.
-/
import Oaf.Lib.Words

namespace Oaf.MacFilter

open CLib

/-! ## 1. fwxd -/

/-- Seven days, Sunday last: `order`. -/
def limitOrder : List Nat := [1, 2, 3, 4, 5, 6, 0]

inductive TimeMode where
  | range | duration | flow
deriving DecidableEq

/-- The loop of `parse_uint_token`.  There is no overflow check. -/
def parseUintFrom (v : Int) : List UInt8 → Option Int
  | [] => some v
  | c :: token =>
    if isdigit c then parseUintFrom (Kernel.toInt32 (v * 10 + (c.toNat - 48))) token else none

/-- `parse_uint_token`. -/
def parseUintToken (token : List UInt8) : Option Int :=
  if token = [] then none else parseUintFrom 0 token

/-- What `trim_space` trims. -/
def isBlank (c : UInt8) : Bool := c == 32 || c == 9 || c == 13 || c == 10

/-- `trim_space`. -/
def trimSpace (text : List UInt8) : List UInt8 := (text.dropWhile isBlank).rdropWhile isBlank

/-- `get_limit_max_value`. -/
def getLimitMaxValue : TimeMode → Int
  | .duration => 1440
  | _ => 1048576

/-- The bytes of `pair_buf` and of `buf`, without the terminator. -/
def PAIR_LEN : Nat := 63
def LIMIT_LEN : Nat := 511

/-- A pair of `normalize_limit_str`: the day and the value, which is not capped yet. -/
def readLimit (token : List UInt8) : Option (Int × Int) :=
  match strchrSplit 58 (trimSpace (token.take PAIR_LEN)) with
  | none => none
  | some (day, value) =>
    match parseUintToken (trimSpace day), parseUintToken (trimSpace value) with
    | some day, some value => if 0 ≤ day ∧ day ≤ 6 then some (day, value) else none
    | _, _ => none

/-- A value brought into `0 .. max`. -/
def capLimit (max value : Int) : Int :=
  let value := if value < 0 then 0 else value
  if max < value then max else value

/-- `values` after the first loop of `normalize_limit_str`. -/
def limitValues (input : List UInt8) (timeMode : TimeMode) : Nat → Int :=
  (words 44 (input.take LIMIT_LEN)).foldl
    (putEntry (fun token => (readLimit token).map
      (fun p => (p.1.toNat, capLimit (getLimitMaxValue timeMode) p.2))))
    (fun _ => 0)

/-- `%d:%d`. -/
def limitPair (day : Nat) (value : Int) : List UInt8 := printNat day ++ 58 :: printInt value

/-- The second loop: the text so far, and the days to come. -/
def printLimits (values : Nat → Int) (outputLen : Nat) : List UInt8 → List Nat → Option (List UInt8)
  | output, [] => some output
  | output, day :: days =>
    let pair := limitPair day (values day)
    if outputLen - output.length ≤ pair.length then none
    else if days = [] then some (output ++ pair)
    else if outputLen ≤ (output ++ pair).length + 1 then none
    else printLimits values outputLen (output ++ pair ++ [44]) days

/-- `normalize_limit_str`; `none` where it returns -1. -/
def normalizeLimitStr (input : List UInt8) (timeMode : TimeMode) (outputLen : Nat) :
    Option (List UInt8) :=
  printLimits (limitValues input timeMode) outputLen [] limitOrder

/-! ## 2. The rule manager -/

/-- `%s*(%d+)` at the start of a text: the digits, and the rest.  The two classes have nothing in
common, so there is nothing to go back for. -/
def luaDigits (text : List UInt8) : Option (List UInt8 × List UInt8) :=
  let text := text.dropWhile isspace
  if text.takeWhile isdigit = [] then none
  else some (text.takeWhile isdigit, text.dropWhile isdigit)

/-- `pair:match("^%s*(%d+)%s*:%s*(%d+)%s*$")`. -/
def luaMatchPair (pair : List UInt8) : Option (List UInt8 × List UInt8) :=
  match luaDigits pair with
  | none => none
  | some (day, rest) =>
    match rest.dropWhile isspace with
    | 58 :: rest =>
      match luaDigits rest with
      | none => none
      | some (value, rest) => if rest.dropWhile isspace = [] then some (day, value) else none
    | _ => none

/-- `tonumber` of digits.  It is a `double`; what rounding does to it above `2 ^ 53` cannot be seen here,
where it is compared with 6 or capped. -/
def tonumber (digits : List UInt8) : Nat := Kernel.ofDigits 10 digits

/-- A pair of `parse_week_limit_rules`: the day and the capped value. -/
def readWeekLimit (max : Nat) (pair : List UInt8) : Option (Nat × Nat) :=
  match luaMatchPair pair with
  | none => none
  | some (day, value) =>
    if tonumber day ≤ 6 then
      some (tonumber day, if max < tonumber value then max else tonumber value)
    else none

/-- `parse_week_limit_rules`: each rule is its weekday and its value. -/
def parseWeekLimitRules (limitStr : List UInt8) (max : Nat) : List (Nat × Nat) :=
  let parsedMap : Nat → Option Nat :=
    (words 44 limitStr).foldl
      (putEntry (fun pair => (readWeekLimit max pair).map (fun p => (p.1, some p.2))))
      (fun _ => none)
  limitOrder.map (fun day => (day, (parsedMap day).getD 0))

/-! ## 3. One number between blanks -/

/-- `text` without the blanks around it, if that is a number. -/
def blankField (blank : UInt8 → Bool) (text : List UInt8) : Option (List UInt8) :=
  let field := (text.dropWhile blank).rdropWhile blank
  if field ≠ [] ∧ field.all isdigit then some field else none

/-- Digits in front of blanks: where the digits end, and what is left without the blanks. -/
theorem digits_append_blanks {blank : UInt8 → Bool}
    (hblank : ∀ c, isdigit c = true → blank c = false) {ds blanks : List UInt8}
    (hds : ∀ c ∈ ds, isdigit c = true) (hbs : ∀ c ∈ blanks, blank c = true) :
    (ds ++ blanks).takeWhile isdigit = ds ∧ (ds ++ blanks).dropWhile isdigit = blanks ∧
      (ds ++ blanks).rdropWhile blank = ds := by
  have hhead : blanks.takeWhile isdigit = [] ∧ blanks.dropWhile isdigit = blanks := by
    cases blanks with
    | nil => exact ⟨rfl, rfl⟩
    | cons c l =>
      have hc : isdigit c = false := by
        by_contra h
        have := hblank c (by simpa using h)
        rw [hbs c (List.mem_cons_self ..)] at this
        exact absurd this (by decide)
      simp [hc]
  refine ⟨?_, ?_, ?_⟩
  · rw [List.takeWhile_append_of_pos hds, hhead.1, List.append_nil]
  · rw [List.dropWhile_append_of_pos hds, hhead.2]
  · induction blanks using List.reverseRecOn with
    | nil =>
      rw [List.append_nil]
      refine List.rdropWhile_eq_self_iff.mpr (fun hne => ?_)
      simp [hblank _ (hds _ (List.getLast_mem hne))]
    | append_singleton l c ih =>
      have hl : ∀ c ∈ l, blank c = true := fun c hc => hbs c (List.mem_append_left _ hc)
      rw [← List.append_assoc, List.rdropWhile_concat_pos _ _ _ (hbs c (by simp))]
      refine ih hl ?_
      cases l with
      | nil => exact ⟨rfl, rfl⟩
      | cons a l => simpa using hhead

/-- A number is what a text without the blanks before it begins with, if only blanks follow. -/
theorem blankField_eq {blank : UInt8 → Bool} (hblank : ∀ c, isdigit c = true → blank c = false)
    (text : List UInt8) :
    blankField blank text =
      if (text.dropWhile blank).takeWhile isdigit ≠ [] ∧
          ((text.dropWhile blank).dropWhile isdigit).dropWhile blank = [] then
        some ((text.dropWhile blank).takeWhile isdigit)
      else none := by
  unfold blankField
  generalize text.dropWhile blank = t
  by_cases h : t.takeWhile isdigit ≠ [] ∧ (t.dropWhile isdigit).dropWhile blank = []
  · have hds : ∀ c ∈ t.takeWhile isdigit, isdigit c = true := fun c hc => List.mem_takeWhile_imp hc
    have htrim := (digits_append_blanks hblank hds (List.dropWhile_eq_nil_iff.mp h.2)).2.2
    rw [List.takeWhile_append_dropWhile] at htrim
    have hall : (t.takeWhile isdigit).all isdigit = true := List.all_eq_true.mpr hds
    rw [if_pos h, htrim, if_pos ⟨h.1, hall⟩]
  · rw [if_neg h, if_neg]
    rintro ⟨hne, hall⟩
    -- digits and then blanks is just what `h` rules out
    obtain ⟨htake, hdrop, -⟩ := digits_append_blanks hblank (List.all_eq_true.mp hall)
      (fun c (hc : c ∈ t.rtakeWhile blank) => List.mem_rtakeWhile_imp hc)
    rw [List.rdropWhile_append_rtakeWhile] at htake hdrop
    refine h ⟨by rwa [htake], ?_⟩
    rw [hdrop]
    exact List.dropWhile_eq_nil_iff.mpr (fun c hc => List.mem_rtakeWhile_imp hc)

/-! ## 4. A pair, read by both sides -/

theorem dropWhile_append_stop {p : UInt8 → Bool} {c : UInt8} (hc : p c = false) (u v : List UInt8) :
    (u ++ c :: v).dropWhile p = u.dropWhile p ++ c :: v := by
  induction u with
  | nil => simp [hc]
  | cons a u ih => by_cases ha : p a <;> simp [ha, ih]

theorem takeWhile_append_stop {p : UInt8 → Bool} {c : UInt8} (hc : p c = false) (u v : List UInt8) :
    (u ++ c :: v).takeWhile p = u.takeWhile p := by
  induction u with
  | nil => simp [hc]
  | cons a u ih => by_cases ha : p a <;> simp [ha, ih]

theorem not_mem_of_strchrSplit {d : UInt8} : ∀ {l : List UInt8}, strchrSplit d l = none → d ∉ l
  | [], _ => List.not_mem_nil
  | c :: l, h => by
    by_cases hc : c = d
    · simp [strchrSplit, hc] at h
    · simp only [strchrSplit, if_neg hc, Option.map_eq_none_iff] at h
      simp [Ne.symm hc, not_mem_of_strchrSplit h]

/-- The two numbers of a pair, with `blank` around them. -/
def pairFields (blank : UInt8 → Bool) (pair : List UInt8) : Option (List UInt8 × List UInt8) :=
  match strchrSplit 58 pair with
  | none => none
  | some (day, value) =>
    match blankField blank day, blankField blank value with
    | some day, some value => some (day, value)
    | _, _ => none

/-- What is left behind blanks, digits and blanks is from the text. -/
theorem mem_of_mem_dropBlankDigits {l : List UInt8} {c : UInt8}
    (h : c ∈ ((l.dropWhile isspace).dropWhile isdigit).dropWhile isspace) : c ∈ l :=
  (List.dropWhile_suffix _).subset
    ((List.dropWhile_suffix _).subset ((List.dropWhile_suffix _).subset h))

/-- Without a colon there is no match: the pattern's colon would be one of the pair's. -/
theorem luaMatchPair_none {pair : List UInt8} (h : 58 ∉ pair) : luaMatchPair pair = none := by
  unfold luaMatchPair luaDigits
  dsimp only
  split
  · rfl
  · rename_i day rest hday
    split at hday
    · cases hday
    · cases hday
      split
      · rename_i rest' hrest
        exact absurd (mem_of_mem_dropBlankDigits (hrest ▸ List.mem_cons_self ..)) h
      · rfl

/-- **The pattern is the two numbers around the colon.** -/
theorem luaMatchPair_eq (pair : List UInt8) : luaMatchPair pair = pairFields isspace pair := by
  unfold pairFields
  cases hsplit : strchrSplit 58 pair with
  | none => exact luaMatchPair_none (not_mem_of_strchrSplit hsplit)
  | some p =>
    obtain ⟨a, b⟩ := p
    obtain ⟨rfl, ha⟩ := strchrSplit_eq_some hsplit
    have hspace : isspace 58 = false := by decide
    have hdigit : isdigit 58 = false := by decide
    have hday := blankField_eq (fun _ => isspace_of_isdigit) a
    have hvalue := blankField_eq (fun _ => isspace_of_isdigit) b
    unfold luaMatchPair luaDigits
    simp only [dropWhile_append_stop hspace, dropWhile_append_stop hdigit,
      takeWhile_append_stop hdigit]
    by_cases h1 : (a.dropWhile isspace).takeWhile isdigit = []
    · rw [if_neg (by simp [h1])] at hday
      rw [if_pos h1]
      simp only [hday]
    · rw [if_neg h1]
      simp only [dropWhile_append_stop hspace]
      cases h2 : ((a.dropWhile isspace).dropWhile isdigit).dropWhile isspace with
      | nil =>
        rw [if_pos ⟨h1, h2⟩] at hday
        simp only [List.nil_append, hday, hvalue]
        split_ifs <;> simp_all
      | cons c rest =>
        -- what stands before the colon is neither a blank nor the colon
        have hc : c ≠ 58 := by
          rintro rfl
          exact ha (mem_of_mem_dropBlankDigits (h2 ▸ List.mem_cons_self ..))
        rw [if_neg (by simp [h2])] at hday
        simp only [hday]
        split
        · rename_i heq
          simp only [List.cons_append, List.cons.injEq] at heq
          exact absurd heq.1 hc
        · rfl

/-- Trimming a pair trims its two halves on the outside. -/
theorem strchrSplit_trim {d : UInt8} {p : UInt8 → Bool} (hd : p d = false) (l : List UInt8) :
    strchrSplit d ((l.dropWhile p).rdropWhile p) =
      (strchrSplit d l).map (fun q => (q.1.dropWhile p, q.2.rdropWhile p)) := by
  cases hsplit : strchrSplit d l with
  | none =>
    refine strchrSplit_eq_none (fun h => not_mem_of_strchrSplit hsplit ?_)
    exact (List.dropWhile_suffix p).subset ((List.rdropWhile_prefix p _).subset h)
  | some q =>
    obtain ⟨a, b⟩ := q
    obtain ⟨rfl, ha⟩ := strchrSplit_eq_some hsplit
    rw [dropWhile_append_stop hd, rdropWhile_append_cons hd]
    exact strchrSplit_append (fun h => ha ((List.dropWhile_suffix p).subset h)) _

theorem blankField_dropWhile (p : UInt8 → Bool) (l : List UInt8) :
    blankField p (l.dropWhile p) = blankField p l := by
  simp only [blankField, List.dropWhile_idempotent]

theorem blankField_rdropWhile (p : UInt8 → Bool) (l : List UInt8) :
    blankField p (l.rdropWhile p) = blankField p l := by
  have htrim : ((l.rdropWhile p).dropWhile p).rdropWhile p = (l.dropWhile p).rdropWhile p := by
    by_cases hall : ∀ c ∈ l, p c = true
    · rw [List.rdropWhile_eq_nil_iff.mpr hall, List.dropWhile_eq_nil_iff.mpr hall, List.dropWhile_nil]
    · obtain ⟨c, hc, hpc⟩ : ∃ c ∈ l, p c = false := by simpa using hall
      obtain ⟨u, v, rfl⟩ := List.append_of_mem hc
      simp only [rdropWhile_append_cons hpc, dropWhile_append_stop hpc,
        List.rdropWhile_idempotent]
  simp only [blankField, htrim]

/-- `parse_uint_token` reads what is all digits, as a number that wraps at 32 bits. -/
theorem parseUintFrom_eq : ∀ (token : List UInt8) (n : Nat),
    parseUintFrom (Kernel.toInt32 n) token =
      if token.all isdigit then
        some (Kernel.toInt32
          (token.foldl (fun acc c => acc * 10 + Kernel.digitVal c) n : Nat))
      else none
  | [], n => rfl
  | c :: token, n => by
    by_cases hc : isdigit c = true
    · have hval : (Kernel.digitVal c : Int) = c.toNat - 48 := by
        have := isdigit_bounds hc
        rw [Kernel.digitVal, if_pos hc]
        omega
      have hstep : Kernel.toInt32 (Kernel.toInt32 n * 10 + (c.toNat - 48)) =
          Kernel.toInt32 ((n * 10 + Kernel.digitVal c : Nat) : Int) := by
        unfold Kernel.toInt32
        push_cast
        rw [hval, ← Int.bmod_add_bmod, Int.bmod_mul_bmod, Int.bmod_add_bmod]
      rw [parseUintFrom, if_pos hc, hstep, parseUintFrom_eq token]
      simp [hc]
    · simp [parseUintFrom, hc]

theorem parseUintToken_eq (token : List UInt8) :
    parseUintToken token =
      if token ≠ [] ∧ token.all isdigit then some (Kernel.toInt32 (tonumber token)) else none := by
  unfold parseUintToken
  by_cases h : token = []
  · simp [h]
  · have hfrom := parseUintFrom_eq token 0
    simp only [h, if_false, ne_eq, not_false_eq_true, true_and]
    exact hfrom

/-- The number as fwxd has it. -/
def wrap32 (digits : List UInt8) : Int := Kernel.toInt32 (tonumber digits)

theorem parseUintToken_trimSpace (text : List UInt8) :
    parseUintToken (trimSpace text) = (blankField isBlank text).map wrap32 := by
  rw [parseUintToken_eq, blankField, trimSpace]
  split_ifs <;> rfl

/-- A day and a value out of the two numbers of a pair, read as `number` reads them. -/
def entryOf (number : List UInt8 → Int) (fields : List UInt8 × List UInt8) : Option (Int × Int) :=
  if 0 ≤ number fields.1 ∧ number fields.1 ≤ 6 then some (number fields.1, number fields.2) else none

/-- How a number is read does not matter to what is done with the two. -/
theorem entryOf_fields (number : List UInt8 → Int) (a b : Option (List UInt8)) :
    (match a.map number, b.map number with
      | some day, some value => if 0 ≤ day ∧ day ≤ 6 then some (day, value) else none
      | _, _ => none) =
    (match a, b with
      | some day, some value => some (day, value)
      | _, _ => none).bind (entryOf number) := by
  cases a <;> cases b <;> rfl

/-- **What fwxd reads off a pair.** -/
theorem readLimit_eq {token : List UInt8} (h : token.length ≤ PAIR_LEN) :
    readLimit token = (pairFields isBlank token).bind (entryOf wrap32) := by
  have hcolon : isBlank 58 = false := by decide
  unfold readLimit pairFields
  rw [List.take_of_length_le h, trimSpace, strchrSplit_trim hcolon]
  cases strchrSplit 58 token with
  | none => rfl
  | some p =>
    obtain ⟨day, value⟩ := p
    rw [Option.map_some]
    dsimp only
    rw [parseUintToken_trimSpace, parseUintToken_trimSpace, blankField_dropWhile,
      blankField_rdropWhile]
    exact entryOf_fields wrap32 _ _

/-! ## 5. The blanks that only one side has -/

/-- The text has no `\v` and no `\f`. -/
def NoVtFf (text : List UInt8) : Prop := (11 : UInt8) ∉ text ∧ (12 : UInt8) ∉ text

instance (text : List UInt8) : Decidable (NoVtFf text) := inferInstanceAs (Decidable (_ ∧ _))

theorem isspace_iff (c : UInt8) : isspace c = true ↔ isBlank c = true ∨ c = 11 ∨ c = 12 := by
  simp only [isspace, isBlank, Bool.or_eq_true, Bool.and_eq_true, decide_eq_true_eq, beq_iff_eq,
    UInt8.le_iff_toNat_le, ← UInt8.toNat_inj]
  simp
  omega

theorem isBlank_digit (c : UInt8) (h : isdigit c = true) : isBlank c = false := by
  by_contra hb
  have := (isspace_iff c).mpr (Or.inl (by simpa using hb))
  rw [isspace_of_isdigit h] at this
  exact absurd this (by decide)

theorem dropWhile_congr {p q : UInt8 → Bool} : ∀ {l : List UInt8}, (∀ c ∈ l, p c = q c) →
    l.dropWhile p = l.dropWhile q
  | [], _ => rfl
  | c :: l, h => by
    rw [List.dropWhile_cons, List.dropWhile_cons, h c (List.mem_cons_self ..),
      dropWhile_congr (fun d hd => h d (List.mem_cons_of_mem _ hd))]

/-- fwxd reads a number only where the pattern does, and not where `\v` or `\f` is. -/
theorem blankField_isBlank (text : List UInt8) :
    blankField isBlank text = if NoVtFf text then blankField isspace text else none := by
  by_cases h : NoVtFf text
  · have hcongr : ∀ c ∈ text, isBlank c = isspace c := by
      intro c hc
      have hiff := isspace_iff c
      have h1 : c ≠ 11 := fun h0 => h.1 (h0 ▸ hc)
      have h2 : c ≠ 12 := fun h0 => h.2 (h0 ▸ hc)
      simp only [h1, h2, or_false] at hiff
      rw [Bool.eq_iff_iff, hiff]
    have htrim : (text.dropWhile isBlank).rdropWhile isBlank =
        (text.dropWhile isspace).rdropWhile isspace := by
      rw [dropWhile_congr hcongr, List.rdropWhile, List.rdropWhile]
      congr 1
      exact dropWhile_congr (fun c hc =>
        hcongr c ((List.dropWhile_suffix _).subset (List.mem_reverse.mp hc)))
    rw [if_pos h, blankField, blankField, htrim]
  · obtain ⟨c, hc, hb, hd⟩ : ∃ c ∈ text, isBlank c = false ∧ isdigit c = false := by
      simp only [NoVtFf, not_and_or, not_not] at h
      rcases h with h | h
      · exact ⟨11, h, by decide, by decide⟩
      · exact ⟨12, h, by decide, by decide⟩
    obtain ⟨u, v, rfl⟩ := List.append_of_mem hc
    rw [if_neg h, blankField, dropWhile_append_stop hb, rdropWhile_append_cons hb, if_neg]
    rintro ⟨-, hall⟩
    have := List.all_eq_true.mp hall c (by simp)
    rw [hd] at this
    exact absurd this (by decide)

theorem pairFields_isBlank (pair : List UInt8) :
    pairFields isBlank pair = if NoVtFf pair then pairFields isspace pair else none := by
  unfold pairFields
  cases hsplit : strchrSplit 58 pair with
  | none => simp
  | some p =>
    obtain ⟨day, value⟩ := p
    obtain ⟨rfl, -⟩ := strchrSplit_eq_some hsplit
    have hboth : NoVtFf (day ++ 58 :: value) ↔ NoVtFf day ∧ NoVtFf value := by
      simp [NoVtFf]
      tauto
    simp only [blankField_isBlank, hboth]
    by_cases h1 : NoVtFf day <;> by_cases h2 : NoVtFf value <;> simp [h1, h2]

/-! ## 6. The last pair for each day -/

/-- The two numbers of a pair, as they are written. -/
def pairNumbers (pair : List UInt8) : Option (Nat × Nat) :=
  (luaMatchPair pair).map (fun p => (tonumber p.1, tonumber p.2))

/-- The two numbers of a pair without `\v` and `\f`, modulo `2 ^ 32`. -/
def wrappedNumbers (pair : List UInt8) : Option (Int × Int) :=
  if NoVtFf pair then (luaMatchPair pair).map (fun p => (wrap32 p.1, wrap32 p.2)) else none

/-- The value of the last pair that is for `day` as it is written. -/
def lastWritten (text : List UInt8) (day : Nat) : Option Nat :=
  lastEntry pairNumbers day (words 44 text)

/-- The value of the last pair that is for `day` modulo `2 ^ 32`. -/
def lastWrapped (text : List UInt8) (day : Nat) : Option Int :=
  lastEntry wrappedNumbers (day : Int) (words 44 text)

/-- The limit that a day's last pair stands for.  A day without a pair has none. -/
def dayLimit (max : Int) (value : Option Int) : Int := (value.map (capLimit max)).getD 0

/-- One pair, for one day: it is for that day or not, however its numbers are read. -/
theorem entryOf_day (number : List UInt8 → Int) (max : Int) (fields : Option (List UInt8 × List UInt8))
    {day : Nat} (hday : day ≤ 6) :
    ((fields.bind (entryOf number)).map (fun p => (p.1.toNat, capLimit max p.2))).bind
        (fun e => if e.1 = day then some e.2 else none) =
      ((fields.map (fun p => (number p.1, number p.2))).bind
        (fun e => if e.1 = (day : Int) then some e.2 else none)).map (capLimit max) := by
  cases fields with
  | none => rfl
  | some p =>
    simp only [Option.map_some, Option.bind_some, entryOf]
    generalize number p.1 = d
    generalize number p.2 = v
    by_cases hd : d = day
    · rw [if_pos (by omega)]
      simp [hd]
    · by_cases hrange : 0 ≤ d ∧ d ≤ 6
      · have hne : d.toNat ≠ day := by omega
        rw [if_pos hrange]
        simp [hd, hne]
      · rw [if_neg hrange]
        simp [hd]

theorem limitValues_eq {text : List UInt8} (hlen : text.length ≤ LIMIT_LEN)
    (hpairs : ∀ pair ∈ words 44 text, pair.length ≤ PAIR_LEN) (timeMode : TimeMode) {day : Nat}
    (hday : day ≤ 6) :
    limitValues text timeMode day = dayLimit (getLimitMaxValue timeMode) (lastWrapped text day) := by
  rw [limitValues, List.take_of_length_le hlen, foldl_putEntry, dayLimit, lastWrapped]
  congr 1
  refine lastEntry_map _ (fun pair hpair => ?_)
  rw [readLimit_eq (hpairs pair hpair), pairFields_isBlank, ← luaMatchPair_eq, wrappedNumbers]
  by_cases hplain : NoVtFf pair
  · rw [if_pos hplain, if_pos hplain]
    exact entryOf_day wrap32 _ _ hday
  · rw [if_neg hplain, if_neg hplain]
    rfl

theorem capLimit_natCast (max value : Nat) :
    capLimit max value = ((if max < value then max else value : Nat) : Int) := by
  have hneg : ¬ (value : Int) < 0 := by omega
  simp only [capLimit, if_neg hneg]
  split_ifs <;> omega

theorem parseWeekLimitRules_eq (text : List UInt8) (max : Nat) :
    (parseWeekLimitRules text max).map (fun p => (p.1, (p.2 : Int))) =
      limitOrder.map (fun day => (day, dayLimit max ((lastWritten text day).map Int.ofNat))) := by
  unfold parseWeekLimitRules
  rw [List.map_map]
  refine List.map_congr_left (fun day hmem => ?_)
  have hday : day ≤ 6 := by
    revert hmem
    revert day
    decide
  have hlast : lastEntry
      (fun pair => (readWeekLimit max pair).map (fun p => (p.1, some p.2))) day (words 44 text) =
        (lastWritten text day).map (fun v => some (if max < v then max else v)) := by
    refine lastEntry_map _ (fun pair _ => ?_)
    rw [readWeekLimit, pairNumbers]
    cases luaMatchPair pair with
    | none => rfl
    | some p =>
      simp only [Option.map_some, Option.bind_some]
      generalize tonumber p.1 = d
      generalize tonumber p.2 = v
      by_cases hd : d = day
      · rw [if_pos (by omega)]
        simp [hd]
      · by_cases hrange : d ≤ 6
        · rw [if_pos hrange]
          simp [hd]
        · rw [if_neg hrange]
          simp [hd]
  simp only [Function.comp_apply, foldl_putEntry, hlast, dayLimit]
  cases lastWritten text day with
  | none => rfl
  | some v =>
    have := capLimit_natCast max v
    simp only [Option.map_some, Option.getD_some]
    exact congrArg (Prod.mk day) this.symm

/-! ## 7. What fwxd writes, it reads -/

theorem capLimit_bounds {max : Int} (h : 0 ≤ max) (value : Int) :
    0 ≤ capLimit max value ∧ capLimit max value ≤ max := by
  simp only [capLimit]
  split_ifs <;> omega

theorem capLimit_of_bounds {max value : Int} (h0 : 0 ≤ value) (h1 : value ≤ max) :
    capLimit max value = value := by
  simp only [capLimit]
  split_ifs <;> omega

theorem getLimitMaxValue_bounds (timeMode : TimeMode) :
    0 ≤ getLimitMaxValue timeMode ∧ getLimitMaxValue timeMode ≤ 1048576 := by
  cases timeMode <;> decide

theorem limitValues_bounds (text : List UInt8) (timeMode : TimeMode) (day : Nat) :
    0 ≤ limitValues text timeMode day ∧
      limitValues text timeMode day ≤ getLimitMaxValue timeMode := by
  have hmax := (getLimitMaxValue_bounds timeMode).1
  unfold limitValues
  induction words 44 (text.take LIMIT_LEN) using List.reverseRecOn with
  | nil => exact ⟨le_rfl, hmax⟩
  | append_singleton l token ih =>
    rw [List.foldl_append, List.foldl_cons, List.foldl_nil, putEntry]
    cases readLimit token with
    | none => exact ih
    | some p =>
      by_cases hd : day = p.1.toNat
      · simp [hd, capLimit_bounds hmax]
      · simpa [Function.update_of_ne hd] using ih

theorem limitPair_length {day : Nat} (hday : day ≤ 6) {value : Int} (h0 : 0 ≤ value)
    (h1 : value ≤ 1048576) : (limitPair day value).length ≤ 9 := by
  have hd : (printNat day).length ≤ 1 := printNat_length_le (by decide) (by omega)
  have hv : (printNat value.toNat).length ≤ 7 := printNat_length_le (by decide) (by omega)
  simp only [limitPair, printInt_of_nonneg h0, List.length_append, List.length_cons]
  omega

/-- In a buffer with ten bytes for each day, everything is printed. -/
theorem printLimits_eq {values : Nat → Int} (hvalues : ∀ day, 0 ≤ values day ∧ values day ≤ 1048576)
    {outputLen : Nat} : ∀ {days : List Nat} {output : List UInt8}, (∀ day ∈ days, day ≤ 6) →
    output.length + 10 * days.length ≤ outputLen →
    printLimits values outputLen output days =
      some (output ++ [44].intercalate (days.map (fun day => limitPair day (values day))))
  | [], output, _, _ => by simp [printLimits]
  | [day], output, hdays, hfit => by
    have hpair := limitPair_length (hdays day (by simp)) (hvalues day).1 (hvalues day).2
    simp only [List.length_singleton] at hfit
    rw [printLimits, if_neg (by omega), if_pos rfl]
    simp
  | day :: day' :: days, output, hdays, hfit => by
    have hpair := limitPair_length (hdays day (by simp)) (hvalues day).1 (hvalues day).2
    simp only [List.length_cons] at hfit
    have hrest : ∀ d ∈ day' :: days, d ≤ 6 := fun d hd => hdays d (List.mem_cons_of_mem _ hd)
    rw [printLimits, if_neg (by omega), if_neg (by simp),
      if_neg (by simp only [List.length_append]; omega),
      printLimits_eq hvalues hrest (by
        simp only [List.length_append, List.length_cons, List.length_nil]; omega)]
    simp only [List.map_cons, List.intercalate_cons_cons, List.append_assoc]

theorem mem_limitPair {day : Nat} {value : Int} (h0 : 0 ≤ value) {c : UInt8}
    (h : c ∈ limitPair day value) : isdigit c = true ∨ c = 58 := by
  rw [limitPair, printInt_of_nonneg h0] at h
  rcases List.mem_append.mp h with h | h
  · exact Or.inl (isdigit_of_mem_printNat h)
  · rcases List.mem_cons.mp h with h | h
    · exact Or.inr h
    · exact Or.inl (isdigit_of_mem_printNat h)

theorem blankField_printNat (n : Nat) : blankField isBlank (printNat n) = some (printNat n) := by
  have hdigits : ∀ c ∈ printNat n, isdigit c = true := fun c hc => isdigit_of_mem_printNat hc
  have hdrop : (printNat n).dropWhile isBlank = printNat n := by
    obtain ⟨c, l, hl, hc⟩ := printNat_cons n
    rw [hl, List.dropWhile_cons, isBlank_digit c hc]
    rfl
  have htrim : (printNat n).rdropWhile isBlank = printNat n := by
    have hnil : ∀ c ∈ ([] : List UInt8), isBlank c = true := fun c hc => absurd hc List.not_mem_nil
    have := (digits_append_blanks isBlank_digit hdigits hnil).2.2
    rwa [List.append_nil] at this
  rw [blankField, hdrop, htrim, if_pos ⟨printNat_ne_nil n, List.all_eq_true.mpr hdigits⟩]

theorem wrap32_printNat {n : Nat} (h : n < 2 ^ 31) : wrap32 (printNat n) = n := by
  rw [wrap32, tonumber, ofDigits_printNat, Kernel.toInt32_self (by omega) (by omega)]

theorem readLimit_limitPair {day : Nat} (hday : day ≤ 6) {value : Int} (h0 : 0 ≤ value)
    (h1 : value ≤ 1048576) : readLimit (limitPair day value) = some ((day : Int), value) := by
  have hlen := limitPair_length hday h0 h1
  have hsplit : strchrSplit 58 (limitPair day value) = some (printNat day, printInt value) := by
    refine strchrSplit_append (fun h => ?_) _
    exact absurd (isdigit_of_mem_printNat h) (by decide)
  have hfields : pairFields isBlank (limitPair day value) =
      some (printNat day, printNat value.toNat) := by
    rw [pairFields, hsplit, printInt_of_nonneg h0]
    simp only [blankField_printNat]
  have hd : wrap32 (printNat day) = day := wrap32_printNat (by omega)
  have hv : wrap32 (printNat value.toNat) = value := by
    rw [wrap32_printNat (by omega)]
    omega
  rw [readLimit_eq (by unfold PAIR_LEN; omega), hfields, Option.bind_some, entryOf, hd, hv,
    if_pos (by omega)]

/-- The text with the limits `values`. -/
def limitText (values : Nat → Int) : List UInt8 :=
  [44].intercalate (limitOrder.map (fun day => limitPair day (values day)))

theorem words_limitText {values : Nat → Int} (h0 : ∀ day, 0 ≤ values day) :
    words 44 (limitText values) = limitOrder.map (fun day => limitPair day (values day)) := by
  refine words_intercalate (fun w hw hcomma => ?_) (fun w hw => ?_)
  · obtain ⟨day, -, rfl⟩ := List.mem_map.mp hw
    rcases mem_limitPair (h0 day) hcomma with h | h <;> exact absurd h (by decide)
  · obtain ⟨day, -, rfl⟩ := List.mem_map.mp hw
    simp [limitPair]

theorem limitText_length {values : Nat → Int}
    (hvalues : ∀ day, 0 ≤ values day ∧ values day ≤ 1048576) :
    (limitText values).length ≤ LIMIT_LEN := by
  have hpair : ∀ day ≤ 6, (limitPair day (values day)).length ≤ 9 := fun day hday =>
    limitPair_length hday (hvalues day).1 (hvalues day).2
  have h0 := hpair 0 (by decide)
  have h1 := hpair 1 (by decide)
  have h2 := hpair 2 (by decide)
  have h3 := hpair 3 (by decide)
  have h4 := hpair 4 (by decide)
  have h5 := hpair 5 (by decide)
  have h6 := hpair 6 (by decide)
  simp only [limitText, limitOrder, List.map_cons, List.map_nil, List.intercalate_cons_cons,
    List.intercalate_singleton, List.length_append, List.length_singleton, LIMIT_LEN]
  omega

/-- The text of seven capped limits is read as these limits. -/
theorem limitValues_limitText {values : Nat → Int} {timeMode : TimeMode}
    (hvalues : ∀ day, 0 ≤ values day ∧ values day ≤ getLimitMaxValue timeMode) {day : Nat}
    (hday : day ∈ limitOrder) : limitValues (limitText values) timeMode day = values day := by
  have hmax := (getLimitMaxValue_bounds timeMode).2
  have hvalues' : ∀ day, 0 ≤ values day ∧ values day ≤ 1048576 := fun d =>
    ⟨(hvalues d).1, (hvalues d).2.trans hmax⟩
  have hread : ∀ d ≤ 6, (readLimit (limitPair d (values d))).map
      (fun p => (p.1.toNat, capLimit (getLimitMaxValue timeMode) p.2)) = some (d, values d) := by
    intro d hd
    rw [readLimit_limitPair hd (hvalues' d).1 (hvalues' d).2]
    simp [capLimit_of_bounds (hvalues d).1 (hvalues d).2]
  rw [limitValues, List.take_of_length_le (limitText_length hvalues'),
    words_limitText (fun d => (hvalues d).1)]
  simp only [limitOrder, List.map_cons, List.map_nil, List.foldl_cons, List.foldl_nil, putEntry,
    hread 0 (by decide), hread 1 (by decide), hread 2 (by decide), hread 3 (by decide),
    hread 4 (by decide), hread 5 (by decide), hread 6 (by decide)]
  simp only [limitOrder, List.mem_cons, List.not_mem_nil, or_false] at hday
  rcases hday with rfl | rfl | rfl | rfl | rfl | rfl | rfl <;> simp [Function.update]

/-- In a buffer of 70 bytes or more, `normalize_limit_str` succeeds. -/
theorem normalizeLimitStr_eq (text : List UInt8) (timeMode : TimeMode) {outputLen : Nat}
    (h : 70 ≤ outputLen) :
    normalizeLimitStr text timeMode outputLen = some (limitText (limitValues text timeMode)) := by
  have hmax := (getLimitMaxValue_bounds timeMode).2
  exact printLimits_eq
    (fun day => ⟨(limitValues_bounds text timeMode day).1,
      (limitValues_bounds text timeMode day).2.trans hmax⟩) (by decide) h

/-- **What fwxd wrote it reads back unchanged.** -/
theorem normalizeLimitStr_idem (text : List UInt8) (timeMode : TimeMode) {outputLen : Nat}
    (h : 70 ≤ outputLen) :
    ∃ output, normalizeLimitStr text timeMode outputLen = some output ∧
      normalizeLimitStr output timeMode outputLen = some output := by
  refine ⟨_, normalizeLimitStr_eq text timeMode h, ?_⟩
  have hpairs : limitOrder.map (fun day =>
        limitPair day (limitValues (limitText (limitValues text timeMode)) timeMode day)) =
      limitOrder.map (fun day => limitPair day (limitValues text timeMode day)) := by
    refine List.map_congr_left (fun day hday => ?_)
    rw [limitValues_limitText (limitValues_bounds text timeMode) hday]
  rw [normalizeLimitStr_eq _ timeMode h]
  exact congrArg (fun pairs => some ([44].intercalate pairs)) hpairs

/-! ## 8. The same limits on both sides -/

/-- fwxd and the rule manager read the same seven limits off a text. -/
def SameLimits (text : List UInt8) (timeMode : TimeMode) : Prop :=
  limitOrder.map (fun day => (day, limitValues text timeMode day)) =
    (parseWeekLimitRules text (getLimitMaxValue timeMode).toNat).map (fun p => (p.1, (p.2 : Int)))

/-- For every day, the last pair for it as numbers are written and the last pair for it modulo
`2 ^ 32` stand for the same limit. -/
def LastPairsAgree (text : List UInt8) (max : Int) : Prop :=
  ∀ day ∈ limitOrder,
    dayLimit max (lastWrapped text day) = dayLimit max ((lastWritten text day).map Int.ofNat)

theorem sameLimits_iff {text : List UInt8} (hlen : text.length ≤ LIMIT_LEN)
    (hpairs : ∀ pair ∈ words 44 text, pair.length ≤ PAIR_LEN) (timeMode : TimeMode) :
    SameLimits text timeMode ↔ LastPairsAgree text (getLimitMaxValue timeMode) := by
  have hmax : ((getLimitMaxValue timeMode).toNat : Int) = getLimitMaxValue timeMode :=
    Int.toNat_of_nonneg (getLimitMaxValue_bounds timeMode).1
  have hday : ∀ day ∈ limitOrder, day ≤ 6 := by decide
  rw [SameLimits, parseWeekLimitRules_eq, hmax, List.map_inj_left, LastPairsAgree]
  refine forall₂_congr (fun day hmem => ?_)
  rw [Prod.mk.injEq, limitValues_eq hlen hpairs timeMode (hday day hmem)]
  exact ⟨fun h => h.2, fun h => ⟨rfl, h⟩⟩

/-- **Exactly when the limits mean the same**: what fwxd writes it always reads back, and the rule
manager reads the same seven limits if and only if the last pairs of each day agree. -/
theorem limits_agree_iff {text : List UInt8} (hlen : text.length ≤ LIMIT_LEN)
    (hpairs : ∀ pair ∈ words 44 text, pair.length ≤ PAIR_LEN) (timeMode : TimeMode) :
    (SameLimits text timeMode ∧ ∀ outputLen, 70 ≤ outputLen →
      ∃ output, normalizeLimitStr text timeMode outputLen = some output ∧
        normalizeLimitStr output timeMode outputLen = some output) ↔
    LastPairsAgree text (getLimitMaxValue timeMode) := by
  rw [sameLimits_iff hlen hpairs timeMode]
  exact ⟨fun h => h.1, fun h => ⟨h, fun _ hout => normalizeLimitStr_idem text timeMode hout⟩⟩

instance (text : List UInt8) (max : Int) : Decidable (LastPairsAgree text max) :=
  inferInstanceAs (Decidable (∀ _ ∈ limitOrder, _))

/-- The pairs of an ordinary text: no `\v`, no `\f`, and numbers that a 32-bit `int` holds. -/
def OrdinaryPairs (text : List UInt8) : Prop :=
  ∀ pair ∈ words 44 text, NoVtFf pair ∧
    ∀ p, luaMatchPair pair = some p → tonumber p.1 < 2 ^ 31 ∧ tonumber p.2 < 2 ^ 31

/-- In an ordinary text the last pairs agree. -/
theorem lastPairsAgree_of_ordinary {text : List UInt8} (h : OrdinaryPairs text) (max : Int) :
    LastPairsAgree text max := by
  intro day _
  have hlast : lastWrapped text day = (lastWritten text day).map Int.ofNat := by
    refine lastEntry_map _ (fun pair hpair => ?_)
    obtain ⟨hplain, hsmall⟩ := h pair hpair
    rw [wrappedNumbers, if_pos hplain, pairNumbers]
    cases hmatch : luaMatchPair pair with
    | none => rfl
    | some p =>
      obtain ⟨h1, h2⟩ := hsmall p hmatch
      have hd : wrap32 p.1 = tonumber p.1 := Kernel.toInt32_self (by omega) (by omega)
      have hv : wrap32 p.2 = tonumber p.2 := Kernel.toInt32_self (by omega) (by omega)
      simp only [Option.map_some, Option.bind_some, hd, hv, Nat.cast_inj]
      split_ifs <;> rfl
  rw [hlast]

def eveningLimits : List UInt8 := ascii "1:60,2:90"

theorem limits_agree_evening :
    SameLimits eveningLimits .duration ∧ ∀ outputLen, 70 ≤ outputLen →
      ∃ output, normalizeLimitStr eveningLimits .duration outputLen = some output ∧
        normalizeLimitStr output .duration outputLen = some output :=
  (limits_agree_iff (by decide) (by decide) .duration).mpr (by decide)

/-- A limit of `2 ^ 32 + 1`. -/
def longLimit : List UInt8 := ascii "1:4294967297"

/-- **A number that wraps**: fwxd shows and stores a limit of one minute, the rule manager enforces
none (a whole day). -/
theorem limits_differ_wrapped :
    longLimit.length ≤ LIMIT_LEN ∧ (∀ pair ∈ words 44 longLimit, pair.length ≤ PAIR_LEN) ∧
    limitValues longLimit .duration 1 = 1 ∧ (1, 1440) ∈ parseWeekLimitRules longLimit 1440 ∧
    ¬ SameLimits longLimit .duration := by
  refine ⟨by decide, by decide, by decide, by decide, fun h => ?_⟩
  exact absurd ((sameLimits_iff (by decide) (by decide) .duration).mp h) (by decide)

end Oaf.MacFilter
