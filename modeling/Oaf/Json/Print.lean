/-
# What cJSON prints

`cJSON_Print` builds a text in buffers that it makes as long as it thinks it needs, `cJSON_Minify` drops the white space
again.  The visit reports of the kernel go through both.

The texts are used as formats of `sprintf`.  A number loses its sign when it is read, a string the characters that have
no escape, which are not printed.

* `printValue_eq`: no buffer is left, whatever is printed, and what is printed is `printed`.
* `cJSONMinify_printed`: what is left of that is `compact`, which has no white space between its tokens.
* `SpellsJson`, `reads_spells`: texts with any white space between their tokens, and what they read as.
* `print_parse`: **what is printed reads as what it was made of**, minified or not.

Allocations are granted; `minify_string` writes into the text it reads, behind which it stays.
-/
import Oaf.Json.Texts
import Oaf.Lib.CArray

namespace Oaf

open CLib

/-! ## 1. `cJSON_Print` -/

/-- What can go wrong: something is written behind a buffer, or a text is a format. -/
inductive PrintFault where
  | overrun
  | format

/-- A text behind what is in a buffer of this size already, with its NUL. -/
def putText (size : Nat) (out text : List UInt8) : Except PrintFault (List UInt8) :=
  if out.length + text.length < size then .ok (out ++ text) else .error .overrun

/-- What `sprintf(ptr, text)` prints. -/
def formatText : List UInt8 → Except PrintFault (List UInt8)
  | [] => .ok []
  | c :: s =>
    if c = 37 then
      match s with
      | [] => .error .format
      | d :: s' => if d = 37 then (formatText s').map (37 :: ·) else .error .format
    else (formatText s).map (c :: ·)

/-- `print_number` -/
def printNumber (valueint : Int) : Except PrintFault (List UInt8) := putText 21 [] (printInt valueint)

/-- What `print_string_ptr` counts for a character. -/
def charRoom (c : UInt8) : Nat := if endsText c || c = 34 || c = 92 then 2 else 1

/-- What it prints. -/
def printChar (c : UInt8) : List UInt8 :=
  if !endsText c && c ≠ 34 && c ≠ 92 then [c]
  else if c = 92 then [92, 92]
  else if c = 34 then [92, 34]
  else if c = 8 then [92, 98]
  else if c = 12 then [92, 102]
  else if c = 10 then [92, 110]
  else if c = 13 then [92, 114]
  else if c = 9 then [92, 116]
  else []

/-- `print_string_ptr` -/
def printStringPtr (str : CStr) : Except PrintFault (List UInt8) :=
  putText ((str.bytes.map charRoom).sum + 3) [] (34 :: (str.bytes.flatMap printChar ++ [34]))

mutual

/-- `print_value`, with the start of `print_array` and `print_object`. -/
def printValue : KJson → Nat → Except PrintFault (List UInt8)
  | .null, _ => .ok (ascii "null")
  | .false, _ => .ok (ascii "false")
  | .true, _ => .ok (ascii "true")
  | .number valueint, _ => printNumber valueint
  | .string valuestring, _ => printStringPtr valuestring
  | .array items, depth => printItems 5 [91] items depth
  | .object members, depth => printMembers (7 + (depth + 1)) [123, 10] members (depth + 1)

/-- The loop of `print_array`, and what is behind it. -/
def printItems (len : Nat) (out : List UInt8) : List KJson → Nat → Except PrintFault (List UInt8)
  | [], _ => putText len out [93]
  | child :: rest, depth => do
    let ret ← printValue child (depth + 1)
    let len := len + (ret.length + 3)
    let out ← putText len out (← formatText ret)
    let out ← if rest.isEmpty then pure out else putText len out [44, 32]
    printItems len out rest depth

/-- The loop of `print_object`, and what is behind it. -/
def printMembers (len : Nat) (out : List UInt8) : List (CStr × KJson) → Nat → Except PrintFault (List UInt8)
  | [], depth => do
    let out ← putText len out (List.replicate (depth - 1) 9)
    putText len out [125]
  | (string, child) :: rest, depth => do
    let str ← printStringPtr string
    let ret ← printValue child depth
    let len := len + (ret.length + str.length + 4 + depth)
    let out ← putText len out (List.replicate depth 9)
    let out ← putText len out (← formatText str)
    let out ← putText len out [58, 9]
    let out ← putText len out (← formatText ret)
    let out ← if rest.isEmpty then pure out else putText len out [44]
    let out ← putText len out [10]
    printMembers len out rest depth

end

/-- `cJSON_Print` -/
def cJSONPrint (item : KJson) : Except PrintFault (List UInt8) := printValue item 0

/-! ## 2. `cJSON_Minify` -/

/-- `skip_oneline_comment`, behind the slashes. -/
def skipOnelineComment : List UInt8 → List UInt8
  | [] => []
  | c :: s => if c = 10 then s else skipOnelineComment s

/-- `skip_multiline_comment`, behind its start. -/
def skipMultilineComment : List UInt8 → List UInt8
  | [] => []
  | c :: s => if c = 42 && s.head? = some 47 then s.tail else skipMultilineComment s

/-- `minify_string` behind the quotation mark: what it writes, and where it ends. -/
def minifyString : List UInt8 → List UInt8 × List UInt8
  | [] => ([], [])
  | [c] => ([c], [])
  | c :: d :: s =>
    if c = 34 then ([34], d :: s)
    else if c = 92 && d = 34 then (92 :: 34 :: (minifyString s).1, (minifyString s).2)
    else (c :: (minifyString (d :: s)).1, (minifyString (d :: s)).2)

theorem skipOnelineComment_length (s : List UInt8) : (skipOnelineComment s).length ≤ s.length := by
  induction s with
  | nil => exact Nat.le_refl _
  | cons c s ih =>
    rw [skipOnelineComment]
    split
    · exact Nat.le_succ _
    · exact ih.trans (Nat.le_succ _)

theorem skipMultilineComment_length (s : List UInt8) : (skipMultilineComment s).length ≤ s.length := by
  induction s with
  | nil => exact Nat.le_refl _
  | cons c s ih =>
    rw [skipMultilineComment]
    split
    · rw [List.length_tail, List.length_cons]
      omega
    · exact ih.trans (Nat.le_succ _)

theorem minifyString_length (s : List UInt8) : (minifyString s).2.length ≤ s.length := by
  fun_induction minifyString s with
  | case1 => exact Nat.le_refl _
  | case2 c => exact Nat.zero_le _
  | case3 d s => exact Nat.le_succ _
  | case4 c d s hquote hescape ih => exact ih.trans (by simp only [List.length_cons]; omega)
  | case5 c d s hquote hescape ih => exact ih.trans (Nat.le_succ _)

/-- `cJSON_Minify` -/
def cJSONMinify : List UInt8 → List UInt8
  | [] => []
  | c :: s =>
    if c = 32 || c = 9 || c = 13 || c = 10 then cJSONMinify s
    else if c = 47 then
      if s.head? = some 47 then cJSONMinify (skipOnelineComment s.tail)
      else if s.head? = some 42 then cJSONMinify (skipMultilineComment s.tail)
      else cJSONMinify s
    else if c = 34 then 34 :: ((minifyString s).1 ++ cJSONMinify (minifyString s).2)
    else c :: cJSONMinify s
termination_by s => s.length
decreasing_by
  all_goals simp only [List.length_cons]
  · omega
  · have := skipOnelineComment_length s.tail
    rw [List.length_tail] at this
    omega
  · have := skipMultilineComment_length s.tail
    rw [List.length_tail] at this
    omega
  · omega
  · have := minifyString_length s
    omega
  · omega

/-! ## 3. What is printed -/

/-- The characters that `print_string_ptr` has a form for. -/
def isCarried (c : UInt8) : Bool := !endsText c || c = 8 || c = 9 || c = 10 || c = 12 || c = 13

/-- What is left of a text. -/
def CStr.carried (s : CStr) : CStr := ⟨s.bytes.filter isCarried, fun h => s.noNul (List.mem_of_mem_filter h)⟩

mutual

/-- What is left of a value. -/
def KJson.carried : KJson → KJson
  | .null => .null
  | .false => .false
  | .true => .true
  | .number n => .number n.natAbs
  | .string s => .string (CStr.carried s)
  | .array items => .array (carriedItems items)
  | .object members => .object (carriedMembers members)

def carriedItems : List KJson → List KJson
  | [] => []
  | child :: rest => child.carried :: carriedItems rest

def carriedMembers : List (CStr × KJson) → List (CStr × KJson)
  | [] => []
  | (string, child) :: rest => (CStr.carried string, child.carried) :: carriedMembers rest

end

mutual

/-- All numbers and texts of a value, keys among them, are of this kind. -/
def KJson.all (text : CStr → Bool) (number : Int → Bool) : KJson → Bool
  | .number n => number n
  | .string s => text s
  | .array items => allItems text number items
  | .object members => allMembers text number members
  | _ => true

def allItems (text : CStr → Bool) (number : Int → Bool) : List KJson → Bool
  | [] => true
  | child :: rest => child.all text number && allItems text number rest

def allMembers (text : CStr → Bool) (number : Int → Bool) : List (CStr × KJson) → Bool
  | [] => true
  | (string, child) :: rest => text string && (child.all text number && allMembers text number rest)

end

/-- No format. -/
def isFormatFree (s : CStr) : Bool := !s.bytes.contains 37

/-- An `int` whose sign can be dropped. -/
def isReadable (n : Int) : Bool := n.natAbs < 2 ^ 31

/-- `minify_string` finds the end: there is no backslash in front of it. -/
def isClosed (s : CStr) : Bool := (CStr.carried s).bytes.getLast? ≠ some 92

def quotedString (s : CStr) : List UInt8 := 34 :: (s.bytes.flatMap printChar ++ [34])

mutual

/-- The text of a value. -/
def printed : KJson → Nat → List UInt8
  | .null, _ => ascii "null"
  | .false, _ => ascii "false"
  | .true, _ => ascii "true"
  | .number n, _ => printInt n
  | .string s, _ => quotedString s
  | .array items, depth => 91 :: (printedItems items (depth + 1) ++ [93])
  | .object members, depth => 123 :: 10 :: (printedMembers members (depth + 1) ++ (List.replicate depth 9 ++ [125]))

def printedItems : List KJson → Nat → List UInt8
  | [], _ => []
  | child :: rest, depth =>
    printed child depth ++ ((if rest.isEmpty then [] else [44, 32]) ++ printedItems rest depth)

def printedMembers : List (CStr × KJson) → Nat → List UInt8
  | [], _ => []
  | (string, child) :: rest, depth =>
    List.replicate depth 9 ++ (quotedString string ++ (58 :: 9 :: (printed child depth ++
      ((if rest.isEmpty then [] else [44]) ++ (10 :: printedMembers rest depth)))))

end

mutual

/-- The text without white space. -/
def compact : KJson → List UInt8
  | .null => ascii "null"
  | .false => ascii "false"
  | .true => ascii "true"
  | .number n => printInt n
  | .string s => quotedString s
  | .array items => 91 :: (compactItems items ++ [93])
  | .object members => 123 :: (compactMembers members ++ [125])

def compactItems : List KJson → List UInt8
  | [] => []
  | child :: rest => compact child ++ ((if rest.isEmpty then [] else [44]) ++ compactItems rest)

def compactMembers : List (CStr × KJson) → List UInt8
  | [] => []
  | (string, child) :: rest =>
    quotedString string ++ (58 :: (compact child ++ ((if rest.isEmpty then [] else [44]) ++ compactMembers rest)))

end

/-! ## 4. No buffer is left -/

theorem putText_of_lt {size : Nat} {out text : List UInt8} (h : out.length + text.length < size) :
    putText size out text = .ok (out ++ text) := if_pos h

/-- A text without `%` is printed as it is. -/
theorem formatText_of_not_mem {text : List UInt8} (h : (37 : UInt8) ∉ text) : formatText text = .ok text := by
  induction text with
  | nil => rfl
  | cons c text ih =>
    rw [List.mem_cons, not_or] at h
    unfold formatText
    rw [if_neg (Ne.symm h.1), ih h.2]
    rfl

/-- What is counted for a character is enough. -/
theorem printChar_length (c : UInt8) : (printChar c).length ≤ charRoom c :=
  forall_byte (p := fun c => (printChar c).length ≤ charRoom c) (by decide +kernel) c

theorem flatMap_printChar_length (text : List UInt8) :
    (text.flatMap printChar).length ≤ (text.map charRoom).sum := by
  induction text with
  | nil => exact Nat.le_refl _
  | cons c text ih =>
    have hc := printChar_length c
    rw [List.flatMap_cons, List.length_append, List.map_cons, List.sum_cons]
    omega

theorem printStringPtr_eq (s : CStr) : printStringPtr s = .ok (quotedString s) := by
  have hlen := flatMap_printChar_length s.bytes
  rw [printStringPtr, putText_of_lt]
  · rfl
  · simp only [List.length_nil, List.length_cons, List.length_append]
    omega

theorem printNumber_eq {n : Int} (h : isReadable n = true) : printNumber n = .ok (printInt n) := by
  have hlen : (printInt n).length ≤ 10 + 1 := by
    refine printInt_length_le (by decide) ?_
    rw [isReadable, decide_eq_true_eq] at h
    omega
  rw [printNumber, putText_of_lt]
  · rfl
  · rw [List.length_nil]
    omega

theorem percent_not_mem_printChar {c : UInt8} (h : c ≠ 37) : (37 : UInt8) ∉ printChar c :=
  forall_byte (p := fun c => c ≠ 37 → (37 : UInt8) ∉ printChar c) (by decide +kernel) c h

theorem percent_not_mem_quotedString {s : CStr} (h : isFormatFree s = true) : (37 : UInt8) ∉ quotedString s := by
  rw [isFormatFree, Bool.not_eq_true', List.contains_eq_mem, decide_eq_false_iff_not] at h
  simp only [quotedString, List.mem_cons, List.mem_append, List.mem_flatMap, List.not_mem_nil, or_false, not_or]
  refine ⟨by decide, ?_, by decide⟩
  rintro ⟨c, hc, hmem⟩
  exact percent_not_mem_printChar (fun heq => h (heq ▸ hc)) hmem

mutual

/-- No `%` comes into a text that has none in its strings. -/
theorem percent_not_mem_printed : ∀ (v : KJson) (depth : Nat), v.all isFormatFree isReadable = true →
    (37 : UInt8) ∉ printed v depth
  | .null, _, _ => by rw [printed]; decide
  | .false, _, _ => by rw [printed]; decide
  | .true, _, _ => by rw [printed]; decide
  | .number n, _, _ => by rw [printed]; exact not_mem_printInt (by decide) (by decide)
  | .string s, _, h => by rw [printed]; exact percent_not_mem_quotedString h
  | .array items, depth, h => by
    have hitems := percent_not_mem_printedItems items (depth + 1) h
    simp [printed, hitems]
  | .object members, depth, h => by
    have hmembers := percent_not_mem_printedMembers members (depth + 1) h
    simp [printed, hmembers]

theorem percent_not_mem_printedItems : ∀ (items : List KJson) (depth : Nat),
    allItems isFormatFree isReadable items = true → (37 : UInt8) ∉ printedItems items depth
  | [], _, _ => by rw [printedItems]; exact List.not_mem_nil
  | child :: rest, depth, h => by
    rw [allItems, Bool.and_eq_true] at h
    have hchild := percent_not_mem_printed child depth h.1
    have hrest := percent_not_mem_printedItems rest depth h.2
    rw [printedItems]
    split <;> simp [hchild, hrest]

theorem percent_not_mem_printedMembers : ∀ (members : List (CStr × KJson)) (depth : Nat),
    allMembers isFormatFree isReadable members = true → (37 : UInt8) ∉ printedMembers members depth
  | [], _, _ => by rw [printedMembers]; exact List.not_mem_nil
  | (string, child) :: rest, depth, h => by
    rw [allMembers, Bool.and_eq_true, Bool.and_eq_true] at h
    have hkey := percent_not_mem_quotedString h.1
    have hchild := percent_not_mem_printed child depth h.2.1
    have hrest := percent_not_mem_printedMembers rest depth h.2.2
    rw [printedMembers]
    split <;> simp [hkey, hchild, hrest]

end

mutual

/-- **What is printed**: no buffer is left, at any depth. -/
theorem printValue_eq : ∀ (v : KJson) (depth : Nat), v.all isFormatFree isReadable = true →
    printValue v depth = .ok (printed v depth)
  | .null, _, _ => by rw [printValue, printed]
  | .false, _, _ => by rw [printValue, printed]
  | .true, _, _ => by rw [printValue, printed]
  | .number n, _, h => by rw [printValue, printed, printNumber_eq h]
  | .string s, _, _ => by rw [printValue, printed, printStringPtr_eq]
  | .array items, depth, h => by
    rw [printValue, printed, printItems_eq items depth h (by decide)]
    rfl
  | .object members, depth, h => by
    rw [printValue, printed, printMembers_eq members depth h (by simp only [List.length_cons, List.length_nil]; omega)]
    rfl

/-- The items, behind what is in the buffer: there is room for the bracket all the time. -/
theorem printItems_eq : ∀ (items : List KJson) (depth : Nat) {len : Nat} {out : List UInt8},
    allItems isFormatFree isReadable items = true → out.length + 1 < len →
    printItems len out items depth = .ok (out ++ (printedItems items (depth + 1) ++ [93]))
  | [], _, len, out, _, hroom => by
    rw [printItems, printedItems, putText_of_lt (by simpa using hroom)]
    rfl
  | child :: rest, depth, len, out, h, hroom => by
    rw [allItems, Bool.and_eq_true] at h
    have hfree := percent_not_mem_printed child (depth + 1) h.1
    have hrest : ∀ out', out'.length + 1 < len + ((printed child (depth + 1)).length + 3) →
        printItems (len + ((printed child (depth + 1)).length + 3)) out' rest depth =
          .ok (out' ++ (printedItems rest (depth + 1) ++ [93])) :=
      fun out' hout => printItems_eq rest depth h.2 hout
    rw [printItems, printValue_eq child (depth + 1) h.1, printedItems]
    simp only [ok_bind, formatText_of_not_mem hfree]
    rw [putText_of_lt (by omega), ok_bind]
    cases rest.isEmpty with
    | true =>
      rw [if_pos rfl, if_pos rfl, pure_bind, hrest _ (by rw [List.length_append]; omega)]
      simp
    | false =>
      rw [if_neg Bool.false_ne_true, if_neg Bool.false_ne_true,
        putText_of_lt (by simp only [List.length_append, List.length_cons, List.length_nil]; omega), ok_bind,
        hrest _ (by simp only [List.length_append, List.length_cons, List.length_nil]; omega)]
      simp

/-- The members, likewise: there is room for the tabs and the brace. -/
theorem printMembers_eq : ∀ (members : List (CStr × KJson)) (depth : Nat) {len : Nat} {out : List UInt8},
    allMembers isFormatFree isReadable members = true → out.length + (depth + 1) < len →
    printMembers len out members (depth + 1) =
      .ok (out ++ (printedMembers members (depth + 1) ++ (List.replicate depth 9 ++ [125])))
  | [], depth, len, out, _, hroom => by
    rw [printMembers, printedMembers, Nat.add_sub_cancel,
      putText_of_lt (by rw [List.length_replicate]; omega), ok_bind,
      putText_of_lt (by simp only [List.length_append, List.length_replicate, List.length_singleton]; omega)]
    simp
  | (string, child) :: rest, depth, len, out, h, hroom => by
    rw [allMembers, Bool.and_eq_true, Bool.and_eq_true] at h
    have hfree := percent_not_mem_printed child (depth + 1) h.2.1
    have hkey := percent_not_mem_quotedString h.1
    have hrest : ∀ out', out'.length + (depth + 1) <
        len + ((printed child (depth + 1)).length + (quotedString string).length + 4 + (depth + 1)) →
        printMembers (len + ((printed child (depth + 1)).length + (quotedString string).length + 4 + (depth + 1)))
          out' rest (depth + 1) =
          .ok (out' ++ (printedMembers rest (depth + 1) ++ (List.replicate depth 9 ++ [125]))) :=
      fun out' hout => printMembers_eq rest depth h.2.2 hout
    rw [printMembers, printValue_eq child (depth + 1) h.2.1, printStringPtr_eq, printedMembers]
    simp only [ok_bind, formatText_of_not_mem hfree, formatText_of_not_mem hkey]
    cases rest.isEmpty with
    | true =>
      simp (disch := (simp only [List.length_append, List.length_replicate, List.length_cons, List.length_nil]; omega))
        only [putText_of_lt, ok_bind, pure_bind, if_true]
      rw [hrest _ (by simp only [List.length_append, List.length_replicate, List.length_cons, List.length_nil]; omega)]
      simp
    | false =>
      simp (disch := (simp only [List.length_append, List.length_replicate, List.length_cons, List.length_nil]; omega))
        only [putText_of_lt, ok_bind, Bool.false_eq_true, if_false]
      rw [hrest _ (by simp only [List.length_append, List.length_replicate, List.length_cons, List.length_nil]; omega)]
      simp

end

/-! ## 5. Without white space -/

/-- A character that `cJSON_Minify` copies. -/
def isCopied (c : UInt8) : Bool :=
  c ≠ 32 && (c ≠ 9 && (c ≠ 13 && (c ≠ 10 && (c ≠ 47 && c ≠ 34))))

theorem cJSONMinify_copied {text : List UInt8} (h : text.all isCopied = true) (rest : List UInt8) :
    cJSONMinify (text ++ rest) = text ++ cJSONMinify rest := by
  induction text with
  | nil => rfl
  | cons c text ih =>
    rw [List.all_cons, Bool.and_eq_true] at h
    have hc := h.1
    simp only [isCopied, Bool.and_eq_true, decide_eq_true_eq] at hc
    obtain ⟨h32, h9, h13, h10, h47, h34⟩ := hc
    rw [List.cons_append, cJSONMinify, if_neg (by simp [h32, h9, h13, h10]), if_neg h47, if_neg h34, ih h.2]
    rfl

/-- White space that the printer puts between tokens. -/
def isSpacing (c : UInt8) : Bool := c = 32 || c = 9 || c = 13 || c = 10

theorem cJSONMinify_spacing {text : List UInt8} (h : text.all isSpacing = true) (rest : List UInt8) :
    cJSONMinify (text ++ rest) = cJSONMinify rest := by
  induction text with
  | nil => rfl
  | cons c text ih =>
    rw [List.all_cons, Bool.and_eq_true] at h
    have hc := h.1
    rw [isSpacing] at hc
    rw [List.cons_append, cJSONMinify, if_pos hc, ih h.2]

theorem minifyString_cons {c : UInt8} (hquote : c ≠ 34) {s : List UInt8} (h : c ≠ 92 ∨ s.head? ≠ some 34) :
    minifyString (c :: s) = (c :: (minifyString s).1, (minifyString s).2) := by
  cases s with
  | nil => rfl
  | cons d s =>
    rw [minifyString, if_neg hquote, if_neg]
    simpa using h.resolve_left ∘ not_not.mpr

/-- The forms of a character. -/
inductive CharForm (c : UInt8) : List UInt8 → Prop
  | itself : isPlain c = true → CharForm c [c]
  | quote : c = 34 → CharForm c [92, 34]
  | backslash : c = 92 → CharForm c [92, 92]
  | escape {d : UInt8} : d ≠ 34 → d ≠ 92 → d ≠ 117 → unescape d = c → c ≠ 92 → isCarried c = true →
      CharForm c [92, d]
  | dropped : isCarried c = false → c ≠ 92 → CharForm c []

theorem charForm (c : UInt8) : CharForm c (printChar c) := by
  rw [printChar]
  split_ifs with hplain h92 h34 h8 h12 h10 h13 h9
  · exact .itself hplain
  · exact .backslash h92
  · exact .quote h34
  all_goals try (subst_vars; exact .escape (by decide) (by decide) (by decide) (by decide) (by decide) (by decide))
  refine .dropped ?_ h92
  have hends : endsText c = true := by
    by_contra hno
    exact hplain (by simp [hno, h34, h92])
  simp [isCarried, hends, h8, h9, h10, h12, h13]

/-- What begins a text with a printed character is no quotation mark. -/
theorem head_flatMap_printChar {text : List UInt8} (h : text.filter isCarried ≠ []) (rest : List UInt8) :
    (text.flatMap printChar ++ rest).head? ≠ some 34 := by
  induction text with
  | nil => exact absurd rfl h
  | cons c text ih =>
    rw [List.flatMap_cons, List.append_assoc]
    have hform := charForm c
    generalize hp : printChar c = form at hform ⊢
    cases hform with
    | itself hplain => simpa using (isPlain_iff.mp hplain).2.1
    | quote | backslash | escape => simp
    | dropped hdropped =>
      rw [List.filter_cons_of_neg (by rw [hdropped]; exact Bool.false_ne_true)] at h
      exact ih h

theorem isCarried_backslash : isCarried 92 = true := by decide

/-- **A printed string** is copied up to its end, if there is no backslash in front of it. -/
theorem minifyString_printed {text : List UInt8} (h : (text.filter isCarried).getLast? ≠ some 92)
    (rest : List UInt8) :
    minifyString (text.flatMap printChar ++ 34 :: rest) = (text.flatMap printChar ++ [34], rest) := by
  induction text with
  | nil => cases rest <;> rfl
  | cons c text ih =>
    have hrest : (text.filter isCarried).getLast? ≠ some 92 := by
      intro hlast
      refine h ?_
      rw [List.filter_cons]
      split
      · rw [List.getLast?_cons, hlast]
        rfl
      · exact hlast
    rw [List.flatMap_cons, List.append_assoc]
    have hform := charForm c
    generalize hp : printChar c = form at hform ⊢
    cases hform with
    | itself hplain =>
      obtain ⟨-, h34, h92⟩ := isPlain_iff.mp hplain
      rw [List.singleton_append, minifyString_cons h34 (.inl h92), ih hrest]
      rfl
    | quote =>
      change minifyString (92 :: 34 :: (text.flatMap printChar ++ 34 :: rest)) = _
      rw [minifyString, if_neg (by decide), if_pos (by decide), ih hrest]
      rfl
    | backslash hc =>
      have hmore : text.filter isCarried ≠ [] := by
        intro hnil
        refine h ?_
        rw [hc, List.filter_cons_of_pos isCarried_backslash, hnil]
        rfl
      change minifyString (92 :: 92 :: (text.flatMap printChar ++ 34 :: rest)) = _
      rw [minifyString_cons (by decide) (.inr (by simp)),
        minifyString_cons (by decide) (.inr (head_flatMap_printChar hmore _)), ih hrest]
      rfl
    | @escape d h34 h92 =>
      change minifyString (92 :: d :: (text.flatMap printChar ++ 34 :: rest)) = _
      rw [minifyString_cons (by decide) (.inr (by simpa using h34)), minifyString_cons h34 (.inl h92), ih hrest]
      rfl
    | dropped => exact ih hrest

theorem cJSONMinify_quotedString {s : CStr} (h : isClosed s = true) (rest : List UInt8) :
    cJSONMinify (quotedString s ++ rest) = quotedString s ++ cJSONMinify rest := by
  rw [isClosed, decide_eq_true_eq] at h
  have hstring := minifyString_printed h rest
  have hcons : quotedString s ++ rest = 34 :: (s.bytes.flatMap printChar ++ 34 :: rest) := by
    rw [quotedString, List.cons_append, List.append_assoc]
    rfl
  rw [hcons, cJSONMinify, if_neg (by decide), if_neg (by decide), if_pos rfl, hstring]
  rfl

theorem isCopied_printInt (n : Int) : (printInt n).all isCopied = true := by
  refine List.all_eq_true.mpr fun c hc => ?_
  have hcopied : ∀ c : UInt8, isdigit c = true ∨ c = 45 → isCopied c = true :=
    forall_byte (p := fun c => isdigit c = true ∨ c = 45 → isCopied c = true) (by decide +kernel)
  exact hcopied c (mem_printInt hc)

mutual

/-- **The minified text** has no white space but in its strings, whatever the depth it was printed at. -/
theorem cJSONMinify_printed : ∀ (v : KJson) (depth : Nat) (rest : List UInt8),
    v.all isClosed (fun _ => true) = true → cJSONMinify (printed v depth ++ rest) = compact v ++ cJSONMinify rest
  | .null, _, rest, _ => by rw [printed, compact]; exact cJSONMinify_copied (by decide) rest
  | .false, _, rest, _ => by rw [printed, compact]; exact cJSONMinify_copied (by decide) rest
  | .true, _, rest, _ => by rw [printed, compact]; exact cJSONMinify_copied (by decide) rest
  | .number n, _, rest, _ => by rw [printed, compact]; exact cJSONMinify_copied (isCopied_printInt n) rest
  | .string s, _, rest, h => by rw [printed, compact]; exact cJSONMinify_quotedString h rest
  | .array items, depth, rest, h => by
    have hopen := fun s => @cJSONMinify_copied [91] (by decide) s
    have hclose := @cJSONMinify_copied [93] (by decide) rest
    have hitems := cJSONMinify_printedItems items (depth + 1) (93 :: rest) h
    simp only [List.singleton_append] at hopen hclose
    rw [printed, compact, List.cons_append, hopen, List.append_assoc, List.singleton_append, hitems, hclose]
    simp
  | .object members, depth, rest, h => by
    have hopen := fun s => @cJSONMinify_copied [123] (by decide) s
    have hline := fun s => @cJSONMinify_spacing [10] (by decide) s
    have htabs := @cJSONMinify_spacing (List.replicate depth 9) (by simp [isSpacing]) (125 :: rest)
    have hclose := @cJSONMinify_copied [125] (by decide) rest
    have hmembers := cJSONMinify_printedMembers members (depth + 1)
      (List.replicate depth 9 ++ 125 :: rest) h
    simp only [List.singleton_append] at hopen hline hclose
    rw [printed, compact, List.cons_append, hopen, List.cons_append, hline, List.append_assoc, List.append_assoc,
      List.singleton_append, hmembers, htabs, hclose]
    simp

theorem cJSONMinify_printedItems : ∀ (items : List KJson) (depth : Nat) (rest : List UInt8),
    allItems isClosed (fun _ => true) items = true →
    cJSONMinify (printedItems items depth ++ rest) = compactItems items ++ cJSONMinify rest
  | [], _, _, _ => by rw [printedItems, compactItems]; rfl
  | child :: more, depth, rest, h => by
    rw [allItems, Bool.and_eq_true] at h
    have hmore := cJSONMinify_printedItems more depth rest h.2
    rw [printedItems, compactItems, List.append_assoc, cJSONMinify_printed child depth _ h.1]
    split
    · rw [List.nil_append, hmore]
      simp
    · have hcomma := fun s => @cJSONMinify_copied [44] (by decide) s
      have hblank := fun s => @cJSONMinify_spacing [32] (by decide) s
      simp only [List.singleton_append] at hcomma hblank
      simp only [List.cons_append, List.nil_append, hcomma, hblank, hmore, List.append_assoc]

theorem cJSONMinify_printedMembers : ∀ (members : List (CStr × KJson)) (depth : Nat) (rest : List UInt8),
    allMembers isClosed (fun _ => true) members = true →
    cJSONMinify (printedMembers members depth ++ rest) = compactMembers members ++ cJSONMinify rest
  | [], _, _, _ => by rw [printedMembers, compactMembers]; rfl
  | (string, child) :: more, depth, rest, h => by
    rw [allMembers, Bool.and_eq_true, Bool.and_eq_true] at h
    have hmore := cJSONMinify_printedMembers more depth rest h.2.2
    have hcolon := fun s => @cJSONMinify_copied [58] (by decide) s
    have hcomma := fun s => @cJSONMinify_copied [44] (by decide) s
    have htab := fun s => @cJSONMinify_spacing [9] (by decide) s
    have hline := fun s => @cJSONMinify_spacing [10] (by decide) s
    simp only [List.singleton_append] at hcolon hcomma htab hline
    rw [printedMembers, compactMembers, List.append_assoc, cJSONMinify_spacing (by simp [isSpacing]), List.append_assoc,
      cJSONMinify_quotedString h.1, List.cons_append, hcolon, List.cons_append, htab, List.append_assoc,
      cJSONMinify_printed child depth _ h.2.1]
    split
    · simp only [List.nil_append, List.cons_append, hline, hmore, List.append_assoc]
    · simp only [List.nil_append, List.cons_append, hcomma, hline, hmore, List.append_assoc]

end

/-! ## 6. What is read -/

/-- White space. -/
def Blanks (b : List UInt8) : Prop := ∀ c ∈ b, isSpacing c = true

/-- Texts with any white space between their tokens. -/
inductive SpellsJson : List UInt8 → JsonNode → Prop
  | null : SpellsJson (ascii "null") (.value .null)
  | false : SpellsJson (ascii "false") (.value .false)
  | true : SpellsJson (ascii "true") (.value .true)
  | number {n : Int} : isReadable n = Bool.true → SpellsJson (printInt n) (.value (.number n.natAbs))
  | string {s : CStr} : SpellsJson (quotedString s) (.value (.string (CStr.carried s)))
  | emptyArray {b} : Blanks b → SpellsJson (91 :: (b ++ [93])) (.value (.array []))
  | array {b t vs} : Blanks b → SpellsJson t (.items vs) → SpellsJson (91 :: (b ++ (t ++ [93]))) (.value (.array vs))
  | emptyObject {b} : Blanks b → SpellsJson (123 :: (b ++ [125])) (.value (.object []))
  | object {b t ms} : Blanks b → SpellsJson t (.members ms) → SpellsJson (123 :: (b ++ (t ++ [125]))) (.value (.object ms))
  | lastItem {t b v} : SpellsJson t (.value v) → Blanks b → SpellsJson (t ++ b) (.items [v])
  | nextItem {t b u v vs} : SpellsJson t (.value v) → Blanks b → SpellsJson u (.items vs) →
      SpellsJson (t ++ (44 :: (b ++ u))) (.items (v :: vs))
  | lastMember {key b t c v} : Blanks b → SpellsJson t (.value v) → Blanks c →
      SpellsJson (quotedString key ++ (58 :: (b ++ (t ++ c)))) (.members [(CStr.carried key, v)])
  | nextMember {key b t c u v ms} : Blanks b → SpellsJson t (.value v) → Blanks c → SpellsJson u (.members ms) →
      SpellsJson (quotedString key ++ (58 :: (b ++ (t ++ (44 :: (c ++ u)))))) (.members ((CStr.carried key, v) :: ms))

variable {uninit : Bytes → UInt32}

theorem stringLen_printed (text : List UInt8) (rest : Bytes) :
    ∃ n, stringLen (text.flatMap printChar ++ 34 :: rest) = some n := by
  induction text with
  | nil => exact ⟨0, stringLen_quote rest⟩
  | cons c text ih =>
    obtain ⟨n, hn⟩ := ih
    rw [List.flatMap_cons, List.append_assoc]
    have hform := charForm c
    generalize hp : printChar c = form at hform ⊢
    cases hform with
    | itself hplain => exact ⟨n + 1, by rw [List.singleton_append, stringLen_plain hplain, hn]; rfl⟩
    | quote =>
      change ∃ n, stringLen (92 :: 34 :: (text.flatMap printChar ++ 34 :: rest)) = some n
      exact ⟨n + 1, by rw [stringLen_escape, hn]; rfl⟩
    | backslash =>
      change ∃ n, stringLen (92 :: 92 :: (text.flatMap printChar ++ 34 :: rest)) = some n
      exact ⟨n + 1, by rw [stringLen_escape, hn]; rfl⟩
    | @escape d =>
      change ∃ n, stringLen (92 :: d :: (text.flatMap printChar ++ 34 :: rest)) = some n
      exact ⟨n + 1, by rw [stringLen_escape, hn]; rfl⟩
    | dropped => exact ⟨n, hn⟩

theorem isCarried_of_plain {c : UInt8} (h : isPlain c = true) : isCarried c = true := by
  rw [isCarried, (isPlain_iff.mp h).1]
  rfl

theorem stringBytes_printed (uc : UInt32) (text : List UInt8) (rest : Bytes) :
    stringBytes uc (text.flatMap printChar ++ 34 :: rest) = some (text.filter isCarried, rest) := by
  induction text with
  | nil => exact stringBytes_quote uc rest
  | cons c text ih =>
    rw [List.flatMap_cons, List.append_assoc]
    have hform := charForm c
    generalize hp : printChar c = form at hform ⊢
    cases hform with
    | itself hplain =>
      rw [List.singleton_append, stringBytes_plain uc hplain, ih, List.filter_cons_of_pos (isCarried_of_plain hplain)]
      rfl
    | quote hc =>
      subst hc
      change stringBytes uc (92 :: 34 :: (text.flatMap printChar ++ 34 :: rest)) = _
      rw [stringBytes_escape uc (by decide), ih, List.filter_cons_of_pos (by decide)]
      rfl
    | backslash hc =>
      subst hc
      change stringBytes uc (92 :: 92 :: (text.flatMap printChar ++ 34 :: rest)) = _
      rw [stringBytes_escape uc (by decide), ih, List.filter_cons_of_pos isCarried_backslash]
      rfl
    | @escape d h34 h92 h117 hescape _ hcarried =>
      change stringBytes uc (92 :: d :: (text.flatMap printChar ++ 34 :: rest)) = _
      rw [stringBytes_escape uc h117, ih, List.filter_cons_of_pos hcarried, hescape]
      rfl
    | dropped hdropped =>
      rw [List.filter_cons_of_neg (by rw [hdropped]; exact Bool.false_ne_true)]
      exact ih

/-- **A printed string is read back** but for the characters that were dropped. -/
theorem parseString_printed (s : CStr) (rest : Bytes) :
    parseString uninit (s.bytes.flatMap printChar ++ 34 :: rest) = some (CStr.carried s, rest) := by
  obtain ⟨n, hn⟩ := stringLen_printed s.bytes rest
  rw [parseString, hn, stringBytes_printed]
  exact congrArg (fun str => some (str, rest)) (CStr.ofBytes_bytes (CStr.carried s))

theorem quotedString_append (s : CStr) (rest : List UInt8) :
    quotedString s ++ rest = 34 :: (s.bytes.flatMap printChar ++ 34 :: rest) := by
  rw [quotedString, List.cons_append, List.append_assoc]
  rfl

/-- **A printed number is read back** without its sign. -/
theorem parseNumber_printInt {n : Int} (h : isReadable n = true) {c : UInt8} (hc : isdigit c = false) (rest : Bytes) :
    parseNumber (printInt n ++ c :: rest) = some ((n.natAbs : Int), c :: rest) := by
  rw [isReadable, decide_eq_true_eq] at h
  rw [printInt]
  split
  · obtain ⟨d, l, hprint, hd⟩ := printNat_cons n.natAbs
    have hread := parseNumber_printNat h hc rest
    rw [hprint] at hread ⊢
    have hsign : d ≠ 45 := by rintro rfl; exact absurd hd (by decide)
    rw [List.cons_append, parseNumber, skipOne_of_ne hsign] at hread
    rw [List.cons_append, parseNumber, skipOne_self]
    exact hread
  · exact parseNumber_printNat h hc rest

/-- The next character ends a number. -/
def EndsNumber (rest : Bytes) : Prop := ∃ c s, rest = c :: s ∧ isdigit c = false

theorem isBlank_of_isSpacing (c : UInt8) : isSpacing c = true → isBlank c = true ∧ isdigit c = false :=
  forall_byte (p := fun c => isSpacing c = true → isBlank c = true ∧ isdigit c = false) (by decide +kernel) c

theorem skip_blanks {b : List UInt8} (h : Blanks b) (s : Bytes) : skip (b ++ s) = skip s := by
  induction b with
  | nil => rfl
  | cons c b ih =>
    rw [List.cons_append, skip, if_pos (isBlank_of_isSpacing c (h c (List.mem_cons_self ..))).1]
    exact ih fun d hd => h d (List.mem_cons_of_mem _ hd)

theorem endsNumber_blanks {b : List UInt8} (h : Blanks b) {c : UInt8} (hc : isdigit c = false) (s : Bytes) :
    EndsNumber (b ++ c :: s) := by
  cases b with
  | nil => exact ⟨c, s, rfl, hc⟩
  | cons d b => exact ⟨d, b ++ c :: s, rfl, (isBlank_of_isSpacing d (h d (List.mem_cons_self ..))).2⟩

/-- How a text begins: not with white space, a comma or a closing bracket. -/
theorem spells_head {t : List UInt8} {n : JsonNode} (h : SpellsJson t n) :
    ∃ c s, t = c :: s ∧ isBlank c = false ∧ c ≠ 93 ∧ c ≠ 125 ∧ c ≠ 44 := by
  induction h with
  | null | false | true => exact ⟨_, _, rfl, by decide, by decide, by decide, by decide⟩
  | @number n =>
    cases hprint : printInt n with
    | nil => exact absurd hprint (printInt_ne_nil n)
    | cons c s =>
      have hc := mem_printInt (hprint ▸ List.mem_cons_self : c ∈ printInt n)
      have hall : ∀ c : UInt8, isdigit c = true ∨ c = 45 → isBlank c = false ∧ c ≠ 93 ∧ c ≠ 125 ∧ c ≠ 44 :=
        forall_byte (p := fun c => isdigit c = true ∨ c = 45 → isBlank c = false ∧ c ≠ 93 ∧ c ≠ 125 ∧ c ≠ 44)
          (by decide +kernel)
      exact ⟨c, s, rfl, hall c hc⟩
  | string => exact ⟨34, _, rfl, by decide, by decide, by decide, by decide⟩
  | emptyArray | array => exact ⟨91, _, rfl, by decide, by decide, by decide, by decide⟩
  | emptyObject | object => exact ⟨123, _, rfl, by decide, by decide, by decide, by decide⟩
  | lastItem _ _ ih =>
    obtain ⟨c, s, rfl, hc⟩ := ih
    exact ⟨c, _, rfl, hc⟩
  | nextItem _ _ _ ih =>
    obtain ⟨c, s, rfl, hc⟩ := ih
    exact ⟨c, _, rfl, hc⟩
  | lastMember | nextMember => exact ⟨34, _, rfl, by decide, by decide, by decide, by decide⟩

theorem skip_spelled {t : List UInt8} {n : JsonNode} (h : SpellsJson t n) (s : Bytes) : skip (t ++ s) = some (t ++ s) := by
  obtain ⟨c, u, rfl, hc, -⟩ := spells_head h
  rw [List.cons_append, skip, if_neg (by rw [hc]; exact Bool.false_ne_true)]

theorem skip_char {c : UInt8} (h : isBlank c = false) (s : Bytes) : skip (c :: s) = some (c :: s) := by
  rw [skip, if_neg (by rw [h]; exact Bool.false_ne_true)]

/-- White space in front of items or members is passed over. -/
theorem reads_items_blanks {b : List UInt8} (hb : Blanks b) {s rest : Bytes} {vs : List KJson}
    (h : Reads uninit s (.items vs) rest) : Reads uninit (b ++ s) (.items vs) rest := by
  cases h with
  | lastItem hs hv ht => exact .lastItem ((skip_blanks hb s).trans hs) hv ht
  | nextItem hs hv ht hrest => exact .nextItem ((skip_blanks hb s).trans hs) hv ht hrest

theorem reads_members_blanks {b : List UInt8} (hb : Blanks b) {s rest : Bytes} {ms : List (CStr × KJson)}
    (h : Reads uninit s (.members ms) rest) : Reads uninit (b ++ s) (.members ms) rest := by
  cases h with
  | lastMember hs hk ht hu hv hw => exact .lastMember ((skip_blanks hb s).trans hs) hk ht hu hv hw
  | nextMember hs hk ht hu hv hw hrest => exact .nextMember ((skip_blanks hb s).trans hs) hk ht hu hv hw hrest

/-- What a text of this is read as: a value up to what ends a number, items and members up to their bracket. -/
def ReadBack (uninit : Bytes → UInt32) (t : List UInt8) : JsonNode → Prop
  | .value v => ∀ rest, EndsNumber rest → Reads uninit (t ++ rest) (.value v) rest
  | .items vs => ∀ rest, Reads uninit (t ++ 93 :: rest) (.items vs) rest
  | .members ms => ∀ rest, Reads uninit (t ++ 125 :: rest) (.members ms) rest

/-- **A spelled text reads as what it spells.** -/
theorem reads_spells {t : List UInt8} {n : JsonNode} (h : SpellsJson t n) : ReadBack uninit t n := by
  induction h with
  | null => exact fun rest _ => .null
  | false => exact fun rest _ => .false
  | true => exact fun rest _ => .true
  | @number n hn =>
    rintro rest ⟨c, s, rfl, hc⟩
    have hread := parseNumber_printInt hn hc s
    cases hprint : printInt n with
    | nil => exact absurd hprint (printInt_ne_nil n)
    | cons d l =>
      rw [hprint] at hread
      exact .number ((mem_printInt (hprint ▸ List.mem_cons_self : d ∈ printInt n)).symm) hread
  | @string s =>
    intro rest _
    rw [quotedString_append]
    exact .string (parseString_printed s rest)
  | @emptyArray b hb =>
    intro rest _
    have hclose : skip (b ++ 93 :: rest) = some (93 :: rest) := (skip_blanks hb _).trans (skip_char (by decide) rest)
    simp only [List.cons_append, List.append_assoc, List.nil_append]
    exact .emptyArray hclose
  | @array b t vs hb ht ih =>
    intro rest _
    have hskip : skip (b ++ (t ++ 93 :: rest)) = some (t ++ 93 :: rest) :=
      (skip_blanks hb _).trans (skip_spelled ht _)
    obtain ⟨c, u, htext, -, hbracket, -⟩ := spells_head ht
    simp only [List.cons_append, List.append_assoc, List.nil_append]
    refine .array hskip ?_ (ih rest)
    rw [htext]
    simpa using hbracket
  | @emptyObject b hb =>
    intro rest _
    have hclose : skip (b ++ 125 :: rest) = some (125 :: rest) :=
      (skip_blanks hb _).trans (skip_char (by decide) rest)
    simp only [List.cons_append, List.append_assoc, List.nil_append]
    exact .emptyObject hclose
  | @object b t ms hb ht ih =>
    intro rest _
    have hskip : skip (b ++ (t ++ 125 :: rest)) = some (t ++ 125 :: rest) :=
      (skip_blanks hb _).trans (skip_spelled ht _)
    obtain ⟨c, u, htext, -, -, hbrace, -⟩ := spells_head ht
    simp only [List.cons_append, List.append_assoc, List.nil_append]
    refine .object hskip ?_ (ih rest)
    rw [htext]
    simpa using hbrace
  | @lastItem t b v ht hb ih =>
    intro rest
    have hclose : skip (b ++ 93 :: rest) = some (93 :: rest) := (skip_blanks hb _).trans (skip_char (by decide) rest)
    rw [List.append_assoc]
    exact .lastItem (skip_spelled ht _) (ih _ (endsNumber_blanks hb (by decide) rest)) hclose
  | @nextItem t b u v vs ht hb hu ih ihu =>
    intro rest
    rw [List.append_assoc, List.cons_append, List.append_assoc]
    refine .nextItem (skip_spelled ht _) (ih _ ⟨44, _, rfl, by decide⟩) (skip_char (by decide) _) ?_
    exact reads_items_blanks hb (ihu rest)
  | @lastMember key b t c v hb ht hc ih =>
    intro rest
    have hclose : skip (c ++ 125 :: rest) = some (125 :: rest) :=
      (skip_blanks hc _).trans (skip_char (by decide) rest)
    rw [List.append_assoc, quotedString_append, List.cons_append, List.append_assoc, List.append_assoc]
    exact .lastMember (skip_char (by decide) _) (parseString_printed key _) (skip_char (by decide) _)
      ((skip_blanks hb _).trans (skip_spelled ht _)) (ih _ (endsNumber_blanks hc (by decide) rest)) hclose
  | @nextMember key b t c u v ms hb ht hc hu ih ihu =>
    intro rest
    rw [List.append_assoc, quotedString_append, List.cons_append, List.append_assoc, List.append_assoc,
      List.cons_append, List.append_assoc]
    exact .nextMember (skip_char (by decide) _) (parseString_printed key _) (skip_char (by decide) _)
      ((skip_blanks hb _).trans (skip_spelled ht _)) (ih _ ⟨44, _, rfl, by decide⟩) (skip_char (by decide) _)
      (reads_members_blanks hc (ihu rest))

theorem blanks_nil : Blanks [] := fun _ hc => absurd hc List.not_mem_nil

theorem blanks_cons {c : UInt8} {b : List UInt8} (hc : isSpacing c = true) (hb : Blanks b) : Blanks (c :: b) :=
  List.forall_mem_cons.mpr ⟨hc, hb⟩

theorem blanks_tabs (n : Nat) : Blanks (List.replicate n 9) := fun c hc => by
  rw [List.eq_of_mem_replicate hc]
  rfl

mutual

theorem spells_printed : ∀ (v : KJson) (depth : Nat), v.all (fun _ => true) isReadable = true →
    SpellsJson (printed v depth) (.value v.carried)
  | .null, _, _ => by rw [printed, KJson.carried]; exact .null
  | .false, _, _ => by rw [printed, KJson.carried]; exact .false
  | .true, _, _ => by rw [printed, KJson.carried]; exact .true
  | .number n, _, h => by rw [printed, KJson.carried]; exact .number h
  | .string s, _, _ => by rw [printed, KJson.carried]; exact .string
  | .array items, depth, h => by
    have hitems := fun hne => spells_printedItems items (depth + 1) hne h
    rw [printed, KJson.carried]
    cases items with
    | nil => rw [printedItems, carriedItems]; exact .emptyArray blanks_nil
    | cons child rest => exact .array blanks_nil (hitems (List.cons_ne_nil _ _))
  | .object members, depth, h => by
    have hmembers := fun hne => spells_printedMembers members (depth + 1) hne (blanks_tabs depth) h
    rw [printed, KJson.carried]
    cases members with
    | nil =>
      rw [printedMembers, carriedMembers]
      exact .emptyObject (blanks_cons rfl (blanks_tabs depth))
    | cons member rest =>
      obtain ⟨t, htext, ht⟩ := hmembers (List.cons_ne_nil _ _)
      rw [← List.append_assoc, htext, List.append_assoc]
      exact .object (blanks_cons rfl (blanks_tabs (depth + 1))) ht

theorem spells_printedItems : ∀ (items : List KJson) (depth : Nat), items ≠ [] →
    allItems (fun _ => true) isReadable items = true →
    SpellsJson (printedItems items depth) (.items (carriedItems items))
  | [], _, hne, _ => absurd rfl hne
  | child :: rest, depth, _, h => by
    rw [allItems, Bool.and_eq_true] at h
    have hchild := spells_printed child depth h.1
    have hrest := fun hne => spells_printedItems rest depth hne h.2
    rw [printedItems, carriedItems]
    cases rest with
    | nil => rw [printedItems, carriedItems]; exact .lastItem hchild blanks_nil
    | cons next rest => exact .nextItem hchild (blanks_cons rfl blanks_nil) (hrest (List.cons_ne_nil _ _))

/-- The tabs in front of a member come before it, those in front of the brace behind it. -/
theorem spells_printedMembers : ∀ (members : List (CStr × KJson)) (depth : Nat) {c : List UInt8}, members ≠ [] →
    Blanks c → allMembers (fun _ => true) isReadable members = true →
    ∃ t, printedMembers members depth ++ c = List.replicate depth 9 ++ t ∧
      SpellsJson t (.members (carriedMembers members))
  | [], _, _, hne, _, _ => absurd rfl hne
  | (string, child) :: rest, depth, c, _, hc, h => by
    rw [allMembers, Bool.and_eq_true, Bool.and_eq_true] at h
    have hchild := spells_printed child depth h.2.1
    have hrest := fun hne => spells_printedMembers rest depth hne hc h.2.2
    rw [printedMembers, carriedMembers]
    cases rest with
    | nil =>
      refine ⟨quotedString string ++ (58 :: ([9] ++ (printed child depth ++ (10 :: c)))), ?_, ?_⟩
      · rw [printedMembers]
        simp
      · rw [carriedMembers]
        exact .lastMember (blanks_cons rfl blanks_nil) hchild (blanks_cons rfl hc)
    | cons next rest =>
      obtain ⟨u, htext, hu⟩ := hrest (List.cons_ne_nil _ _)
      refine ⟨quotedString string ++ (58 :: ([9] ++ (printed child depth ++
        (44 :: ((10 :: List.replicate depth 9) ++ u))))), ?_, ?_⟩
      · simp [← htext]
      · exact .nextMember (blanks_cons rfl blanks_nil) hchild (blanks_cons rfl (blanks_tabs depth)) hu

end

mutual

theorem spells_compact : ∀ (v : KJson), v.all (fun _ => true) isReadable = true →
    SpellsJson (compact v) (.value v.carried)
  | .null, _ => by rw [compact, KJson.carried]; exact .null
  | .false, _ => by rw [compact, KJson.carried]; exact .false
  | .true, _ => by rw [compact, KJson.carried]; exact .true
  | .number n, h => by rw [compact, KJson.carried]; exact .number h
  | .string s, _ => by rw [compact, KJson.carried]; exact .string
  | .array items, h => by
    have hitems := fun hne => spells_compactItems items hne h
    rw [compact, KJson.carried]
    cases items with
    | nil => rw [compactItems, carriedItems]; exact .emptyArray blanks_nil
    | cons child rest => exact .array blanks_nil (hitems (List.cons_ne_nil _ _))
  | .object members, h => by
    have hmembers := fun hne => spells_compactMembers members hne h
    rw [compact, KJson.carried]
    cases members with
    | nil => rw [compactMembers, carriedMembers]; exact .emptyObject blanks_nil
    | cons member rest => exact .object blanks_nil (hmembers (List.cons_ne_nil _ _))

theorem spells_compactItems : ∀ (items : List KJson), items ≠ [] →
    allItems (fun _ => true) isReadable items = true → SpellsJson (compactItems items) (.items (carriedItems items))
  | [], hne, _ => absurd rfl hne
  | child :: rest, _, h => by
    rw [allItems, Bool.and_eq_true] at h
    have hchild := spells_compact child h.1
    have hrest := fun hne => spells_compactItems rest hne h.2
    rw [compactItems, carriedItems]
    cases rest with
    | nil => rw [compactItems, carriedItems]; exact .lastItem hchild blanks_nil
    | cons next rest => exact .nextItem hchild blanks_nil (hrest (List.cons_ne_nil _ _))

theorem spells_compactMembers : ∀ (members : List (CStr × KJson)), members ≠ [] →
    allMembers (fun _ => true) isReadable members = true →
    SpellsJson (compactMembers members) (.members (carriedMembers members))
  | [], hne, _ => absurd rfl hne
  | (string, child) :: rest, _, h => by
    rw [allMembers, Bool.and_eq_true, Bool.and_eq_true] at h
    have hchild := spells_compact child h.2.1
    have hrest := fun hne => spells_compactMembers rest hne h.2.2
    rw [compactMembers, carriedMembers]
    cases rest with
    | nil =>
      have hlast := @SpellsJson.lastMember string [] _ [] _ blanks_nil hchild blanks_nil
      rw [compactMembers, carriedMembers]
      simpa using hlast
    | cons next rest => exact .nextMember blanks_nil hchild blanks_nil (hrest (List.cons_ne_nil _ _))

end

/-! ## 7. There and back -/

mutual

theorem all_mono {text text' : CStr → Bool} {number number' : Int → Bool}
    (htext : ∀ s, text s = true → text' s = true) (hnumber : ∀ n, number n = true → number' n = true) :
    ∀ v : KJson, v.all text number = true → v.all text' number' = true
  | .null, _ | .false, _ | .true, _ => rfl
  | .number n, h => hnumber n h
  | .string s, h => htext s h
  | .array items, h => allItems_mono htext hnumber items h
  | .object members, h => allMembers_mono htext hnumber members h

theorem allItems_mono {text text' : CStr → Bool} {number number' : Int → Bool}
    (htext : ∀ s, text s = true → text' s = true) (hnumber : ∀ n, number n = true → number' n = true) :
    ∀ items : List KJson, allItems text number items = true → allItems text' number' items = true
  | [], _ => rfl
  | child :: rest, h => by
    rw [allItems, Bool.and_eq_true] at h ⊢
    exact ⟨all_mono htext hnumber child h.1, allItems_mono htext hnumber rest h.2⟩

theorem allMembers_mono {text text' : CStr → Bool} {number number' : Int → Bool}
    (htext : ∀ s, text s = true → text' s = true) (hnumber : ∀ n, number n = true → number' n = true) :
    ∀ members : List (CStr × KJson), allMembers text number members = true →
      allMembers text' number' members = true
  | [], _ => rfl
  | (string, child) :: rest, h => by
    rw [allMembers, Bool.and_eq_true, Bool.and_eq_true] at h ⊢
    exact ⟨htext string h.1, all_mono htext hnumber child h.2.1, allMembers_mono htext hnumber rest h.2.2⟩

end

/-- A text of this kind, with its NUL and whatever is behind it. -/
theorem cJSONParse_spelled {t : List UInt8} {v : KJson} (h : SpellsJson t (.value v)) (rest : Bytes) :
    cJSONParse uninit (t ++ 0 :: rest) = .ok v (0 :: rest) :=
  cJSONParse_ok_iff.mpr ⟨t ++ 0 :: rest, skip_spelled h _, reads_spells h (0 :: rest) ⟨0, rest, rfl, rfl⟩⟩

/-- **What is printed reads as what it was made of**, and still does when it is minified: texts but for the characters
without a form, numbers but for their signs.  It leaves no buffer; a text must not be a format, and no backslash may
come last in it.  Between the tokens of the minified text there is no white space. -/
theorem print_parse {v : KJson} (h : v.all (fun s => isFormatFree s && isClosed s) isReadable = true)
    (uninit : Bytes → UInt32) (rest : Bytes) :
    ∃ text, cJSONPrint v = .ok text ∧ cJSONParse uninit (text ++ 0 :: rest) = .ok v.carried (0 :: rest) ∧
      cJSONMinify text = compact v ∧
      cJSONParse uninit (cJSONMinify text ++ 0 :: rest) = .ok v.carried (0 :: rest) := by
  have hfree : v.all isFormatFree isReadable = true :=
    all_mono (fun _ hs => ((Bool.and_eq_true _ _).mp hs).1) (fun _ hn => hn) v h
  have hclosed : v.all isClosed (fun _ => true) = true :=
    all_mono (fun _ hs => ((Bool.and_eq_true _ _).mp hs).2) (fun _ _ => rfl) v h
  have hreadable : v.all (fun _ => true) isReadable = true := all_mono (fun _ _ => rfl) (fun _ hn => hn) v h
  have hminified : cJSONMinify (printed v 0) = compact v := by
    have hminify := cJSONMinify_printed v 0 [] hclosed
    rwa [List.append_nil, cJSONMinify, List.append_nil] at hminify
  refine ⟨printed v 0, printValue_eq v 0 hfree, cJSONParse_spelled (spells_printed v 0 hreadable) rest, hminified, ?_⟩
  rw [hminified]
  exact cJSONParse_spelled (spells_compact v hreadable) rest

/-- A report, with a text that needs escapes. -/
def reportJson : KJson :=
  .object [(.lit "mac", .string (.lit "02:00:00:00:00:a7")), (.lit "note", .string (.lit "a \"b\"\n")),
    (.lit "app_num", .number 2), (.lit "visit_info", .array [.object [(.lit "appid", .number 1001)], .object []])]

theorem print_parse_report :
    ∃ text, cJSONPrint reportJson = .ok text ∧
      cJSONParse (fun _ => 0) (cJSONMinify text ++ [0]) = .ok reportJson.carried [0] := by
  obtain ⟨text, hprint, -, -, hparse⟩ := @print_parse reportJson (by decide +kernel) (fun _ => 0) []
  exact ⟨text, hprint, hparse⟩

end Oaf
