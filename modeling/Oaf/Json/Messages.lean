/-
# Lists of texts in messages

A list of texts at the end of a message, as `rule_manager.lua` writes one: the texts are put between quotes,
as they are or with escapes.

* `reads_request_iff`, `reads_fields_iff`: a message, up to its list.
* `reads_list_iff`: the list is read as it was meant if and only if its texts are.  Each character takes
  at least what is written for it, so a text with one that takes more swallows what comes after it.
* `reads_message_iff`: so is the whole message.
-/
import Mathlib.Algebra.Order.BigOperators.Group.List
import Oaf.Json.Device

namespace Oaf

open CLib Chains

/-! ## 1. Lists -/

/-- A text in quotes, in front of what comes next. -/
def quotedText (text rest : List UInt8) : List UInt8 := 34 :: (text ++ 34 :: rest)

/-- The items of a list, each with the comma or the bracket after it. -/
def itemsText : List (List UInt8) → List UInt8 → List UInt8
  | [], rest => rest
  | [text], rest => quotedText text (93 :: rest)
  | text :: texts, rest => quotedText text (44 :: itemsText texts rest)

theorem itemsText_cons (text : List UInt8) (texts : List (List UInt8)) (rest : List UInt8) :
    ∃ s, itemsText (text :: texts) rest = 34 :: s := by
  cases texts <;> exact ⟨_, rfl⟩

theorem itemsText_length (texts : List (List UInt8)) (rest : List UInt8) :
    (itemsText texts rest).length = (texts.map fun text => text.length + 3).sum + rest.length := by
  fun_induction itemsText texts rest with
  | case1 => simp
  | case2 =>
    simp [quotedText]
    omega
  | case3 text texts rest _ ih =>
    simp only [quotedText, List.length_cons, List.length_append, ih, List.map_cons, List.sum_cons]
    omega

/-- A list of texts. -/
def listText (texts : List (List UInt8)) (rest : List UInt8) : List UInt8 :=
  if texts = [] then 91 :: 93 :: rest else 91 :: itemsText texts rest

section

variable {uninit : Bytes → UInt32} {written : CStr → List UInt8} {bad : UInt8 → Bool}
  (hread : ∀ text : CStr, text.bytes.any bad = false →
    ∀ rest, parseString uninit (written text ++ 34 :: rest) = some (text, rest))
  (hcost : ∀ text : CStr, textCost text.bytes = (written text).length + text.bytes.countP bad)

include hread in
theorem reads_items {texts : List CStr} (hne : texts ≠ []) (h : ∀ text ∈ texts, text.bytes.any bad = false)
    (rest : Bytes) :
    Reads uninit (itemsText (texts.map written) rest) (.items (texts.map .string)) rest := by
  induction texts with
  | nil => exact absurd rfl hne
  | cons text texts ih =>
    obtain ⟨htext, htexts⟩ := List.forall_mem_cons.mp h
    cases texts with
    | nil => exact .lastItem rfl (.string (hread text htext _)) rfl
    | cons text' texts => exact .nextItem rfl (.string (hread text htext _)) rfl (ih (by simp) htexts)

include hread in
theorem reads_list {texts : List CStr} (h : ∀ text ∈ texts, text.bytes.any bad = false) (rest : Bytes) :
    Reads uninit (listText (texts.map written) rest) (.value (.array (texts.map .string))) rest := by
  cases texts with
  | nil => exact .emptyArray rfl
  | cons text texts =>
    have hitems := reads_items hread (List.cons_ne_nil text texts) h rest
    obtain ⟨s, hs⟩ := itemsText_cons (written text) (texts.map written) rest
    rw [List.map_cons, hs] at hitems
    rw [List.map_cons, listText, if_neg (List.cons_ne_nil _ _), hs]
    exact reads_array_iff.mpr hitems

/-- A string and what comes after it take what they take, and a character that the string ends with. -/
theorem string_then {s t u : Bytes} {str : CStr} {c : UInt8} (hs : parseString uninit s = some (str, t))
    (ht : skip t = some (c :: u)) : textCost str.bytes + u.length + 2 ≤ s.length := by
  obtain ⟨hle, hends⟩ := parseString_cost hs
  have hskip := skip_length ht
  rw [List.length_cons] at hskip
  obtain hlt | hends := hends
  · omega
  -- what ended the string is white space, and is skipped
  · cases t with
    | nil => cases hends
    | cons d t =>
      rw [skip, if_pos (isBlank_of_endsText hends)] at ht
      have hskip := skip_length ht
      simp only [List.length_cons] at hskip hle
      omega

theorem reads_string_inv {s rest : Bytes} {str : CStr} (h : Reads uninit s (.value (.string str)) rest) :
    ∃ s', s = 34 :: s' ∧ parseString uninit s' = some (str, rest) := by
  cases h with
  | string hs => exact ⟨_, rfl, hs⟩

/-- What items take. -/
theorem items_cost {texts : List CStr} {s rest : Bytes}
    (h : Reads uninit s (.items (texts.map .string)) rest) :
    (texts.map fun text => textCost text.bytes + 3).sum + rest.length ≤ s.length := by
  induction texts generalizing s with
  | nil => cases h
  | cons text texts ih =>
    rw [List.map_cons, List.sum_cons]
    generalize hvs : (text :: texts).map KJson.string = vs at h
    cases h with
    | lastItem hs hv ht =>
      obtain ⟨hx, hnil⟩ := List.cons.inj hvs
      obtain rfl := List.map_eq_nil_iff.mp hnil
      subst hx
      obtain ⟨s', rfl, hstr⟩ := reads_string_inv hv
      have hlen := skip_length hs
      have htakes := string_then hstr ht
      simp only [List.map_nil, List.sum_nil, List.length_cons] at hlen ⊢
      omega
    | nextItem hs hv ht hrest =>
      obtain ⟨hx, htexts⟩ := List.cons.inj hvs
      subst hx
      obtain ⟨s', rfl, hstr⟩ := reads_string_inv hv
      have hlen := skip_length hs
      have htakes := string_then hstr ht
      have hrec := ih (htexts ▸ hrest)
      rw [List.length_cons] at hlen
      omega

theorem suffix_itemsText (texts : List (List UInt8)) (rest : List UInt8) : rest <:+ itemsText texts rest := by
  fun_induction itemsText texts rest with
  | case1 => exact List.suffix_rfl
  | case2 text rest => exact ⟨34 :: (text ++ [34, 93]), by simp [quotedText]⟩
  | case3 text texts rest _ ih =>
    exact ih.trans ⟨34 :: (text ++ [34, 44]), by simp [quotedText]⟩

/-- Two braces, with nothing but white space in front of each. -/
theorem two_braces {w u rest : Bytes} (hw : skip w = some (125 :: u)) (hu : skip u = some (125 :: rest)) :
    2 ≤ w.count 125 := by
  have h₁ := (skip_suffix hw).sublist.count_le (125 : UInt8)
  have h₂ := (skip_suffix hu).sublist.count_le (125 : UInt8)
  rw [List.count_cons_self] at h₁ h₂
  omega

include hread hcost in
/-- **A list at the end of a message is read as it was meant** if and only if all its texts are. -/
theorem reads_list_iff (texts : List CStr) (zeros : Nat) :
    (∃ w u rest,
      Reads uninit (listText (texts.map written) (125 :: 125 :: List.replicate zeros 0))
        (.value (.array (texts.map .string))) w ∧
      skip w = some (125 :: u) ∧ skip u = some (125 :: rest)) ↔
      ∀ text ∈ texts, text.bytes.any bad = false := by
  constructor
  · rintro ⟨w, u, rest, hlist, hw, hu⟩ text htext
    by_contra hbad
    cases texts with
    | nil => cases htext
    | cons first texts =>
      obtain ⟨s, hs⟩ := itemsText_cons (written first) (texts.map written)
        (125 :: 125 :: List.replicate zeros 0)
      rw [List.map_cons, listText, if_neg (List.cons_ne_nil _ _), hs, reads_array_iff, ← hs,
        ← List.map_cons] at hlist
      generalize first :: texts = texts at hlist htext
      -- what is left of the message is less than the braces and what comes after them
      have hcount : 0 < text.bytes.countP bad := by
        rw [List.countP_pos_iff]
        simpa using hbad
      have hbads : text.bytes.countP bad ≤ (texts.map fun text => text.bytes.countP bad).sum :=
        List.single_le_sum (fun _ _ => Nat.zero_le _) _ (List.mem_map_of_mem htext)
      have hcosts : (texts.map fun text => textCost text.bytes + 3).sum =
          (texts.map fun text => (written text).length + 3).sum +
            (texts.map fun text => text.bytes.countP bad).sum := by
        rw [← List.sum_map_add]
        congr 1
        refine List.map_congr_left fun text _ => ?_
        rw [hcost]
        omega
      have htakes := items_cost hlist
      rw [itemsText_length, List.map_map] at htakes
      simp only [List.length_cons, List.length_replicate, Function.comp_def] at htakes
      have hshort : w.length ≤ (125 :: List.replicate zeros (0 : UInt8)).length := by
        simp only [List.length_cons, List.length_replicate]
        omega
      have hsuffix : w <:+ 125 :: List.replicate zeros 0 :=
        List.suffix_of_suffix_length_le (reads_suffix hlist)
          ((List.suffix_cons 125 _).trans (suffix_itemsText _ _)) hshort
      have hone := hsuffix.sublist.count_le (125 : UInt8)
      have htwo := two_braces hw hu
      rw [List.count_cons_self, List.count_replicate] at hone
      simp at hone
      omega
  · intro h
    exact ⟨_, _, _, reads_list hread h _, rfl, rfl⟩

end

/-! ## 2. Messages -/

/-- A member of an object, in front of what comes next. -/
def memberText (key : CStr) (rest : List UInt8) : List UInt8 := 34 :: (key.bytes ++ 34 :: 58 :: rest)

/-- Members whose values are numbers, in front of another member. -/
def fieldsText : List (CStr × Nat) → List UInt8 → List UInt8
  | [], rest => rest
  | field :: fields, rest => memberText field.1 (printNat field.2 ++ 44 :: fieldsText fields rest)

/-- A request, up to its `data`. -/
def requestText (api : CStr) (data : List UInt8) : List UInt8 :=
  123 :: memberText (.lit "api") (34 :: (api.bytes ++ 34 :: 44 :: memberText (.lit "data") data))

/-- A request whose `data` is these members. -/
def requestItem (api : CStr) (members : List (CStr × KJson)) : KJson :=
  .object [(.lit "api", .string api), (.lit "data", .object members)]

/-- The members whose values are numbers. -/
def fieldItems (fields : List (CStr × Nat)) : List (CStr × KJson) :=
  fields.map fun field => (field.1, .number field.2)

variable {uninit : Bytes → UInt32}

/-- A request is read up to its `data`. -/
theorem reads_request_iff {api : CStr} (hapi : api.bytes.all isPlain = true) {s rest : Bytes}
    {members : List (CStr × KJson)} :
    Reads uninit (requestText api (123 :: 34 :: s)) (.value (requestItem api members)) rest ↔
      ∃ w, Reads uninit (34 :: s) (.members members) w ∧ skip w = some (125 :: rest) := by
  have hkey : (CStr.lit "api").bytes.all isPlain = true := by decide
  have hdata : (CStr.lit "data").bytes.all isPlain = true := by decide
  rw [requestText, requestItem, memberText, reads_object_iff,
    reads_member_iff hkey rfl (reads_plain hapi _), memberText, reads_lastMember_iff hdata rfl]
  simp only [reads_object_iff]

theorem not_isBlank_of_isdigit {c : UInt8} (h : isdigit c = true) : isBlank c = false := by
  simp only [isdigit, Bool.and_eq_true, decide_eq_true_eq, UInt8.le_iff_toNat_le, UInt8.reduceToNat] at h
  simp only [isBlank, Bool.or_eq_false_iff, decide_eq_false_iff_not, UInt8.le_iff_toNat_le, UInt8.reduceToNat]
  omega

theorem skip_number (n : Nat) (rest : Bytes) : skip (printNat n ++ rest) = some (printNat n ++ rest) := by
  cases hprint : printNat n with
  | nil => exact absurd hprint (printNat_ne_nil n)
  | cons d ds =>
    have hd := isdigit_of_mem_printNat (hprint ▸ List.mem_cons_self : d ∈ printNat n)
    rw [List.cons_append, skip, if_neg (by rw [not_isBlank_of_isdigit hd]; exact Bool.false_ne_true)]

/-- The numbers are read. -/
theorem reads_fields_iff {fields : List (CStr × Nat)}
    (h : ∀ field ∈ fields, field.1.bytes.all isPlain = true ∧ field.2 < 2 ^ 31) {s rest : Bytes}
    {member : CStr × KJson} {members : List (CStr × KJson)} :
    Reads uninit (fieldsText fields s) (.members (fieldItems fields ++ member :: members)) rest ↔
      Reads uninit s (.members (member :: members)) rest := by
  induction fields with
  | nil => exact Iff.rfl
  | cons field fields ih =>
    obtain ⟨hfield, hfields⟩ := List.forall_mem_cons.mp h
    rw [← ih hfields]
    have hnumber := @reads_number uninit field.2 hfield.2 44 (by decide) (fieldsText fields s)
    cases fields with
    | nil => exact reads_member_iff hfield.1 (skip_number _ _) hnumber
    | cons field' fields => exact reads_member_iff hfield.1 (skip_number _ _) hnumber

theorem fieldsText_cons (fields : List (CStr × Nat)) (key : CStr) (rest : List UInt8) :
    ∃ s, fieldsText fields (memberText key rest) = 34 :: s := by
  cases fields <;> exact ⟨_, rfl⟩

/-- **A message whose last member is a list** is read as it was meant if and only if the texts of the list
are. -/
theorem reads_message_iff {written : CStr → List UInt8} {bad : UInt8 → Bool}
    (hread : ∀ text : CStr, text.bytes.any bad = false →
      ∀ rest, parseString uninit (written text ++ 34 :: rest) = some (text, rest))
    (hcost : ∀ text : CStr, textCost text.bytes = (written text).length + text.bytes.countP bad)
    {api key : CStr} (hapi : api.bytes.all isPlain = true) (hkey : key.bytes.all isPlain = true)
    {fields : List (CStr × Nat)}
    (hfields : ∀ field ∈ fields, field.1.bytes.all isPlain = true ∧ field.2 < 2 ^ 31)
    (texts : List CStr) (zeros : Nat) :
    (∃ rest, Reads uninit
      (requestText api (123 :: fieldsText fields (memberText key
        (listText (texts.map written) (125 :: 125 :: List.replicate zeros 0)))))
      (.value (requestItem api (fieldItems fields ++ [(key, .array (texts.map .string))]))) rest) ↔
      ∀ text ∈ texts, text.bytes.any bad = false := by
  rw [← reads_list_iff hread hcost texts zeros]
  have hskip : ∀ rest, skip (listText (texts.map written) rest) = some (listText (texts.map written) rest) := by
    intro rest
    rw [listText]
    split <;> rfl
  obtain ⟨s, hs⟩ := fieldsText_cons fields key
    (listText (texts.map written) (125 :: 125 :: List.replicate zeros 0))
  rw [hs]
  simp only [reads_request_iff hapi]
  simp only [← hs, reads_fields_iff hfields, memberText, reads_lastMember_iff hkey (hskip _)]
  constructor
  · rintro ⟨rest, u, ⟨w, hlist, hw⟩, hu⟩
    exact ⟨w, u, rest, hlist, hw, hu⟩
  · rintro ⟨w, u, rest, hlist, hw, hu⟩
    exact ⟨rest, u, ⟨w, hlist, hw⟩, hu⟩

end Oaf
