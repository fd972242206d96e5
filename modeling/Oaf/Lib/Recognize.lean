/-
# Matchers that continue

A backtracking matcher is given what is to be done with the rest of the text, and tries that behind every word it
can take.  The words it takes are its language.

* `Recognizes`: a matcher takes the words of a language and no others.
* `Recognizes.mul`: one matcher after another.
* `recognizes_letter`, `recognizes_star`, `recognizes_plus`, `recognizes_optional`: a letter, and how often.

The last three are about any function that unfolds to the two cases of a loop, in either order.
-/
import Mathlib.Computability.Language

namespace Recognize

open Computability

variable {α : Type}

/-- A matcher, from what is done behind it and the text. -/
abbrev Matcher (α : Type) := (List α → Bool) → List α → Bool

/-- The matcher takes a word of the language, and what is behind it takes the rest. -/
def Recognizes (m : Matcher α) (l : Language α) : Prop :=
  ∀ rest text, m rest text = true ↔ ∃ u v, u ++ v = text ∧ u ∈ l ∧ rest v = true

/-- One letter of a kind. -/
def letter (p : α → Bool) : Language α := fun word => ∃ c, p c = true ∧ word = [c]

/-- **One after the other** takes the words of the product. -/
theorem Recognizes.mul {m m' : Matcher α} {l l' : Language α} (h : Recognizes m l) (h' : Recognizes m' l') :
    Recognizes (fun rest => m (m' rest)) (l * l') := by
  intro rest text
  rw [h (m' rest) text]
  constructor
  · rintro ⟨u, v, rfl, hu, hv⟩
    obtain ⟨u', v', rfl, hu', hrest⟩ := (h' rest v).mp hv
    exact ⟨u ++ u', v', List.append_assoc u u' v', Language.append_mem_mul hu hu', hrest⟩
  · rintro ⟨w, v, rfl, hw, hrest⟩
    obtain ⟨u, hu, u', hu', rfl⟩ := Language.mem_mul.mp hw
    exact ⟨u, u' ++ v, (List.append_assoc u u' v).symm, hu, (h' rest _).mpr ⟨u', v, rfl, hu', hrest⟩⟩

theorem Recognizes.congr {m m' : Matcher α} {l : Language α} (h : Recognizes m l)
    (heq : ∀ rest text, m' rest text = m rest text) : Recognizes m' l := by
  intro rest text
  rw [heq]
  exact h rest text

section Letters

variable {p : α → Bool}

theorem letter_cases {rest : List α → Bool} {text : List α} :
    (∃ u v, u ++ v = text ∧ u ∈ letter p ∧ rest v = true) ↔
      ∃ c v, text = c :: v ∧ p c = true ∧ rest v = true := by
  constructor
  · rintro ⟨u, v, rfl, ⟨c, hc, rfl⟩, h⟩
    exact ⟨c, v, rfl, hc, h⟩
  · rintro ⟨c, v, rfl, hc, h⟩
    exact ⟨[c], v, rfl, ⟨c, hc, rfl⟩, h⟩

/-- A function that looks at one letter and goes on behind it. -/
theorem recognizes_letter {m : Matcher α} (hnil : ∀ rest, m rest [] = false)
    (hcons : ∀ rest c text, m rest (c :: text) = (p c && rest text)) : Recognizes m (letter p) := by
  intro rest text
  rw [letter_cases]
  cases text with
  | nil => simp [hnil]
  | cons c text => simp [hcons]

/-- The words of a star, letter by letter. -/
theorem mem_kstar_letter_cons {c : α} {word : List α} :
    c :: word ∈ (letter p)∗ ↔ p c = true ∧ word ∈ (letter p)∗ := by
  rw [← Language.one_add_self_mul_kstar_eq_kstar, Language.mem_add, Language.mem_mul]
  constructor
  · rintro (h | ⟨u, ⟨d, hd, rfl⟩, v, hv, heq⟩)
    · exact absurd ((Language.mem_one _).mp h) (List.cons_ne_nil c word)
    · obtain ⟨rfl, rfl⟩ : d = c ∧ v = word := by simpa using heq
      exact ⟨hd, by rwa [Language.one_add_self_mul_kstar_eq_kstar]⟩
  · rintro ⟨hc, hword⟩
    rw [Language.one_add_self_mul_kstar_eq_kstar] at hword
    exact .inr ⟨[c], ⟨c, hc, rfl⟩, word, hword, rfl⟩

/-- **A loop that takes letters** and may stop before each of them. -/
theorem recognizes_star {m : Matcher α} (hnil : ∀ rest, m rest [] = rest [])
    (hcons : ∀ rest c text, m rest (c :: text) = (rest (c :: text) || (p c && m rest text))) :
    Recognizes m (letter p)∗ := by
  intro rest text
  induction text with
  | nil =>
    rw [hnil]
    constructor
    · intro h
      exact ⟨[], [], rfl, Language.nil_mem_kstar _, h⟩
    · rintro ⟨u, v, heq, -, h⟩
      obtain ⟨-, rfl⟩ := List.append_eq_nil_iff.mp heq
      exact h
  | cons c text ih =>
    rw [hcons, Bool.or_eq_true, Bool.and_eq_true, ih]
    constructor
    · rintro (h | ⟨hc, u, v, rfl, hu, h⟩)
      · exact ⟨[], c :: text, rfl, Language.nil_mem_kstar _, h⟩
      · exact ⟨c :: u, v, rfl, mem_kstar_letter_cons.mpr ⟨hc, hu⟩, h⟩
    · rintro ⟨u, v, heq, hu, h⟩
      cases u with
      | nil =>
        obtain rfl : v = c :: text := heq
        exact .inl h
      | cons d u =>
        obtain ⟨rfl, rfl⟩ : d = c ∧ u ++ v = text := by simpa using heq
        obtain ⟨hc, hu⟩ := mem_kstar_letter_cons.mp hu
        exact .inr ⟨hc, u, v, rfl, hu, h⟩

/-- The matcher of one letter. -/
def oneLetter (p : α → Bool) : Matcher α
  | _, [] => false
  | rest, c :: text => p c && rest text

/-- A loop that takes a letter first: as the star behind one letter. -/
theorem recognizes_plus {m star : Matcher α} (hstar : Recognizes star (letter p)∗)
    (hnil : ∀ rest, m rest [] = false)
    (hcons : ∀ rest c text, m rest (c :: text) = (p c && star rest text)) :
    Recognizes m (letter p * (letter p)∗) := by
  have hone : Recognizes (oneLetter p) (letter p) :=
    recognizes_letter (fun rest => rfl) fun rest c text => rfl
  refine (hone.mul hstar).congr fun rest text => ?_
  cases text with
  | nil => exact hnil rest
  | cons c text => exact hcons rest c text

/-- A letter or none. -/
theorem recognizes_optional {m : Matcher α} (hnil : ∀ rest, m rest [] = rest [])
    (hcons : ∀ rest c text, m rest (c :: text) = (rest (c :: text) || (p c && rest text))) :
    Recognizes m (1 + letter p) := by
  intro rest text
  cases text with
  | nil =>
    rw [hnil]
    constructor
    · intro h
      exact ⟨[], [], rfl, .inl rfl, h⟩
    · rintro ⟨u, v, heq, -, h⟩
      obtain ⟨-, rfl⟩ := List.append_eq_nil_iff.mp heq
      exact h
  | cons c text =>
    rw [hcons, Bool.or_eq_true, Bool.and_eq_true]
    constructor
    · rintro (h | ⟨hc, h⟩)
      · exact ⟨[], c :: text, rfl, .inl rfl, h⟩
      · exact ⟨[c], text, rfl, .inr ⟨c, hc, rfl⟩, h⟩
    · rintro ⟨u, v, heq, hu | ⟨d, hd, rfl⟩, h⟩
      · obtain rfl := (Language.mem_one u).mp hu
        obtain rfl : v = c :: text := heq
        exact .inl h
      · obtain ⟨rfl, rfl⟩ : d = c ∧ v = text := by simpa using heq
        exact .inr ⟨hd, h⟩

end Letters

end Recognize
