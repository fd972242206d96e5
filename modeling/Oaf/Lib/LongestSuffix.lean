/-
# The longest suffix of a word inside a prefix-closed set

The theory behind a keyword automaton.  Fix a set `T` of words that holds the empty word
and, with a word, all its prefixes: the words spelled by the nodes of a trie.  Reading a
text letter by letter, such an automaton keeps ONE number, the node of the longest suffix
of what it has read that is still in `T`.

* `longest_concat`: that suffix is enough to go on.  The longest suffix of `w c` is the
  longest suffix of `u c`, where `u` is the longest suffix of `w`.
* `longest_step`: and it is found by the fail chain, that is by asking for `u c`, then for
  `u' c` with `u'` the longest PROPER suffix of `u` in `T`, and so on down to the empty word.
* `suffix_longest_iff`: nothing is lost.  A word of `T` is a suffix of the text read so far
  iff it is a suffix of `u`, and those are exactly the words on the fail chain of `u`.

Nothing here mentions nodes, edges or memory.
-/
import Mathlib.Data.List.Infix

namespace LongestSuffix

variable {α : Type*}

/-- The words of a trie: the empty word is one, and so is every prefix of one. -/
structure PrefixClosed (T : List α → Prop) : Prop where
  nil : T []
  init : ∀ {w : List α} {c : α}, T (w ++ [c]) → T w

theorem PrefixClosed.append {T : List α → Prop} (hT : PrefixClosed T) {u : List α} :
    ∀ v : List α, T (u ++ v) → T u := by
  intro v
  induction v using List.reverseRecOn with
  | nil => exact fun h => by simpa using h
  | append_singleton v c ih => exact fun h => ih (hT.init (by simpa using h))

/-- The longest suffix of a word that lies in `T` (and `[]` when there is none). -/
def longest (T : List α → Prop) [DecidablePred T] : List α → List α
  | [] => []
  | c :: w => if T (c :: w) then c :: w else longest T w

/-- The longest PROPER suffix in `T`: what a node's fail link spells. -/
def failOf (T : List α → Prop) [DecidablePred T] (w : List α) : List α :=
  longest T w.tail

/-! ## 1. `longest` is what its name says -/

section Basic

variable {T : List α → Prop} [DecidablePred T]

@[simp] theorem longest_nil : longest T [] = [] := rfl

theorem longest_suffix : ∀ w : List α, longest T w <:+ w
  | [] => List.suffix_rfl
  | c :: w => by
    unfold longest
    split
    · exact List.suffix_rfl
    · exact (longest_suffix w).trans (List.suffix_cons c w)

theorem longest_mem (h0 : T []) : ∀ w : List α, T (longest T w)
  | [] => h0
  | c :: w => by
    unfold longest
    split
    · assumption
    · exact longest_mem h0 w

theorem longest_eq_self {w : List α} (h : T w) : longest T w = w := by
  cases w with
  | nil => rfl
  | cons c w => simp [longest, h]

/-- Every suffix in `T` is a suffix of the longest one. -/
theorem suffix_longest {s : List α} (hs : T s) : ∀ w : List α, s <:+ w → s <:+ longest T w
  | [], h => h
  | c :: w, h => by
    unfold longest
    split
    · exact h
    · rename_i hnot
      rcases List.suffix_cons_iff.mp h with rfl | h'
      · exact absurd hs hnot
      · exact suffix_longest hs w h'

/-- A suffix in `T` that every other one is a suffix of is the longest. -/
theorem longest_unique {u w : List α} (h0 : T []) (hu : T u) (huw : u <:+ w)
    (hmax : ∀ s, T s → s <:+ w → s.length ≤ u.length) : longest T w = u := by
  have h1 : u <:+ longest T w := suffix_longest hu w huw
  have h2 : (longest T w).length ≤ u.length := hmax _ (longest_mem h0 w) (longest_suffix w)
  exact (h1.eq_of_length (Nat.le_antisymm h1.length_le h2)).symm

theorem longest_length_le (w : List α) : (longest T w).length ≤ w.length :=
  (longest_suffix w).length_le

/-- The fail word is shorter, so a fail chain ends. -/
theorem failOf_length_lt {w : List α} (h : w ≠ []) : (failOf T w).length < w.length := by
  have h1 : (failOf T w).length ≤ w.tail.length := longest_length_le _
  have h2 : w.tail.length + 1 = w.length := by
    cases w with
    | nil => exact absurd rfl h
    | cons c t => simp
  omega

theorem failOf_suffix (w : List α) : failOf T w <:+ w :=
  (longest_suffix _).trans (List.tail_suffix w)

/-- The words of `T` that end `u` are `u` itself and those that end its fail word. -/
theorem suffix_iff_failOf {s u : List α} (hs : T s) :
    s <:+ u ↔ s = u ∨ s <:+ failOf T u := by
  constructor
  · intro h
    cases u with
    | nil => exact Or.inl (List.suffix_nil.mp h)
    | cons c t =>
      rcases List.suffix_cons_iff.mp h with rfl | h'
      · exact Or.inl rfl
      · exact Or.inr (suffix_longest hs t h')
  · rintro (rfl | h)
    · exact List.suffix_rfl
    · exact h.trans (failOf_suffix u)

end Basic

/-! ## 2. Reading one more letter -/

section Step

variable {T : List α → Prop} [DecidablePred T]

/-- Taking a common last letter off a suffix relation. -/
theorem suffix_concat_iff {s w : List α} {c d : α} :
    s ++ [c] <:+ w ++ [d] ↔ s <:+ w ∧ c = d := by
  constructor
  · rintro ⟨t, ht⟩
    rw [← List.append_assoc] at ht
    obtain ⟨h1, h2⟩ := List.append_inj' ht rfl
    exact ⟨⟨t, h1⟩, by simpa using h2⟩
  · rintro ⟨⟨t, rfl⟩, rfl⟩
    exact ⟨t, by simp⟩

/-- A suffix of `w c` is empty or ends in `c` after a suffix of `w`. -/
theorem suffix_concat_cases {s w : List α} {c : α} (h : s <:+ w ++ [c]) :
    s = [] ∨ ∃ s', s = s' ++ [c] ∧ s' <:+ w := by
  rcases List.eq_nil_or_concat s with rfl | ⟨s', d, rfl⟩
  · exact Or.inl rfl
  · rw [List.concat_eq_append] at h ⊢
    obtain ⟨h1, rfl⟩ := suffix_concat_iff.mp h
    exact Or.inr ⟨s', rfl, h1⟩

/-- **The state is enough.**  What the longest suffix of `w` does not end, a longer match
of `w c` cannot need. -/
theorem longest_concat (hT : PrefixClosed T) (w : List α) (c : α) :
    longest T (w ++ [c]) = longest T (longest T w ++ [c]) := by
  refine longest_unique hT.nil (longest_mem hT.nil _) ?_ ?_
  · have h1 : longest T w ++ [c] <:+ w ++ [c] :=
      suffix_concat_iff.mpr ⟨longest_suffix w, rfl⟩
    exact (longest_suffix _).trans h1
  · intro s hs hsw
    rcases suffix_concat_cases hsw with rfl | ⟨s', rfl, hs'⟩
    · simp
    · have h1 : s' <:+ longest T w := suffix_longest (hT.init hs) w hs'
      exact (suffix_longest hs _ (suffix_concat_iff.mpr ⟨h1, rfl⟩)).length_le

/-- One turn of the fail chain: when `u c` is not in `T`, the search goes on from the fail
word of `u`, and stops at the empty word. -/
theorem longest_step_fail (hT : PrefixClosed T) {u : List α} {c : α}
    (hno : ¬ T (u ++ [c])) (hu : u ≠ []) :
    longest T (u ++ [c]) = longest T (failOf T u ++ [c]) := by
  cases u with
  | nil => exact absurd rfl hu
  | cons d t =>
    rw [List.cons_append] at hno
    have h1 : longest T (d :: t ++ [c]) = longest T (t ++ [c]) := by
      rw [List.cons_append, longest, if_neg hno]
    rw [h1, longest_concat hT t c]
    rfl

/-- At the empty word the search ends. -/
theorem longest_step_nil {c : α} (hno : ¬ T [c]) : longest T ([] ++ [c]) = [] := by
  simp [longest, hno]

/-- The fail word of `u c` is found the same way, starting one link down the chain. -/
theorem failOf_concat (hT : PrefixClosed T) {u : List α} {c : α} (hu : u ≠ []) :
    failOf T (u ++ [c]) = longest T (failOf T u ++ [c]) := by
  cases u with
  | nil => exact absurd rfl hu
  | cons d t => exact longest_concat hT t c

/-- The children of the empty word fail to the empty word. -/
theorem failOf_singleton (c : α) : failOf T [c] = [] := rfl

/-- **Nothing is lost.**  A word of `T` ends the text iff it ends the state. -/
theorem suffix_longest_iff {s w : List α} (hs : T s) : s <:+ longest T w ↔ s <:+ w :=
  ⟨fun h => h.trans (longest_suffix w), suffix_longest hs w⟩

end Step

end LongestSuffix
