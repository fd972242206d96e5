/-
# Words between delimiters

`strtok_r` with one delimiter and Lua's `gmatch("[^d]+")` cut a text the same way: into its longest
pieces without the delimiter, the empty ones left out.

A table that the words fill one entry at a time holds, for each key, what the last word with that key
wrote (`foldl_update`).
-/
import Oaf.Lib.CText
import Mathlib.Data.List.Basic

namespace CLib

/-! ## 1. Words -/

/-- The words of a text. -/
def words (d : UInt8) (text : List UInt8) : List (List UInt8) :=
  (text.splitOn d).filter (· ≠ [])

theorem words_nil (d : UInt8) : words d [] = [] := by simp [words]

/-- The bytes of a joined text are its delimiters and those of its pieces. -/
theorem mem_intercalate {c d : UInt8} : ∀ {l : List (List UInt8)}, c ∈ [d].intercalate l →
    c = d ∨ ∃ t ∈ l, c ∈ t
  | [], h => by simp at h
  | [t], h => Or.inr ⟨t, by simpa using h⟩
  | t :: t' :: l, h => by
    simp only [List.intercalate_cons_cons, List.mem_append, List.mem_singleton] at h
    rcases h with (h | h) | h
    · exact Or.inr ⟨t, by simp, h⟩
    · exact Or.inl h
    · rcases mem_intercalate h with h | ⟨x, hx, h⟩
      · exact Or.inl h
      · exact Or.inr ⟨x, List.mem_cons_of_mem _ hx, h⟩

/-- The pieces of a joined text are in it. -/
theorem mem_intercalate_of_mem {d c : UInt8} : ∀ {l : List (List UInt8)} {t : List UInt8}, t ∈ l →
    c ∈ t → c ∈ [d].intercalate l
  | [x], t, ht, hc => by
    rw [List.mem_singleton.mp ht] at hc
    simpa using hc
  | x :: y :: l, t, ht, hc => by
    simp only [List.intercalate_cons_cons, List.mem_append, List.mem_singleton]
    rcases List.mem_cons.mp ht with rfl | ht
    · exact Or.inl (Or.inl hc)
    · exact Or.inr (mem_intercalate_of_mem ht hc)

/-- A word is not empty and its bytes are the text's. -/
theorem mem_words {d : UInt8} {text w : List UInt8} (h : w ∈ words d text) :
    w ≠ [] ∧ ∀ c ∈ w, c ∈ text := by
  obtain ⟨hmem, hne⟩ := List.mem_filter.mp h
  refine ⟨by simpa using hne, ?_⟩
  intro c hc
  have hjoin : [d].intercalate (text.splitOn d) = text := List.intercalate_splitOn d
  rw [← hjoin]
  exact mem_intercalate_of_mem hmem hc

/-- Where the delimiter is not, nothing is split off. -/
theorem not_mem_of_mem_splitOn {d : UInt8} : ∀ {text w : List UInt8}, w ∈ text.splitOn d → d ∉ w
  | [], w, h => by
    rw [List.splitOn_nil, List.mem_singleton] at h
    rw [h]
    exact List.not_mem_nil
  | c :: text, w, h => by
    rw [List.splitOn_cons_eq_if_modifyHead] at h
    split at h
    · rcases List.mem_cons.mp h with rfl | h
      · exact List.not_mem_nil
      · exact not_mem_of_mem_splitOn h
    · rename_i hc
      cases hsplit : text.splitOn d with
      | nil => exact absurd hsplit (List.splitOn_ne_nil d text)
      | cons v vs =>
        have hmem : ∀ u ∈ v :: vs, d ∉ u := fun u hu => not_mem_of_mem_splitOn (hsplit ▸ hu)
        rw [hsplit, List.modifyHead_cons] at h
        rcases List.mem_cons.mp h with rfl | h
        · have hcd : ¬ d = c := fun h0 => hc (by simp [h0])
          simp [hcd, hmem v (List.mem_cons_self ..)]
        · exact hmem w (List.mem_cons_of_mem _ h)

theorem not_mem_of_mem_words {d : UInt8} {text w : List UInt8} (h : w ∈ words d text) : d ∉ w :=
  not_mem_of_mem_splitOn (List.mem_filter.mp h).1

/-- Two lists of pieces, joined. -/
theorem intercalate_append {d : UInt8} {vs : List (List UInt8)} (hvs : vs ≠ []) :
    ∀ {us : List (List UInt8)}, us ≠ [] →
    [d].intercalate (us ++ vs) = [d].intercalate us ++ d :: [d].intercalate vs
  | [u], _ => by
    rw [List.singleton_append, List.intercalate_cons_of_ne_nil hvs, List.intercalate_singleton,
      List.append_assoc, List.singleton_append]
  | u :: u' :: us, _ => by
    rw [List.cons_append, List.intercalate_cons_of_ne_nil (by simp),
      intercalate_append hvs (List.cons_ne_nil u' us), List.intercalate_cons_cons]
    simp only [List.append_assoc]

theorem intercalate_cons_eq {d : UInt8} (u : List UInt8) (us : List (List UInt8)) :
    [d].intercalate (u :: us) = u ++ us.flatMap (d :: ·) := by
  induction us generalizing u with
  | nil => simp
  | cons u' us ih =>
    rw [List.intercalate_cons_cons, ih u', List.flatMap_cons, List.append_assoc,
      List.singleton_append, List.cons_append]

/-- Words that are put together come apart again. -/
theorem words_intercalate {d : UInt8} {ws : List (List UInt8)} (h : ∀ w ∈ ws, d ∉ w)
    (hne : ∀ w ∈ ws, w ≠ []) : words d ([d].intercalate ws) = ws := by
  rcases eq_or_ne ws [] with rfl | hws
  · exact words_nil d
  · rw [words, List.splitOn_intercalate d h hws]
    exact List.filter_eq_self.mpr (fun w hw => by simpa using hne w hw)

/-! ## 2. Tables filled word by word -/

variable {α β κ : Type} [DecidableEq κ]

/-- What the last element of `l` with key `k` has to say, as `entry` reads it. -/
def lastEntry (entry : α → Option (κ × β)) (k : κ) (l : List α) : Option β :=
  l.reverse.findSome? (fun a => (entry a).bind (fun e => if e.1 = k then some e.2 else none))

/-- One element: it writes its entry, if it has one. -/
def putEntry (entry : α → Option (κ × β)) (table : κ → β) (a : α) : κ → β :=
  match entry a with
  | none => table
  | some (k, v) => Function.update table k v

/-- **The last write counts.** -/
theorem foldl_putEntry (entry : α → Option (κ × β)) (l : List α) (table : κ → β) (k : κ) :
    l.foldl (putEntry entry) table k = (lastEntry entry k l).getD (table k) := by
  induction l using List.reverseRecOn with
  | nil => rfl
  | append_singleton l a ih =>
    rw [List.foldl_append, List.foldl_cons, List.foldl_nil, lastEntry, List.reverse_append,
      List.reverse_singleton, List.singleton_append, List.findSome?_cons, putEntry]
    cases he : entry a with
    | none => exact ih
    | some e =>
      obtain ⟨k', v⟩ := e
      by_cases hk : k' = k
      · subst hk
        simp
      · simpa [hk, Function.update_of_ne (Ne.symm hk), lastEntry] using ih

theorem findSome?_congr {f g : α → Option β} : ∀ {l : List α}, (∀ a ∈ l, f a = g a) →
    l.findSome? f = l.findSome? g
  | [], _ => rfl
  | a :: l, h => by
    rw [List.findSome?_cons, List.findSome?_cons, h a (List.mem_cons_self ..),
      findSome?_congr (fun b hb => h b (List.mem_cons_of_mem _ hb))]

/-- A key that one element has, and no other with another value. -/
theorem lastEntry_of_mem {entry : α → Option (κ × β)} {k : κ} {v : β} {l : List α} {a : α}
    (ha : a ∈ l) (hv : entry a = some (k, v))
    (huniq : ∀ b ∈ l, ∀ w, entry b = some (k, w) → w = v) : lastEntry entry k l = some v := by
  unfold lastEntry
  cases hfind : l.reverse.findSome?
      (fun a => (entry a).bind (fun e => if e.1 = k then some e.2 else none)) with
  | none =>
    have := List.findSome?_eq_none_iff.mp hfind a (List.mem_reverse.mpr ha)
    simp [hv] at this
  | some w =>
    obtain ⟨b, hb, hbind⟩ := List.exists_of_findSome?_eq_some hfind
    obtain ⟨e, he, hek⟩ := Option.bind_eq_some_iff.mp hbind
    split at hek
    · rename_i hk
      obtain rfl := Option.some.inj hek
      rw [huniq b (List.mem_reverse.mp hb) e.2 (by rw [he, ← hk])]
    · cases hek

/-- A key that no element has. -/
theorem lastEntry_eq_none {entry : α → Option (κ × β)} {k : κ} {l : List α}
    (h : ∀ a ∈ l, ∀ w, entry a ≠ some (k, w)) : lastEntry entry k l = none := by
  refine List.findSome?_eq_none_iff.mpr (fun a ha => ?_)
  rw [Option.bind_eq_none_iff]
  rintro ⟨k', w⟩ he
  refine if_neg (fun hk => h a (List.mem_reverse.mp ha) w ?_)
  rw [he, ← hk]

/-- Two ways to fill a table, whose elements say the same about one key up to `g`. -/
theorem lastEntry_map {κ' β' : Type} [DecidableEq κ'] {entry : α → Option (κ × β)}
    {entry' : α → Option (κ' × β')} {k : κ} {k' : κ'} (g : β' → β) {l : List α}
    (h : ∀ a ∈ l, (entry a).bind (fun e => if e.1 = k then some e.2 else none) =
      ((entry' a).bind (fun e => if e.1 = k' then some e.2 else none)).map g) :
    lastEntry entry k l = (lastEntry entry' k' l).map g := by
  unfold lastEntry
  rw [List.map_findSome?]
  exact findSome?_congr (fun a ha => h a (List.mem_reverse.mp ha))

/-! ## 3. Two readers of one list -/

/-- Two readers take the same elements and make related entries of them exactly if they are related on
every element. -/
theorem forall₂_filterMap_iff {γ : Type} {R : β → γ → Prop} {f : α → Option β} {g : α → Option γ}
    {l : List α} :
    (List.Forall₂ R (l.filterMap f) (l.filterMap g) ∧ ∀ a ∈ l, f a = none ↔ g a = none) ↔
      ∀ a ∈ l, Option.Rel R (f a) (g a) := by
  induction l with
  | nil => simp
  | cons a l ih =>
    rw [List.forall_mem_cons, List.forall_mem_cons, ← ih, List.filterMap_cons, List.filterMap_cons]
    cases f a with
    | none =>
      cases g a with
      | none => simp
      | some y =>
        constructor
        · rintro ⟨-, h, -⟩
          exact absurd (h.mp rfl) (by simp)
        · rintro ⟨⟨⟩, -⟩
    | some x =>
      cases g a with
      | none =>
        constructor
        · rintro ⟨-, h, -⟩
          exact absurd (h.mpr rfl) (by simp)
        · rintro ⟨⟨⟩, -⟩
      | some y =>
        simp only [List.forall₂_cons, Option.rel_some_some, reduceCtorEq, iff_self, true_and]
        exact and_assoc

end CLib
