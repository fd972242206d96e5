/-
# Lists of records by their key

A list in which a record is found by its key: the first one counts.  `lookup` is what such a list
means; each operation has one lemma that says what is found after it.

* `lookup_cons`, `lookup_updateFirst`, `lookup_eraseP`.
* `lookup_eq_some_iff`: with pairwise different keys, to be found is to be in the list.
* `lookup_foldl_put`: of records that are put one after the other, the last one counts.
* `upsert_map`: a change of a record in the image of a list.
-/
import Mathlib.Data.List.Induction
import Oaf.Lib.Chains

namespace Chains

variable {α κ : Type} [DecidableEq κ] (key : α → κ)

/-- The first record of a key. -/
def lookup (k : κ) (as : List α) : Option α := as.find? fun a => key a == k

variable {key} {k : κ} {a : α} {as : List α} {f : α → α}

theorem key_of_lookup (h : lookup key k as = some a) : key a = k := by
  rw [lookup] at h
  simpa using List.find?_some h

theorem mem_of_lookup (h : lookup key k as = some a) : a ∈ as := List.mem_of_find?_eq_some h

theorem lookup_eq_none_iff : lookup key k as = none ↔ k ∉ as.map key := by
  rw [lookup, List.find?_eq_none, List.mem_map]
  constructor
  · rintro h ⟨b, hb, hkey⟩
    exact h b hb (beq_iff_eq.mpr hkey)
  · intro h b hb hkey
    exact h ⟨b, hb, beq_iff_eq.mp hkey⟩

theorem lookup_cons (b : α) (as : List α) :
    lookup key k (b :: as) = if key b = k then some b else lookup key k as := by
  by_cases h : key b = k
  · rw [if_pos h, lookup, List.find?_cons_of_pos (p := fun a => key a == k) (by simpa using h)]
  · rw [if_neg h, lookup, List.find?_cons_of_neg (p := fun a => key a == k) (by simpa using h),
      lookup]

theorem lookup_updateFirst (k' : κ) (hf : ∀ b, key b = k → key (f b) = k) (as : List α) :
    lookup key k' (updateFirst (fun b => key b == k) f as) =
      if k' = k then (lookup key k as).map f else lookup key k' as := by
  induction as with
  | nil => split <;> rfl
  | cons b as ih =>
    rw [updateFirst]
    by_cases hb : key b = k
    · rw [if_pos (beq_iff_eq.mpr hb), lookup_cons, lookup_cons, lookup_cons, hf b hb, if_pos hb]
      by_cases hk : k' = k
      · rw [if_pos hk.symm, if_pos hk]
        rfl
      · rw [if_neg (Ne.symm hk), if_neg hk, if_neg (fun h => hk (h.symm.trans hb))]
    · rw [if_neg (by simpa using hb), lookup_cons, lookup_cons, lookup_cons, if_neg hb, ih]
      by_cases hk : k' = k
      · rw [if_neg (fun h => hb (h.trans hk)), if_pos hk, if_pos hk]
      · rw [if_neg hk, if_neg hk]

theorem nodup_updateFirst (hf : ∀ b, key b = k → key (f b) = k) (h : (as.map key).Nodup) :
    ((updateFirst (fun b => key b == k) f as).map key).Nodup := by
  rw [map_updateFirst key _ as]
  · exact h
  · intro b hb
    have hkey : key b = k := beq_iff_eq.mp hb
    rw [hf b hkey, hkey]

theorem nodup_cons (h : (as.map key).Nodup) (hnone : lookup key (key a) as = none) :
    ((a :: as).map key).Nodup := by
  rw [List.map_cons, List.nodup_cons]
  exact ⟨lookup_eq_none_iff.mp hnone, h⟩

omit [DecidableEq κ] in
theorem nodup_eraseP (h : (as.map key).Nodup) (p : α → Bool) : ((as.eraseP p).map key).Nodup :=
  h.sublist (List.eraseP_sublist.map key)

theorem lookup_eraseP (k' : κ) (h : (as.map key).Nodup) :
    lookup key k' (as.eraseP fun b => key b == k) =
      if k' = k then none else lookup key k' as := by
  induction as with
  | nil => split <;> rfl
  | cons b as ih =>
    rw [List.map_cons, List.nodup_cons] at h
    by_cases hb : key b = k
    · rw [List.eraseP_cons_of_pos (by simpa using hb), lookup_cons]
      by_cases hk : k' = k
      · rw [if_pos hk, hk, ← hb]
        exact lookup_eq_none_iff.mpr h.1
      · rw [if_neg hk, if_neg (fun h => hk (h.symm.trans hb))]
    · rw [List.eraseP_cons_of_neg (by simpa using hb), lookup_cons, lookup_cons, ih h.2]
      by_cases hk : k' = k
      · rw [if_neg (fun h => hb (h.trans hk)), if_pos hk, if_pos hk]
      · rw [if_neg hk, if_neg hk]

theorem lookup_eq_some_iff (h : (as.map key).Nodup) :
    lookup key k as = some a ↔ a ∈ as ∧ key a = k := by
  constructor
  · exact fun hl => ⟨mem_of_lookup hl, key_of_lookup hl⟩
  · rintro ⟨hmem, hkey⟩
    cases hl : lookup key k as with
    | none => exact absurd (hkey ▸ List.mem_map_of_mem hmem) (lookup_eq_none_iff.mp hl)
    | some b =>
      have hb : key b = key a := (key_of_lookup hl).trans hkey.symm
      rw [List.inj_on_of_nodup_map h (mem_of_lookup hl) hmem hb]

/-- Among distinct keys, the order does not matter. -/
theorem lookup_perm {bs : List α} (hperm : as.Perm bs) (h : (as.map key).Nodup) :
    lookup key k as = lookup key k bs := by
  refine Option.ext fun b => ?_
  rw [lookup_eq_some_iff h, lookup_eq_some_iff ((hperm.map key).nodup_iff.mp h), hperm.mem_iff]

/-- Among distinct keys, what is kept of a list is looked up in the list. -/
theorem lookup_filter (k : κ) (h : (as.map key).Nodup) (p : α → Bool) :
    lookup key k (as.filter p) = (lookup key k as).filter p := by
  induction as with
  | nil => rfl
  | cons b as ih =>
    rw [List.map_cons, List.nodup_cons] at h
    rw [lookup_cons, List.filter_cons]
    by_cases hkey : key b = k
    · have hnone : lookup key k (as.filter p) = none := by
        rw [ih h.2, lookup_eq_none_iff.mpr (hkey ▸ h.1)]
        rfl
      rw [if_pos hkey]
      cases hp : p b with
      | true => rw [if_pos rfl, lookup_cons, if_pos hkey, Option.filter_some_pos hp]
      | false => rw [if_neg (by simp), hnone, Option.filter_some_neg (by simp [hp])]
    · rw [if_neg hkey, ← ih h.2]
      split
      · rw [lookup_cons, if_neg hkey]
      · rfl

/-- A change of the elements that leaves their keys changes what is looked up. -/
theorem lookup_map (k : κ) (hf : ∀ b, key (f b) = key b) (as : List α) :
    lookup key k (as.map f) = (lookup key k as).map f := by
  induction as with
  | nil => rfl
  | cons b as ih =>
    rw [List.map_cons, lookup_cons, lookup_cons, hf, ih]
    split <;> rfl

/-- The record of a key is changed; if there is none, a new one is, and put in front. -/
def upsert (key : α → κ) (k : κ) (new : α) (f : α → α) (as : List α) : List α :=
  if (lookup key k as).isSome then updateFirst (fun a => key a == k) f as else f new :: as

theorem lookup_upsert {new : α} (hf : ∀ b, key (f b) = key b) (hnew : key new = k) (k' : κ)
    (as : List α) : lookup key k' (upsert key k new f as) =
      if k' = k then some (f ((lookup key k as).getD new)) else lookup key k' as := by
  rw [upsert]
  cases hl : lookup key k as with
  | some a =>
    rw [if_pos Option.isSome_some, lookup_updateFirst k' (fun b hb => (hf b).trans hb), hl]
    rfl
  | none =>
    rw [if_neg (by simp), lookup_cons, hf, hnew]
    by_cases hk : k' = k
    · rw [if_pos hk.symm, if_pos hk]
      rfl
    · rw [if_neg (Ne.symm hk), if_neg hk]

theorem nodup_upsert {new : α} (hf : ∀ b, key (f b) = key b) (hnew : key new = k)
    (h : (as.map key).Nodup) : ((upsert key k new f as).map key).Nodup := by
  rw [upsert]
  split
  · exact nodup_updateFirst (fun b hb => (hf b).trans hb) h
  · rename_i hnone
    refine nodup_cons h ?_
    rw [hf, hnew]
    simpa using hnone

/-- What holds of every record, and of a new one, holds after the change. -/
theorem forall_upsert {P : α → Prop} {new : α} (has : ∀ a ∈ as, P a) (hnew : P (f new))
    (hf : ∀ a ∈ as, P (f a)) : ∀ a ∈ upsert key k new f as, P a := by
  intro a hmem
  rw [upsert] at hmem
  split at hmem
  · rcases of_mem_updateFirst hmem with hold | ⟨old, hold, -, rfl⟩
    · exact has a hold
    · exact hf old hold
  · rcases List.mem_cons.mp hmem with rfl | hold
    · exact hnew
    · exact has a hold

/-- Among distinct keys, what the records of one key give is what its record gives. -/
theorem filter_flatMap {β : Type} (g : α → List β) (keyOf : β → κ) (k : κ)
    (hg : ∀ a, ∀ b ∈ g a, keyOf b = key a) (h : (as.map key).Nodup) :
    (as.flatMap g).filter (fun b => keyOf b = k) = ((lookup key k as).map g).getD [] := by
  induction as with
  | nil => rfl
  | cons a as ih =>
    rw [List.map_cons, List.nodup_cons] at h
    rw [List.flatMap_cons, List.filter_append, ih h.2, lookup_cons]
    by_cases ha : key a = k
    · have hnone : lookup key k as = none := lookup_eq_none_iff.mpr (ha ▸ h.1)
      have hall : (g a).filter (fun b => keyOf b = k) = g a :=
        List.filter_eq_self.mpr fun b hb => by simp [hg a b hb, ha]
      rw [hall, hnone, if_pos ha]
      exact List.append_nil _
    · have hempty : (g a).filter (fun b => keyOf b = k) = [] :=
        List.filter_eq_nil_iff.mpr fun b hb => by simp [hg a b hb, ha]
      rw [hempty, if_neg ha, List.nil_append]

/-- Among distinct keys, a fold does to the measure of one key what the turn of its record does. -/
theorem measure_foldl {δ μ : Type} (measure : δ → μ) {step : δ → α → δ} {own : α → μ → μ}
    (hown : ∀ d a, key a = k → measure (step d a) = own a (measure d))
    (hother : ∀ d a, key a ≠ k → measure (step d a) = measure d) (h : (as.map key).Nodup) (d : δ) :
    measure (as.foldl step d) = (lookup key k as).elim (measure d) fun a => own a (measure d) := by
  induction as generalizing d with
  | nil => rfl
  | cons a as ih =>
    rw [List.map_cons, List.nodup_cons] at h
    rw [List.foldl_cons, ih h.2, lookup_cons]
    by_cases ha : key a = k
    · rw [lookup_eq_none_iff.mpr (ha ▸ h.1), if_pos ha]
      exact hown d a ha
    · rw [if_neg ha, hother d a ha]

/-- The record of a key is replaced; if there is none, the new one is put in front. -/
def put (key : α → κ) (a : α) (as : List α) : List α := upsert key (key a) a (fun _ => a) as

theorem lookup_put (k : κ) (a : α) (as : List α) :
    lookup key k (put key a as) = if k = key a then some a else lookup key k as := by
  rw [put, upsert]
  cases hl : lookup key (key a) as with
  | some b =>
    rw [if_pos Option.isSome_some, lookup_updateFirst k fun _ _ => rfl, hl]
    rfl
  | none =>
    rw [if_neg (by simp), lookup_cons]
    exact ite_congr (propext eq_comm) (fun _ => rfl) fun _ => rfl

theorem nodup_put (a : α) (h : (as.map key).Nodup) : ((put key a as).map key).Nodup := by
  rw [put, upsert]
  split
  · exact nodup_updateFirst (fun _ _ => rfl) h
  · rename_i hnone
    exact nodup_cons h (by simpa using hnone)

theorem put_of_lookup_none (h : lookup key (key a) as = none) : put key a as = a :: as := by
  rw [put, upsert, h]
  rfl

/-- Of records that are put one after the other, the last one of its key is found. -/
theorem lookup_foldl_put (k : κ) (as : List α) :
    lookup key k (as.foldl (fun l a => put key a l) []) = lookup key k as.reverse := by
  induction as using List.reverseRecOn with
  | nil => rfl
  | append_singleton as a ih =>
    rw [List.foldl_concat, lookup_put, List.reverse_concat, lookup_cons, ih]
    exact ite_congr (propext eq_comm) (fun _ => rfl) fun _ => rfl

theorem nodup_foldl_put (as : List α) : ((as.foldl (fun l a => put key a l) []).map key).Nodup :=
  List.foldlRecOn (motive := fun l : List α => (l.map key).Nodup) as _ List.nodup_nil fun _ h a _ => nodup_put a h

theorem map_updateFirst_image {β : Type} {g : α → β} {p : α → Bool} {q : β → Bool} {fB : β → β}
    (hp : ∀ a ∈ as, q (g a) = p a) (hf : ∀ a ∈ as, p a = true → fB (g a) = g (f a)) :
    updateFirst q fB (as.map g) = (updateFirst p f as).map g := by
  induction as with
  | nil => rfl
  | cons a as ih =>
    rw [List.map_cons, updateFirst, updateFirst, hp a List.mem_cons_self]
    by_cases ha : p a = true
    · rw [if_pos ha, if_pos ha, List.map_cons, hf a List.mem_cons_self ha]
    · rw [if_neg ha, if_neg ha, List.map_cons, ih (fun b hb => hp b (List.mem_cons_of_mem a hb))
        fun b hb => hf b (List.mem_cons_of_mem a hb)]

/-- A change of a record in the image of a list, where the image keeps the keys apart. -/
theorem upsert_map {β μ : Type} [DecidableEq μ] {keyB : β → μ} {kB : μ} {g : α → β} {new : α} {newB : β}
    {fB : β → β} (hkey : ∀ a ∈ as, keyB (g a) = kB ↔ key a = k)
    (hf : ∀ a ∈ as, key a = k → fB (g a) = g (f a)) (hnew : fB newB = g (f new)) :
    upsert keyB kB newB fB (as.map g) = (upsert key k new f as).map g := by
  have hbeq : ∀ a ∈ as, (keyB (g a) == kB) = (key a == k) := fun a ha => by
    rw [Bool.eq_iff_iff, beq_iff_eq, beq_iff_eq]
    exact hkey a ha
  have hfind : (lookup keyB kB (as.map g)).isSome = (lookup key k as).isSome := by
    rw [lookup, lookup, List.isSome_find?, List.isSome_find?, List.any_map, Bool.eq_iff_iff, List.any_eq_true,
      List.any_eq_true]
    exact exists_congr fun a => and_congr_right fun ha => by rw [Function.comp, hbeq a ha]
  rw [upsert, upsert, hfind]
  split
  · exact map_updateFirst_image hbeq fun a ha h => hf a ha (beq_iff_eq.mp h)
  · rw [List.map_cons, hnew]

end Chains
