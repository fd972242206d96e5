/-
# Hash chains

A hash table as the kernel builds them: an array of chains, a new element at the head of the
chain of its hash.

* `Placed`: every element is in the chain of its hash.
* `Distinct`: no two elements of a chain have the same key; with `Placed`, no two of the table.
* `updateFirst`: an element found in its chain is changed in place.
-/
import Mathlib.Data.List.Nodup
import Mathlib.Tactic.Common

namespace Chains

variable {n : Nat} {α κ : Type}

/-- A chain for every hash value. -/
abbrev Table (n : Nat) (α : Type) := Fin n → List α

/-- One chain is changed. -/
def Table.modify (t : Table n α) (i : Fin n) (f : List α → List α) : Table n α :=
  fun j => if j = i then f (t j) else t j

@[simp] theorem modify_self (t : Table n α) (i : Fin n) (f : List α → List α) :
    t.modify i f i = f (t i) := if_pos rfl

theorem modify_of_ne (t : Table n α) {i j : Fin n} (h : j ≠ i) (f : List α → List α) :
    t.modify i f j = t j := if_neg h

/-- Some chain holds the element. -/
def Table.Holds (t : Table n α) (a : α) : Prop := ∃ i, a ∈ t i

theorem holds_of_modify {t : Table n α} {i : Fin n} {f : List α → List α} {a : α}
    (h : (t.modify i f).Holds a) : a ∈ f (t i) ∨ ∃ j, j ≠ i ∧ a ∈ t j := by
  obtain ⟨j, hmem⟩ := h
  by_cases hj : j = i
  · subst hj
    rw [modify_self] at hmem
    exact .inl hmem
  · rw [modify_of_ne t hj] at hmem
    exact .inr ⟨j, hj, hmem⟩

/-- Every element is in the chain of its hash. -/
def Placed (hash : α → Fin n) (t : Table n α) : Prop := ∀ i, ∀ a ∈ t i, hash a = i

/-- The keys of a chain are pairwise different. -/
def Distinct (key : α → κ) (t : Table n α) : Prop := ∀ i, ((t i).map key).Nodup

variable {hash : α → Fin n} {key : α → κ} {t : Table n α}

theorem Placed.holds_iff (h : Placed hash t) (a : α) : t.Holds a ↔ a ∈ t (hash a) := by
  constructor
  · rintro ⟨i, hmem⟩
    rwa [h i a hmem]
  · exact fun hmem => ⟨_, hmem⟩

theorem Placed.modify (h : Placed hash t) {i : Fin n} {f : List α → List α}
    (hf : ∀ a ∈ f (t i), hash a = i) : Placed hash (t.modify i f) := by
  intro j a ha
  by_cases hj : j = i
  · subst hj
    rw [modify_self] at ha
    exact hf a ha
  · rw [modify_of_ne t hj] at ha
    exact h j a ha

theorem Distinct.modify (h : Distinct key t) {i : Fin n} {f : List α → List α}
    (hf : ((f (t i)).map key).Nodup) : Distinct key (t.modify i f) := by
  intro j
  by_cases hj : j = i
  · subst hj
    rw [modify_self]
    exact hf
  · rw [modify_of_ne t hj]
    exact h j

/-! ## Changes in place -/

/-- The first element that `p` accepts is changed. -/
def updateFirst (p : α → Bool) (f : α → α) : List α → List α
  | [] => []
  | a :: as => if p a then f a :: as else a :: updateFirst p f as

theorem map_updateFirst {β : Type} (g : α → β) {p : α → Bool} {f : α → α}
    (h : ∀ a, p a = true → g (f a) = g a) (as : List α) :
    (updateFirst p f as).map g = as.map g := by
  induction as with
  | nil => rfl
  | cons a as ih =>
    rw [updateFirst]
    split
    · rename_i hp
      rw [List.map_cons, List.map_cons, h a hp]
    · rw [List.map_cons, List.map_cons, ih]

/-- All is as it was but for the element that is found. -/
theorem forall₂_updateFirst {p : α → Bool} {f : α → α} {as : List α} {found : α}
    (h : as.find? p = some found) :
    List.Forall₂ (fun a b => b = a ∨ a = found ∧ b = f a) as (updateFirst p f as) := by
  have hsame : ∀ as : List α, List.Forall₂ (fun a b => b = a ∨ a = found ∧ b = f a) as as := by
    intro as
    induction as with
    | nil => exact .nil
    | cons a as ih => exact .cons (.inl rfl) ih
  induction as with
  | nil => cases h
  | cons a as ih =>
    rw [updateFirst]
    split
    · rename_i hp
      rw [List.find?_cons_of_pos hp] at h
      exact .cons (.inr ⟨Option.some.inj h, rfl⟩) (hsame as)
    · rename_i hp
      rw [List.find?_cons_of_neg hp] at h
      exact .cons (.inl rfl) (ih h)

theorem length_updateFirst (p : α → Bool) (f : α → α) (as : List α) :
    (updateFirst p f as).length = as.length := by
  induction as with
  | nil => rfl
  | cons a as ih =>
    rw [updateFirst]
    split
    · rfl
    · rw [List.length_cons, List.length_cons, ih]

theorem of_mem_updateFirst {p : α → Bool} {f : α → α} {as : List α} {b : α}
    (h : b ∈ updateFirst p f as) : b ∈ as ∨ ∃ a ∈ as, p a = true ∧ b = f a := by
  induction as with
  | nil => exact absurd h List.not_mem_nil
  | cons a as ih =>
    rw [updateFirst] at h
    split at h
    · rename_i hp
      rcases List.mem_cons.mp h with rfl | hmem
      · exact .inr ⟨a, List.mem_cons_self, hp, rfl⟩
      · exact .inl (List.mem_cons_of_mem a hmem)
    · rcases List.mem_cons.mp h with rfl | hmem
      · exact .inl List.mem_cons_self
      · exact (ih hmem).imp (List.mem_cons_of_mem a) fun ⟨c, hc, hrest⟩ =>
          ⟨c, List.mem_cons_of_mem a hc, hrest⟩

/-- Among distinct keys, an element of the changed chain either has another key and is as it was,
or is the changed one. -/
theorem mem_updateFirst [BEq κ] [LawfulBEq κ] {k : κ} {f : α → α} {as : List α} {b : α}
    (hd : (as.map key).Nodup) (h : b ∈ updateFirst (fun a => key a == k) f as) :
    (b ∈ as ∧ key b ≠ k) ∨ ∃ a ∈ as, key a = k ∧ b = f a := by
  induction as with
  | nil => exact absurd h List.not_mem_nil
  | cons a as ih =>
    rw [List.map_cons, List.nodup_cons] at hd
    rw [updateFirst] at h
    split at h
    · rename_i hp
      have hkey : key a = k := beq_iff_eq.mp hp
      rcases List.mem_cons.mp h with rfl | hmem
      · exact .inr ⟨a, List.mem_cons_self, hkey, rfl⟩
      · refine .inl ⟨List.mem_cons_of_mem a hmem, fun hb => hd.1 ?_⟩
        rw [hkey, ← hb]
        exact List.mem_map_of_mem hmem
    · rename_i hp
      rcases List.mem_cons.mp h with rfl | hmem
      · exact .inl ⟨List.mem_cons_self, fun hb => hp (beq_iff_eq.mpr hb)⟩
      · rcases ih hd.2 hmem with ⟨hin, hne⟩ | ⟨c, hc, hrest⟩
        · exact .inl ⟨List.mem_cons_of_mem a hin, hne⟩
        · exact .inr ⟨c, List.mem_cons_of_mem a hc, hrest⟩

end Chains
