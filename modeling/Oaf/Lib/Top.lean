/-
# The largest of a count

A count of keys in a table of a few slots, and a choice of the keys with the largest totals.

* `isTop_take`: the front of a sorted list of all keys is one.
* `IsTop.mem_of_room`: a choice with room left has all keys.
* `sumOf_flatMap`, `sumOf_filter_add`, `sumOf_pos_iff`: the amounts of one key.
-/
import Mathlib.Algebra.GroupWithZero.Nat
import Mathlib.Data.Finset.Card
import Mathlib.Data.Finset.Dedup

namespace CLib

variable {κ : Type}

/-! ## 1. The choice -/

/-- `top` is a choice of at most `size` of the keys of which something was `seen`, by their totals:
in that order, and nothing is left out that is larger, or that there is room for. -/
structure IsTop (size : Nat) (seen : κ → Prop) (total : κ → Nat) (top : List κ) : Prop where
  nodup : top.Nodup
  length_le : top.length ≤ size
  of_mem : ∀ k ∈ top, seen k
  sorted : top.Pairwise fun a b => total b ≤ total a
  left_out : ∀ k, seen k → k ∉ top → top.length = size ∧ ∀ t ∈ top, total k ≤ total t

variable {size : Nat} {seen : κ → Prop} {total : κ → Nat}

theorem isTop_take {sorted : List κ} (hnodup : sorted.Nodup) (hseen : ∀ k, seen k ↔ k ∈ sorted)
    (hsorted : sorted.Pairwise fun a b => total b ≤ total a) :
    IsTop size seen total (sorted.take size) where
  nodup := (List.take_sublist size sorted).nodup hnodup
  length_le := List.length_take_le size sorted
  of_mem k hk := (hseen k).mpr (List.mem_of_mem_take hk)
  sorted := hsorted.sublist (List.take_sublist size sorted)
  left_out := by
    intro k hk hout
    have hmem := (hseen k).mp hk
    rw [← List.take_append_drop size sorted] at hmem hsorted
    have hdrop := (List.mem_append.mp hmem).resolve_left hout
    have hlong := List.length_pos_of_mem hdrop
    rw [List.length_drop] at hlong
    refine ⟨List.length_take_of_le (by omega), ?_⟩
    intro t ht
    exact (List.pairwise_append.mp hsorted).2.2 t ht k hdrop

/-- While there is room nothing is left out. -/
theorem IsTop.mem_of_room {top : List κ} (h : IsTop size seen total top) (hroom : top.length < size)
    {k : κ} (hk : seen k) : k ∈ top := by
  by_contra hout
  exact absurd (h.left_out k hk hout).1 (Nat.ne_of_lt hroom)

/-! ## 2. The totals -/

variable [DecidableEq κ]

/-- The amounts of one key. -/
def sumOf (k : κ) (l : List (κ × Nat)) : Nat := ((l.filter fun a => a.1 = k).map Prod.snd).sum

@[simp] theorem sumOf_nil (k : κ) : sumOf k [] = 0 := rfl

theorem sumOf_append (k : κ) (l l' : List (κ × Nat)) : sumOf k (l ++ l') = sumOf k l + sumOf k l' := by
  rw [sumOf, List.filter_append, List.map_append, List.sum_append]
  rfl

theorem sumOf_singleton (k : κ) (a : κ × Nat) : sumOf k [a] = if a.1 = k then a.2 else 0 := by
  by_cases h : a.1 = k <;> simp [sumOf, h]

theorem sumOf_cons (k : κ) (a : κ × Nat) (l : List (κ × Nat)) :
    sumOf k (a :: l) = (if a.1 = k then a.2 else 0) + sumOf k l := by
  rw [← List.singleton_append, sumOf_append, sumOf_singleton]

/-- The amounts of one key, in two steps. -/
theorem sumOf_flatMap {α : Type} (keyOf : α → κ) (amounts : α → List Nat) (k : κ) (as : List α) :
    sumOf k (as.flatMap fun a => (amounts a).map fun d => (keyOf a, d)) =
      ((as.filter fun a => keyOf a = k).map fun a => (amounts a).sum).sum := by
  induction as with
  | nil => rfl
  | cons a as ih =>
    rw [List.flatMap_cons, sumOf_append, ih]
    by_cases h : keyOf a = k
    · have hall : sumOf k ((amounts a).map fun d => (keyOf a, d)) = (amounts a).sum := by
        simp [sumOf, h, List.filter_map, Function.comp_def]
      rw [hall, List.filter_cons_of_pos (by simpa using h), List.map_cons, List.sum_cons]
    · have hnone : sumOf k ((amounts a).map fun d => (keyOf a, d)) = 0 := by
        simp [sumOf, h, List.filter_map, Function.comp_def]
      rw [hnone, Nat.zero_add, List.filter_cons_of_neg (by simpa using h)]

/-- The amounts of one key, by a property of what they are of. -/
theorem sumOf_filter_add {α : Type} (f : α → κ × Nat) (p : α → Bool) (k : κ) (as : List α) :
    sumOf k (as.map f) =
      sumOf k ((as.filter p).map f) + sumOf k ((as.filter fun a => !p a).map f) := by
  induction as with
  | nil => rfl
  | cons a as ih =>
    rw [List.map_cons, sumOf_cons, ih]
    by_cases h : p a = true
    · rw [List.filter_cons_of_pos h, List.filter_cons_of_neg (by simp [h]), List.map_cons, sumOf_cons,
        Nat.add_assoc]
    · rw [List.filter_cons_of_neg h, List.filter_cons_of_pos (by simp [h]), List.map_cons, sumOf_cons,
        Nat.add_left_comm]

/-- Of positive amounts, a key has some iff it occurs. -/
theorem sumOf_pos_iff {k : κ} {l : List (κ × Nat)} (hpos : ∀ a ∈ l, 0 < a.2) :
    0 < sumOf k l ↔ k ∈ l.map Prod.fst := by
  induction l with
  | nil => simp
  | cons a l ih =>
    have ih := ih fun b hb => hpos b (List.mem_cons_of_mem a hb)
    have ha := hpos a List.mem_cons_self
    rw [sumOf_cons, List.map_cons, List.mem_cons, ← ih]
    by_cases h : a.1 = k
    · simp only [h, if_true, true_or, iff_true]
      omega
    · simp [h, Ne.symm h]

end CLib
