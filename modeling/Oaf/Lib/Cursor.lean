/-
# Walking a hash table with a cursor

The loops of the kernel that go through a table of chains one element at a time keep a bucket and
a node.  `Cursor.pending` is what a cursor still has in front of it, the element it is at first:
each step takes one off.

* `pending_firstChain`, `pending_advance`: what is left after a step.
* `node_eq_nil_iff`: a cursor without a node is at the end.
-/
import Mathlib.Data.List.FinRange
import Oaf.Lib.Chains

namespace Chains

variable {n : Nat} {α : Type}

/-- The bucket, and the chain from the node on; no chain for `NULL`. -/
structure Cursor (α : Type) where
  bucket : Nat
  node : List α

/-- The elements of the buckets from `b` on. -/
def Table.from (t : Table n α) (b : Nat) : List α := ((List.finRange n).drop b).flatMap t

/-- The loop `for (; b < n; b++) if (!empty(t[b])) ..`. -/
def firstChain (t : Table n α) (b : Nat) : Cursor α :=
  match ((List.finRange n).drop b).find? fun i => !(t i).isEmpty with
  | some i => ⟨i, t i⟩
  | none => ⟨n, []⟩

/-- The node behind, or the first of the next bucket that has one. -/
def Cursor.advance (t : Table n α) (c : Cursor α) : Cursor α :=
  match c.node with
  | [] => firstChain t c.bucket
  | [_] => firstChain t (c.bucket + 1)
  | _ :: next => { c with node := next }

/-- What is left, from the element that the cursor is at. -/
def Cursor.pending (t : Table n α) (c : Cursor α) : List α := c.node ++ t.from (c.bucket + 1)

theorem from_of_le {t : Table n α} {b : Nat} (h : n ≤ b) : t.from b = [] := by
  rw [Table.from, List.drop_eq_nil_of_le (by simpa using h)]
  rfl

theorem from_zero (t : Table n α) : t.from 0 = (List.finRange n).flatMap t := rfl

theorem from_of_lt {t : Table n α} {b : Nat} (h : b < n) :
    t.from b = t ⟨b, h⟩ ++ t.from (b + 1) := by
  have hdrop : (List.finRange n).drop b = ⟨b, h⟩ :: (List.finRange n).drop (b + 1) := by
    rw [List.drop_eq_getElem_cons (by simpa using h), List.getElem_finRange]
    rfl
  rw [Table.from, hdrop, List.flatMap_cons]
  rfl

/-- The loop stops at the first element left. -/
theorem pending_firstChain (t : Table n α) (b : Nat) : (firstChain t b).pending t = t.from b := by
  rcases Nat.lt_or_ge b n with h | h
  · have hdrop : (List.finRange n).drop b = ⟨b, h⟩ :: (List.finRange n).drop (b + 1) := by
      rw [List.drop_eq_getElem_cons (by simpa using h), List.getElem_finRange]
      rfl
    by_cases hnil : t ⟨b, h⟩ = []
    · have hskip : firstChain t b = firstChain t (b + 1) := by
        rw [firstChain, hdrop, List.find?_cons_of_neg (by simp [hnil])]
        rfl
      rw [hskip, pending_firstChain t (b + 1), from_of_lt h, hnil, List.nil_append]
    · have hstop : firstChain t b = ⟨b, t ⟨b, h⟩⟩ := by
        rw [firstChain, hdrop, List.find?_cons_of_pos (by simp [hnil])]
      rw [hstop, from_of_lt h]
      rfl
  · have hnone : firstChain t b = ⟨n, []⟩ := by
      rw [firstChain, List.drop_eq_nil_of_le (by simpa using h)]
      rfl
    rw [hnone, from_of_le h, Cursor.pending, List.nil_append, from_of_le (Nat.le_succ n)]
termination_by n - b

theorem firstChain_node_eq_nil_iff (t : Table n α) (b : Nat) :
    (firstChain t b).node = [] ↔ t.from b = [] := by
  rw [← pending_firstChain, Cursor.pending]
  constructor
  · intro h
    rw [firstChain] at h ⊢
    split at h
    · rename_i i hi
      have hne := List.find?_some hi
      simp only at h
      simp [h] at hne
    · rw [List.nil_append]
      exact from_of_le (Nat.le_succ n)
  · exact fun h => (List.append_eq_nil_iff.mp h).1

variable {t : Table n α} {c : Cursor α} {a : α} {next : List α}

/-- **A step takes one element off.** -/
theorem pending_advance (h : c.node = a :: next) :
    (c.advance t).pending t = next ++ t.from (c.bucket + 1) := by
  rw [Cursor.advance, h]
  cases next with
  | nil => exact pending_firstChain t (c.bucket + 1)
  | cons b next => rfl

theorem advance_node_eq_nil_iff (h : c.node = a :: next) :
    (c.advance t).node = [] ↔ next ++ t.from (c.bucket + 1) = [] := by
  rw [Cursor.advance, h]
  cases next with
  | nil => exact firstChain_node_eq_nil_iff t (c.bucket + 1)
  | cons b next => simp

end Chains
