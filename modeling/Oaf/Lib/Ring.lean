/-
# Ring buffers

An array of `n` places with the place of the oldest element and the number of elements.  A new element goes
behind the last one; in a full buffer it takes the place of the oldest one, and the next one is the oldest.

* `toList_append`: an append, on the elements in the order they came.
* `toList_foldl_append`: **the buffer holds the last `n` elements** of what was appended.
* `toList_drop`: and reading it from an offset on gives the rest of them.
-/
import Mathlib.Data.List.DropRight
import Mathlib.Logic.Function.Basic
import Mathlib.Tactic.Common

/-- `n` places, of which `count` are in use, from `start` on and around the end. -/
structure RingBuffer (α : Type) (n : Nat) where
  points : Fin n → α
  start : Fin n
  count : Nat
  count_le : count ≤ n

namespace RingBuffer

variable {α : Type} {n : Nat}

/-- An empty buffer. -/
def empty (h : 0 < n) (a : α) : RingBuffer α n := ⟨fun _ => a, ⟨0, h⟩, 0, Nat.zero_le n⟩

/-- The place of the element `i`, counted from the oldest one. -/
def place (r : RingBuffer α n) (i : Nat) : Fin n := ⟨(r.start + i) % n, Nat.mod_lt _ r.start.pos⟩

def append (r : RingBuffer α n) (a : α) : RingBuffer α n :=
  if h : r.count < n then
    { r with points := Function.update r.points (r.place r.count) a, count := r.count + 1, count_le := h }
  else { r with points := Function.update r.points r.start a, start := r.place 1 }

/-- The elements, the oldest one first. -/
def toList (r : RingBuffer α n) : List α := (List.range r.count).map fun i => r.points (r.place i)

variable {r : RingBuffer α n}

@[simp] theorem length_toList : r.toList.length = r.count := by
  rw [toList, List.length_map, List.length_range]

@[simp] theorem toList_empty (h : 0 < n) (a : α) : (empty h a).toList = [] := rfl

/-- Two of the `n` places behind one another are different. -/
theorem place_ne {i j : Nat} (hij : i < j) (hj : j < i + n) : r.place i ≠ r.place j := by
  intro h
  have hmod : (r.start + j) % n = (r.start + i) % n := congrArg Fin.val h.symm
  have hzero := Nat.sub_mod_eq_zero_of_mod_eq hmod
  rw [Nat.add_sub_add_left, Nat.mod_eq_of_lt (by omega)] at hzero
  omega

theorem place_zero : r.place 0 = r.start := Fin.ext (Nat.mod_eq_of_lt r.start.isLt)

/-- Around the end, the place behind the last one is the first. -/
theorem place_self : r.place n = r.start := by
  refine Fin.ext ?_
  show (r.start + n) % n = r.start
  rw [Nat.add_mod_right, Nat.mod_eq_of_lt r.start.isLt]

/-- A buffer that is not full gets one more element. -/
theorem toList_append_of_lt (h : r.count < n) (a : α) : (r.append a).toList = r.toList ++ [a] := by
  have happend : r.append a = { r with
      points := Function.update r.points (r.place r.count) a, count := r.count + 1, count_le := h } := dif_pos h
  rw [happend, toList, toList, List.range_succ, List.map_append]
  congr 1
  · refine List.map_congr_left fun i hi => Function.update_of_ne (place_ne ?_ ?_) ..
    · exact List.mem_range.mp hi
    · have := List.mem_range.mp hi
      omega
  · exact congrArg (fun b => [b]) (Function.update_self ..)

/-- A full buffer loses its oldest element. -/
theorem toList_append_of_full (h : r.count = n) (a : α) : (r.append a).toList = r.toList.tail ++ [a] := by
  have happend : r.append a = { r with
      points := Function.update r.points r.start a, start := r.place 1 } := dif_neg (by omega)
  obtain ⟨m, hm⟩ : ∃ m, r.count = m + 1 := ⟨r.count - 1, by have := r.start.pos; omega⟩
  have hplace (i : Nat) : RingBuffer.place { r with
      points := Function.update r.points r.start a, start := r.place 1 } i = r.place (i + 1) := by
    refine Fin.ext ?_
    show ((r.start + 1) % n + i) % n = (r.start + (i + 1)) % n
    rw [Nat.mod_add_mod, Nat.add_assoc, Nat.add_comm 1 i]
  have hnew : (r.append a).toList = (List.range (m + 1)).map
      fun i => Function.update r.points r.start a (r.place (i + 1)) := by
    rw [happend, toList, ← hm]
    exact List.map_congr_left fun i _ => congrArg _ (hplace i)
  have hold : r.toList.tail = (List.range m).map fun i => r.points (r.place (i + 1)) := by
    rw [toList, hm, List.range_succ_eq_map, List.map_cons, List.tail_cons, List.map_map]
    rfl
  have hlast : r.place (m + 1) = r.start := by rw [← hm, h, place_self]
  rw [hnew, hold, List.range_succ, List.map_append, List.map_singleton, hlast, Function.update_self]
  congr 1
  refine List.map_congr_left fun i hi => Function.update_of_ne ?_ ..
  have hi' := List.mem_range.mp hi
  rw [← @place_zero _ _ r]
  exact (place_ne (Nat.succ_pos i) (by omega)).symm

/-- **An append**, of the elements in their order. -/
theorem toList_append (a : α) : (r.append a).toList = (r.toList ++ [a]).rtake n := by
  rcases Nat.lt_or_ge r.count n with h | h
  · rw [toList_append_of_lt h, List.rtake, Nat.sub_eq_zero_of_le (by simp; omega), List.drop_zero]
  · have hfull : r.count = n := Nat.le_antisymm r.count_le h
    have hlen : (r.toList ++ [a]).length - n = 1 := by simp; omega
    rw [toList_append_of_full hfull, List.rtake, hlen, List.drop_append_of_le_length (by
      rw [length_toList, hfull]
      exact r.start.pos), List.drop_one]

/-- The last elements of a list that ends with another one's last elements. -/
theorem rtake_append_rtake (l l' : List α) : (l.rtake n ++ l').rtake n = (l ++ l').rtake n := by
  have hlen : (l.drop (l.length - n)).length = min l.length n := by
    rw [List.length_drop]
    omega
  unfold List.rtake
  rw [List.length_append, List.length_append, hlen]
  rcases Nat.le_total l.length n with h | h
  · rw [Nat.sub_eq_zero_of_le h, List.drop_zero, Nat.min_eq_left h]
  · rw [List.drop_append, hlen, List.drop_append, List.drop_drop]
    congr 2 <;> omega

/-- **The last `n` elements** of what was appended are in the buffer. -/
theorem toList_foldl_append {l : List α} (h : r.toList = l.rtake n) (as : List α) :
    (as.foldl append r).toList = (l ++ as).rtake n := by
  induction as generalizing r l with
  | nil => rw [List.foldl_nil, List.append_nil, h]
  | cons a as ih =>
    have hstep : (r.append a).toList = (l ++ [a]).rtake n := by
      rw [toList_append, h, rtake_append_rtake]
    rw [List.foldl_cons, ih hstep, List.append_assoc, List.singleton_append]

/-- Reading from an offset on. -/
theorem toList_drop (k : Nat) :
    (List.range' k (r.count - k)).map (fun i => r.points (r.place i)) = r.toList.drop k := by
  rw [toList, ← List.map_drop, List.range_eq_range', List.drop_range']
  congr 2
  omega

/-- The last of the last ones. -/
theorem rtake_rtake (l : List α) (m : Nat) : (l.rtake n).rtake m = l.rtake (min m n) := by
  unfold List.rtake
  rw [List.drop_drop, List.length_drop]
  congr 1
  omega

end RingBuffer
