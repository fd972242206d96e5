/-
# Lists in order of use

A bounded list with its newest element in front, changed in place: an element found in it is
updated and moved to the front, a new one pushes the last one out of a full list.

* `latest`: of a history, newest first, the first record of every key.
* `touch_eq_latest`: the list is the beginning of `latest`, whatever the history was.
* `latest_id_reverse`: of bare keys, this is `dedup`.
* `set_shiftBack`, `touch_eq_eraseIdx`: the same list kept in an array whose elements are shifted.
-/
import Mathlib.Data.List.Dedup
import Mathlib.Data.List.Induction
import Mathlib.Data.List.Nodup
import Mathlib.Tactic.Common

namespace Recent

variable {α β κ : Type} [DecidableEq κ]

/-! ## 1. What the list stands for -/

/-- The records of a history, newest first, that no newer record has the key of. -/
def latest (key : β → κ) : List β → List β
  | [] => []
  | b :: bs => b :: (latest key bs).filter fun c => key c != key b

theorem latest_keys_nodup (key : β → κ) (bs : List β) : ((latest key bs).map key).Nodup := by
  induction bs with
  | nil => exact List.nodup_nil
  | cons b bs ih =>
    rw [latest, List.map_cons, List.nodup_cons]
    refine ⟨fun hmem => ?_, ih.sublist (List.filter_sublist.map _)⟩
    obtain ⟨c, hc, hkey⟩ := List.mem_map.mp hmem
    have hne := (List.mem_filter.mp hc).2
    rw [hkey, bne_self_eq_false] at hne
    cases hne

/-- The list after a use of the element `p` accepts: updated and moved to the front, or made and
put there, with the last one gone when the list was full. -/
def touch (p : α → Bool) (update : α → α) (new : α) (size : Nat) (l : List α) : List α :=
  match l.find? p with
  | some a => update a :: l.eraseP p
  | none => new :: if size ≤ l.length then l.dropLast else l

/-- Without the element of one key, a beginning that has it is one shorter. -/
theorem filter_take_of_mem (key : β → κ) {k : κ} {l : List β} (hd : (l.map key).Nodup)
    {n : Nat} (hmem : k ∈ (l.take n).map key) :
    (l.take n).filter (fun b => key b != k) = (l.filter fun b => key b != k).take (n - 1) := by
  induction l generalizing n with
  | nil => rw [List.take_nil] at hmem; exact absurd hmem List.not_mem_nil
  | cons a l ih =>
    rw [List.map_cons, List.nodup_cons] at hd
    cases n with
    | zero => exact absurd hmem List.not_mem_nil
    | succ n =>
      rw [List.take_succ_cons] at hmem ⊢
      by_cases ha : key a = k
      · have hrest : ∀ b ∈ l, (key b != k) = true := by
          intro b hb
          rw [bne_iff_ne]
          rintro rfl
          exact hd.1 (ha ▸ List.mem_map_of_mem hb)
        have hneg : ¬ (key a != k) = true := by simp [ha]
        rw [List.filter_cons_of_neg (p := fun b => key b != k) hneg,
          List.filter_cons_of_neg (p := fun b => key b != k) hneg,
          List.filter_eq_self.mpr fun b hb => hrest b (List.mem_of_mem_take hb),
          List.filter_eq_self.mpr hrest, Nat.add_sub_cancel]
      · have hpos : (key a != k) = true := bne_iff_ne.mpr ha
        have hin : k ∈ (l.take n).map key := by
          rw [List.map_cons] at hmem
          exact (List.mem_cons.mp hmem).resolve_left fun h => ha h.symm
        rw [List.filter_cons_of_pos (p := fun b => key b != k) hpos,
          List.filter_cons_of_pos (p := fun b => key b != k) hpos, ih hd.2 hin]
        cases n with
        | zero => exact absurd hin List.not_mem_nil
        | succ n => rfl

/-- A beginning without the key is the same without its element. -/
theorem take_filter_of_not_mem (key : β → κ) {k : κ} {l : List β} {n : Nat}
    (hmem : k ∉ (l.take n).map key) :
    (l.filter fun b => key b != k).take n = l.take n := by
  induction l generalizing n with
  | nil => rfl
  | cons a l ih =>
    cases n with
    | zero => rfl
    | succ n =>
      rw [List.take_succ_cons, List.map_cons, List.mem_cons, not_or] at hmem
      rw [List.filter_cons_of_pos (p := fun b => key b != k) (bne_iff_ne.mpr (Ne.symm hmem.1)),
        List.take_succ_cons, List.take_succ_cons, ih hmem.2]

/-- Among distinct keys, erasing an element is leaving its key out. -/
theorem map_eraseP {key : β → κ} {view : α → β} {p : α → Bool} {k : κ}
    (hp : ∀ a, p a = true ↔ key (view a) = k) {l : List α}
    (hd : ((l.map view).map key).Nodup) :
    (l.eraseP p).map view = (l.map view).filter fun c => key c != k := by
  induction l with
  | nil => rfl
  | cons a l ih =>
    rw [List.map_cons, List.map_cons, List.nodup_cons] at hd
    by_cases ha : p a = true
    · have hk := (hp a).mp ha
      have hneg : ¬ (key (view a) != k) = true := by rw [hk, bne_self_eq_false]; exact Bool.false_ne_true
      rw [List.eraseP_cons_of_pos ha, List.map_cons,
        List.filter_cons_of_neg (p := fun c => key c != k) hneg, List.filter_eq_self.mpr]
      intro c hc
      rw [bne_iff_ne]
      rintro rfl
      exact hd.1 (hk ▸ List.mem_map_of_mem hc)
    · have hpos : (key (view a) != k) = true := bne_iff_ne.mpr fun hk => ha ((hp a).mpr hk)
      rw [List.eraseP_cons_of_neg ha, List.map_cons, List.map_cons,
        List.filter_cons_of_pos (p := fun c => key c != k) hpos, ih hd.2]

/-- **One use keeps the list the beginning of `latest`.** -/
theorem touch_eq_latest {key : β → κ} {view : α → β} {p : α → Bool} {update : α → α} {new : α}
    {size : Nat} {b : β} {bs : List β} {l : List α} (hsize : 0 < size)
    (hp : ∀ a, p a = true ↔ key (view a) = key b) (hupdate : ∀ a, p a = true → view (update a) = b)
    (hnew : view new = b) (hl : l.map view = (latest key bs).take size) :
    (touch p update new size l).map view = (latest key (b :: bs)).take size := by
  obtain ⟨n, rfl⟩ : ∃ n, size = n + 1 := ⟨size - 1, (Nat.succ_pred_eq_of_pos hsize).symm⟩
  rw [latest, List.take_succ_cons, touch]
  have hd := latest_keys_nodup key bs
  cases hfind : l.find? p with
  | some a =>
    have hpa : p a = true := List.find?_some hfind
    have hin : key b ∈ ((latest key bs).take (n + 1)).map key := by
      rw [← hl, ← (hp a).mp hpa]
      exact List.mem_map_of_mem (List.mem_map_of_mem (List.mem_of_find?_eq_some hfind))
    have herase : (l.eraseP p).map view = (l.map view).filter fun c => key c != key b := by
      refine map_eraseP hp ?_
      rw [hl, List.map_take]
      exact hd.sublist (List.take_sublist _ _)
    rw [List.map_cons, hupdate a hpa, herase, hl, filter_take_of_mem key hd hin]
    rfl
  | none =>
    have hout : key b ∉ ((latest key bs).take (n + 1)).map key := by
      rw [← hl]
      intro hmem
      obtain ⟨c, hc, hkey⟩ := List.mem_map.mp hmem
      obtain ⟨a, ha, rfl⟩ := List.mem_map.mp hc
      exact List.find?_eq_none.mp hfind a ha ((hp a).mpr hkey)
    have hout' : key b ∉ ((latest key bs).take n).map key :=
      fun h => hout (List.map_subset key (List.take_subset_take_left _ (Nat.le_succ n)) h)
    have hrest : (if n + 1 ≤ l.length then l.dropLast else l).map view
        = (latest key bs).take n := by
      have hlen : l.length = min (n + 1) (latest key bs).length := by
        rw [← List.length_map view, hl, List.length_take]
      split
      · rename_i hfull
        rw [List.map_dropLast, hl, List.dropLast_eq_take, List.take_take, List.length_take]
        congr 1
        omega
      · rename_i hroom
        have hall : (latest key bs).length ≤ n := by omega
        rw [hl, List.take_of_length_le (Nat.le_succ_of_le hall), List.take_of_length_le hall]
    rw [List.map_cons, hnew, hrest, take_filter_of_not_mem key hout']

/-! ## 3. Bare keys -/

theorem dedup_snoc (l : List κ) (k : κ) :
    (l ++ [k]).dedup = (l.dedup.filter fun c => c != k) ++ [k] := by
  induction l with
  | nil => rfl
  | cons c l ih =>
    rw [List.cons_append]
    by_cases hc : c ∈ l
    · rw [List.dedup_cons_of_mem (List.mem_append_left _ hc), List.dedup_cons_of_mem hc, ih]
    · rw [List.dedup_cons_of_notMem hc]
      by_cases hk : c = k
      · subst hk
        have hneg : ¬ (c != c) = true := by rw [bne_self_eq_false]; exact Bool.false_ne_true
        rw [List.dedup_cons_of_mem (List.mem_append_right _ (List.mem_singleton_self c)), ih,
          List.filter_cons_of_neg (p := fun d => d != c) hneg]
      · have hout : c ∉ l ++ [k] := fun h => (List.mem_append.mp h).elim hc fun h =>
          hk (List.mem_singleton.mp h)
        rw [List.dedup_cons_of_notMem hout, ih,
          List.filter_cons_of_pos (p := fun d => d != k) (bne_iff_ne.mpr hk), List.cons_append]

/-- Of bare keys, the records are the keys without repetitions, the last use of each counting. -/
theorem latest_id_reverse (ks : List κ) : latest id ks.reverse = ks.dedup.reverse := by
  induction ks using List.reverseRecOn with
  | nil => rfl
  | append_singleton ks k ih =>
    rw [List.reverse_append, List.reverse_singleton, List.singleton_append, latest, ih, dedup_snoc,
      List.reverse_append, List.reverse_singleton, List.singleton_append, ← List.filter_reverse]
    rfl

/-! ## 4. In an array -/

/-- `for (; j > 0; j--) a[j] = a[j - 1]`. -/
def shiftBack (a : List α) : Nat → List α
  | 0 => a
  | j + 1 => shiftBack ((a[j]?).elim a (a.set (j + 1))) j

@[simp] theorem length_shiftBack (a : List α) (j : Nat) : (shiftBack a j).length = a.length := by
  induction j generalizing a with
  | zero => rfl
  | succ j ih =>
    rw [shiftBack, ih]
    cases a[j]? with
    | none => rfl
    | some x => exact List.length_set ..

/-- What was in front of the place `j` is one further back, and the front is free. -/
theorem set_shiftBack {a : List α} {j : Nat} (h : j < a.length) (x : α) :
    (shiftBack a j).set 0 x = x :: (a.take j ++ a.drop (j + 1)) := by
  induction j generalizing a with
  | zero =>
    obtain ⟨b, l, rfl⟩ := List.exists_cons_of_length_pos h
    rfl
  | succ j ih =>
    have hj : j < a.length := Nat.lt_of_succ_lt h
    have hshift : (a[j]?).elim a (a.set (j + 1)) = a.set (j + 1) a[j] := by
      rw [List.getElem?_eq_getElem hj]
      rfl
    have hdrop : (a.set (j + 1) a[j]).drop (j + 1) = a[j] :: a.drop (j + 2) := by
      rw [List.drop_eq_getElem_cons (by simpa using h), List.getElem_set_self, List.drop_set_of_lt (by omega)]
    rw [shiftBack, hshift, ih (by simpa using hj), List.take_set_of_le (Nat.le_succ j), hdrop,
      List.take_succ_eq_append_getElem hj, List.append_assoc, List.singleton_append]

/-- A use of the element at the place `i`, the first one that `p` accepts. -/
theorem touch_eq_eraseIdx {p : α → Bool} {update : α → α} {new : α} {size i : Nat} {l : List α}
    (h : l.findIdx? p = some i) :
    ∃ a ∈ l, p a = true ∧ touch p update new size l = update a :: l.eraseIdx i := by
  obtain ⟨hi, hp, hfirst⟩ := List.findIdx?_eq_some_iff_getElem.mp h
  have hfind : l.find? p = some l[i] := List.find?_eq_some_iff_getElem.mpr
    ⟨hp, i, hi, rfl, fun j hj => by simpa using hfirst j hj⟩
  refine ⟨l[i], List.getElem_mem hi, hp, ?_⟩
  rw [touch, hfind, List.eraseP_eq_eraseIdx, h]

end Recent
