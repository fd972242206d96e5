/-
# Sequence files

How the kernel reads a file of records through its iterator.  A call starts at the position that
was saved, shows records, going to the next after each, until the buffer is full or there are no
more, and stops.  The reading ends with the call that finds nothing to start with.

An iterator's `start` is given a pointer to the saved position.  `Rewinding` is an iterator that
finds its record and then leaves 0 there, `Counting` one that leaves the position.

* `fill_shown`: what one call shows.
* `readAll_eq_some_iff`: a rewinding iterator shows all records, and the reading ends, iff they
  all fit in the first call; a second one starts over and over again.
* `Counting.readAll_eq_some_iff`: an iterator that keeps the position always does.
-/
import Mathlib.Tactic.Common
import Mathlib.Data.List.TakeDrop

namespace SeqFile

/-- The operations of an iterator, with its own state.  A position is handed in and out. -/
structure SeqOps (σ ν ρ : Type) where
  start : σ → Nat → Option ν × σ × Nat
  next : σ → ν → Nat → Option ν × σ × Nat
  shown : σ → ν → ρ

variable {σ ν ρ : Type}

/-! ## 1. Reading -/

/-- The rest of a call at a record: it is shown, and `room` more if there are so many. -/
def fill (ops : SeqOps σ ν ρ) : Nat → σ → ν → Nat → List ρ × σ × Nat
  | 0, st, v, index => ([ops.shown st v], (ops.next st v index).2)
  | room + 1, st, v, index =>
    match ops.next st v index with
    | (none, st', index') => ([ops.shown st v], st', index')
    | (some v', st', index') =>
      let (records, rest) := fill ops room st' v' index'
      (ops.shown st v :: records, rest)

/-- A call, in which `room` records fit besides the first. -/
def call (ops : SeqOps σ ν ρ) (room : Nat) (st : σ) (index : Nat) : List ρ × σ × Nat :=
  match ops.start st index with
  | (none, st', index') => ([], st', index')
  | (some v, st', index') => fill ops room st' v index'

/-- The records of all calls, from the `i`-th on; `none` when so many do not come to the end. -/
def readAll (ops : SeqOps σ ν ρ) (room : Nat → Nat) : Nat → Nat → σ → Nat → Option (List ρ)
  | 0, _, _, _ => none
  | calls + 1, i, st, index =>
    let (records, st', index') := call ops (room i) st index
    if records.isEmpty then some []
    else (readAll ops room calls (i + 1) st' index').map (records ++ ·)

/-- The iterator goes through `records` in order, `At st v i` when it is at the `i`-th. -/
structure Walks (ops : SeqOps σ ν ρ) (records : List ρ) (At : σ → ν → Nat → Prop) : Prop where
  next_of_lt : ∀ st v i pos, At st v i → i + 1 < records.length →
    ∃ v' st', ops.next st v pos = (some v', st', pos + 1) ∧ At st' v' (i + 1)
  next_of_le : ∀ st v i pos, At st v i → records.length ≤ i + 1 →
    ∃ st', ops.next st v pos = (none, st', pos + 1)
  shown : ∀ st v i, At st v i → records[i]? = some (ops.shown st v)

variable {ops : SeqOps σ ν ρ} {records : List ρ} {At : σ → ν → Nat → Prop}

/-- **What a call shows**, and how far it moves the position. -/
theorem Walks.fill_shown (h : Walks ops records At) (room : Nat) {st : σ} {v : ν}
    {i : Nat} (hat : At st v i) (pos : Nat) :
    ∃ st', fill ops room st v pos =
      ((records.drop i).take (room + 1), st', pos + min (room + 1) (records.length - i)) := by
  have hi := List.getElem?_eq_some_iff.mp (h.shown st v i hat)
  obtain ⟨hlt, hget⟩ := hi
  have hdrop : records.drop i = ops.shown st v :: records.drop (i + 1) := by
    rw [List.drop_eq_getElem_cons hlt, hget]
  induction room generalizing st v i pos with
  | zero =>
    have hnext : (ops.next st v pos).2.2 = pos + 1 := by
      rcases Nat.lt_or_ge (i + 1) records.length with hmore | hend
      · obtain ⟨v', st', hnext, -⟩ := h.next_of_lt st v i pos hat hmore
        rw [hnext]
      · obtain ⟨st', hnext⟩ := h.next_of_le st v i pos hat hend
        rw [hnext]
    refine ⟨(ops.next st v pos).2.1, ?_⟩
    have hmin : min (0 + 1) (records.length - i) = 1 := by omega
    rw [fill, hdrop, hmin, ← hnext]
    rfl
  | succ room ih =>
    rcases Nat.lt_or_ge (i + 1) records.length with hmore | hend
    · obtain ⟨v', st', hnext, hat'⟩ := h.next_of_lt st v i pos hat hmore
      have hget' := List.getElem?_eq_some_iff.mp (h.shown st' v' (i + 1) hat')
      obtain ⟨hlt', hget'⟩ := hget'
      obtain ⟨st'', hfill⟩ := ih hat' (pos + 1) hlt' hget' (by
        rw [List.drop_eq_getElem_cons hlt', hget'])
      have hmin : pos + 1 + min (room + 1) (records.length - (i + 1)) =
          pos + min (room + 1 + 1) (records.length - i) := by omega
      refine ⟨st'', ?_⟩
      simp only [fill, hnext, hfill, hdrop, List.take_succ_cons, hmin]
    · obtain ⟨st', hnext⟩ := h.next_of_le st v i pos hat hend
      have hmin : min (room + 1 + 1) (records.length - i) = 1 := by omega
      have hnil : records.drop (i + 1) = [] := List.drop_eq_nil_of_le hend
      refine ⟨st', ?_⟩
      simp only [fill, hnext, hdrop, hnil, hmin, List.take_succ_cons, List.take_nil]

/-! ## 2. Iterators that rewind -/

/-- The iterator goes through `records` in order, `At st v i` when it is at the `i`-th.  `start`
finds the record of a position, and sets the position to 0. -/
structure Rewinding (ops : SeqOps σ ν ρ) (records : List ρ) (At : σ → ν → Nat → Prop) : Prop where
  start_of_lt : ∀ st p, p < records.length →
    ∃ v st', ops.start st p = (some v, st', 0) ∧ At st' v p
  start_of_le : ∀ st p, records.length ≤ p → ∃ st' q, ops.start st p = (none, st', q)
  next_of_lt : ∀ st v i pos, At st v i → i + 1 < records.length →
    ∃ v' st', ops.next st v pos = (some v', st', pos + 1) ∧ At st' v' (i + 1)
  next_of_le : ∀ st v i pos, At st v i → records.length ≤ i + 1 →
    ∃ st', ops.next st v pos = (none, st', pos + 1)
  shown : ∀ st v i, At st v i → records[i]? = some (ops.shown st v)

theorem Rewinding.fill_shown (h : Rewinding ops records At) (room : Nat) {st : σ} {v : ν}
    {i : Nat} (hat : At st v i) (pos : Nat) :
    ∃ st', fill ops room st v pos =
      ((records.drop i).take (room + 1), st', pos + min (room + 1) (records.length - i)) :=
  Walks.fill_shown ⟨h.next_of_lt, h.next_of_le, h.shown⟩ room hat pos

/-- A call that starts behind the first record leaves such a position again. -/
theorem Rewinding.not_ends (h : Rewinding ops records At) (room : Nat → Nat) (calls i : Nat)
    (st : σ) {p : Nat} (h0 : 0 < p) (hlt : p < records.length) :
    readAll ops room calls i st p = none := by
  induction calls generalizing i st p with
  | zero => rfl
  | succ calls ih =>
    obtain ⟨v, st1, hstart, hat⟩ := h.start_of_lt st p hlt
    obtain ⟨st2, hfill⟩ := h.fill_shown (room i) hat 0
    have hcall : call ops (room i) st p = ((records.drop p).take (room i + 1), st2,
        0 + min (room i + 1) (records.length - p)) := by
      rw [call, hstart]
      exact hfill
    have hne : ((records.drop p).take (room i + 1)).isEmpty = false := by
      rw [List.drop_eq_getElem_cons hlt]
      rfl
    have hrest := ih (i + 1) st2 (p := 0 + min (room i + 1) (records.length - p))
      (by omega) (by omega)
    simp only [readAll, hcall, hne, hrest, Bool.false_eq_true, if_false, Option.map_none]

/-- **A rewinding iterator shows its records and the reading ends** iff they fit in one call. -/
theorem Rewinding.readAll_eq_some_iff (h : Rewinding ops records At) (hne : records ≠ [])
    (room : Nat → Nat) (st : σ) (shown : List ρ) :
    (∃ calls, readAll ops room calls 0 st 0 = some shown) ↔
      records.length ≤ room 0 + 1 ∧ shown = records := by
  have hpos := List.length_pos_iff.mpr hne
  obtain ⟨v, st1, hstart, hat⟩ := h.start_of_lt st 0 hpos
  obtain ⟨st2, hfill⟩ := h.fill_shown (room 0) hat 0
  have hcall : call ops (room 0) st 0 =
      (records.take (room 0 + 1), st2, min (room 0 + 1) records.length) := by
    rw [call, hstart]
    simpa using hfill
  have hshown : (records.take (room 0 + 1)).isEmpty = false := by
    rw [List.isEmpty_eq_false_iff]
    simp [hne]
  have hstep : ∀ calls, readAll ops room (calls + 1) 0 st 0 =
      (readAll ops room calls 1 st2 (min (room 0 + 1) records.length)).map
        (records.take (room 0 + 1) ++ ·) := by
    intro calls
    simp only [readAll, hcall, hshown, Bool.false_eq_true, if_false, Nat.zero_add]
  rcases Nat.lt_or_ge (room 0 + 1) records.length with hlong | hfits
  · constructor
    · rintro ⟨calls, hread⟩
      cases calls with
      | zero => cases hread
      | succ calls =>
        rw [hstep, h.not_ends room calls 1 st2 (by omega) (by omega)] at hread
        cases hread
    · rintro ⟨hle, -⟩
      omega
  · obtain ⟨st3, q, hend⟩ := h.start_of_le st2 records.length (Nat.le_refl _)
    have hlast : ∀ calls, readAll ops room (calls + 1) 1 st2 records.length = some [] := by
      intro calls
      simp [readAll, call, hend]
    have htake : records.take (room 0 + 1) = records := List.take_of_length_le hfits
    rw [Nat.min_eq_right hfits, htake] at hstep
    constructor
    · rintro ⟨calls, hread⟩
      refine ⟨hfits, ?_⟩
      cases calls with
      | zero => cases hread
      | succ calls =>
        rw [hstep] at hread
        cases calls with
        | zero => cases hread
        | succ calls =>
          rw [hlast] at hread
          simpa using hread.symm
    · rintro ⟨-, rfl⟩
      refine ⟨2, ?_⟩
      rw [hstep, hlast]
      simp

/-! ## 3. Iterators that keep the position -/

/-- `start` finds the record of a position, and leaves the position as it is. -/
structure Counting (ops : SeqOps σ ν ρ) (records : List ρ) (At : σ → ν → Nat → Prop) : Prop
    extends Walks ops records At where
  start_of_lt : ∀ st p, p < records.length →
    ∃ v st', ops.start st p = (some v, st', p) ∧ At st' v p
  start_of_le : ∀ st p, records.length ≤ p → ∃ st' q, ops.start st p = (none, st', q)

/-- Enough calls show what is left. -/
theorem Counting.readAll_eq (h : Counting ops records At) (room : Nat → Nat) {calls : Nat} (i : Nat)
    (st : σ) {p : Nat} (hcalls : records.length - p < calls) :
    readAll ops room calls i st p = some (records.drop p) := by
  induction calls generalizing i st p with
  | zero => omega
  | succ calls ih =>
    rcases Nat.lt_or_ge p records.length with hlt | hend
    · obtain ⟨v, st1, hstart, hat⟩ := h.start_of_lt st p hlt
      obtain ⟨st2, hfill⟩ := h.fill_shown (room i) hat p
      have hcall : call ops (room i) st p = ((records.drop p).take (room i + 1), st2,
          p + min (room i + 1) (records.length - p)) := by
        rw [call, hstart]
        exact hfill
      have hne : ((records.drop p).take (room i + 1)).isEmpty = false := by
        rw [List.drop_eq_getElem_cons hlt]
        rfl
      have hrest := ih (i + 1) st2 (p := p + min (room i + 1) (records.length - p)) (by omega)
      have hleft : records.drop (p + min (room i + 1) (records.length - p)) =
          (records.drop p).drop (room i + 1) := by
        rw [List.drop_drop]
        rcases Nat.le_total (room i + 1) (records.length - p) with hle | hle
        · rw [Nat.min_eq_left hle]
        · rw [Nat.min_eq_right hle, List.drop_eq_nil_of_le (by omega), List.drop_eq_nil_of_le (by omega)]
      simp only [readAll, hcall, hne, hrest, Bool.false_eq_true, if_false, Option.map_some]
      rw [hleft, List.take_append_drop]
    · obtain ⟨st1, q, hstart⟩ := h.start_of_le st p hend
      simp [readAll, call, hstart, List.drop_eq_nil_of_le hend]

/-- More calls show the same. -/
theorem readAll_succ {room : Nat → Nat} {calls i index : Nat} {st : σ} {shown : List ρ}
    (h : readAll ops room calls i st index = some shown) :
    readAll ops room (calls + 1) i st index = some shown := by
  induction calls generalizing i st index shown with
  | zero => cases h
  | succ calls ih =>
    rw [readAll] at h ⊢
    dsimp only at h ⊢
    split at h
    · rename_i hempty
      rw [if_pos hempty]
      exact h
    · rename_i hempty
      obtain ⟨more, hmore, rfl⟩ := Option.map_eq_some_iff.mp h
      rw [if_neg hempty, ih hmore, Option.map_some]

/-- **An iterator that keeps the position shows its records**, in whatever calls they are read. -/
theorem Counting.readAll_eq_some_iff (h : Counting ops records At) (room : Nat → Nat) (st : σ)
    (shown : List ρ) : (∃ calls, readAll ops room calls 0 st 0 = some shown) ↔ shown = records := by
  have hall : ∀ calls, records.length < calls → readAll ops room calls 0 st 0 = some records :=
    fun calls hcalls => h.readAll_eq room 0 st (p := 0) hcalls
  constructor
  · rintro ⟨calls, hread⟩
    have hmore : ∀ k, readAll ops room (calls + k) 0 st 0 = some shown := by
      intro k
      induction k with
      | zero => exact hread
      | succ k ih => exact readAll_succ ih
    have hboth := hall (calls + (records.length + 1)) (by omega)
    rw [hmore] at hboth
    exact Option.some.inj hboth
  · rintro rfl
    exact ⟨_, hall _ (Nat.lt_succ_self _)⟩

end SeqFile
