/-
# Locks and buffers

A computation that takes locks and allocates buffers, with what it holds as its state.  It does not go on (`none`)
when it waits for a lock that it holds itself, releases one that it does not hold, or frees a buffer that it does not
have: a second `free` among them.

* `Returns`: the computation ends, with such a result and such holdings.
* `returns_bind`, `returns_lock`: the rules of a sequence and of a lock, both exact.
* `section_eq`, `lock_bind_none`: a critical section, and a lock that is held already.
* `kfree_grow`, `grow_free_buffers`: a buffer that is freed.
-/

namespace Holding

/-- What is held: locks, and the addresses of buffers.  `next` is where the next buffer will be. -/
structure Holdings (L : Type) where
  locked : L → Bool := fun _ => false
  buffers : List Nat := []
  next : Nat := 0

/-- A computation over what is held. -/
abbrev Hold (L α : Type) := StateT (Holdings L) Option α

variable {L α β : Type}

/-! ## 1. The operations -/

section Operations

variable [DecidableEq L]

def Holdings.set (s : Holdings L) (l : L) (b : Bool) : Holdings L :=
  { s with locked := fun l' => if l' = l then b else s.locked l' }

/-- `spin_lock`, `write_lock`: nobody else releases a lock that is held here. -/
def lock (l : L) : Hold L Unit := fun s => if s.locked l then none else some ((), s.set l true)

def unlock (l : L) : Hold L Unit := fun s => if s.locked l then some ((), s.set l false) else none

end Operations

/-- The holdings with a buffer more. -/
def Holdings.grow (s : Holdings L) : Holdings L := { s with buffers := s.next :: s.buffers, next := s.next + 1 }

/-- `kmalloc`, when it has memory. -/
def kmalloc : Hold L Nat := fun s => some (s.next, s.grow)

def Holdings.free (s : Holdings L) (p : Nat) : Holdings L := { s with buffers := s.buffers.erase p }

def kfree (p : Nat) : Hold L Unit := fun s => if p ∈ s.buffers then some ((), s.free p) else none

/-- What is not defined. -/
def undefined : Hold L α := fun _ => none

/-! ## 2. Where they end -/

/-- The computation ends, and with such a result. -/
def Returns (x : Hold L α) (Q : α → Holdings L → Prop) (s : Holdings L) : Prop :=
  ∃ a t, x s = some (a, t) ∧ Q a t

variable {Q : α → Holdings L → Prop} {s : Holdings L}

theorem returns_of_some {x : Hold L α} {a : α} {t : Holdings L} (h : x s = some (a, t)) :
    Returns x Q s ↔ Q a t := by
  constructor
  · rintro ⟨b, u, heq, hQ⟩
    obtain ⟨rfl, rfl⟩ := Prod.mk.inj (Option.some.inj (h.symm.trans heq))
    exact hQ
  · intro hQ
    exact ⟨a, t, h, hQ⟩

theorem returns_of_none {x : Hold L α} (h : x s = none) : ¬ Returns x Q s := by
  rintro ⟨b, u, heq, -⟩
  cases h.symm.trans heq

theorem returns_pure {a : α} : Returns (pure a : Hold L α) Q s ↔ Q a s := returns_of_some rfl

theorem returns_bind {x : Hold L α} {f : α → Hold L β} {Q : β → Holdings L → Prop} :
    Returns (x >>= f) Q s ↔ Returns x (fun a => Returns (f a) Q) s := by
  have hbind : (x >>= f) s = (x s).bind fun r => f r.1 r.2 := rfl
  constructor
  · rintro ⟨b, u, h, hQ⟩
    rw [hbind] at h
    obtain ⟨⟨a, t⟩, hx, hf⟩ := Option.bind_eq_some_iff.mp h
    exact ⟨a, t, hx, b, u, hf, hQ⟩
  · rintro ⟨a, t, hx, b, u, hf, hQ⟩
    exact ⟨b, u, by rw [hbind, hx]; exact hf, hQ⟩

/-- A buffer that was allocated can be freed. -/
theorem kfree_grow : kfree s.next s.grow = some ((), s.grow.free s.next) := if_pos List.mem_cons_self

/-- **A buffer that is freed** is gone. -/
theorem grow_free_buffers : (s.grow.free s.next).buffers = s.buffers := by
  rw [Holdings.free, Holdings.grow, List.erase_cons_head]

/-! ## 3. Locks -/

variable [DecidableEq L]

theorem returns_lock {l : L} {Q : Unit → Holdings L → Prop} :
    Returns (lock l) Q s ↔ s.locked l = false ∧ Q () (s.set l true) := by
  cases h : s.locked l with
  | true =>
    simp only [Bool.true_eq_false, false_and, iff_false]
    exact returns_of_none (if_pos h)
  | false =>
    rw [returns_of_some (show lock l s = some ((), s.set l true) from if_neg (by simp [h]))]
    simp

@[simp] theorem set_locked (l l' : L) (b : Bool) :
    (s.set l b).locked l' = if l' = l then b else s.locked l' := rfl

/-- What was taken is as it was when it is released. -/
theorem set_true_set_false {l : L} (h : s.locked l = false) : (s.set l true).set l false = s := by
  have hlocked : (fun l' => if l' = l then false else if l' = l then true else s.locked l') = s.locked := by
    funext l'
    by_cases hl : l' = l
    · simp [hl, h]
    · simp [hl]
  rw [Holdings.set, Holdings.set, hlocked]

/-- **A critical section** leaves nothing behind. -/
theorem section_eq {l : L} {x : Hold L α} (h : s.locked l = false) :
    (lock l >>= fun _ => unlock l >>= fun _ => x) s = x s := by
  have hlock : lock l s = some ((), s.set l true) := if_neg (by simp [h])
  have hunlock : unlock l (s.set l true) = some ((), s) := by
    rw [unlock, if_pos (by simp), set_true_set_false h]
  change (lock l s).bind (fun r => (unlock l r.2).bind fun r => x r.2) = x s
  rw [hlock, Option.bind_some, hunlock, Option.bind_some]

theorem returns_section {l : L} {x : Hold L α} (h : s.locked l = false) :
    Returns (lock l >>= fun _ => unlock l >>= fun _ => x) Q s ↔ Returns x Q s := by
  unfold Returns
  rw [section_eq h]

/-- A lock that is held is not taken again. -/
theorem lock_bind_none {l : L} {f : Unit → Hold L α} (h : s.locked l = true) : (lock l >>= f) s = none := by
  have hlock : lock l s = none := if_pos h
  change (lock l s).bind (fun r => f r.1 r.2) = none
  rw [hlock, Option.bind_none]

end Holding
