/-
# Computations that read memory

`Rd α` computes an `α` from a memory and logs the offset of every byte it reads.  The log is
complete by construction: the field `sound` says that a memory which agrees at the logged
offsets gives the same value and the same log, so no read can go unrecorded.

* `Rd.Within lo hi m x`: run on `m`, the computation `x` reads offsets in `[lo, hi)` only.
* `within_bind`, `within_and`, `within_memEq`: what that means for a sequence, for a
  short-circuit `&&` and for a `memcmp`.
* `Mem.Holds`: a text lies at an offset; `val_memEq` says that `memcmp` asks just that.
* `within_getWord`, `within_getStrn`: numbers, and strings that end at a NUL or after some bytes.
-/
import Mathlib.Data.List.Basic

namespace CLib

/-- A byte at every offset from some pointer. -/
abbrev Mem := Int → UInt8

/-- A computation that reads memory: its value, and the offsets it reads. -/
structure Rd (α : Type) where
  val : Mem → α
  reads : Mem → List Int
  sound : ∀ m m' : Mem, (∀ i ∈ reads m, m' i = m i) → val m' = val m ∧ reads m' = reads m

namespace Rd

variable {α β : Type} {m : Mem} {lo hi : Int}

/-! ## 1. The operations -/

instance : Monad Rd where
  pure a := ⟨fun _ => a, fun _ => [], fun _ _ _ => ⟨rfl, rfl⟩⟩
  bind x f :=
    { val := fun m => (f (x.val m)).val m
      reads := fun m => x.reads m ++ (f (x.val m)).reads m
      sound := by
        intro m m' h
        have hx := x.sound m m' fun i hi => h i (List.mem_append_left _ hi)
        have hf := (f (x.val m)).sound m m' fun i hi => h i (List.mem_append_right _ hi)
        rw [hx.1, hx.2, hf.1, hf.2]
        exact ⟨rfl, rfl⟩ }

/-- The byte at an offset. -/
def get (i : Int) : Rd UInt8 where
  val m := m i
  reads _ := [i]
  sound _ _ h := ⟨h i (by simp), rfl⟩

/-- C's `&&`: the right operand is only evaluated when the left one holds. -/
def and (x y : Rd Bool) : Rd Bool := do
  if ← x then y else pure false

/-- `p[i] == c`. -/
def is (i : Int) (c : UInt8) : Rd Bool := do
  pure ((← get i) == c)

/-- `memcmp(p + i, bytes, n) == 0` for `n` bytes, all of which it reads. -/
def memEq : Int → List UInt8 → Rd Bool
  | _, [] => pure true
  | i, c :: rest => do
    let b ← get i
    let eq ← memEq (i + 1) rest
    pure (b == c && eq)

/-! ## 2. Values -/

@[simp] theorem val_pure (a : α) : (pure a : Rd α).val m = a := rfl

@[simp] theorem val_bind (x : Rd α) (f : α → Rd β) :
    (x >>= f).val m = (f (x.val m)).val m := rfl

@[simp] theorem val_get (i : Int) : (get i).val m = m i := rfl

theorem val_get_bind (i : Int) (f : UInt8 → Rd α) : (get i >>= f).val m = (f (m i)).val m := rfl

@[simp] theorem val_is (i : Int) (c : UInt8) : (is i c).val m = (m i == c) := rfl

@[simp] theorem val_ite (c : Prop) [Decidable c] (x y : Rd α) :
    (if c then x else y).val m = if c then x.val m else y.val m := by
  split <;> rfl

@[simp] theorem val_and (x y : Rd Bool) : (x.and y).val m = (x.val m && y.val m) := by
  rw [and, val_bind]
  cases h : x.val m <;> simp

/-! ## 3. Reads within a buffer -/

/-- Run on `m`, the computation reads offsets in `[lo, hi)` only. -/
def Within (lo hi : Int) (m : Mem) (x : Rd α) : Prop := ∀ i ∈ x.reads m, lo ≤ i ∧ i < hi

@[simp] theorem within_pure (a : α) : Within lo hi m (pure a : Rd α) := by
  intro i hi
  exact absurd hi (List.not_mem_nil)

@[simp] theorem within_bind (x : Rd α) (f : α → Rd β) :
    Within lo hi m (x >>= f) ↔ Within lo hi m x ∧ Within lo hi m (f (x.val m)) := by
  constructor
  · intro h
    exact ⟨fun i hi => h i (List.mem_append_left _ hi), fun i hi => h i (List.mem_append_right _ hi)⟩
  · rintro ⟨hx, hf⟩ i hi
    rcases List.mem_append.mp hi with hi | hi
    · exact hx i hi
    · exact hf i hi

@[simp] theorem within_get (i : Int) : Within lo hi m (get i) ↔ lo ≤ i ∧ i < hi := by
  refine ⟨fun h => h i (List.mem_singleton.mpr rfl), fun h j hj => ?_⟩
  rw [List.mem_singleton.mp hj]
  exact h

/-- Reading a byte and going on with it. -/
theorem within_get_bind (i : Int) (f : UInt8 → Rd α) :
    Within lo hi m (get i >>= f) ↔ (lo ≤ i ∧ i < hi) ∧ Within lo hi m (f (m i)) := by
  rw [within_bind, within_get, val_get]

@[simp] theorem within_is (i : Int) (c : UInt8) :
    Within lo hi m (is i c) ↔ lo ≤ i ∧ i < hi := by
  rw [is, within_bind, within_get]
  exact and_iff_left (within_pure _)

@[simp] theorem within_ite (c : Prop) [Decidable c] (x y : Rd α) :
    Within lo hi m (if c then x else y) ↔
      (c → Within lo hi m x) ∧ (¬ c → Within lo hi m y) := by
  split <;> simp_all

@[simp] theorem within_and (x y : Rd Bool) :
    Within lo hi m (x.and y) ↔ Within lo hi m x ∧ (x.val m = true → Within lo hi m y) := by
  rw [and, within_bind, within_ite]
  simp

/-- **`memcmp` reads its bytes, all of them.** -/
@[simp] theorem within_memEq (i : Int) (l : List UInt8) :
    Within lo hi m (memEq i l) ↔ l = [] ∨ (lo ≤ i ∧ i + l.length ≤ hi) := by
  induction l generalizing i with
  | nil => simp [memEq]
  | cons c rest ih =>
    simp only [memEq, within_bind, within_get, ih, within_pure, and_true, reduceCtorEq, false_or,
      List.length_cons]
    cases rest with
    | nil =>
      simp only [List.length_nil, true_or, and_true]
      omega
    | cons d rest => simp only [reduceCtorEq, false_or, List.length_cons]; omega

theorem Within.and {x y : Rd Bool} (hx : Within lo hi m x) (hy : Within lo hi m y) :
    Within lo hi m (x.and y) :=
  (within_and x y).mpr ⟨hx, fun _ => hy⟩

end Rd

/-! ## 4. Texts in memory -/

/-- The bytes from an offset on are those of a text. -/
def Mem.Holds (m : Mem) : Int → List UInt8 → Prop
  | _, [] => True
  | i, c :: text => m i = c ∧ Mem.Holds m (i + 1) text

namespace Mem

variable {m : Mem} {i : Int}

instance decidableHolds (m : Mem) : ∀ (i : Int) (text : List UInt8), Decidable (m.Holds i text)
  | _, [] => .isTrue trivial
  | i, _ :: text => @instDecidableAnd _ _ _ (decidableHolds m (i + 1) text)

@[simp] theorem holds_nil : m.Holds i [] := trivial

@[simp] theorem holds_cons {c : UInt8} {text : List UInt8} :
    m.Holds i (c :: text) ↔ m i = c ∧ m.Holds (i + 1) text := Iff.rfl

theorem holds_append {text rest : List UInt8} :
    m.Holds i (text ++ rest) ↔ m.Holds i text ∧ m.Holds (i + text.length) rest := by
  induction text generalizing i with
  | nil => simp
  | cons c text ih =>
    rw [List.cons_append, holds_cons, holds_cons, ih, and_assoc, List.length_cons]
    have hshift : i + 1 + (text.length : Int) = i + ((text.length + 1 : Nat) : Int) := by omega
    rw [hshift]

/-- Of two texts at one place, one begins the other. -/
theorem Holds.prefix_or {text text' : List UInt8} (h : m.Holds i text) (h' : m.Holds i text') :
    text <+: text' ∨ text' <+: text := by
  induction text generalizing i text' with
  | nil => exact Or.inl List.nil_prefix
  | cons c text ih =>
    cases text' with
    | nil => exact Or.inr List.nil_prefix
    | cons c' text' =>
      obtain rfl : c = c' := h.1.symm.trans h'.1
      simpa only [List.prefix_cons_inj] using ih h.2 h'.2

theorem Holds.of_prefix {text text' : List UInt8} (h : m.Holds i text) (hp : text' <+: text) :
    m.Holds i text' := by
  obtain ⟨rest, rfl⟩ := hp
  exact (holds_append.mp h).1

end Mem

/-- **What `memcmp` asks.** -/
theorem Rd.val_memEq {m : Mem} {i : Int} {text : List UInt8} :
    (Rd.memEq i text).val m = true ↔ m.Holds i text := by
  induction text generalizing i with
  | nil => simp [Rd.memEq]
  | cons c text ih => simp [Rd.memEq, ih]

/-! ## 5. Numbers and strings -/

inductive ByteOrder
  | little
  | big
deriving DecidableEq

/-- The 32 bits that four bytes hold. -/
def word32 (order : ByteOrder) (b0 b1 b2 b3 : UInt8) : BitVec 32 :=
  match order with
  | .little => b3.toBitVec ++ b2.toBitVec ++ b1.toBitVec ++ b0.toBitVec
  | .big => b0.toBitVec ++ b1.toBitVec ++ b2.toBitVec ++ b3.toBitVec

/-- The 32 bits at an offset. -/
def Mem.word (order : ByteOrder) (m : Mem) (i : Int) : BitVec 32 :=
  word32 order (m i) (m (i + 1)) (m (i + 2)) (m (i + 3))

namespace Rd

variable {m : Mem} {lo hi : Int} {order : ByteOrder}

/-- An `int` at an offset. -/
def getWord (order : ByteOrder) (i : Int) : Rd (BitVec 32) := do
  let b0 ← get i
  let b1 ← get (i + 1)
  let b2 ← get (i + 2)
  let b3 ← get (i + 3)
  pure (word32 order b0 b1 b2 b3)

@[simp] theorem val_getWord (i : Int) : (getWord order i).val m = m.word order i := rfl

@[simp] theorem within_getWord (i : Int) :
    Within lo hi m (getWord order i) ↔ lo ≤ i ∧ i + 4 ≤ hi := by
  simp only [getWord, within_bind, within_get, within_pure, and_true]
  omega

/-- `strncpy(dest, p + i, n)`: the bytes before the first NUL, `n` at most.  The NUL is read as well. -/
def getStrn : Nat → Int → Rd (List UInt8)
  | 0, _ => pure []
  | n + 1, i => do
    let b ← get i
    if b = 0 then pure []
    else
      let rest ← getStrn n (i + 1)
      pure (b :: rest)

/-- **Where a string copy stays**: all its bytes are there, or a NUL is. -/
theorem within_getStrn {n : Nat} {i : Int} (hi0 : lo ≤ i) :
    Within lo hi m (getStrn n i) ↔ n = 0 ∨ i + n ≤ hi ∨ ∃ k, i ≤ k ∧ k < hi ∧ m k = 0 := by
  induction n generalizing i with
  | zero => simp [getStrn]
  | succ n ih =>
    rw [getStrn, within_get_bind]
    by_cases hnul : m i = 0
    · rw [if_pos hnul]
      constructor
      · rintro ⟨⟨-, hlt⟩, -⟩
        exact .inr (.inr ⟨i, Int.le_refl i, hlt, hnul⟩)
      · rintro (h | h | ⟨k, hk, hlt, -⟩)
        · exact absurd h (Nat.succ_ne_zero n)
        · exact ⟨by omega, within_pure _⟩
        · exact ⟨by omega, within_pure _⟩
    · rw [if_neg hnul, within_bind, ih (by omega)]
      constructor
      · rintro ⟨⟨-, hlt⟩, h | h | ⟨k, hk, hlt', hzero⟩, -⟩
        · exact .inr (.inl (by omega))
        · exact .inr (.inl (by omega))
        · exact .inr (.inr ⟨k, by omega, hlt', hzero⟩)
      · rintro (h | h | ⟨k, hk, hlt, hzero⟩)
        · exact absurd h (Nat.succ_ne_zero n)
        · exact ⟨by omega, .inr (.inl (by omega)), within_pure _⟩
        · have hne : k ≠ i := fun h => hnul (h ▸ hzero)
          exact ⟨by omega, .inr (.inr ⟨k, by omega, hlt, hzero⟩), within_pure _⟩

/-- What a string copy finds where a text lies. -/
theorem val_getStrn {text : List UInt8} {i : Int} (h : m.Holds i text) :
    (getStrn text.length i).val m = text.takeWhile (· != 0) := by
  induction text generalizing i with
  | nil => rfl
  | cons c text ih =>
    obtain ⟨hc, htext⟩ := Mem.holds_cons.mp h
    rw [List.length_cons, getStrn, val_get_bind, hc, List.takeWhile_cons]
    by_cases hnul : c = 0
    · simp [hnul]
    · simp [hnul, ih htext]

end Rd

end CLib
