/-
# An allocator that may fail

`Kmem` is a memory allocator as its callers see it: an arbitrary sequence of answers, consumed one
request at a time.  `m.OkUntil m'` says that nothing failed between two states of one run, and
`m.Later m'` that they are such states; `left` and `right` cut a run in two.
-/
namespace CLib

/-- The memory allocator: whether each allocation from here on succeeds. -/
structure Kmem where
  outcome : Nat → Bool
  used : Nat := 0

/-- One `kzalloc`/`kmalloc`. -/
def Kmem.kzalloc (m : Kmem) : Bool × Kmem := (m.outcome m.used, { m with used := m.used + 1 })

/-- An allocator that never fails. -/
def Kmem.AllOk (m : Kmem) : Prop := ∀ k, m.outcome k = true

/-- All the allocations made between `m` and `m'` succeeded. -/
def Kmem.OkUntil (m m' : Kmem) : Prop := ∀ k, m.used ≤ k → k < m'.used → m.outcome k = true

/-- `m'` is `m` some allocations later. -/
def Kmem.Later (m m' : Kmem) : Prop := m'.outcome = m.outcome ∧ m.used ≤ m'.used

theorem Kmem.Later.refl (m : Kmem) : m.Later m := ⟨rfl, Nat.le_refl _⟩

theorem Kmem.Later.trans {a b c : Kmem} (h1 : a.Later b) (h2 : b.Later c) : a.Later c :=
  ⟨h2.1.trans h1.1, Nat.le_trans h1.2 h2.2⟩

theorem Kmem.OkUntil.left {a b c : Kmem} (h : a.OkUntil c) (h2 : b.Later c) : a.OkUntil b :=
  fun k h1 hk => h k h1 (Nat.lt_of_lt_of_le hk h2.2)

theorem Kmem.OkUntil.right {a b c : Kmem} (h : a.OkUntil c) (h1 : a.Later b) : b.OkUntil c :=
  fun k hb hk => by rw [h1.1]; exact h k (Nat.le_trans h1.2 hb) hk

theorem Kmem.AllOk.kzalloc {m : Kmem} (h : m.AllOk) : m.kzalloc.2.AllOk := fun k => h k

@[simp] theorem Kmem.kzalloc_fst (m : Kmem) : m.kzalloc.1 = m.outcome m.used := rfl

theorem Kmem.kzalloc_later (m : Kmem) : m.Later m.kzalloc.2 := ⟨rfl, Nat.le_succ _⟩

theorem Kmem.OkUntil.fst {m m' : Kmem} (h : m.OkUntil m') (h1 : m.kzalloc.2.Later m') :
    m.outcome m.used = true :=
  h m.used (Nat.le_refl _) (Nat.lt_of_lt_of_le (Nat.lt_succ_self _) h1.2)

end CLib
