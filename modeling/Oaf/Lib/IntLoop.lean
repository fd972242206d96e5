/-
# Counting loops in a signed word

`for (i = first; i <= last; i++)` with an `int` of 32 bits that wraps: behind the largest `int` comes the
smallest one, so a loop up to the largest one has no end of its own.

* `walk`: the body on a list of numbers, as long as it goes on.
* `forUpTo_eq_walk`: below the largest `int` the loop is the walk from `first` to `last`.
* `forUpTo_top`: up to the largest `int` it is this walk, and begins anew at the smallest one.
* `forUpTo_endless`: so it does not end by itself.
-/
import Mathlib.Algebra.Ring.Int.Defs
import Mathlib.Data.List.Basic
import Mathlib.Tactic.Common

namespace IntLoop

/-- The largest and the smallest `int`. -/
def intMax : Int := 2 ^ 31 - 1
def intMin : Int := -2 ^ 31

/-- `i + 1`. -/
def succ32 (i : Int) : Int := if i = intMax then intMin else i + 1

/-- What one round says: go on, leave the loop, or an access that has no meaning. -/
inductive Lap (σ : Type) where
  | next (s : σ)
  | stop (s : σ)
  | fault (s : σ)

/-- How a loop ends: by its condition, by a round that left it, or in a round without meaning. -/
inductive LoopEnd (σ : Type) where
  | done (s : σ)
  | stopped (s : σ)
  | fault (s : σ)

variable {σ : Type}

/-- `for (; i <= last; i++)`, for so many rounds. -/
def forUpTo (body : Int → σ → Lap σ) (last : Int) : Nat → Int → σ → Option (LoopEnd σ)
  | 0, _, _ => none
  | fuel + 1, i, s =>
    if i ≤ last then
      match body i s with
      | .next s => forUpTo body last fuel (succ32 i) s
      | .stop s => some (.stopped s)
      | .fault s => some (.fault s)
    else some (.done s)

/-- The body on one number after the other. -/
def walk (body : Int → σ → Lap σ) : List Int → σ → LoopEnd σ
  | [], s => .done s
  | i :: rest, s =>
    match body i s with
    | .next s => walk body rest s
    | .stop s => .stopped s
    | .fault s => .fault s

/-- `n` numbers from `i` on. -/
def ints (i : Int) : Nat → List Int
  | 0 => []
  | n + 1 => i :: ints (i + 1) n

/-- The numbers from `first` to `last`. -/
def span (first last : Int) : List Int := ints first (last + 1 - first).toNat

variable {body : Int → σ → Lap σ} {last i : Int} {n : Nat} {s : σ}

theorem mem_ints {j : Int} : j ∈ ints i n ↔ i ≤ j ∧ j < i + n := by
  induction n generalizing i with
  | zero =>
    simp only [ints, List.not_mem_nil, false_iff]
    omega
  | succ n ih =>
    rw [ints, List.mem_cons, ih]
    omega

theorem mem_span {first j : Int} : j ∈ span first last ↔ first ≤ j ∧ j ≤ last := by
  rw [span, mem_ints]
  omega

theorem nodup_ints : (ints i n).Nodup := by
  induction n generalizing i with
  | zero => exact List.nodup_nil
  | succ n ih =>
    refine List.nodup_cons.mpr ⟨fun hmem => ?_, ih⟩
    have := (mem_ints.mp hmem).1
    omega

/-- Once a loop has ended, more rounds change nothing. -/
theorem forUpTo_mono {e : LoopEnd σ} {fuel : Nat} (h : forUpTo body last fuel i s = some e) (more : Nat) :
    forUpTo body last (fuel + more) i s = some e := by
  induction fuel generalizing i s with
  | zero => cases h
  | succ fuel ih =>
    rw [Nat.succ_add]
    unfold forUpTo at h ⊢
    split at h
    · rename_i hle
      rw [if_pos hle]
      cases hbody : body i s with
      | next s' =>
        rw [hbody] at h
        exact ih h
      | stop s' =>
        rw [hbody] at h
        exact h
      | fault s' =>
        rw [hbody] at h
        exact h
    · rename_i hgt
      rw [if_neg hgt]
      exact h

/-- A loop ends in one way. -/
theorem forUpTo_unique {e e' : LoopEnd σ} {fuel fuel' : Nat} (h : forUpTo body last fuel i s = some e)
    (h' : forUpTo body last fuel' i s = some e') : e = e' := by
  have h1 := forUpTo_mono h fuel'
  have h2 := forUpTo_mono h' fuel
  rw [Nat.add_comm] at h2
  exact Option.some.inj (h1.symm.trans h2)

/-- **The first rounds**: what the walk leaves goes on behind it, unless it wraps before. -/
theorem forUpTo_walk (hlast : i + n ≤ last + 1) (hmax : i + n ≤ intMax) (fuel : Nat) :
    forUpTo body last (n + fuel) i s =
      match walk body (ints i n) s with
      | .done s => forUpTo body last fuel (i + n) s
      | e => some e := by
  induction n generalizing i s with
  | zero => simp [ints, walk]
  | succ n ih =>
    have hle : i ≤ last := by omega
    have hsucc : succ32 i = i + 1 := if_neg (by omega)
    rw [show n + 1 + fuel = (n + fuel) + 1 by omega, forUpTo, if_pos hle, ints, walk]
    cases body i s with
    | next s =>
      have hrest := @ih (i + 1) s (by omega) (by omega)
      rw [show i + 1 + (n : Int) = i + (n + 1 : Nat) by omega] at hrest
      simpa only [hsucc] using hrest
    | stop s => rfl
    | fault s => rfl

/-- **A loop that does not go up to the largest `int`** is the walk from its first to its last number. -/
theorem forUpTo_eq_walk {first : Int} (hle : first ≤ last + 1) (hmax : last < intMax) :
    forUpTo body last ((last + 1 - first).toNat + 1) first s = some (walk body (span first last) s) := by
  have hend : first + ((last + 1 - first).toNat : Int) = last + 1 := by omega
  rw [forUpTo_walk (by omega) (by omega), hend, span]
  cases walk body (ints first (last + 1 - first).toNat) s with
  | done s => exact if_neg (by omega)
  | stopped s => rfl
  | fault s => rfl

/-- The walk over two lists. -/
theorem walk_append (l l' : List Int) :
    walk body (l ++ l') s =
      match walk body l s with
      | .done s => walk body l' s
      | e => e := by
  induction l generalizing s with
  | nil => rfl
  | cons i l ih =>
    rw [List.cons_append, walk, walk]
    cases body i s with
    | next s => exact ih
    | stop s => rfl
    | fault s => rfl

theorem ints_succ : ints i (n + 1) = ints i n ++ [i + n] := by
  induction n generalizing i with
  | zero => simp [ints]
  | succ n ih =>
    rw [ints, ih, ints, List.cons_append]
    congr 3
    omega

/-- **A loop up to the largest `int`**: behind the walk it begins anew, at the smallest one. -/
theorem forUpTo_top {first : Int} (hle : first ≤ intMax) (fuel : Nat) :
    forUpTo body intMax ((intMax + 1 - first).toNat + fuel) first s =
      match walk body (span first intMax) s with
      | .done s => forUpTo body intMax fuel intMin s
      | e => some e := by
  obtain ⟨n, hn⟩ : ∃ n : Nat, (intMax + 1 - first).toNat = n + 1 := ⟨(intMax - first).toNat, by omega⟩
  have hlast : first + (n : Int) = intMax := by omega
  rw [span, hn, ints_succ, walk_append, Nat.add_assoc, Nat.add_comm 1 fuel,
    forUpTo_walk (by omega) (by omega), hlast]
  cases walk body (ints first n) s with
  | done s =>
    simp only [walk, forUpTo, Int.le_refl, if_true]
    cases body intMax s with
    | next s => rfl
    | stop s => rfl
    | fault s => rfl
  | stopped s => rfl
  | fault s => rfl

/-- A loop up to the largest `int` whose rounds all go on has no end. -/
theorem forUpTo_endless {P : σ → Prop} (hbody : ∀ i s, P s → ∃ s', body i s = .next s' ∧ P s') :
    ∀ {fuel : Nat} {i : Int} {s : σ}, P s → i ≤ intMax → forUpTo body intMax fuel i s = none
  | 0, _, _, _, _ => rfl
  | fuel + 1, i, s, hs, hi => by
    obtain ⟨s', hnext, hs'⟩ := hbody i s hs
    have hsucc : succ32 i ≤ intMax := by
      unfold succ32
      split
      · decide
      · omega
    rw [forUpTo, if_pos hi, hnext]
    exact forUpTo_endless hbody hs' hsucc

end IntLoop
