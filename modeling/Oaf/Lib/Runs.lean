/-
# Runs and invariants

A system is a step relation labelled with events.  `Reaches step cond s t`: some run leads from
`s` to `t`, and every step of it, at the state it is taken from, meets `cond`.

* `Reaches.invariant`: what each such step preserves, each such run preserves.
* `Reaches.of_runIf`: a run that is computed, by a function for the steps.
* `Path.progress`: when every event of a kind brings the goal nearer, enough of them reach it.
-/

namespace Runs

variable {σ ε : Type}

/-- `t` can be reached from `s` by steps that meet `cond`. -/
inductive Reaches (step : σ → ε → σ → Prop) (cond : σ → ε → Prop) (s : σ) : σ → Prop
  | refl : Reaches step cond s s
  | tail {t u : σ} {e : ε} : Reaches step cond s t → cond t e → step t e u → Reaches step cond s u

/-- Every step is allowed. -/
def Always : σ → ε → Prop := fun _ _ => True

variable {step : σ → ε → σ → Prop} {cond : σ → ε → Prop} {s t u : σ}

/-- **The invariant rule.** -/
theorem Reaches.invariant {Inv : σ → Prop}
    (hstep : ∀ s e t, Inv s → cond s e → step s e t → Inv t) (h : Reaches step cond s t)
    (hs : Inv s) : Inv t := by
  induction h with
  | refl => exact hs
  | tail _ hc hst ih => exact hstep _ _ _ ih hc hst

/-- The run of a step function on these events; `none` when a step is not possible, or is not `ok`. -/
def runIf (ok : σ → ε → Bool) (next : σ → ε → Option σ) (s : σ) : List ε → Option σ
  | [] => some s
  | e :: es => if ok s e then (next s e).bind fun t => runIf ok next t es else none

/-- **A computed run is a run.** -/
theorem Reaches.of_runIf {ok : σ → ε → Bool} {next : σ → ε → Option σ}
    (hok : ∀ s e, ok s e = true → cond s e) {r s t : σ}
    (hr : Reaches (fun s e t => next s e = some t) cond r s) {es : List ε}
    (h : runIf ok next s es = some t) : Reaches (fun s e t => next s e = some t) cond r t := by
  induction es generalizing s with
  | nil => exact Option.some.inj h ▸ hr
  | cons e es ih =>
    unfold runIf at h
    by_cases hgo : ok s e = true
    · rw [if_pos hgo] at h
      obtain ⟨u, hu, h⟩ := Option.bind_eq_some_iff.mp h
      exact ih (hr.tail (hok s e hgo) hu) h
    · rw [if_neg hgo] at h
      cases h

/-! ## Runs with their events -/

/-- The run with exactly these events leads from `s` to `t`, and every step meets `cond`. -/
inductive Path (step : σ → ε → σ → Prop) (cond : σ → ε → Prop) : σ → List ε → σ → Prop
  | nil (s : σ) : Path step cond s [] s
  | cons {s t u : σ} {e : ε} {es : List ε} :
      cond s e → step s e t → Path step cond t es u → Path step cond s (e :: es) u

/-- **The progress rule.**  Every event that counts reaches the goal or lowers the measure, and no
other event leaves the goal or raises the measure. -/
theorem Path.progress (Inv goal : σ → Prop) (measure : σ → Nat) (counts : ε → Bool) {es : List ε}
    (hinv : ∀ s e t, Inv s → cond s e → step s e t → Inv t)
    (hgoal : ∀ s e t, Inv s → cond s e → step s e t → goal s → goal t)
    (hkeep : ∀ s e t, Inv s → cond s e → step s e t → counts e = false → measure t ≤ measure s)
    (hdown : ∀ s e t, Inv s → cond s e → step s e t → counts e = true →
      goal t ∨ measure t < measure s)
    (h : Path step cond s es t) (hs : Inv s) (hmany : measure s < es.countP counts ∨ goal s) :
    goal t := by
  induction h with
  | nil s =>
    rcases hmany with hlt | hg
    · exact absurd hlt (Nat.not_lt_zero _)
    · exact hg
  | @cons s t u e es hc hst _ ih =>
    refine ih (hinv s e t hs hc hst) ?_
    rcases hmany with hlt | hg
    · cases hcount : counts e with
      | true =>
        rw [List.countP_cons_of_pos hcount] at hlt
        rcases hdown s e t hs hc hst hcount with hg | hless
        · exact .inr hg
        · exact .inl (by omega)
      | false =>
        rw [List.countP_cons_of_neg (by simp [hcount])] at hlt
        exact .inl (Nat.lt_of_le_of_lt (hkeep s e t hs hc hst hcount) hlt)
    · exact .inr (hgoal s e t hs hc hst hg)

end Runs
