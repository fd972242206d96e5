/-
# Programs that make requests

A program that asks a device and goes on with the answer.  What the device does is a relation:
in a state, a request can have several answers, each with a next state.

* `Ends`, `Visits`: the runs of a program, to their end and on the way.
* `wp`: what has to hold in front of a program for `P` to hold in every state on the way and `Q` at
  the end; `wp_bind` goes along the program, `wp_invariant` does without it.
* `Ends.wp`, `Visits.wp`: what `wp` says about the runs.
* `Makes`: the requests that a program can make at all; `wp_of_makes`: what they preserve it does.
-/

/-- A program with requests `ι`, answers `ρ` and a result. -/
inductive Prog (ι ρ α : Type) where
  | ret (a : α)
  | ask (i : ι) (next : ρ → Prog ι ρ α)

namespace Prog

variable {ι ρ α β σ : Type}

protected def bind : Prog ι ρ α → (α → Prog ι ρ β) → Prog ι ρ β
  | .ret a, f => f a
  | .ask i next, f => .ask i fun r => (next r).bind f

instance : Monad (Prog ι ρ) where
  pure := .ret
  bind := .bind

/-- One request. -/
def request (i : ι) : Prog ι ρ ρ := .ask i .ret

variable {step step' : σ → ι → ρ → σ → Prop} {P P' : σ → Prop} {Q Q' : α → σ → Prop}

/-- A run to the end. -/
inductive Ends (step : σ → ι → ρ → σ → Prop) : Prog ι ρ α → σ → α → σ → Prop
  | ret (a : α) (s : σ) : Ends step (.ret a) s a s
  | ask {i : ι} {next : ρ → Prog ι ρ α} {s s' t : σ} {r : ρ} {a : α} :
      step s i r s' → Ends step (next r) s' a t → Ends step (.ask i next) s a t

/-- The states on the way, from the first to the last. -/
inductive Visits (step : σ → ι → ρ → σ → Prop) : Prog ι ρ α → σ → σ → Prop
  | here (p : Prog ι ρ α) (s : σ) : Visits step p s s
  | ask {i : ι} {next : ρ → Prog ι ρ α} {s s' t : σ} {r : ρ} :
      step s i r s' → Visits step (next r) s' t → Visits step (.ask i next) s t

/-- **The weakest precondition**: every state that a request leads to has `P`, the last one `Q`. -/
def wp (step : σ → ι → ρ → σ → Prop) (P : σ → Prop) : Prog ι ρ α → (α → σ → Prop) → σ → Prop
  | .ret a, Q, s => Q a s
  | .ask i next, Q, s => ∀ r s', step s i r s' → P s' ∧ wp step P (next r) Q s'

theorem wp_pure {a : α} {s : σ} : wp step P (pure a) Q s ↔ Q a s := Iff.rfl

theorem wp_request {i : ι} {Q : ρ → σ → Prop} {s : σ} :
    wp step P (request i) Q s ↔ ∀ r s', step s i r s' → P s' ∧ Q r s' := Iff.rfl

theorem wp_bind {p : Prog ι ρ α} {f : α → Prog ι ρ β} {Q : β → σ → Prop} {s : σ} :
    wp step P (p >>= f) Q s ↔ wp step P p (fun a => wp step P (f a) Q) s := by
  change wp step P (p.bind f) Q s ↔ _
  induction p generalizing s with
  | ret a => exact Iff.rfl
  | ask i next ih =>
    constructor
    · exact fun h r s' hstep => ⟨(h r s' hstep).1, (ih r).mp (h r s' hstep).2⟩
    · exact fun h r s' hstep => ⟨(h r s' hstep).1, (ih r).mpr (h r s' hstep).2⟩

theorem wp_mono {p : Prog ι ρ α} {s : σ} (h : wp step P p Q s) (hP : ∀ s, P s → P' s)
    (hQ : ∀ a s, Q a s → Q' a s) : wp step P' p Q' s := by
  induction p generalizing s with
  | ret a => exact hQ a s h
  | ask i next ih =>
    intro r s' hstep
    exact ⟨hP s' (h r s' hstep).1, ih r (h r s' hstep).2⟩

/-- **The invariant rule**: what every request preserves, every program does. -/
theorem wp_invariant {Inv : σ → Prop} (hstep : ∀ s i r s', Inv s → step s i r s' → Inv s')
    (p : Prog ι ρ α) {s : σ} (hs : Inv s) : wp step Inv p (fun _ => Inv) s := by
  induction p generalizing s with
  | ret a => exact hs
  | ask i next ih =>
    intro r s' hs'
    have hinv := hstep s i r s' hs hs'
    exact ⟨hinv, ih r hinv⟩

/-- What holds in front of a program at the end of a run. -/
theorem Ends.wp {p : Prog ι ρ α} {s t : σ} {a : α} (hrun : Ends step p s a t)
    (h : wp step P p Q s) : Q a t := by
  induction hrun with
  | ret a s => exact h
  | ask hstep _ ih => exact ih (h _ _ hstep).2

/-- What holds in front of a program on the way. -/
theorem Visits.wp {p : Prog ι ρ α} {s t : σ} (hrun : Visits step p s t) (h : wp step P p Q s)
    (hs : P s) : P t := by
  induction hrun with
  | here p s => exact hs
  | ask hstep _ ih => exact ih (h _ _ hstep).2 (h _ _ hstep).1

theorem Ends.mono {p : Prog ι ρ α} {s t : σ} {a : α} (hrun : Ends step p s a t)
    (hstep : ∀ s i r s', step s i r s' → step' s i r s') : Ends step' p s a t := by
  induction hrun with
  | ret a s => exact .ret a s
  | ask h _ ih => exact .ask (hstep _ _ _ _ h) ih

theorem Ends.bind {p : Prog ι ρ α} {f : α → Prog ι ρ β} {s t u : σ} {a : α} {b : β}
    (h1 : Ends step p s a t) (h2 : Ends step (f a) t b u) : Ends step (p >>= f) s b u := by
  induction h1 with
  | ret a s => exact h2
  | ask hstep _ ih => exact .ask hstep (ih h2)

/-- The states on the way through a first part. -/
theorem Visits.bind {p : Prog ι ρ α} {f : α → Prog ι ρ β} {s t : σ} (hrun : Visits step p s t) :
    Visits step (p >>= f) s t := by
  induction hrun with
  | here p s => exact .here _ s
  | ask hstep _ ih => exact .ask hstep ih

/-! ## Programs with few requests -/

theorem wp_and {p : Prog ι ρ α} {s : σ} (h : wp step P p Q s) (h' : wp step P' p Q' s) :
    wp step P p (fun a s => Q a s ∧ Q' a s) s := by
  induction p generalizing s with
  | ret a => exact ⟨h, h'⟩
  | ask i next ih =>
    intro r s' hstep
    exact ⟨(h r s' hstep).1, ih r (h r s' hstep).2 (h' r s' hstep).2⟩

/-- Every request that a program can make is one of these. -/
def Makes (allowed : ι → Prop) : Prog ι ρ α → Prop
  | .ret _ => True
  | .ask i next => allowed i ∧ ∀ r, Makes allowed (next r)

variable {allowed : ι → Prop}

theorem makes_pure (a : α) : Makes allowed (pure a : Prog ι ρ α) := trivial

theorem makes_request {i : ι} (h : allowed i) : Makes allowed (request i : Prog ι ρ ρ) :=
  ⟨h, fun _ => trivial⟩

theorem makes_bind {p : Prog ι ρ α} {f : α → Prog ι ρ β} (hp : Makes allowed p)
    (hf : ∀ a, Makes allowed (f a)) : Makes allowed (p >>= f) := by
  change Makes allowed (p.bind f)
  induction p with
  | ret a => exact hf a
  | ask i next ih => exact ⟨hp.1, fun r => ih r (hp.2 r)⟩

theorem makes_foldlM {f : β → α → Prog ι ρ β} (hf : ∀ b a, Makes allowed (f b a)) (as : List α)
    (b : β) : Makes allowed (as.foldlM f b) := by
  induction as generalizing b with
  | nil => exact makes_pure b
  | cons a as ih =>
    rw [List.foldlM_cons]
    exact makes_bind (hf b a) fun b => ih b

/-- **The invariant rule for its requests.** -/
theorem wp_of_makes {Inv : σ → Prop} {p : Prog ι ρ α} {s : σ} (hp : Makes allowed p)
    (hstep : ∀ s i r s', allowed i → Inv s → step s i r s' → Inv s') (hs : Inv s) :
    wp step Inv p (fun _ => Inv) s := by
  induction p generalizing s with
  | ret a => exact hs
  | ask i next ih =>
    intro r s' hs'
    have hinv := hstep s i r s' hp.1 hs hs'
    exact ⟨hinv, ih r (hp.2 r) hinv⟩

end Prog
