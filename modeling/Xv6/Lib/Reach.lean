/-
  Transition systems.

  `Reach init step` are the states reached from `init` by labelled steps.  An
  invariant is shown for the initial states and for one step (`Reach.inv`), or
  along a part of a run (`Along.inv`).  For systems given by a function, `run`
  executes a list of labels, so that a concrete run can be evaluated
  (`Reached.ofRun`).
-/
import Mathlib.Init

namespace Transition

variable {σ A : Type*}

/-- The states reached from `init` by steps. -/
inductive Reach (init : σ → Prop) (step : σ → A → σ → Prop) : σ → Prop
  | init {s : σ} : init s → Reach init step s
  | step {s s' : σ} {x : A} : Reach init step s → step s x s' → Reach init step s'

variable {step : σ → A → σ → Prop}

/-- **The invariant rule.** -/
theorem Reach.inv {init : σ → Prop} {I : σ → Prop} (h0 : ∀ s, init s → I s)
    (hstep : ∀ s x s', I s → step s x s' → I s') {s : σ} (h : Reach init step s) : I s := by
  induction h with
  | init hs => exact h0 _ hs
  | step _ hs ih => exact hstep _ _ _ ih hs

/-- A run from `s` through states with the property `P`. -/
inductive Along (P : σ → Prop) (step : σ → A → σ → Prop) (s : σ) : σ → Prop
  | refl : P s → Along P step s s
  | step {t u : σ} {x : A} : Along P step s t → step t x u → P u → Along P step s u

theorem Along.last {P : σ → Prop} {s t : σ} (h : Along P step s t) :
    P t := by
  cases h <;> assumption

/-- The invariant rule for a part of a run. -/
theorem Along.inv {P I : σ → Prop} {s t : σ} (h : Along P step s t) (h0 : I s)
    (hstep : ∀ t x u, P t → I t → step t x u → P u → I u) : I t := by
  induction h with
  | refl _ => exact h0
  | step h hs hu ih => exact hstep _ _ _ h.last ih hs hu

/-- Run a system given by a partial function. -/
def run (next : σ → A → Option σ) : σ → List A → Option σ
  | s, [] => some s
  | s, x :: xs => (next s x).bind (run next · xs)

theorem Reach.of_run {init : σ → Prop} {next : σ → A → Option σ}
    (hn : ∀ s x s', next s x = some s' → step s x s') : ∀ (xs : List A) {s s' : σ},
    Reach init step s → run next s xs = some s' → Reach init step s'
  | [], _, _, hs, h => by cases h; exact hs
  | x :: xs, s, s', hs, h => by
    simp only [run, Option.bind_eq_some_iff] at h
    obtain ⟨t, ht, h⟩ := h
    exact Reach.of_run hn xs (.step hs (hn _ _ _ ht)) h

/-- A state of the runs `R`, with a property that can be evaluated. -/
structure Reached (R : σ → Prop) (P : σ → Bool) where
  state : σ
  reach : R state
  prop : P state = true

/-- The end of a run. -/
def Reached.ofRun {init : σ → Prop} {step : σ → A → σ → Prop} {P : σ → Bool}
    (next : σ → A → Option σ) (hn : ∀ s x s', next s x = some s' → step s x s') {s : σ}
    (hs : init s) (xs : List A) (h : (run next s xs).any P = true) : Reached (Reach init step) P :=
  match hr : run next s xs with
  | none => absurd h (by rw [hr]; rintro ⟨⟩)
  | some s' => ⟨s', .of_run hn xs (.init hs) hr, by simpa [hr] using h⟩

end Transition
