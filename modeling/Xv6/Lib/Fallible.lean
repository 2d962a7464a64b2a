/-
  Computations that can fail, as values of `Except`: what a result tells about
  the steps, the invariant rule for a loop over a list, computations that do
  not fail in one particular way, and computations that draw on a supply and
  fail for lack of it only if there was too little (`Spends`).
-/
import Mathlib.Data.Nat.Notation

namespace Fallible

universe u v

variable {ε : Type u} {α β σ : Type v}

theorem bind_ok {x : Except ε α} {f : α → Except ε β} {y : β} (h : (x >>= f) = .ok y) :
    ∃ a, x = .ok a ∧ f a = .ok y := by
  cases x with
  | error e => cases h
  | ok a => exact ⟨a, rfl, h⟩

/-- **The loop rule.**  `I l s` holds when the elements of `l` are still to come; if no round
    fails, the loop succeeds. -/
theorem foldlM_ok {f : σ → α → Except ε σ} {I : List α → σ → Prop}
    (hstep : ∀ a l s, I (a :: l) s → ∃ s', f s a = .ok s' ∧ I l s') :
    ∀ (l : List α) (s : σ), I l s → ∃ s', l.foldlM f s = .ok s' ∧ I [] s'
  | [], s, h => ⟨s, rfl, h⟩
  | a :: l, s, h => by
    obtain ⟨s₁, h₁, hi⟩ := hstep a l s h
    obtain ⟨s₂, h₂, hn⟩ := foldlM_ok hstep l s₁ hi
    refine ⟨s₂, ?_, hn⟩
    rw [List.foldlM_cons, h₁]
    exact h₂

/-- The loop rule for a loop that counts up. -/
theorem foldlM_range_ok {f : σ → ℕ → Except ε σ} {I : ℕ → σ → Prop} : ∀ (n : ℕ) {s : σ}, I 0 s →
    (∀ i s, i < n → I i s → ∃ s', f s i = .ok s' ∧ I (i + 1) s') →
    ∃ s', (List.range n).foldlM f s = .ok s' ∧ I n s'
  | 0, s, h, _ => ⟨s, rfl, h⟩
  | n + 1, s, h, hstep => by
    obtain ⟨s₁, h₁, hi⟩ := foldlM_range_ok n h fun i s hi => hstep i s (by omega)
    obtain ⟨s₂, h₂, hn⟩ := hstep n s₁ (by omega) hi
    refine ⟨s₂, ?_, hn⟩
    rw [List.range_succ, List.foldlM_append, h₁]
    change ([n].foldlM f s₁) = _
    rw [List.foldlM_cons, h₂]
    rfl

/-- `x` does not fail with `e`, and its result satisfies `Q`. -/
def Safe (e : ε) (Q : α → Prop) (x : Except ε α) : Prop := x ≠ .error e ∧ ∀ a, x = .ok a → Q a

variable {e : ε} {Q : α → Prop} {R : β → Prop} {x : Except ε α} {f : α → Except ε β}

theorem Safe.ok {a : α} (h : Q a) : Safe e Q (.ok a) := ⟨by rintro ⟨⟩, fun _ ha => by cases ha; exact h⟩

theorem Safe.error {e' : ε} (h : e' ≠ e) : Safe e Q (.error e') :=
  ⟨fun heq => h (by cases heq; rfl), by rintro _ ⟨⟩⟩

theorem Safe.mono {Q' : α → Prop} (hx : Safe e Q x) (h : ∀ a, Q a → Q' a) : Safe e Q' x :=
  ⟨hx.1, fun a ha => h a (hx.2 a ha)⟩

theorem Safe.bind (hx : Safe e Q x) (hf : ∀ a, Q a → Safe e R (f a)) : Safe e R (x >>= f) := by
  cases x with
  | error e' => exact .error fun heq => hx.1 (by rw [heq])
  | ok a => exact hf a (hx.2 a rfl)

/-! ## Supplies -/

/-- With `n` units in supply, `x` uses at most `c`: it leaves `n'` with its result, or fails with
`e₀` having found fewer than `c`, or fails in one of the ways `E`. -/
def Spends (e₀ : ε) (E : ε → Prop) (c n : ℕ) (x : Except ε α) (Q : α → ℕ → Prop) : Prop :=
  match x with
  | .ok a => ∃ n', n ≤ n' + c ∧ Q a n'
  | .error e => e = e₀ ∧ n < c ∨ E e

namespace Spends
variable {e₀ : ε} {E E' : ε → Prop} {c c' n : ℕ} {x : Except ε α} {f : α → Except ε β}
  {Q Q' : α → ℕ → Prop} {R : β → ℕ → Prop}

theorem ok {a : α} (h : Q a n) : Spends e₀ E 0 n (.ok a) Q := ⟨n, Nat.le_refl n, h⟩

/-- A result for which nothing has been used. -/
theorem unused {a : α} (h : Q a n) : Spends e₀ E c n (.ok a) Q := ⟨n, Nat.le_add_right n c, h⟩

theorem mono (h : Spends e₀ E c n x Q) (hc : c ≤ c') (hE : ∀ e, E e → E' e)
    (hQ : ∀ a n', Q a n' → Q' a n') : Spends e₀ E' c' n x Q' := by
  cases x with
  | error e =>
    rcases h with ⟨he, hn⟩ | he
    · exact .inl ⟨he, by omega⟩
    · exact .inr (hE e he)
  | ok a =>
    obtain ⟨n', hn, hq⟩ := h
    exact ⟨n', by omega, hQ a n' hq⟩

/-- The postcondition may speak of the result. -/
theorem result (h : Spends e₀ E c n x Q) : Spends e₀ E c n x fun a n' => x = .ok a ∧ Q a n' := by
  cases x with
  | error e => exact h
  | ok a =>
    obtain ⟨n', hn, hq⟩ := h
    exact ⟨n', hn, rfl, hq⟩

/-- Enough supply. -/
theorem run (h : Spends e₀ (fun _ => False) c n x Q) (hc : c ≤ n) :
    ∃ a n', x = .ok a ∧ n ≤ n' + c ∧ Q a n' := by
  cases x with
  | error e =>
    rcases h with ⟨-, hn⟩ | he
    · omega
    · exact he.elim
  | ok a =>
    obtain ⟨n', hn, hq⟩ := h
    exact ⟨a, n', rfl, hn, hq⟩

/-- Some units have been used before. -/
theorem drawn (h : Spends e₀ E c n x Q) (m : ℕ) : Spends e₀ E (m + c) (m + n) x Q := by
  cases x with
  | error e =>
    rcases h with ⟨he, hn⟩ | he
    · exact .inl ⟨he, by omega⟩
    · exact .inr he
  | ok a =>
    obtain ⟨n', hn, hq⟩ := h
    exact ⟨n', by omega, hq⟩

/-- **Sequencing** adds what is used. -/
theorem bind (h : Spends e₀ E c n x Q) (hf : ∀ a n', Q a n' → Spends e₀ E c' n' (f a) R) :
    Spends e₀ E (c + c') n (x >>= f) R := by
  cases x with
  | error e =>
    rcases h with ⟨he, hn⟩ | he
    · exact .inl ⟨he, by omega⟩
    · exact .inr he
  | ok a =>
    obtain ⟨n', hn, hq⟩ := h
    have hfa := hf a n' hq
    change Spends e₀ E (c + c') n (f a) R
    cases hx : f a with
    | error e =>
      rw [hx] at hfa
      rcases hfa with ⟨he, hlt⟩ | he
      · exact .inl ⟨he, by omega⟩
      · exact .inr he
    | ok b =>
      rw [hx] at hfa
      obtain ⟨n'', hle, hr⟩ := hfa
      exact ⟨n'', by omega, hr⟩

end Spends

end Fallible
