/-
  Invariants of the code of a client.

  A property of a slot, of the point at which its process is in the client, and
  of the shared data is an invariant when the steps of the client keep it: for
  the process that makes the step, and for all others.  It need not say
  anything about the kernel.
-/
import Xv6.Proc.Locking

namespace Xv6

/-- An invariant of a client in which every process starts at `k0`. -/
structure ClientInv (cl : Client) (k0 : cl.K) where
  holds : PSlot → Option cl.K → cl.G → Prop
  /-- a slot without a process is as good as one with a new process -/
  start : ∀ p g, holds p (some k0) g ↔ holds p none g
  child : ∀ {p x g k c a g' kc}, cl.prog p x g k c = some (a, g') → a.pc.child = some kc →
    kc = k0
  self : ∀ {p x g k c a g'}, cl.prog p x g k c = some (a, g') → holds p (some k) g →
    holds p a.pc.control g'
  other : ∀ {p x g k c a g' q o}, cl.prog p x g k c = some (a, g') → q ≠ p → holds q o g →
    holds q o g'

namespace ClientInv

open Kern

variable {cl : Client} {k0 : cl.K} (J : ClientInv cl k0) {s s' : Kern cl} {c : ℕ} {p q : PSlot}

structure Ok (s : Kern cl) : Prop where
  holds : ∀ p, J.holds p (s.pc p).control s.g
  child : ∀ p kc, (s.pc p).child = some kc → kc = k0
  inert : ∀ p, (s.pc p).inert → (s.pc p).control = none ∨ (s.pc p).control = some k0

variable {J}

theorem Ok.boot {g : cl.G} (h : ∀ p, J.holds p none g) : J.Ok (boot cl k0 g) := by
  constructor <;> intro p <;> simp only [Kern.boot] <;> split
  · exact (J.start p g).2 (h p)
  · exact h p
  · rintro _ ⟨⟩
  · rintro _ ⟨⟩
  · exact fun _ => .inr rfl
  · exact fun _ => .inl rfl

theorem Ok.moves (hi : J.Ok s) (hs : Sane s) (h : Moves s c p s') : J.Ok s' := by
  have hne : ∀ q, q ≠ p → s'.pc q = s.pc q ∨ (s.pc q).inert ∧ s'.pc q = .forkret k0 := by
    intro q hq
    rcases h.pc_ne hs hq with he | ⟨hin, k, he, hk⟩
    · exact .inl he
    · exact .inr ⟨hin, by rw [he, hi.child p k hk]⟩
  constructor
  · intro q
    by_cases hqp : q = p
    · subst hqp
      rcases h.client with ⟨k, x, a, hpc, hprog, hpc'⟩ | ⟨hg, hctl, -⟩
      · have hq := hi.holds q
        rw [hpc] at hq
        rw [hpc']
        exact J.self hprog hq
      · rw [hg, hctl]
        exact hi.holds q
    · have hq : J.holds q (s'.pc q).control s.g := by
        rcases hne q hqp with he | ⟨hin, he⟩ <;> rw [he]
        · exact hi.holds q
        · have := hi.holds q
          rcases hi.inert q hin with hk | hk <;> rw [hk] at this
          · exact (J.start q s.g).2 this
          · exact this
      rcases h.client with ⟨k, x, a, -, hprog, -⟩ | ⟨hg, -⟩
      · exact J.other hprog hqp hq
      · rw [hg]
        exact hq
  · intro q kc hkc
    by_cases hqp : q = p
    · subst hqp
      rcases h.client with ⟨k, x, a, -, hprog, hpc'⟩ | ⟨-, -, hch⟩
      · exact J.child hprog (hpc' ▸ hkc)
      · exact hi.child q kc (hch kc hkc)
    · rcases hne q hqp with he | ⟨-, he⟩ <;> rw [he] at hkc
      · exact hi.child q kc hkc
      · cases hkc
  · intro q hin
    by_cases hqp : q = p
    · subst hqp
      rw [h.dead_of_inert hs hin]
      exact .inl rfl
    · rcases hne q hqp with he | ⟨-, he⟩ <;> rw [he] at hin ⊢
      · exact hi.inert q hin
      · exact .inr rfl

theorem Ok.stepped (hi : J.Ok s) (hs : Sane s) (h : Stepped s c s') : J.Ok s' := by
  cases h with
  | thread _ h => exact hi.moves hs h
  | sched h =>
    obtain ⟨hpc, -, hg, -⟩ := h.frame
    exact ⟨by rw [hpc, hg]; exact hi.holds, by rw [hpc]; exact hi.child,
      by rw [hpc]; exact hi.inert⟩
  | intr => exact ⟨hi.holds, hi.child, hi.inert⟩

/-- **The invariant rule** for the code of a client. -/
theorem of_runs (J : ClientInv cl k0) {g : cl.G} (h0 : ∀ p, J.holds p none g)
    (h : Runs cl k0 g s) (p : PSlot) : J.holds p (s.pc p).control s.g :=
  (h.inv (I := fun s => Sane s ∧ J.Ok s) ⟨.boot k0 g, .boot h0⟩
    fun _ _ _ hi hs => ⟨hi.1.stepped hs, hi.2.stepped hi.1 hs⟩).2.holds p

end ClientInv

end Xv6
