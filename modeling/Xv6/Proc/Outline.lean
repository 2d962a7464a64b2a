/-
  What a process knows while it holds a lock.

  Between `acquire` and `release` of a spin-lock, code relies on what it found
  out about the data behind the lock.  An `Outline` says what the client knows
  at each of its points; it is true in all runs (`Outline.Ok.stepped`), since
  the other processes leave the data alone while the lock is held.
-/
import Xv6.Proc.Locking

namespace Xv6

namespace KPc

variable {L K G : Type} {holds : K → L → Prop} {knows : K → G → Prop} {lk : L} {g g' : G}

/-- What the thread knows; after a `sleep` or a `wait` it knows nothing. -/
def Knows (knows : K → G → Prop) (g : G) : KPc L K → Prop
  | client k | wakeAcq _ k | wakeGo _ k | killAcq _ k | killGo _ k
  | forkSetup _ k | forkParent _ k | forkRun _ k => knows k g
  | forkAcq k kc | forkFind k kc => knows k g ∧ ∀ g, knows kc g
  | sleepAcq _ _ k | sleepRel _ _ k | sleepGo _ _ k | sleepBack _ _ k | sleepReacq _ k
  | waitAcq k | waitScan k | waitBack k | forkret k => ∀ g, knows k g
  | yieldAcq pc | yieldGo pc | yieldBack pc => pc.Knows knows g
  | _ => True

theorem Knows.mono {pc : KPc L K} (h : pc.Knows knows g) (hg : ∀ k, knows k g → knows k g') :
    pc.Knows knows g' := by
  induction pc with
  | yieldAcq pc ih => exact ih h
  | yieldGo pc ih => exact ih h
  | yieldBack pc ih => exact ih h
  | forkAcq k | forkFind k => exact ⟨hg k h.1, h.2⟩
  | client | wakeAcq | wakeGo | killAcq | killGo | forkSetup | forkParent | forkRun =>
    exact hg _ h
  | _ => exact h

/-- Without the lock there is nothing to know. -/
theorem Knows.of_not_holds {pc : KPc L K} (h : pc.Knows knows g) (hl : ¬pc.Holds holds lk)
    (hidle : ∀ k g, ¬holds k lk → knows k g) : pc.Knows knows g' := by
  induction pc with
  | yieldAcq pc ih | yieldGo pc ih | yieldBack pc ih => exact ih h hl
  | forkAcq k | forkFind k => exact ⟨hidle k g' hl, h.2⟩
  | client | wakeAcq | wakeGo | killAcq | killGo | forkSetup | forkParent | forkRun =>
    exact hidle _ _ hl
  | _ => exact h

theorem knows_true (pc : KPc L K) : pc.Knows (fun _ _ => True) g := by
  induction pc with
  | yieldAcq pc ih => exact ih
  | yieldGo pc ih => exact ih
  | yieldBack pc ih => exact ih
  | _ => simp [Knows]

theorem acquired_knows {pc pc' : KPc L K} (h : pc.acquired = some pc') :
    pc'.Knows knows g ↔ pc.Knows knows g := by
  cases pc <;> simp only [acquired, Option.some.injEq, reduceCtorEq] at h <;>
    subst h <;> exact .rfl

end KPc

/-- What the code of a client knows about the shared data while it holds `lk`. -/
structure Outline {cl : Client} (D : Locking cl) where
  lk : cl.L
  knows : cl.K → cl.G → Prop
  idle : ∀ k g, ¬D.holds k lk → knows k g
  step : ∀ {p x g k c a g'}, cl.prog p x g k c = some (a, g') → knows k g → a.pc.Knows knows g'
  /-- what others do without the lock does not matter -/
  stable : ∀ {p x g k c a g'}, cl.prog p x g k c = some (a, g') → ¬D.holds k lk →
    ∀ k', knows k' g → knows k' g'

namespace Outline

open Kern

/-- Nothing has to be known. -/
def trivial {cl : Client} (D : Locking cl) (lk : cl.L) : Outline D where
  lk := lk
  knows _ _ := True
  idle _ _ _ := True.intro
  step {_ _ _ _ _ a _} _ _ := KPc.knows_true a.pc
  stable _ _ _ := id

variable {cl : Client} {D : Locking cl} (O : Outline D) {s s' : Kern cl} {c : ℕ} {p q : PSlot}

def Ok (s : Kern cl) : Prop := ∀ p, (s.pc p).Knows O.knows s.g

variable {O}

theorem Ok.boot {k : cl.K} (hk : ∀ l, ¬D.holds k l) (g : cl.G) : O.Ok (boot cl k g) := by
  intro p
  simp only [Kern.boot]
  split
  · exact fun g => O.idle k g (hk _)
  · trivial

/-- The thread that makes the step. -/
theorem Ok.moves_self (hi : O.Ok s) (h : Moves s c p s') : (s'.pc p).Knows O.knows s'.g := by
  have hp := hi p
  have hact : ∀ {k x a g}, s.pc p = .client k → cl.prog p (s.tab p) s.g k x = some (a, g) →
      a.pc.Knows O.knows g := fun hpc hprog => by
    rw [hpc] at hp
    exact O.step hprog hp
  cases h with
  | goto hpc hprog | acquire hpc hprog | release hpc hprog | fault hpc hprog =>
    simpa [Act.pc] using hact hpc hprog
  | enter hpc hprog ha => simpa [Act.pc_of_entry ha] using hact hpc hprog
  | timer => simpa [KPc.Knows] using hp
  | lockPt ha => simpa using (KPc.acquired_knows ha).2 hp
  | _ => simp_all [KPc.Knows]

/-- A child knows nothing. -/
theorem knows_child {pc : KPc cl.L cl.K} {g : cl.G} {kc : cl.K} (h : pc.Knows O.knows g)
    (hc : pc.child = some kc) (g' : cl.G) : O.knows kc g' := by
  induction pc with
  | yieldAcq pc ih | yieldGo pc ih | yieldBack pc ih => exact ih h hc
  | forkAcq | forkFind => cases hc; exact h.2 g'
  | _ => cases hc

theorem Ok.moves (hi : O.Ok s) (hD : D.Ok s) (hs : Sane s) (h : Moves s c p s') : O.Ok s' := by
  intro q
  by_cases hqp : q = p
  · subst hqp
    exact hi.moves_self h
  rcases h.pc_ne hs hqp with he | ⟨-, k, he, hk⟩ <;> rw [he]
  · rcases h.client with ⟨k, x, a, hpc, hprog, -⟩ | ⟨hg, -⟩
    · by_cases hq : (s.pc q).Holds D.holds O.lk
      · -- `q` has the lock, so the step was made without it
        have hk : ¬D.holds k O.lk := fun hk =>
          hqp (hD.exclusive hq (by rw [hpc]; exact hk))
        exact (hi q).mono (O.stable hprog hk)
      · exact (hi q).of_not_holds hq O.idle
    · rw [hg]
      exact hi q
  · exact fun g => knows_child (hi p) hk g

theorem Ok.stepped (hi : O.Ok s) (hD : D.Ok s) (hs : Sane s) (h : Stepped s c s') : O.Ok s' := by
  cases h with
  | thread _ h => exact hi.moves hD hs h
  | sched h =>
    obtain ⟨hpc, -, hg, -⟩ := h.frame
    intro q
    rw [hpc, hg]
    exact hi q
  | intr => exact hi

end Outline

end Xv6
