/-
  The scheduler is round-robin.

  The scan position of a CPU lives in the loop variable of `scheduler` across
  context switches, and runs through the table in a circle (`Cpu.pos`).  While
  a slot stays `RUNNABLE` no CPU can pass it, so that the scan does not come
  around to the slot it dispatched before.  The counter `skipped` counts slots
  found not `RUNNABLE` in a row, so that above `NPROC` it has seen them all.
-/
import Xv6.Proc.Running

namespace Xv6

open Transition

namespace Cpu

/-- The slot that `scheduler` looks at next, up to `NPROC`. -/
def pos (x : Cpu) : ℕ :=
  match x.ctl with
  | .idle | .check | .halt => 0
  | .scan i => i
  | .disp p => p
  | .back p => p + 1
  | .run => match x.proc with
    | some p => p + 1
    | none => 0

/-- What a step does to its CPU, with the process table before the step. -/
inductive Goes (t : Ptable) (x : Cpu) : Cpu → Prop
  | same : Goes t x x
  | switch {p} : x.Runs p → Goes t x { x with ctl := .back p }
  | lockPt : x.ctl = .idle → Goes t x { x with ctl := .scan 0 }
  | skip {p : PSlot} : x.ctl = .scan p → (t p).state ≠ .runnable →
      Goes t x { x with ctl := .scan (p + 1), skipped := x.skipped + 1, found := insert p x.found }
  | pick {p : PSlot} : x.ctl = .scan p → (t p).state = .runnable →
      Goes t x { proc := some p, ctl := .disp p, skipped := 0, found := ∅ }
  | unlockPt {i} : x.ctl = .scan i → NPROC ≤ i → Goes t x { x with ctl := .check }
  | disp {p} : x.ctl = .disp p → Goes t x { x with ctl := .run }
  | back {p : PSlot} : x.ctl = .back p → Goes t x { x with proc := none, ctl := .scan (p + 1) }
  | check : x.ctl = .check →
      Goes t x { x with ctl := if x.skipped > NPROC then .halt else .idle }
  | halt : x.ctl = .halt → Goes t x { x with ctl := .idle, skipped := 0 }

end Cpu

namespace Kern

variable {cl : Client} {s s' : Kern cl} {c c' : ℕ} {p q : PSlot}

theorem Moves.goes (hon : s.On c p) (h : Moves s c p s') :
    (s.cpu c).Goes s.tab (s'.cpu c) := by
  cases h
  case yieldGo | sleepGo | exitGo | waitSleep => simpa using Cpu.Goes.switch hon
  all_goals exact .same

theorem Schedules.goes (h : Schedules s c s') : (s.cpu c).Goes s.tab (s'.cpu c) := by
  cases h with
  | lockPt hc => simpa using Cpu.Goes.lockPt hc
  | inspect hc =>
    unfold Kern.inspect
    split
    · simpa using Cpu.Goes.pick hc ‹_›
    · simpa using Cpu.Goes.skip hc ‹_›
  | unlockPt hc hi => simpa using Cpu.Goes.unlockPt hc hi
  | disp hc => simpa using Cpu.Goes.disp hc
  | back hc => simpa using Cpu.Goes.back hc
  | check hc => simpa using Cpu.Goes.check hc
  | halt hc => simpa using Cpu.Goes.halt hc

theorem Stepped.goes (h : Stepped s c s') : (s.cpu c).Goes s.tab (s'.cpu c) := by
  cases h with
  | thread hon h => exact h.goes hon
  | sched h => exact h.goes
  | intr => exact .same

/-! ## The scan position -/

/-- How many slots the scan at `i` has passed since it was at slot `p`. -/
def since (i : ℕ) (p : PSlot) : ℕ := (i + (NPROC - 1 - p)) % NPROC

theorem since_lt (i : ℕ) (p : PSlot) : since i p < NPROC := Nat.mod_lt _ (by decide)

theorem since_succ_self (p : PSlot) : since (p + 1) p = 0 := by
  simp only [since, NPROC]; omega

theorem since_wrap (p : PSlot) : since NPROC p = since 0 p := by
  simp only [since, NPROC]; omega

theorem since_succ {i : ℕ} (hi : i < NPROC) (hp : i ≠ p) : since (i + 1) p = since i p + 1 := by
  simp only [since, NPROC] at *; omega

/-- All other slots come before `p` comes again. -/
theorem since_lt_self (h : q ≠ p) : since q p < since p p := by
  have : q.val ≠ p.val := fun h' => h (Fin.ext h')
  simp only [since, NPROC]; omega

/-- From a position that is not past `q`, and not at `q`, the scan does not get past `q`. -/
theorem since_succ_le {i : ℕ} (hi : i < NPROC) (hq : i ≠ q) (h : since i p ≤ since q p) :
    since (i + 1) p ≤ since q p := by
  simp only [since, NPROC] at *; omega

/-- What a CPU in `scheduler` has seen: at least the last `skipped` slots. -/
structure Seen (x : Cpu) : Prop where
  scan : ∀ i, x.ctl = .scan i → i ≤ NPROC
  disp : ∀ p, x.ctl = .disp p → x.skipped = 0
  halt : x.ctl = .halt → NPROC < x.skipped
  found : ∀ q, since x.pos q < x.skipped → q ∈ x.found

theorem Seen.goes {t : Ptable} {x y : Cpu} (hx : Seen x) (h : x.Goes t y) : Seen y := by
  have hf := hx.found
  cases h with
  | same => exact hx
  | switch hr => exact ⟨by rintro _ ⟨⟩, by rintro _ ⟨⟩, by rintro ⟨⟩, by simpa [Cpu.pos, hr.ctl, hr.proc] using hf⟩
  | lockPt hc =>
    exact ⟨fun i hi => by cases hi; simp, by rintro _ ⟨⟩, by rintro ⟨⟩, by simpa [Cpu.pos, hc] using hf⟩
  | @skip p hc _ =>
    refine ⟨fun i hi => by cases hi; exact p.isLt, by rintro _ ⟨⟩, by rintro ⟨⟩, fun q hq => ?_⟩
    simp only [Cpu.pos, hc] at hf hq
    by_cases hqp : q = p
    · simp [hqp]
    · have hne : p.val ≠ q.val := fun h => hqp (Fin.ext h.symm)
      rw [since_succ p.isLt hne] at hq
      exact Finset.mem_insert_of_mem (hf q (by omega))
  | pick => exact ⟨by rintro _ ⟨⟩, fun _ _ => rfl, by rintro ⟨⟩, by rintro _ ⟨⟩⟩
  | unlockPt hc hi =>
    have : _ = NPROC := le_antisymm (hx.scan _ hc) hi
    subst this
    exact ⟨by rintro _ ⟨⟩, by rintro _ ⟨⟩, by rintro ⟨⟩, by simpa [Cpu.pos, hc, since_wrap] using hf⟩
  | disp hc => exact ⟨by rintro _ ⟨⟩, by rintro _ ⟨⟩, by rintro ⟨⟩, fun q hq => by simp [hx.disp _ hc] at hq⟩
  | back hc =>
    exact ⟨fun i hi => by cases hi; exact Fin.isLt _, by rintro _ ⟨⟩, by rintro ⟨⟩,
      by simpa [Cpu.pos, hc] using hf⟩
  | check hc =>
    simp only [Cpu.pos, hc] at hf
    split
    · exact ⟨by rintro _ ⟨⟩, by rintro _ ⟨⟩, fun _ => ‹_›, hf⟩
    · exact ⟨by rintro _ ⟨⟩, by rintro _ ⟨⟩, by rintro ⟨⟩, hf⟩
  | halt hc => exact ⟨by rintro _ ⟨⟩, by rintro _ ⟨⟩, by rintro ⟨⟩, by rintro _ ⟨⟩⟩

theorem Runs.seen {k : cl.K} {g : cl.G} (h : Runs cl k g s) : ∀ c, Seen (s.cpu c) := by
  refine h.inv (I := fun s => ∀ c, Seen (s.cpu c)) (fun c => ⟨by rintro _ ⟨⟩, by rintro _ ⟨⟩, by rintro ⟨⟩, by rintro _ ⟨⟩⟩) ?_
  intro s c s' hi hs c'
  by_cases hc : c' = c
  · exact hc ▸ (hi c).goes hs.goes
  · rw [hs.cpu_ne hc]; exact hi c'

/-! ## No bypass -/

/-- The scan of a CPU that is not past `q` does not get past it while `q` stays runnable. -/
theorem since_goes {t : Ptable} {x y : Cpu} (hx : Seen x) (h : x.Goes t y)
    (hq : (t q).state = .runnable) (hd : ∀ p, x.ctl = .disp p → x.proc = some p ∧ p ≠ q)
    (hle : since x.pos p ≤ since q p) : since y.pos p ≤ since q p := by
  cases h with
  | same => exact hle
  | switch hr => simpa [Cpu.pos, hr.ctl, hr.proc] using hle
  | lockPt hc | pick hc | back hc | halt hc => simpa [Cpu.pos, hc] using hle
  | @skip p' hc hp =>
    simp only [Cpu.pos, hc] at hle
    have hne : p' ≠ q := by rintro rfl; exact hp hq
    exact since_succ_le p'.isLt (fun h => hne (Fin.ext h)) hle
  | unlockPt hc hi =>
    have : _ = NPROC := le_antisymm (hx.scan _ hc) hi
    subst this
    simpa [Cpu.pos, hc, since_wrap] using hle
  | @disp p' hc =>
    obtain ⟨hp, hne⟩ := hd p' hc
    simp only [Cpu.pos, hc, hp] at hle ⊢
    exact since_succ_le p'.isLt (fun h => hne (Fin.ext h)) hle
  | check hc =>
    by_cases hs : x.skipped > NPROC <;> simpa [Cpu.pos, hc, hs] using hle

/-- The scheduler of CPU `c` dispatches slot `p`: `p->state = RUNNING; swtch(…)`. -/
def Dispatches (s : Kern cl) (c : ℕ) (p : PSlot) (s' : Kern cl) : Prop :=
  (s.cpu c).ctl = .disp p ∧ s.next (c, .go) = some s'

theorem Dispatches.eq (h : Dispatches s c p s') :
    s' = (s.setProc p { s.tab p with state := .running }).setCtl c .run := by
  obtain ⟨hc, hn⟩ := h
  simp only [next, hc, schedNext, Option.some.injEq] at hn
  exact hn.symm

/-- One step of any CPU, while `q` stays runnable. -/
theorem since_step (hi : Sane s) (hseen : ∀ c, Seen (s.cpu c)) {c₁ : ℕ} (h : Stepped s c₁ s')
    (hq : (s.tab q).state = .runnable) (hq' : (s'.tab q).state = .runnable)
    (hle : since (s.cpu c).pos p ≤ since q p) : since (s'.cpu c).pos p ≤ since q p := by
  by_cases hc : c = c₁
  · subst hc
    cases h with
    | thread hon h =>
      exact since_goes (hseen c) (h.goes hon) hq (fun p' hp' => by simp [hon.ctl] at hp') hle
    | sched h =>
      refine since_goes (hseen c) h.goes hq (fun p' hp' => ?_) hle
      have hproc := (hi.cpu c).proc
      rw [hp'] at hproc
      refine ⟨hproc.1, ?_⟩
      -- the step at `disp` makes the slot `RUNNING`
      rintro rfl
      cases h <;> simp_all
    | intr => exact hle
  · rw [h.cpu_ne hc]; exact hle

/-- **Round-robin without bypass.**  Between two dispatches of slot `p` by one
CPU, no other slot stays runnable all the time; and a CPU executes `hlt` only
when it has found every slot not runnable since its last dispatch. -/
theorem round_robin {cl : Client} {k : cl.K} {g : cl.G} {s : Kern cl} (h : Runs cl k g s) (c : ℕ) :
    (∀ (p q : PSlot) (s₁ s₂ s₃ : Kern cl), Dispatches s c p s₁ → Dispatches s₂ c p s₃ → q ≠ p →
      ¬Along (fun s => (s.tab q).state = .runnable)
        (fun s x s' => s.next x = some s') s₁ s₂) ∧
    ((s.cpu c).ctl = .halt → ∀ q, q ∈ (s.cpu c).found) := by
  constructor
  · intro p q s₁ s₂ s₃ hd hd' hqp halong
    have h₁ : Runs cl k g s₁ := .step h hd.2
    have h₂ : Runs cl k g s₂ ∧ since (s₂.cpu c).pos p ≤ since q p := by
      refine halong.inv (I := fun s => Runs cl k g s ∧ since (s.cpu c).pos p ≤ since q p)
        ⟨h₁, ?_⟩ fun t x u ht hI hs hu => ⟨.step hI.1 hs, ?_⟩
      · -- right behind `p`
        have hproc := (h.sane.cpu c).proc
        rw [hd.1] at hproc
        rw [hd.eq]
        simp [Cpu.pos, hproc.1, since_succ_self]
      · exact since_step hI.1.sane hI.1.seen (stepped_of_next hs) ht hu hI.2
    have := h₂.2
    simp only [Cpu.pos, hd'.1] at this
    exact absurd (since_lt_self hqp) (by omega)
  · intro hc q
    have hs := h.seen c
    exact hs.found q ((since_lt _ q).trans (hs.halt hc))

/-- init runs on CPU 0; CPU 1 goes through the table twice. -/
def haltRun : List (ℕ × Label UserCall) := List.replicate 4 (0, .go) ++ List.replicate 134 (1, .go)

def haltEnd : Reached (Runs userClient () ()) fun s =>
    (s.cpu 1).ctl = .halt :=
  Runs.ofNext haltRun (by decide +kernel)

/-- A child of init and init give up CPU 0 in turn. -/
def turnRun : List (ℕ × Label UserCall) :=
  [(0, .go), (0, .timer)] ++ List.replicate 71 (0, .go) ++ [(0, .timer)] ++ List.replicate 4 (0, .go)

/-- CPU 0 dispatches the child, and dispatches it again at the end of `turnRun`. -/
def turnEnd : Reached (Runs userClient () ()) fun s =>
    (s.cpu 0).ctl = .disp 1 ∧ (s.next (0, .go)).any fun s₁ => (s₁.tab 0).state = .runnable ∧
      (run next s₁ turnRun).any fun s₂ =>
        (s₂.cpu 0).ctl = .disp 1 ∧ (s₂.next (0, .go)).isSome :=
  Runs.ofNext (List.replicate 4 (0, .go) ++ [(0, .client .fork)] ++ List.replicate 5 (0, .go) ++
    [(0, .timer)] ++ List.replicate 4 (0, .go)) (by decide +kernel)

theorem round_robin_run : (∃ s s₁ s₂ s₃, Runs userClient () () s ∧ Dispatches s 0 1 s₁ ∧
      (s₁.tab 0).state = .runnable ∧ run next s₁ turnRun = some s₂ ∧
      Dispatches s₂ 0 1 s₃ ∧ ¬Along (fun s => (s.tab 0).state = .runnable)
        (fun s x s' => s.next x = some s') s₁ s₂) ∧
    ∃ s, Runs userClient () () s ∧ (s.cpu 1).ctl = .halt ∧ ∀ q, q ∈ (s.cpu 1).found := by
  constructor
  · obtain ⟨s, hs, hP⟩ := turnEnd
    simp only [decide_eq_true_eq, Option.any_eq_true] at hP
    obtain ⟨hc, s₁, hn, h0, s₂, hrun, hc₂, hn₂⟩ := hP
    obtain ⟨s₃, hn₂⟩ := Option.isSome_iff_exists.1 hn₂
    exact ⟨s, s₁, s₂, s₃, hs, ⟨hc, hn⟩, h0, hrun, ⟨hc₂, hn₂⟩,
      (round_robin hs 0).1 1 0 s₁ s₂ s₃ ⟨hc, hn⟩ ⟨hc₂, hn₂⟩ (by decide)⟩
  · obtain ⟨s, hs, hP⟩ := haltEnd
    have hc : (s.cpu 1).ctl = .halt := by simpa using hP
    exact ⟨s, hs, hc, (round_robin hs 1).2 hc⟩

end Kern

end Xv6
