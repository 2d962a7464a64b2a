/-
  The discipline of `sleep` and `wakeup`.

  A process sleeps on a channel when it found, with a lock, that it has nothing
  to do; whoever changes that, with the same lock, calls `wakeup` before it
  releases the lock (`Monitor`).  Then no process sleeps on the channel unless
  there is still nothing to do, or the process that holds the lock has its
  `wakeup` before it (`Monitor.no_lost_wakeup`).  What makes it work is that
  `sleep` acquires `ptable.lock` before it releases the lock.
-/
import Xv6.Proc.Outline

namespace Xv6

/-- The channel that the thread of slot `p` sleeps on, if it sleeps there. -/
def KPc.sleepsOn {L K : Type} (p : PSlot) : KPc L K → Option Chan
  | sleepBack ch _ _ => some (.ext ch)
  | waitBack _ => some (.proc p)
  | _ => none

namespace Kern

variable {cl : Client} {s s' : Kern cl} {c c' : ℕ} {p q : PSlot}

/-- Only the thread of `p` itself can put slot `p` to sleep. -/
theorem Moves.sleeping_ne (h : Moves s c p s') (hqp : q ≠ p)
    (hq : (s'.tab q).state = .sleeping) : (s.tab q).state = .sleeping ∧
    (s'.tab q).chan = (s.tab q).chan ∧ s'.pc q = s.pc q := by
  cases h
  case wakeGo =>
    simp only [goto_tab, setTab_tab, Ptable.wakeup1_apply] at hq ⊢
    split at hq <;> simp_all
  case killGo pid k _ _ =>
    simp only [goto_tab, setTab_tab] at hq ⊢
    rcases s.tab.kill_apply pid q with h | ⟨-, h⟩ <;> rw [h] at hq ⊢
    · simp_all
    · dsimp only at hq
      split at hq <;> simp_all
  case exitGo =>
    obtain ⟨t, x, ht, hw, -⟩ := exit_wakes s.tab p
    have hst := hw q
    have hch := (s.tab.exit_fields p q).2.1
    simp only [setCtl_tab, goto_tab, exit_tab, ht, Function.update_of_ne hqp] at hq hch ⊢
    refine ⟨by grind, hch, by simp [hqp]⟩
  case forkAlloc np _ _ hf =>
    have hst := Ptable.findUnused_spec hf
    by_cases hnp : q = np <;> simp_all [Ptable.embryo]
  case forkFail np _ _ => by_cases hnp : q = np <;> simp_all
  case forkRun np _ _ => by_cases hnp : q = np <;> simp_all
  case forkParent np _ _ => by_cases hnp : q = np <;> simp_all
  case waitReap z _ _ hz => by_cases hqz : q = z <;> simp_all [Ptable.reap]
  all_goals simp_all

/-- A thread goes to sleep in `sleep` and in `wait`. -/
theorem Moves.sleeping_self (hi : Sane s) (hon : s.On c p) (h : Moves s c p s')
    (hp : (s'.tab p).state = .sleeping) :
    (∃ ch lk k, s.pc p = .sleepGo ch lk k ∧ s'.pc p = .sleepBack ch lk k ∧
      (s'.tab p).chan = some (.ext ch)) ∨
    ∃ k, s'.pc p = .waitBack k ∧ (s'.tab p).chan = some (.proc p) ∧
      s.tab.findZombie p = none := by
  have hrun := hi.running hon
  cases h
  case sleepGo ch lk k hpc _ _ => exact .inl ⟨ch, lk, k, hpc, by simp, by simp⟩
  case waitSleep k _ _ _ hz => exact .inr ⟨k, by simp, by simp, hz⟩
  case wakeGo =>
    simp only [goto_tab, setTab_tab, Ptable.wakeup1_apply] at hp
    split at hp <;> simp_all
  case killGo pid k _ _ =>
    simp only [goto_tab, setTab_tab] at hp
    rcases s.tab.kill_apply pid p with h | ⟨-, h⟩ <;> rw [h] at hp <;> simp_all
  case exitGo => simp [Ptable.exit_eq] at hp
  case forkAlloc np _ _ hf =>
    have hst := Ptable.findUnused_spec hf
    by_cases hnp : p = np <;> simp_all [Ptable.embryo]
  case forkFail np _ _ => by_cases hnp : p = np <;> simp_all
  case forkRun np _ _ => by_cases hnp : p = np <;> simp_all
  case forkParent np _ _ => by_cases hnp : p = np <;> simp_all
  case waitReap z _ _ hz => by_cases hqz : p = z <;> simp_all [Ptable.reap]
  all_goals simp_all

theorem Schedules.sleeping (h : Schedules s c s') (hq : (s'.tab q).state = .sleeping) :
    (s.tab q).state = .sleeping ∧ (s'.tab q).chan = (s.tab q).chan := by
  cases h with
  | @disp p _ => by_cases hqp : q = p <;> simp_all
  | inspect => unfold Kern.inspect at hq ⊢; split at hq <;> split <;> simp_all
  | _ => simp_all

theorem wakeup1_sleeping {t : Ptable} {ch : Option Chan} (hq : (t.wakeup1 ch q).state = .sleeping) :
    t.wakeup1 ch q = t q ∧ (t q).chan ≠ ch := by
  rw [Ptable.wakeup1_apply] at hq ⊢
  split at hq <;> simp_all

/-- Who sleeps after a step: those who slept before it, and a thread that called `sleep` or
found no zombie in `wait`. -/
theorem Stepped.sleeping (hs : Sane s) (h : Stepped s c s') (hq : (s'.tab q).state = .sleeping) :
    ((s.tab q).state = .sleeping ∧ (s'.tab q).chan = (s.tab q).chan ∧ s'.pc q = s.pc q) ∨
    (∃ ch lk k, s.pc q = .sleepGo ch lk k ∧ s'.pc q = .sleepBack ch lk k ∧
      (s'.tab q).chan = some (.ext ch)) ∨
    ∃ k, s'.pc q = .waitBack k ∧ (s'.tab q).chan = some (.proc q) ∧
      s.tab.findZombie q = none := by
  cases h with
  | @thread p _ hon h =>
    by_cases hqp : q = p
    · exact .inr (hqp ▸ h.sleeping_self hs hon (hqp ▸ hq))
    · exact .inl (h.sleeping_ne hqp hq)
  | sched h => exact .inl ⟨(h.sleeping hq).1, (h.sleeping hq).2, by rw [h.frame.1]⟩
  | intr =>
    obtain ⟨he, -⟩ := wakeup1_sleeping hq
    simp_all

/-- Sleeping processes are in `sleep` or in `wait`. -/
def Asleep (s : Kern cl) : Prop := ∀ p, (s.tab p).state = .sleeping →
  ∃ ch, (s.tab p).chan = some ch ∧ (s.pc p).sleepsOn p = some ch

theorem Asleep.boot (k : cl.K) (g : cl.G) : Asleep (boot cl k g) := by
  intro p
  simp only [Kern.boot]
  split <;> rintro ⟨⟩

theorem Asleep.stepped (hi : Asleep s) (hs : Sane s) (h : Stepped s c s') : Asleep s' := by
  intro q hq
  rcases h.sleeping hs hq with ⟨hst, hch, hpc⟩ | ⟨ch, lk, k, -, hpc, hch⟩ | ⟨k, hpc, hch, -⟩
  · rw [hch, hpc]; exact hi q hst
  · exact ⟨_, hch, by rw [hpc]; rfl⟩
  · exact ⟨_, hch, by rw [hpc]; rfl⟩

theorem Runs.asleep {k : cl.K} {g : cl.G} (h : Runs cl k g s) : Asleep s :=
  (h.inv (I := fun s => Sane s ∧ Asleep s) ⟨.boot k g, .boot k g⟩
    fun _ _ _ hi hs => ⟨hi.1.stepped hs, hi.2.stepped hi.1 hs⟩).2

end Kern

/-! ## Monitors -/

/-- The thread that does this still has to call `wakeup(ch)`, with the lock held. -/
def Act.Owes {L K : Type} (holds : K → L → Prop) (lk : L) (ch : ℕ) (owes : K → Prop) :
    Act L K → Prop
  | .goto k => owes k
  | .wakeup ch' k => (ch' = ch ∨ owes k) ∧ holds k lk
  | _ => False

/-- A channel `ch` on which processes sleep that hold `lk`. -/
structure Monitor {cl : Client} (D : Locking cl) extends Outline D where
  ch : ℕ
  /-- there is nothing to do for the sleepers -/
  calm : cl.G → Prop
  /-- points at which the code still has to call `wakeup` -/
  owes : cl.K → Prop
  owes_holds : ∀ k, owes k → D.holds k lk
  /-- it sleeps only when there is nothing to do, -/
  sleep : ∀ {p x g k c lk' k' g'}, cl.prog p x g k c = some (.sleep ch lk' k', g') →
    knows k g → lk' = lk ∧ calm g'
  /-- and wakes up the others when that changes -/
  wake : ∀ {p x g k c a g'}, cl.prog p x g k c = some (a, g') → owes k ∨ calm g ∧ ¬calm g' →
    a.Owes D.holds lk ch owes

namespace Monitor

open Kern

variable {cl : Client} {D : Locking cl} (M : Monitor D)

/-- The thread still has to call `wakeup`. -/
def Owing : KPc cl.L cl.K → Prop
  | .client k => M.owes k
  | .wakeAcq ch k | .wakeGo ch k => (ch = M.ch ∨ M.owes k) ∧ D.holds k M.lk
  | .yieldAcq pc | .yieldGo pc | .yieldBack pc => Owing pc
  | _ => False

/-- The thread is on its way to sleep on the channel. -/
def Dozing : KPc cl.L cl.K → Prop
  | .sleepAcq ch _ _ | .sleepRel ch _ _ | .sleepGo ch _ _ => ch = M.ch
  | .yieldAcq pc | .yieldGo pc | .yieldBack pc => Dozing pc
  | _ => False

/-- The thread sleeps on the channel with the lock of the monitor. -/
def Right : KPc cl.L cl.K → Prop
  | .sleepAcq ch lk _ | .sleepRel ch lk _ | .sleepGo ch lk _ => ch = M.ch → lk = M.lk
  | .yieldAcq pc | .yieldGo pc | .yieldBack pc => Right pc
  | _ => True

structure Ok (s : Kern cl) : Prop where
  right : ∀ p, M.Right (s.pc p)
  quiet : ∀ p, M.Dozing (s.pc p) ∨
      (s.tab p).state = .sleeping ∧ (s.tab p).chan = some (.ext M.ch) →
    M.calm s.g ∨ ∃ q, M.Owing (s.pc q)

variable {M} {s s' : Kern cl} {c c' : ℕ} {p q : PSlot}

variable {pc : KPc cl.L cl.K} {k : cl.K}

theorem Owing.holds (h : M.Owing pc) : pc.Holds D.holds M.lk := by
  induction pc with
  | client k => exact M.owes_holds k h
  | wakeAcq ch k => exact h.2
  | wakeGo ch k => exact h.2
  | yieldAcq pc ih => exact ih h
  | yieldGo pc ih => exact ih h
  | yieldBack pc ih => exact ih h
  | _ => cases h

theorem Dozing.holds (h : M.Dozing pc) (hr : M.Right pc) (hk : pc.intrOk) :
    pc.Holds D.holds M.lk ∨ ∃ ch lk k, pc = .sleepGo ch lk k := by
  induction pc with
  | sleepAcq | sleepRel => exact .inl (hr h).symm
  | sleepGo ch lk k => exact .inr ⟨ch, lk, k, rfl⟩
  | yieldAcq pc ih | yieldGo pc ih | yieldBack pc ih =>
    have hk : pc.locks = false ∧ pc.intrOk := by simpa [KPc.intrOk] using hk
    rcases ih h hr hk.2 with h | ⟨ch, lk, k, rfl⟩
    · exact .inl h
    · cases hk.1
  | _ => cases h

/-- While a thread wakes up the sleepers, with the lock, no thread is on its way to sleep. -/
theorem not_dozing_of_wake (hi : M.Ok s) (hD : D.Ok s) (hs : Sane s) (hon : s.On c p)
    (hl : s.ptlock = some c) {ch : ℕ} (hpc : s.pc p = .wakeGo ch k) (hk : D.holds k M.lk) :
    ¬M.Dozing (s.pc q) := by
  intro hq
  have hqp : q ≠ p := by rintro rfl; rw [hpc] at hq; cases hq
  rcases hq.holds (hi.right q) (hs.intr q) with h | ⟨ch', lk', k', hpc'⟩
  · exact hqp (hD.exclusive h (by rw [hpc]; exact hk))
  · -- both threads hold `ptable.lock`
    obtain ⟨c', hon'⟩ := hs.on_of_pc (p := q) (by rw [hpc']; rfl) (by rw [hpc']; rfl)
    have := (hs.cpu c').lock.2 ((locks_iff_of_on hon').2 (by rw [hpc']; rfl))
    rw [hl] at this
    cases this
    exact hqp (hon'.unique hon)

theorem acquired_iff {pc pc' : KPc cl.L cl.K} (h : pc.acquired = some pc') :
    (M.Owing pc' ↔ M.Owing pc) ∧ (M.Dozing pc' ↔ M.Dozing pc) ∧ (M.Right pc' ↔ M.Right pc) := by
  cases pc <;> simp only [KPc.acquired, Option.some.injEq, reduceCtorEq] at h <;>
    subst h <;> exact ⟨.rfl, .rfl, .rfl⟩

theorem owing_of_owes {a : Act cl.L cl.K} (h : a.Owes D.holds M.lk M.ch M.owes) :
    M.Owing a.pc := by
  cases a <;> first | exact h | cases h

/-- A thread that owes a `wakeup` gets closer to it, or wakes up the sleepers. -/
theorem Owing.moves (hp : M.Owing (s.pc p)) (h : Moves s c p s') : M.Owing (s'.pc p) ∨
    ∃ k, s.pc p = .wakeGo M.ch k ∧ D.holds k M.lk ∧ s.ptlock = some c ∧
      s'.tab = s.tab.wakeup1 (some (.ext M.ch)) := by
  have hact : ∀ {k x a g}, s.pc p = .client k → cl.prog p (s.tab p) s.g k x = some (a, g) →
      M.Owing a.pc := fun hpc hprog => by
    rw [hpc] at hp
    exact owing_of_owes (M.wake hprog (.inl hp))
  cases h with
  | goto hpc hprog | acquire hpc hprog | release hpc hprog | fault hpc hprog =>
    exact .inl (by simpa [Act.pc] using hact hpc hprog)
  | enter hpc hprog ha => exact .inl (by simpa [Act.pc_of_entry ha] using hact hpc hprog)
  | timer => exact .inl (by simpa [Owing] using hp)
  | lockPt ha => exact .inl (by simpa using (acquired_iff ha).1.2 hp)
  | yieldGo hpc | yieldBack hpc => rw [hpc] at hp; exact .inl (by simpa [Owing] using hp)
  | @wakeGo ch k hpc hl =>
    rw [hpc] at hp
    obtain ⟨rfl | hk, hlk⟩ := hp
    · exact .inr ⟨k, hpc, hlk, hl, rfl⟩
    · exact .inl (by simpa [Owing] using hk)
  | _ => simp_all [Owing]

theorem dozing_moves (hO : M.toOutline.Ok s) (h : Moves s c p s') (hp : M.Dozing (s'.pc p)) :
    M.Dozing (s.pc p) ∨ M.calm s'.g := by
  have hact : ∀ {k x a g}, s.pc p = .client k → cl.prog p (s.tab p) s.g k x = some (a, g) →
      M.Dozing a.pc → M.calm g := fun {k x a g} hpc hprog ha => by
    have hk := hO p
    rw [hpc] at hk
    cases a <;> try cases ha
    exact (M.sleep hprog hk).2
  cases h with
  | goto hpc hprog | acquire hpc hprog | release hpc hprog | fault hpc hprog =>
    exact .inr (hact hpc hprog (by simpa [Act.pc] using hp))
  | enter hpc hprog ha => exact .inr (hact hpc hprog (by simpa [Act.pc_of_entry ha] using hp))
  | timer => exact .inl (by simpa [Dozing] using hp)
  | lockPt ha => exact .inl ((acquired_iff ha).2.1.1 (by simpa using hp))
  | _ => simp_all [Dozing]

theorem Right.moves (hp : M.Right (s.pc p)) (hO : M.toOutline.Ok s) (h : Moves s c p s') :
    M.Right (s'.pc p) := by
  cases h with
  | @enter k x a pc g hpc hprog ha =>
    have hk := hO p
    rw [hpc] at hk
    obtain rfl := Act.pc_of_entry ha
    simp only [goto_pc, Function.update_self]
    cases a <;> try trivial
    rintro rfl
    exact (M.sleep hprog hk).1
  | timer => simpa [Right] using hp
  | lockPt ha => simpa using (acquired_iff ha).2.2.2 hp
  | _ => simp_all [Right]

theorem Owing.not_inert (h : M.Owing pc) : ¬pc.inert := by
  cases pc <;> simp_all [Owing, KPc.inert]

/-- The thread of slot `p` sleeps on the channel, or is on its way. -/
def Dozes (M : Monitor D) (s : Kern cl) (p : PSlot) : Prop :=
  M.Dozing (s.pc p) ∨ (s.tab p).state = .sleeping ∧ (s.tab p).chan = some (.ext M.ch)

/-- A thread goes to sleep only when there is nothing to do. -/
theorem Dozes.of_stepped (hO : M.toOutline.Ok s) (hs : Sane s) (h : Stepped s c s')
    (hq : M.Dozes s' q) : M.Dozes s q ∨ M.calm s'.g := by
  rcases hq with hq | ⟨hst, hch⟩
  · cases h with
    | @thread p _ hon h =>
      by_cases hqp : q = p
      · subst hqp
        exact (dozing_moves hO h hq).imp_left .inl
      · rcases h.pc_ne hs hqp with he | ⟨-, k, he, -⟩ <;> rw [he] at hq
        · exact .inl (.inl hq)
        · cases hq
    | sched h => rw [h.frame.1] at hq; exact .inl (.inl hq)
    | intr => exact .inl (.inl hq)
  · rcases h.sleeping hs hst with ⟨hst', hch', -⟩ | ⟨ch, lk, k, hpc, -, hch'⟩ | ⟨k, -, hch', -⟩
    · exact .inl (.inr ⟨hst', hch' ▸ hch⟩)
    · rw [hch'] at hch
      cases hch
      exact .inl (.inl (by rw [hpc]; rfl))
    · rw [hch'] at hch
      cases hch

/-- When there is something to do again, a thread owes a `wakeup`. -/
theorem calm_moves (h : Moves s c p s') (hc : M.calm s.g) :
    M.calm s'.g ∨ M.Owing (s'.pc p) := by
  rcases h.client with ⟨k, x, a, hpc, hprog, hpc'⟩ | ⟨hg, -⟩
  · by_cases hc' : M.calm s'.g
    · exact .inl hc'
    · exact .inr (hpc' ▸ owing_of_owes (M.wake hprog (.inr ⟨hc, hc'⟩)))
  · exact .inl (hg ▸ hc)

/-- A `wakeup` with the lock leaves no sleeper. -/
theorem not_dozes_of_wake (hi : M.Ok s) (hO : M.toOutline.Ok s) (hD : D.Ok s) (hs : Sane s)
    (hon : s.On c p) (h : Moves s c p s') (hpc : s.pc p = .wakeGo M.ch k) (hk : D.holds k M.lk)
    (hl : s.ptlock = some c) (htab : s'.tab = s.tab.wakeup1 (some (.ext M.ch))) :
    ¬M.Dozes s' q := by
  have hno : ∀ q, ¬M.Dozing (s.pc q) := fun q => not_dozing_of_wake hi hD hs hon hl hpc hk
  rintro (hq | ⟨hst, hch⟩)
  · by_cases hqp : q = p
    · subst hqp
      rcases dozing_moves hO h hq with h' | -
      · exact hno q h'
      · cases h <;> simp_all [Dozing]
    · rcases h.pc_ne hs hqp with he | ⟨-, k', he, -⟩ <;> rw [he] at hq
      · exact hno q hq
      · cases hq
  · rw [htab] at hst hch
    obtain ⟨he, hne⟩ := wakeup1_sleeping hst
    rw [he] at hch
    exact hne hch

theorem Ok.moves (hi : M.Ok s) (hO : M.toOutline.Ok s) (hD : D.Ok s) (hs : Sane s)
    (hon : s.On c p) (h : Moves s c p s') : M.Ok s' := by
  constructor
  · intro q
    by_cases hqp : q = p
    · subst hqp; exact (hi.right q).moves hO h
    · rcases h.pc_ne hs hqp with he | ⟨-, k, he, -⟩ <;> rw [he]
      · exact hi.right q
      · trivial
  · intro q hq
    rcases Dozes.of_stepped hO hs (.thread hon h) hq with hq' | hc
    · rcases hi.quiet q hq' with hc | ⟨r, hr⟩
      · exact (calm_moves h hc).imp_right fun ho => ⟨p, ho⟩
      · by_cases hrp : r = p
        · subst hrp
          rcases hr.moves h with ho | ⟨k, hpc, hk, hl, htab⟩
          · exact .inr ⟨r, ho⟩
          · exact absurd hq (not_dozes_of_wake hi hO hD hs hon h hpc hk hl htab)
        · rcases h.pc_ne hs hrp with he | ⟨hin, -⟩
          · exact .inr ⟨r, by rw [he]; exact hr⟩
          · exact absurd hin hr.not_inert
    · exact .inl hc

theorem Ok.stepped (hi : M.Ok s) (hO : M.toOutline.Ok s) (hD : D.Ok s) (hs : Sane s)
    (h : Stepped s c s') : M.Ok s' := by
  cases h with
  | thread hon h => exact hi.moves hO hD hs hon h
  | sched h =>
    obtain ⟨hpc, -, hg, -⟩ := h.frame
    refine ⟨by rw [hpc]; exact hi.right, fun q hq => ?_⟩
    rw [hpc, hg]
    refine hi.quiet q (hq.imp (by rw [hpc]; exact id) fun hw => ?_)
    obtain ⟨hst, hch⟩ := hw
    exact ⟨(h.sleeping hst).1, (h.sleeping hst).2 ▸ hch⟩
  | intr =>
    refine ⟨hi.right, fun q hq => hi.quiet q (hq.imp_right fun hw => ?_)⟩
    obtain ⟨hst, hch⟩ := hw
    obtain ⟨he, -⟩ := wakeup1_sleeping hst
    simp_all

/-- **No lost wakeup.**  While a process sleeps on the channel there is nothing
to do for it, or another process holds the lock and will call `wakeup`. -/
theorem no_lost_wakeup (M : Monitor D) {g : cl.G} (hk : ∀ l, ¬D.holds k l) (h : Runs cl k g s) :
    D.Ok s ∧ ∀ p, (s.tab p).state = .sleeping → (s.tab p).chan = some (.ext M.ch) →
      M.calm s.g ∨ ∃ q, M.Owing (s.pc q) := by
  have hi := h.inv (I := fun s => Sane s ∧ D.Ok s ∧ M.toOutline.Ok s ∧ M.Ok s)
    ⟨.boot k g, .boot hk g, .boot hk g, ?_⟩ fun _ _ _ ⟨h1, h2, h3, h4⟩ hs =>
      ⟨h1.stepped hs, h2.stepped h1 hs, h3.stepped h2 h1 hs, h4.stepped h3 h2 h1 hs⟩
  · exact ⟨hi.2.1, fun p hst hch => hi.2.2.2.quiet p (.inr ⟨hst, hch⟩)⟩
  · constructor
    · intro p
      simp only [boot]
      split <;> trivial
    · intro p
      simp only [boot]
      split <;> rintro (h | ⟨h, -⟩) <;> cases h

end Monitor

end Xv6
