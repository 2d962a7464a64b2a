/-
  Which CPU runs which process.

  `ptable.lock` is acquired by one thread and released by another, on the same
  CPU: the thread that calls `sched` acquires it for `scheduler`, and
  `scheduler` holds it for the thread that it dispatches.  `Kern.Sane` says who
  holds the lock at every point of the code, and ties the states of the slots
  to the variable `proc` of each CPU.
-/
import Xv6.Proc.Steps

namespace Xv6

open Function (update update_eq_self update_of_ne update_self)

/-- `scheduler` holds `ptable.lock` there. -/
def Ctl.locks : Ctl → Bool
  | scan _ | disp _ | back _ => true
  | _ => false

/-- `scheduler` has no process there. -/
def Ctl.out : Ctl → Bool
  | idle | scan _ | check | halt => true
  | _ => false

namespace Kern

variable {cl : Client}

/-- CPU `c` is at a point of the code at which it holds `ptable.lock`. -/
def Locks (s : Kern cl) (c : ℕ) : Prop :=
  (s.cpu c).ctl.locks ∨ ∃ p, s.On c p ∧ (s.pc p).locks

/-- What CPU `c` knows about its process, and about `ptable.lock`. -/
structure CpuOk (s : Kern cl) (c : ℕ) : Prop where
  lock : s.ptlock = some c ↔ s.Locks c
  proc : match (s.cpu c).ctl with
    | .run => ∃ p, (s.cpu c).proc = some p ∧ (s.tab p).state = .running
    | .disp p => (s.cpu c).proc = some p ∧ (s.tab p).state = .runnable
    | .back p => (s.cpu c).proc = some p ∧
      ((s.tab p).state = .runnable ∨ (s.tab p).state = .sleeping ∨ (s.tab p).state = .zombie)
    | _ => (s.cpu c).proc = none

/-- The invariant of the scheduler. -/
structure Sane (s : Kern cl) : Prop where
  cpu : ∀ c, s.CpuOk c
  uniq : ∀ c c' p, (s.cpu c).proc = some p → (s.cpu c').proc = some p → c = c'
  on : ∀ p, (s.tab p).state = .running → ∃ c, s.On c p
  resumes : ∀ p, (s.tab p).state = .runnable ∨ (s.tab p).state = .sleeping → (s.pc p).resumes
  inert : ∀ p, (s.tab p).state = .unused ∨ (s.tab p).state = .embryo ∨ (s.tab p).state = .zombie →
    (s.pc p).inert
  intr : ∀ p, (s.pc p).intrOk
  /-- a `fork` in progress has its slot to itself -/
  embryo : ∀ q np, (s.pc q).embryo = some np →
    (s.tab np).state = .embryo ∧ (s.pc np).resumes ∧ ∀ q', (s.pc q').embryo = some np → q' = q

variable {s s' : Kern cl} {c c' : ℕ} {p q : PSlot}

theorem Sane.boot (k : cl.K) (g : cl.G) : Sane (boot cl k g) where
  cpu c := by
    refine ⟨⟨by rintro ⟨⟩, ?_⟩, rfl⟩
    rintro (h | ⟨p, ⟨h, -⟩, -⟩) <;> cases h
  uniq := by simp [Kern.boot]
  on p := by simp only [Kern.boot]; split <;> rintro ⟨⟩
  resumes p := by
    simp only [Kern.boot]
    split
    · exact fun _ => rfl
    · rintro (h | h) <;> cases h
  inert p := by simp only [Kern.boot]; split <;> exact fun _ => rfl
  intr p := by simp only [Kern.boot]; split <;> rfl
  embryo q np := by simp only [Kern.boot]; split <;> rintro ⟨⟩

/-! ## One CPU -/

theorem locks_congr (hcpu : s'.cpu c = s.cpu c) (hpc : ∀ q, s.On c q → s'.pc q = s.pc q) :
    s'.Locks c ↔ s.Locks c := by
  simp only [Locks, On, hcpu]
  refine or_congr_right (exists_congr fun q => and_congr_right fun hq => ?_)
  rw [hpc q hq]

/-- The thread on a CPU decides who holds the lock. -/
theorem locks_iff_of_on (hon : s.On c p) : s.Locks c ↔ (s.pc p).locks := by
  constructor
  · rintro (h | ⟨q, hq, h⟩)
    · rw [hon.ctl] at h; cases h
    · rwa [hon.unique hq]
  · exact fun h => .inr ⟨p, hon, h⟩

theorem locks_iff_of_ne_run (h : (s.cpu c).ctl ≠ .run) : s.Locks c ↔ (s.cpu c).ctl.locks := by
  constructor
  · rintro (h' | ⟨q, hq, -⟩)
    · exact h'
    · exact absurd hq.ctl h
  · exact .inl

/-- A CPU in `scheduler` without a process. -/
theorem CpuOk.of_out (hc : (s.cpu c).ctl.out) (hp : (s.cpu c).proc = none)
    (hl : s.ptlock = some c ↔ (s.cpu c).ctl.locks) : s.CpuOk c where
  lock := by
    rw [hl, locks_iff_of_ne_run]
    intro h
    rw [h] at hc
    cases hc
  proc := by
    rcases h : (s.cpu c).ctl <;> first | exact hp | (rw [h] at hc; cases hc)

theorem CpuOk.out (h : s.CpuOk c) (hc : (s.cpu c).ctl.out) : (s.cpu c).proc = none := by
  have := h.proc
  rcases hx : (s.cpu c).ctl <;> rw [hx] at this hc <;> first | exact this | cases hc

/-- What a CPU knows does not depend on other CPUs and their processes. -/
theorem CpuOk.frame (h : s.CpuOk c) (hcpu : s'.cpu c = s.cpu c)
    (hl : s'.ptlock = some c ↔ s.ptlock = some c)
    (hp : ∀ q, (s.cpu c).proc = some q →
      (s'.tab q).state = (s.tab q).state ∧ s'.pc q = s.pc q) : s'.CpuOk c where
  lock := by
    rw [hl, h.lock, locks_congr hcpu fun q hq => (hp q hq.proc).2]
  proc := by
    have := h.proc
    rw [hcpu]
    split at this
    · obtain ⟨p, hq, hs⟩ := this
      exact ⟨p, hq, by rwa [(hp p hq).1]⟩
    · exact ⟨this.1, by rw [(hp _ this.1).1]; exact this.2⟩
    · exact ⟨this.1, by rw [(hp _ this.1).1]; exact this.2⟩
    · exact this

theorem Sane.running (hi : Sane s) (hon : s.On c p) : (s.tab p).state = .running := by
  have := (hi.cpu c).proc
  rw [hon.ctl] at this
  obtain ⟨q, hq, hs⟩ := this
  rw [hon.proc] at hq
  cases hq
  exact hs

theorem Sane.ne_of_on (hi : Sane s) (hon : s.On c p) (hc : c' ≠ c)
    (hq : (s.cpu c').proc = some q) : q ≠ p := by
  rintro rfl
  exact hc (hi.uniq _ _ _ hq hon.proc)

/-! ## Kinds of steps -/

theorem Wakes.refl (t : Ptable) : Wakes t t := fun _ => .inl rfl

variable {t : Ptable} {x : Proc} {pc : KPc cl.L cl.K} {z : PSlot}

theorem Wakes.update {p : PSlot} (h : x.state = (t p).state) :
    Wakes t (update t p x) := by
  intro q
  by_cases hq : q = p
  · subst hq; simp [h]
  · simp [hq]

theorem Wakes.trans {t t' t'' : Ptable} (h : Wakes t t') (h' : Wakes t' t'') : Wakes t t'' := by
  intro q
  have := h q
  have := h' q
  grind

theorem Wakes.wakeup1 (t : Ptable) (ch : Option Chan) : Wakes t (t.wakeup1 ch) := by
  intro q
  rw [Ptable.wakeup1_apply]
  split
  · exact .inr ⟨‹_ ∧ _›.1, rfl⟩
  · exact .inl rfl

theorem Wakes.kill (t : Ptable) (pid : Int32) : Wakes t (t.kill pid) := by
  intro q
  rcases t.kill_apply pid q with h | ⟨-, h⟩ <;> rw [h]
  · exact .inl rfl
  · dsimp only
    split
    · exact .inr ⟨‹_›, rfl⟩
    · exact .inl rfl

/-- Wakeups. -/
theorem Sane.wake (hi : Sane s) (hw : Wakes s.tab t) : Sane (s.setTab t) where
  cpu c := by
    refine ⟨(hi.cpu c).lock, ?_⟩
    have := (hi.cpu c).proc
    simp only [setTab_cpu, setTab_tab]
    split at this
    · obtain ⟨p, hp, hs⟩ := this
      exact ⟨p, hp, by have := hw p; grind⟩
    · exact ⟨this.1, by have := hw ‹_›; grind⟩
    · exact ⟨this.1, by have := hw ‹_›; grind⟩
    · exact this
  uniq := hi.uniq
  on p hp := hi.on p (by have := hw p; grind)
  resumes p hp := hi.resumes p (by have := hw p; grind)
  inert p hp := hi.inert p (by have := hw p; grind)
  intr := hi.intr
  embryo q np hq := by
    obtain ⟨hst, hre, hun⟩ := hi.embryo q np hq
    exact ⟨by have := hw np; grind, hre, hun⟩

/-- A step of the thread `p` on CPU `c` that stays on the CPU. -/
theorem Sane.move (hi : Sane s) (hon : s.On c p) (hcpu : s'.cpu = s.cpu)
    (hpc : s'.pc = update s.pc p pc) (htab : s'.tab = s.tab) (hk : pc.intrOk)
    (hl : ∀ c', s'.ptlock = some c' ↔ if c' = c then pc.locks = true else s.ptlock = some c')
    (he : ∀ np, pc.embryo = some np → (s.pc p).embryo = some np ∨ (s.tab np).state = .embryo ∧
      (s.pc np).resumes ∧ ∀ q, (s.pc q).embryo ≠ some np) : Sane s' := by
  have hrun := hi.running hon
  have hon' : s'.On c p := by rw [On, hcpu]; exact hon
  have hpc' : ∀ q, q ≠ p → s'.pc q = s.pc q := fun q hq => by
    rw [hpc, update_of_ne hq]
  constructor
  case cpu =>
    intro c'
    by_cases hc : c' = c
    · subst hc
      constructor
      · rw [hl, if_pos rfl, locks_iff_of_on hon', hpc, update_self]
      · rw [hon'.ctl]
        exact ⟨p, hon'.proc, by rw [htab]; exact hrun⟩
    · refine (hi.cpu c').frame (by rw [hcpu]) (by rw [hl, if_neg hc]) fun q hq => ?_
      exact ⟨by rw [htab], hpc' q (hi.ne_of_on hon hc hq)⟩
  case uniq => rw [hcpu]; exact hi.uniq
  case on => intro q hq; rw [htab] at hq; simpa only [On, hcpu] using hi.on q hq
  case resumes =>
    intro q hq
    rw [htab] at hq
    rw [hpc' q (by rintro rfl; grind)]
    exact hi.resumes q hq
  case inert =>
    intro q hq
    rw [htab] at hq
    rw [hpc' q (by rintro rfl; grind)]
    exact hi.inert q hq
  case intr =>
    intro q
    by_cases hqp : q = p
    · rw [hqp, hpc, update_self]; exact hk
    · rw [hpc' q hqp]; exact hi.intr q
  case embryo =>
    intro q np hq
    have hem := hi.embryo
    have := he np
    have hnp : (s.tab np).state = .embryo → s'.pc np = s.pc np := fun h =>
      hpc' np (by rintro rfl; grind)
    have hpp : s'.pc p = pc := by rw [hpc, update_self]
    rw [htab]
    by_cases hqp : q = p
    · subst hqp
      grind
    · grind

/-- A step of the thread `p` on CPU `c` into the scheduler. -/
theorem Sane.switch (hi : Sane s) (hon : s.On c p) (hl : s.ptlock = some c)
    (hcpu : s'.cpu = update s.cpu c { s.cpu c with ctl := .back p })
    (hpc : s'.pc = update s.pc p pc) (htab : s'.tab = update s.tab p x)
    (hlock : s'.ptlock = s.ptlock)
    (hx : (x.state = .runnable ∨ x.state = .sleeping) ∧ pc.resumes ∨ x.state = .zombie ∧ pc.inert)
    (hk : pc.intrOk) (he : ∀ np, pc.embryo = some np → (s.pc p).embryo = some np) :
    Sane s' := by
  have hrun := hi.running hon
  constructor
  case cpu =>
    intro c'
    by_cases hc : c' = c
    · subst hc
      refine ⟨?_, ?_⟩
      · simp [hl, hcpu, hlock, Locks, Ctl.locks]
      · rw [hcpu, htab]
        simp only [update_self]
        exact ⟨hon.proc, by grind⟩
    · refine (hi.cpu c').frame (by simp [hcpu, hc]) (by rw [hlock]) fun q hq => ?_
      have := hi.ne_of_on hon hc hq
      simp [htab, hpc, this]
  case uniq =>
    have hproc : ∀ c', (s'.cpu c').proc = (s.cpu c').proc := fun c' => by
      by_cases hc : c' = c <;> simp [hcpu, hc]
    intro c₁ c₂ q
    rw [hproc, hproc]
    exact hi.uniq c₁ c₂ q
  case on =>
    intro q hq
    rw [htab] at hq
    have hne : q ≠ p := by rintro rfl; simp at hq; grind
    obtain ⟨c', hc'⟩ := hi.on q (by simpa [hne] using hq)
    have hcc : c' ≠ c := by rintro rfl; exact hne (hc'.unique hon)
    exact ⟨c', by simpa [On, hcpu, hcc] using hc'⟩
  case resumes =>
    intro q hq
    rw [htab] at hq
    rw [hpc]
    by_cases hqp : q = p
    · subst hqp; simp at hq ⊢; grind
    · simpa [hqp] using hi.resumes q (by simpa [hqp] using hq)
  case inert =>
    intro q hq
    rw [htab] at hq
    rw [hpc]
    by_cases hqp : q = p
    · subst hqp; simp at hq ⊢; grind
    · simpa [hqp] using hi.inert q (by simpa [hqp] using hq)
  case intr =>
    intro q
    rw [hpc]
    by_cases hqp : q = p
    · subst hqp; simpa using hk
    · simpa [hqp] using hi.intr q
  case embryo =>
    intro q np hq
    have hem : ∀ q, (s'.pc q).embryo = some np → (s.pc q).embryo = some np := by
      intro q
      by_cases hqp : q = p
      · subst hqp; simpa [hpc] using he np
      · simp [hpc, hqp]
    obtain ⟨hst, hre, hun⟩ := hi.embryo q np (hem q hq)
    have hne : np ≠ p := by rintro rfl; rw [hrun] at hst; cases hst
    exact ⟨by simpa [htab, hne] using hst, by simpa [hpc, hne] using hre,
      fun q' hq' => hun q' (hem q' hq')⟩

/-- A store to a slot that no CPU has. -/
theorem Sane.set (hi : Sane s) (hq : ∀ c, (s.cpu c).proc ≠ some q) (hcpu : s'.cpu = s.cpu)
    (hpcs : s'.pc = update s.pc q pc) (htab : s'.tab = update s.tab q x)
    (hlock : s'.ptlock = s.ptlock) (hrun : x.state ≠ .running)
    (hx : x.state = .runnable ∨ x.state = .sleeping ∨ x.state = .embryo → pc.resumes)
    (hin : x.state = .unused ∨ x.state = .embryo ∨ x.state = .zombie → pc.inert) (hk : pc.intrOk)
    (hpc : ∀ np, pc.embryo = some np → (s.pc q).embryo = some np)
    (he : ∀ p, (s.pc p).embryo = some q → x.state = .embryo) : Sane s' := by
  constructor
  case cpu =>
    intro c
    refine (hi.cpu c).frame (by rw [hcpu]) (by rw [hlock]) fun q' hq' => ?_
    have : q' ≠ q := by rintro rfl; exact hq c hq'
    simp [htab, hpcs, this]
  case uniq => rw [hcpu]; exact hi.uniq
  case on =>
    intro p hp
    rw [htab] at hp
    have : p ≠ q := by rintro rfl; simp at hp; exact hrun hp
    simpa [On, hcpu] using hi.on p (by simpa [this] using hp)
  case resumes =>
    intro p hp
    rw [htab] at hp
    rw [hpcs]
    by_cases hpq : p = q
    · subst hpq; simp at hp ⊢; grind
    · simpa [hpq] using hi.resumes p (by simpa [hpq] using hp)
  case inert =>
    intro p hp
    rw [htab] at hp
    rw [hpcs]
    by_cases hpq : p = q
    · subst hpq; simp at hp ⊢; grind
    · simpa [hpq] using hi.inert p (by simpa [hpq] using hp)
  case intr =>
    intro p
    rw [hpcs]
    by_cases hpq : p = q
    · subst hpq; simpa using hk
    · simpa [hpq] using hi.intr p
  case embryo =>
    intro p np hp
    have hem : ∀ p, (s'.pc p).embryo = some np → (s.pc p).embryo = some np := by
      intro p
      by_cases hpq : p = q
      · subst hpq; simpa [hpcs] using hpc np
      · simp [hpcs, hpq]
    obtain ⟨hst, hre, hun⟩ := hi.embryo p np (hem p hp)
    refine ⟨?_, ?_, fun q' hq' => hun q' (hem q' hq')⟩ <;>
      (by_cases hnp : np = q; · subst hnp; have := he p (hem p hp); simp_all)
    · simpa [htab, hnp] using hst
    · simpa [hpcs, hnp] using hre

/-- An unused or embryonic slot is on no CPU. -/
theorem Sane.no_cpu (hi : Sane s) (hq : (s.tab q).state = .unused ∨ (s.tab q).state = .embryo)
    (c : ℕ) : (s.cpu c).proc ≠ some q := by
  intro h
  have := (hi.cpu c).proc
  grind

/-- The thread that holds `ptable.lock` finds zombies that are on no CPU. -/
theorem Sane.zombie_no_cpu (hi : Sane s) (hon : s.On c p) (hl : s.ptlock = some c)
    (hq : (s.tab q).state = .zombie) (c' : ℕ) : (s.cpu c').proc ≠ some q := by
  intro h
  have hp := (hi.cpu c').proc
  have hlock : (s.cpu c').ctl.locks → c' = c := fun h' => by
    have := (hi.cpu c').lock.2 (.inl h')
    rw [hl] at this
    cases this; rfl
  have hctl := hon.ctl
  grind [Ctl.locks]

/-! ## The steps -/

theorem Sane.ptlock_keep (hi : Sane s) (hon : s.On c p) (h : pc.locks = (s.pc p).locks) (c' : ℕ) :
    s.ptlock = some c' ↔ if c' = c then pc.locks = true else s.ptlock = some c' := by
  split
  · rename_i hc; subst hc
    rw [(hi.cpu c').lock, locks_iff_of_on hon, h]
  · rfl

theorem ptlock_acquire (hl : s.ptlock = none) (h : pc.locks) (c' : ℕ) :
    some c = some c' ↔ if c' = c then pc.locks = true else s.ptlock = some c' := by
  grind

theorem ptlock_release (hl : s.ptlock = some c) (h : pc.locks = false) (c' : ℕ) :
    none = some c' ↔ if c' = c then pc.locks = true else s.ptlock = some c' := by
  grind

theorem Sane.unlocked_of_ncli (hi : Sane s) (hon : s.On c p) (hn : s.ncli c = 0) :
    (s.pc p).locks = false := by
  have hl : s.ptlock ≠ some c := by
    intro h
    simp [ncli, h] at hn
  rw [Ne, (hi.cpu c).lock, locks_iff_of_on hon] at hl
  simpa using hl

/-- `exit` wakes up slots, and stores to its own. -/
theorem exit_wakes (t : Ptable) (p : PSlot) : ∃ t' x, t.exit p = update t' p x ∧
    Wakes t t' ∧ x.state = .zombie := by
  refine ⟨_, _, t.exit_eq p, (Wakes.wakeup1 t ((t p).parent.map .proc)).trans fun q => ?_, rfl⟩
  rw [Ptable.abandon_apply]
  dsimp only
  split
  · rename_i h
    exact .inr ⟨h.1.1, rfl⟩
  · exact .inl rfl

theorem Sane.moves (hi : Sane s) (hon : s.On c p) (h : Moves s c p s') : Sane s' := by
  have hk := hi.intr p
  have hrun := hi.running hon
  cases h with
  | goto hpc | acquire hpc | release hpc | sleepRel hpc | sleepReacq hpc =>
    exact hi.move hon rfl rfl rfl rfl (hi.ptlock_keep hon (by rw [hpc]; rfl)) (by rintro _ ⟨⟩)
  | enter hpc hp ha =>
    obtain ⟨h1, h2, h3⟩ := Act.entry_spec ha
    exact hi.move hon rfl rfl rfl h3 (hi.ptlock_keep hon (by rw [hpc, h1]; rfl))
      (by rw [h2]; rintro _ ⟨⟩)
  | fault hpc hp =>
    have h1 : Sane (s.setProc p { s.tab p with killed := true }) := hi.wake (.update rfl)
    exact h1.move hon rfl rfl rfl rfl (hi.ptlock_keep hon (by rw [hpc]; rfl)) (by rintro _ ⟨⟩)
  | timer hn hy =>
    have hloc := hi.unlocked_of_ncli hon hn
    exact hi.move hon rfl rfl rfl (by simp [KPc.intrOk, hloc, hk])
      (hi.ptlock_keep hon (by rw [hloc]; rfl)) fun np hnp => .inl hnp
  | lockPt ha hl =>
    obtain ⟨-, h2, h3, h4⟩ := KPc.acquired_spec ha
    exact hi.move hon rfl rfl rfl (h4.trans hk) (ptlock_acquire hl h2)
      fun np hnp => .inl (h3 ▸ hnp)
  | yieldGo hpc hl hn =>
    rw [hpc] at hk
    exact hi.switch hon hl rfl rfl rfl rfl (.inl ⟨.inl rfl, rfl⟩) hk
      fun np hnp => by rw [hpc]; exact hnp
  | @yieldBack pc hpc hl =>
    rw [hpc] at hk
    have hk : pc.locks = false ∧ pc.intrOk := by simpa [KPc.intrOk] using hk
    exact hi.move hon rfl rfl rfl hk.2 (ptlock_release hl hk.1)
      fun np hnp => .inl (by rw [hpc]; exact hnp)
  | sleepGo hpc hl | waitSleep hpc hl =>
    exact hi.switch hon hl rfl rfl rfl rfl (.inl ⟨.inr rfl, rfl⟩) rfl (by rintro _ ⟨⟩)
  | sleepBack hpc hl =>
    have h1 : Sane (s.setProc p { s.tab p with chan := none }) := hi.wake (.update rfl)
    exact h1.move hon rfl rfl rfl rfl (ptlock_release hl rfl) (by rintro _ ⟨⟩)
  | wakeGo hpc hl =>
    exact (hi.wake (.wakeup1 s.tab _)).move hon rfl rfl rfl rfl (ptlock_release hl rfl) (by rintro _ ⟨⟩)
  | killGo hpc hl =>
    exact (hi.wake (.kill s.tab _)).move hon rfl rfl rfl rfl (ptlock_release hl rfl) (by rintro _ ⟨⟩)
  | forkFull hpc hl | waitFail hpc hl | forkret hpc hl =>
    exact hi.move hon rfl rfl rfl rfl (ptlock_release hl rfl) (by rintro _ ⟨⟩)
  | @forkAlloc k kc np hpc hl hf =>
    have hst := Ptable.findUnused_spec hf
    have hnone : ∀ q, (s.pc q).embryo ≠ some np := fun q hq => by
      have := (hi.embryo q np hq).1
      rw [hst] at this; cases this
    have h1 : Sane ((s.setProc np { s.tab np with state := .embryo, pid := s.nextpid }).goto np
        (.forkret kc)) :=
      hi.set (hi.no_cpu (.inl hst)) rfl rfl rfl rfl (by rintro ⟨⟩) (fun _ => rfl) (fun _ => rfl) rfl (by rintro _ ⟨⟩)
        fun q hq => absurd hq (hnone q)
    refine h1.move hon rfl rfl rfl rfl (ptlock_release hl rfl) fun np' hnp => .inr ?_
    cases hnp
    refine ⟨by simp, by simp [KPc.resumes], fun q => ?_⟩
    by_cases hq : q = np
    · subst hq; simp [KPc.embryo]
    · simpa [hq] using hnone q
  | forkSetup hpc =>
    exact hi.move hon rfl rfl rfl rfl (hi.ptlock_keep hon (by rw [hpc]; rfl))
      fun np hnp => .inl (by rw [hpc]; exact hnp)
  | @forkFail np k hpc =>
    obtain ⟨hst, hre, hun⟩ := hi.embryo p np (by rw [hpc]; rfl)
    have h1 : Sane (s.goto p (.client k)) :=
      hi.move hon rfl rfl rfl rfl (hi.ptlock_keep hon (by rw [hpc]; rfl)) (by rintro _ ⟨⟩)
    refine h1.set (hi.no_cpu (.inr hst)) rfl (update_eq_self np _).symm rfl rfl (by rintro ⟨⟩)
      (by simp) (fun _ => h1.inert np (.inr (.inl hst))) (h1.intr np) (fun _ => id) fun q hq => ?_
    obtain rfl | hqp := eq_or_ne q p
    · simp [KPc.embryo] at hq
    · exact absurd (hun q (by simpa [hqp] using hq)) hqp
  | @forkParent np k hpc =>
    have h1 : Sane (s.setProc np { s.tab np with parent := some p }) := hi.wake (.update rfl)
    exact h1.move hon rfl rfl rfl rfl (hi.ptlock_keep hon (by rw [hpc]; rfl))
      fun np hnp => .inl (by rw [setProc_pc, hpc]; exact hnp)
  | @forkRun np k hpc =>
    obtain ⟨hst, hre, hun⟩ := hi.embryo p np (by rw [hpc]; rfl)
    have hne : np ≠ p := by rintro rfl; rw [hrun] at hst; cases hst
    have h1 : Sane (s.goto p (.client k)) :=
      hi.move hon rfl rfl rfl rfl (hi.ptlock_keep hon (by rw [hpc]; rfl)) (by rintro _ ⟨⟩)
    refine h1.set (hi.no_cpu (.inr hst)) rfl (update_eq_self np _).symm rfl rfl (by rintro ⟨⟩)
      (fun _ => by simpa [hne] using hre) (by simp) (h1.intr np) (fun _ => id) fun q hq => ?_
    obtain rfl | hqp := eq_or_ne q p
    · simp [KPc.embryo] at hq
    · exact absurd (hun q (by simpa [hqp] using hq)) hqp
  | exitGo hpc hl hn =>
    obtain ⟨t, x, ht, hw, hx⟩ := exit_wakes s.tab p
    exact (hi.wake hw).switch hon hl rfl rfl ht rfl (.inr ⟨hx, rfl⟩) rfl (by rintro _ ⟨⟩)
  | @waitReap k z hpc hl hz =>
    have hst := (Ptable.findZombie_spec hz).2
    have hzp : z ≠ p := by rintro rfl; rw [hst] at hrun; cases hrun
    have h1 : Sane (s.setProc z
        { s.tab z with pid := 0, parent := none, killed := false, state := .unused }) :=
      hi.set (hi.zombie_no_cpu hon hl hst) rfl (update_eq_self ..).symm rfl rfl (by rintro ⟨⟩)
        (by simp) (fun _ => hi.inert z (.inr (.inr hst))) (hi.intr z) (fun _ => id) fun q hq => by
          have := (hi.embryo q z hq).1
          rw [hst] at this; cases this
    exact h1.move hon rfl rfl rfl rfl (ptlock_release hl rfl) (by rintro _ ⟨⟩)
  | waitBack hpc =>
    have h1 : Sane (s.setProc p { s.tab p with chan := none }) := hi.wake (.update rfl)
    exact h1.move hon rfl rfl rfl rfl (hi.ptlock_keep hon (by rw [hpc]; rfl)) (by rintro _ ⟨⟩)

/-- A step of `scheduler` on CPU `c` that stores to no slot. -/
theorem Sane.sched (hi : Sane s) (hrun : (s.cpu c).ctl ≠ .run) {x : Cpu}
    (hcpu : s'.cpu = update s.cpu c x) (hpc : s'.pc = s.pc) (htab : s'.tab = s.tab)
    (hl : ∀ c', c' ≠ c → (s'.ptlock = some c' ↔ s.ptlock = some c')) (hok : s'.CpuOk c)
    (hx : ∀ p, x.proc = some p → (s.cpu c).proc = some p ∨ ∀ c', (s.cpu c').proc ≠ some p) :
    Sane s' := by
  have hne : ∀ c', c' ≠ c → s'.cpu c' = s.cpu c' := fun c' hc => by
    rw [hcpu, update_of_ne hc]
  have hself : s'.cpu c = x := by rw [hcpu, update_self]
  constructor
  case cpu =>
    intro c'
    by_cases hc : c' = c
    · exact hc ▸ hok
    · exact (hi.cpu c').frame (hne c' hc) (hl c' hc) fun q _ => ⟨by rw [htab], by rw [hpc]⟩
  case uniq =>
    intro c₁ c₂ p h₁ h₂
    have hu := hi.uniq c₁ c₂ p
    by_cases hc₁ : c₁ = c <;> by_cases hc₂ : c₂ = c
    · rw [hc₁, hc₂]
    · subst hc₁
      rw [hself] at h₁
      rw [hne c₂ hc₂] at h₂
      rcases hx p h₁ with h | h
      · exact hu h h₂
      · exact absurd h₂ (h c₂)
    · subst hc₂
      rw [hself] at h₂
      rw [hne c₁ hc₁] at h₁
      rcases hx p h₂ with h | h
      · exact hu h₁ h
      · exact absurd h₁ (h c₁)
    · rw [hne c₁ hc₁] at h₁
      rw [hne c₂ hc₂] at h₂
      exact hu h₁ h₂
  case on =>
    intro p hp
    rw [htab] at hp
    obtain ⟨c', hc'⟩ := hi.on p hp
    have hcc : c' ≠ c := by rintro rfl; exact hrun hc'.ctl
    exact ⟨c', by rw [On, hne c' hcc]; exact hc'⟩
  case resumes => rw [htab, hpc]; exact hi.resumes
  case inert => rw [htab, hpc]; exact hi.inert
  case intr => rw [hpc]; exact hi.intr
  case embryo => rw [htab, hpc]; exact hi.embryo

/-- `scheduler` holds the lock: a runnable slot is on no CPU. -/
theorem Sane.runnable_no_cpu (hi : Sane s) (hl : s.ptlock = some c) (hc : (s.cpu c).ctl.out)
    (hq : (s.tab q).state = .runnable) (c' : ℕ) : (s.cpu c').proc ≠ some q := by
  intro h
  have hp := (hi.cpu c').proc
  have hlock : (s.cpu c').ctl.locks → c' = c := fun h' => by
    have := (hi.cpu c').lock.2 (.inl h')
    rw [hl] at this
    cases this; rfl
  grind [Ctl.locks, Ctl.out]

theorem Sane.disp (hi : Sane s) (hc : (s.cpu c).ctl = .disp p) :
    Sane ((s.setProc p { s.tab p with state := .running }).setCtl c .run) := by
  have hp := (hi.cpu c).proc
  rw [hc] at hp
  have hl : s.ptlock = some c := (hi.cpu c).lock.2 (.inl (by rw [hc]; rfl))
  have hre := hi.resumes p (.inl hp.2)
  have hself : (((s.setProc p { s.tab p with state := .running }).setCtl c .run).cpu c).Runs p :=
    ⟨by simp, by simpa using hp.1⟩
  constructor
  case cpu =>
    intro c'
    by_cases hcc : c' = c
    · subst hcc
      constructor
      · rw [locks_iff_of_on hself]
        simpa [hl] using KPc.locks_of_resumes hre
      · rw [hself.ctl]
        exact ⟨p, hself.proc, by simp⟩
    · refine (hi.cpu c').frame (by simp [hcc]) .rfl fun q hq => ?_
      have : q ≠ p := by rintro rfl; exact hcc (hi.uniq _ _ _ hq hp.1)
      simp [this]
  case uniq =>
    have hproc : ∀ c', ((update s.cpu c { s.cpu c with ctl := .run }) c').proc =
        (s.cpu c').proc := fun c' => by
      by_cases hcc : c' = c <;> simp [hcc]
    intro c₁ c₂ q h₁ h₂
    exact hi.uniq c₁ c₂ q ((hproc c₁).symm.trans h₁) ((hproc c₂).symm.trans h₂)
  case on =>
    intro q hq
    by_cases hqp : q = p
    · exact ⟨c, hqp ▸ hself⟩
    · obtain ⟨c', hc'⟩ := hi.on q (by simpa [hqp] using hq)
      have hcc : c' ≠ c := by rintro rfl; rw [hc'.ctl] at hc; cases hc
      exact ⟨c', by simpa [On, hcc] using hc'⟩
  case resumes =>
    intro q hq
    by_cases hqp : q = p
    · exact hqp ▸ hre
    · exact hi.resumes q (by simpa [hqp] using hq)
  case inert =>
    intro q hq
    by_cases hqp : q = p
    · subst hqp; simp at hq
    · exact hi.inert q (by simpa [hqp] using hq)
  case intr => exact hi.intr
  case embryo =>
    intro q np hq
    obtain ⟨hst, hre, hun⟩ := hi.embryo q np hq
    have : np ≠ p := by rintro rfl; rw [hp.2] at hst; cases hst
    exact ⟨by simpa [this] using hst, hre, hun⟩

theorem Sane.schedules (hi : Sane s) (h : Schedules s c s') : Sane s' := by
  have hlk : (s.cpu c).ctl ≠ .run → (s.ptlock = some c ↔ (s.cpu c).ctl.locks) := fun h => by
    rw [(hi.cpu c).lock, locks_iff_of_ne_run h]
  cases h with
  | lockPt hc hl =>
    have hp := (hi.cpu c).out (by rw [hc]; rfl)
    exact hi.sched (by simp [hc]) rfl rfl rfl (by grind)
      (.of_out (by simp [Ctl.out]) (by simpa using hp) (by simp [Ctl.locks])) fun p hp => .inl hp
  | @inspect p hc =>
    have hp := (hi.cpu c).out (by rw [hc]; rfl)
    have hl : s.ptlock = some c := (hlk (by simp [hc])).2 (by rw [hc]; rfl)
    unfold inspect
    split
    · rename_i hs
      refine hi.sched (by simp [hc]) rfl rfl rfl (fun _ _ => .rfl) ⟨?_, ?_⟩ fun q hq => .inr ?_
      · simp [Locks, Ctl.locks, hl]
      · simpa using hs
      · cases hq
        exact hi.runnable_no_cpu hl (by rw [hc]; rfl) hs
    · exact hi.sched (by simp [hc]) rfl rfl rfl (fun _ _ => .rfl)
        (.of_out (by simp [Ctl.out]) (by simpa using hp) (by simp [Ctl.locks, hl]))
        fun q hq => .inl hq
  | unlockPt hc _ hl =>
    have hp := (hi.cpu c).out (by rw [hc]; rfl)
    exact hi.sched (by simp [hc]) rfl rfl rfl (by grind)
      (.of_out (by simp [Ctl.out]) (by simpa using hp) (by simp [Ctl.locks])) fun q hq => .inl hq
  | disp hc => exact hi.disp hc
  | back hc =>
    have hl : s.ptlock = some c := (hlk (by simp [hc])).2 (by rw [hc]; rfl)
    exact hi.sched (by simp [hc]) rfl rfl rfl (fun _ _ => .rfl)
      (.of_out (by simp [Ctl.out]) (by simp) (by simp [Ctl.locks, hl])) (by rintro _ ⟨⟩)
  | check hc =>
    have hp := (hi.cpu c).out (by rw [hc]; rfl)
    have hl : ¬s.ptlock = some c := by rw [hlk (by simp [hc]), hc]; rintro ⟨⟩
    refine hi.sched (by simp [hc]) rfl rfl rfl (fun _ _ => .rfl) (.of_out ?_ ?_ ?_)
      fun q hq => .inl hq
    · simp only [setCtl_cpu, update_self]; split <;> rfl
    · simpa using hp
    · simp only [setCtl_cpu, update_self, setCtl_ptlock, hl]; split <;> simp [Ctl.locks]
  | halt hc =>
    have hp := (hi.cpu c).out (by rw [hc]; rfl)
    have hl : ¬s.ptlock = some c := by rw [hlk (by simp [hc]), hc]; rintro ⟨⟩
    exact hi.sched (by simp [hc]) rfl rfl rfl (fun _ _ => .rfl)
      (.of_out (by simp [Ctl.out]) (by simpa using hp) (by simp [Ctl.locks, hl]))
      fun q hq => .inl hq

/-- **The scheduler's invariant** is kept by every step. -/
theorem Sane.stepped (hi : Sane s) (h : Stepped s c s') : Sane s' := by
  cases h with
  | thread hon h => exact hi.moves hon h
  | sched h => exact hi.schedules h
  | intr _ => exact hi.wake (.wakeup1 s.tab _)

theorem Runs.sane {k : cl.K} {g : cl.G} (h : Runs cl k g s) : Sane s :=
  h.inv (.boot k g) fun _ _ _ hi hs => hi.stepped hs

/-- A thread that is neither waiting for a CPU nor dead is on a CPU. -/
theorem Sane.on_of_pc (hi : Sane s) (hr : (s.pc p).resumes = false)
    (hn : (s.pc p).inert = false) : ∃ c, s.On c p := by
  apply hi.on
  have h1 := hi.resumes p
  have h2 := hi.inert p
  rcases h : (s.tab p).state <;> simp_all

/-- A step leaves the other threads where they are; `fork` gives a thread to a free slot. -/
theorem Moves.pc_ne (hi : Sane s) (h : Moves s c p s') (hq : q ≠ p) :
    s'.pc q = s.pc q ∨
      (s.pc q).inert ∧ ∃ k, s'.pc q = .forkret k ∧ (s.pc p).child = some k := by
  cases h
  case forkAlloc k kc np hpc _ hf =>
    by_cases hnp : q = np
    · subst hnp
      exact .inr ⟨hi.inert q (.inl (Ptable.findUnused_spec hf)), kc, by simp [hq],
        by rw [hpc]; rfl⟩
    · exact .inl (by simp [hq, hnp])
  all_goals exact .inl (by simp [hq])

/-- A thread that stops is dead. -/
theorem Moves.dead_of_inert (hi : Sane s) (h : Moves s c p s') (hp : (s'.pc p).inert) :
    s'.pc p = .dead := by
  cases h
  case enter a pc g _ _ ha _ =>
    obtain rfl := Act.pc_of_entry ha
    simp only [goto_pc, update_self] at hp
    cases a <;> cases hp
  case lockPt pc ha _ =>
    simp only [goto_pc, update_self] at hp ⊢
    rcases hpc : s.pc p <;> rw [hpc] at ha <;>
      simp only [KPc.acquired, Option.some.injEq, reduceCtorEq] at ha <;> subst ha <;> cases hp
  case yieldBack pc hpc _ =>
    have hk := hi.intr p
    rw [hpc] at hk
    simp only [goto_pc, update_self] at hp ⊢
    cases pc <;> simp_all [KPc.inert, KPc.intrOk, KPc.locks]
  all_goals simp_all [KPc.inert]

/-- A process keeps its pid. -/
theorem Moves.pid_eq (h : Moves s c p s')
    (hq : (s.tab q).state ≠ .unused) (hq' : (s.tab q).state ≠ .zombie) :
    (s'.tab q).pid = (s.tab q).pid := by
  cases h
  case wakeGo => simp only [goto_tab, setTab_tab, Ptable.wakeup1_apply]; split <;> rfl
  case killGo pid _ _ _ =>
    simp only [goto_tab, setTab_tab]
    rcases s.tab.kill_apply pid q with h | ⟨-, h⟩ <;> rw [h]
  case exitGo =>
    simp only [setCtl_tab, goto_tab, exit_tab]
    exact (s.tab.exit_fields p q).1
  case forkAlloc np _ _ hf =>
    have hst := Ptable.findUnused_spec hf
    have : q ≠ np := by rintro rfl; exact hq hst
    simp [Ptable.embryo, this]
  case waitReap z _ _ hz =>
    have : q ≠ z := by rintro rfl; exact hq' (Ptable.findZombie_spec hz).2
    simp [Ptable.reap, this]
  case forkFail np _ _ => by_cases hnp : q = np <;> simp [hnp]
  case forkRun np _ _ => by_cases hnp : q = np <;> simp [hnp]
  case forkParent np _ _ => by_cases hnp : q = np <;> simp [hnp]
  all_goals (by_cases hqp : q = p <;> simp [hqp])

theorem Stepped.pid_eq (h : Stepped s c s') (hq : (s.tab q).state ≠ .unused)
    (hq' : (s.tab q).state ≠ .zombie) : (s'.tab q).pid = (s.tab q).pid := by
  cases h with
  | thread _ h => exact h.pid_eq hq hq'
  | sched h =>
    cases h with
    | @disp p _ => by_cases hqp : q = p <;> simp [hqp]
    | inspect => unfold Kern.inspect; split <;> rfl
    | _ => rfl
  | intr => simp only [setTab_tab, Ptable.wakeup1_apply]; split <;> rfl

/-! ## No process on two CPUs -/

/-- `wait` frees the kernel stack and the page table of slot `z` in this step. -/
def Frees (s s' : Kern cl) (z : PSlot) : Prop :=
  (s.tab z).state = .zombie ∧ (s'.tab z).state = .unused

theorem Wakes.not_frees (hw : Wakes s.tab s'.tab) : ¬Frees s s' z := by
  rintro ⟨h1, h2⟩
  have := hw z
  grind

/-- A store to one slot frees no other. -/
theorem not_frees_of_update (hw : Wakes s.tab t) (htab : s'.tab = update t p x)
    (hx : (s.tab p).state ≠ .zombie ∨ x.state ≠ .unused) : ¬Frees s s' z := by
  rintro ⟨h1, h2⟩
  have := hw z
  rw [htab] at h2
  by_cases hz : z = p
  · subst hz
    rw [update_self] at h2
    exact hx.elim (· h1) (· h2)
  · rw [update_of_ne hz] at h2
    grind

/-- A step that frees a slot is one of `wait`, with the lock. -/
theorem Sane.frees (hi : Sane s) (h : Stepped s c s') (hz : Frees s s' z) :
    ∃ p, s.On c p ∧ s.ptlock = some c := by
  cases h with
  | @thread p _ hon h =>
    have hrun := hi.running hon
    cases h with
    | goto | acquire | release | enter | timer | lockPt | yieldBack | sleepRel | sleepReacq
    | forkFull | forkSetup | waitFail | forkret => exact absurd hz (Wakes.refl _).not_frees
    | fault | sleepBack | forkParent | waitBack => exact absurd hz (Wakes.update (by rfl)).not_frees
    | wakeGo => exact absurd hz (Wakes.wakeup1 s.tab _).not_frees
    | killGo => exact absurd hz (Wakes.kill s.tab _).not_frees
    | yieldGo | sleepGo | waitSleep | forkRun | forkAlloc =>
      exact absurd hz (not_frees_of_update (.refl _) rfl (.inr (by rintro ⟨⟩)))
    | forkFail hpc =>
      have hst := (hi.embryo p _ (by rw [hpc]; rfl)).1
      exact absurd hz (not_frees_of_update (.refl _) rfl (.inl (by rw [hst]; rintro ⟨⟩)))
    | exitGo =>
      obtain ⟨t, x, ht, hw, hx⟩ := exit_wakes s.tab p
      exact absurd hz (not_frees_of_update hw ht (.inr (by rw [hx]; rintro ⟨⟩)))
    | waitReap _ hl _ => exact ⟨p, hon, hl⟩
  | sched h =>
    cases h with
    | lockPt | unlockPt | back | check | halt => exact absurd hz (Wakes.refl _).not_frees
    | @inspect p _ =>
      have : (s.inspect c p).tab = s.tab := by unfold inspect; split <;> rfl
      exact absurd hz (Wakes.not_frees (by rw [this]; exact .refl _))
    | disp => exact absurd hz (not_frees_of_update (.refl _) rfl (.inr (by rintro ⟨⟩)))
  | intr => exact absurd hz (Wakes.wakeup1 s.tab _).not_frees

/-- **No process runs on two CPUs, and nothing in use is freed.**  Whenever
`ptable.lock` is free, a slot is `RUNNING` iff exactly one CPU has it as its
`proc`; and `wait` frees no slot that some CPU still has as its `proc`. -/
theorem running_iff_one_cpu {cl : Client} {k : cl.K} {g : cl.G} {s : Kern cl}
    (h : Runs cl k g s) :
    (s.ptlock = none → ∀ p, (s.tab p).state = .running ↔
      ∃ c, (s.cpu c).proc = some p ∧ ∀ c', c' ≠ c → (s.cpu c').proc ≠ some p) ∧
    ∀ x s', s.next x = some s' → ∀ z, Frees s s' z → ∀ c, (s.cpu c).proc ≠ some z := by
  have hi := h.sane
  refine ⟨fun hl p => ⟨fun hp => ?_, ?_⟩, ?_⟩
  · obtain ⟨c, hc⟩ := hi.on p hp
    exact ⟨c, hc.proc, fun c' hne hc' => hne (hi.uniq _ _ _ hc' hc.proc)⟩
  · rintro ⟨c, hc, -⟩
    have hnl : ¬(s.cpu c).ctl.locks := fun h' => by
      have := (hi.cpu c).lock.2 (.inl h')
      rw [hl] at this
      cases this
    have := (hi.cpu c).proc
    grind [Ctl.locks]
  · intro x s' hs z hz c
    obtain ⟨p, hon, hl⟩ := hi.frees (stepped_of_next hs) hz
    exact hi.zombie_no_cpu hon hl hz.1 c

/-- init forks on CPU 0; the child runs and exits on CPU 1, whose scheduler
then goes through the rest of the table; init calls `wait`. -/
def exitRun : List (ℕ × Label UserCall) :=
  [(0, .go), (0, .go), (0, .go), (0, .go), (0, .client .fork), (0, .go), (0, .go), (0, .go),
    (0, .go), (0, .go), (1, .go), (1, .go), (1, .go), (1, .go), (1, .go), (1, .client .exit),
    (1, .go), (1, .go)] ++ List.replicate 64 (1, .go) ++ [(0, .client .wait), (0, .go)]

def exitEnd : Transition.Reached (Runs userClient () ()) fun s =>
    (s.next (0, .go)).any fun s' =>
      (s.tab 1).state = .zombie ∧ (s'.tab 1).state = .unused :=
  Runs.ofNext exitRun (by decide +kernel)

theorem running_iff_one_cpu_wait : ∃ s s', Runs userClient () () s ∧
    s.next (0, .go) = some s' ∧ Frees s s' 1 ∧ ∀ c, (s.cpu c).proc ≠ some 1 := by
  obtain ⟨s, hs, hP⟩ := exitEnd
  rcases hn : s.next (0, .go) with _ | s' <;> rw [hn] at hP
  · cases hP
  · have hf : Frees s s' 1 := by simpa [Frees] using hP
    exact ⟨s, s', hs, hn, hf, (running_iff_one_cpu hs).2 _ _ hn 1 hf⟩

/-- **The slot of a `fork` in progress is its own**: it is `EMBRYO`, no other `fork` has it, and no
CPU runs it. -/
theorem fork_slot_own {cl : Client} {k : cl.K} {g : cl.G} {s : Kern cl} (h : Runs cl k g s)
    {q np : PSlot} (hq : (s.pc q).embryo = some np) : (s.tab np).state = .embryo ∧
      (∀ q', (s.pc q').embryo = some np → q' = q) ∧ ∀ c, (s.cpu c).proc ≠ some np := by
  obtain ⟨hst, -, huniq⟩ := h.sane.embryo q np hq
  refine ⟨hst, huniq, fun c hc => ?_⟩
  have hp := (h.sane.cpu c).proc
  cases hctl : (s.cpu c).ctl <;> rw [hctl] at hp <;> simp only [hc] at hp
  all_goals simp_all

/-- init is in `fork`. -/
def forkEnd : Transition.Reached (Runs userClient () ()) fun s => (s.pc 0).embryo = some 1 :=
  Runs.ofNext (exitRun.take 8) (by decide +kernel)

theorem fork_slot_own_run : ∃ s, Runs userClient () () s ∧ (s.tab 1).state = .embryo ∧
    ∀ c, (s.cpu c).proc ≠ some 1 := by
  obtain ⟨s, hs, hP⟩ := forkEnd
  obtain ⟨h1, -, h2⟩ := fork_slot_own hs (of_decide_eq_true hP)
  exact ⟨s, hs, h1, h2⟩

end Kern

end Xv6
