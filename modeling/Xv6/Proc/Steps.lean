/-
  The steps of the process machine, one constructor for each
  (`Kern.stepped_of_next`), and the observations of a program counter that the
  invariants speak about.
-/
import Xv6.Proc.Kernel

namespace Xv6

open Function

namespace KPc

variable {L K : Type}

/-- The thread holds `ptable.lock` there. -/
def locks : KPc L K → Bool
  | yieldGo _ | yieldBack _ | sleepRel .. | sleepGo .. | sleepBack .. | wakeGo .. | killGo ..
  | forkFind .. | exitGo | waitScan _ | waitBack _ | forkret _ => true
  | _ => false

/-- A thread that is not running is there. -/
def resumes : KPc L K → Bool
  | yieldBack _ | sleepBack .. | waitBack _ | forkret _ => true
  | _ => false

/-- The thread of a slot that is no process is there. -/
def inert : KPc L K → Bool
  | forkret _ | dead => true
  | _ => false

/-- The slot that a `fork` in progress is filling. -/
def embryo : KPc L K → Option PSlot
  | forkSetup np _ | forkParent np _ | forkRun np _ => some np
  | yieldAcq pc | yieldGo pc | yieldBack pc => pc.embryo
  | _ => none

/-- Where the thread is in the client, or will be when it is back there. -/
def control : KPc L K → Option K
  | client k | sleepAcq _ _ k | sleepRel _ _ k | sleepGo _ _ k | sleepBack _ _ k | sleepReacq _ k
  | wakeAcq _ k | wakeGo _ k | killAcq _ k | killGo _ k | forkAcq k _ | forkFind k _
  | forkSetup _ k | forkParent _ k | forkRun _ k | waitAcq k | waitScan k | waitBack k
  | forkret k => some k
  | yieldAcq pc | yieldGo pc | yieldBack pc => pc.control
  | _ => none

/-- Where the child of a `fork` will start. -/
def child : KPc L K → Option K
  | forkAcq _ kc | forkFind _ kc => some kc
  | yieldAcq pc | yieldGo pc | yieldBack pc => pc.child
  | _ => none

/-- A timer interrupt does not come while the thread holds `ptable.lock`. -/
def intrOk : KPc L K → Bool
  | yieldAcq pc | yieldGo pc | yieldBack pc => !pc.locks && pc.intrOk
  | _ => true

theorem locks_of_resumes {pc : KPc L K} (h : pc.resumes) : pc.locks := by
  cases pc <;> simp_all [resumes, locks]

theorem acquired_spec {pc pc' : KPc L K} (h : pc.acquired = some pc') :
    pc.locks = false ∧ pc'.locks ∧ pc'.embryo = pc.embryo ∧ pc'.intrOk = pc.intrOk := by
  cases pc <;> simp only [acquired, Option.some.injEq, reduceCtorEq] at h <;>
    subst h <;> exact ⟨rfl, rfl, rfl, rfl⟩

theorem acquired_control {pc pc' : KPc L K} (h : pc.acquired = some pc') :
    pc'.control = pc.control ∧ pc'.child = pc.child := by
  cases pc <;> simp only [acquired, Option.some.injEq, reduceCtorEq] at h <;>
    subst h <;> exact ⟨rfl, rfl⟩

end KPc

/-- The entry of a call of `proc.c`. -/
def Act.entry {L K : Type} : Act L K → Option (KPc L K)
  | .sleep ch lk k => some (.sleepAcq ch lk k)
  | .wakeup ch k => some (.wakeAcq ch k)
  | .kill pid k => some (.killAcq pid k)
  | .fork k kc => some (.forkAcq k kc)
  | .exit => some .exitAcq
  | .wait k => some (.waitAcq k)
  | _ => none

/-- Where a thread is after an action. -/
def Act.pc {L K : Type} : Act L K → KPc L K
  | .goto k | .acquire _ k | .release _ k | .fault k => .client k
  | .sleep ch lk k => .sleepAcq ch lk k
  | .wakeup ch k => .wakeAcq ch k
  | .kill pid k => .killAcq pid k
  | .fork k kc => .forkAcq k kc
  | .exit => .exitAcq
  | .wait k => .waitAcq k

theorem Act.pc_of_entry {L K : Type} {a : Act L K} {pc : KPc L K} (h : a.entry = some pc) :
    a.pc = pc := by
  cases a <;> simp only [Act.entry, Option.some.injEq, reduceCtorEq] at h <;> exact h

theorem Act.entry_spec {L K : Type} {a : Act L K} {pc : KPc L K} (h : a.entry = some pc) :
    pc.locks = false ∧ pc.embryo = none ∧ pc.intrOk := by
  cases a <;> simp only [Act.entry, Option.some.injEq, reduceCtorEq] at h <;>
    subst h <;> exact ⟨rfl, rfl, rfl⟩

/-- The CPU runs the kernel thread or the user code of slot `p`. -/
structure Cpu.Runs (x : Cpu) (p : PSlot) : Prop where
  ctl : x.ctl = .run
  proc : x.proc = some p

theorem Cpu.Runs.unique {x : Cpu} {p q : PSlot} (h : x.Runs p) (h' : x.Runs q) : p = q :=
  Option.some.inj (h.proc.symm.trans h'.proc)

namespace Kern

variable {cl : Client}

/-- PSlot `p` is on CPU `c`. -/
abbrev On (s : Kern cl) (c : ℕ) (p : PSlot) : Prop := (s.cpu c).Runs p

/-- Only wakeups: every slot keeps its state or becomes runnable from a sleep. -/
def Wakes (t t' : Ptable) : Prop :=
  ∀ q, (t' q).state = (t q).state ∨ (t q).state = .sleeping ∧ (t' q).state = .runnable

/-- The steps of the kernel thread of `p` on CPU `c`. -/
inductive Moves (s : Kern cl) (c : ℕ) (p : PSlot) : Kern cl → Prop
  | goto {k x k' g} : s.pc p = .client k →
      cl.prog p (s.tab p) s.g k x = some (.goto k', g) →
      Moves s c p { s.goto p (.client k') with g := g }
  | acquire {k x lk k' g} : s.pc p = .client k →
      cl.prog p (s.tab p) s.g k x = some (.acquire lk k', g) → s.lock lk = none →
      Moves s c p { s.goto p (.client k') with
        g := g, lock := update s.lock lk (some c) }
  | release {k x lk k' g} : s.pc p = .client k →
      cl.prog p (s.tab p) s.g k x = some (.release lk k', g) → s.lock lk = some c →
      Moves s c p { s.goto p (.client k') with g := g, lock := update s.lock lk none }
  | enter {k x a pc g} : s.pc p = .client k →
      cl.prog p (s.tab p) s.g k x = some (a, g) → a.entry = some pc →
      (pc = .exitAcq → p ≠ initproc) → Moves s c p { s.goto p pc with g := g }
  | fault {k x k' g} : s.pc p = .client k →
      cl.prog p (s.tab p) s.g k x = some (.fault k', g) →
      Moves s c p { (s.setProc p { s.tab p with killed := true }).goto p (.client k') with g := g }
  | timer : s.ncli c = 0 → (s.pc p).yielding = false →
      Moves s c p (s.goto p (.yieldAcq (s.pc p)))
  | lockPt {pc} : (s.pc p).acquired = some pc → s.ptlock = none →
      Moves s c p { s.goto p pc with ptlock := some c }
  | yieldGo {pc} : s.pc p = .yieldGo pc → s.ptlock = some c → s.ncli c = 1 →
      Moves s c p (((s.setProc p { s.tab p with state := .runnable }).goto p (.yieldBack pc)).setCtl
        c (.back p))
  | yieldBack {pc} : s.pc p = .yieldBack pc → s.ptlock = some c →
      Moves s c p { s.goto p pc with ptlock := none }
  | sleepRel {ch lk k} : s.pc p = .sleepRel ch lk k → s.lock lk = some c →
      Moves s c p { s.goto p (.sleepGo ch lk k) with lock := update s.lock lk none }
  | sleepGo {ch lk k} : s.pc p = .sleepGo ch lk k → s.ptlock = some c → s.ncli c = 1 →
      Moves s c p (((s.setProc p
        { s.tab p with chan := some (.ext ch), state := .sleeping }).goto p
          (.sleepBack ch lk k)).setCtl c (.back p))
  | sleepBack {ch lk k} : s.pc p = .sleepBack ch lk k → s.ptlock = some c →
      Moves s c p { (s.setProc p { s.tab p with chan := none }).goto p (.sleepReacq lk k) with
        ptlock := none }
  | sleepReacq {lk k} : s.pc p = .sleepReacq lk k → s.lock lk = none →
      Moves s c p { s.goto p (.client k) with lock := update s.lock lk (some c) }
  | wakeGo {ch k} : s.pc p = .wakeGo ch k → s.ptlock = some c →
      Moves s c p { (s.setTab (s.tab.wakeup1 (some (.ext ch)))).goto p (.client k) with
        ptlock := none }
  | killGo {pid k} : s.pc p = .killGo pid k → s.ptlock = some c →
      Moves s c p { (s.setTab (s.tab.kill pid)).goto p (.client k) with ptlock := none }
  | forkFull {k kc} : s.pc p = .forkFind k kc → s.ptlock = some c → s.tab.findUnused = none →
      Moves s c p { s.goto p (.client k) with ptlock := none }
  | forkAlloc {k kc np} : s.pc p = .forkFind k kc → s.ptlock = some c →
      s.tab.findUnused = some np →
      Moves s c p { (s.allocproc np kc).goto p (.forkSetup np k) with ptlock := none }
  | forkSetup {np k} : s.pc p = .forkSetup np k → Moves s c p (s.goto p (.forkParent np k))
  | forkFail {np k} : s.pc p = .forkSetup np k →
      Moves s c p ((s.setProc np { s.tab np with state := .unused }).goto p (.client k))
  | forkParent {np k} : s.pc p = .forkParent np k →
      Moves s c p ((s.setProc np { s.tab np with parent := some p }).goto p (.forkRun np k))
  | forkRun {np k} : s.pc p = .forkRun np k →
      Moves s c p ((s.forkDone p np).goto p (.client k))
  | exitGo : s.pc p = .exitGo → s.ptlock = some c → s.ncli c = 1 →
      Moves s c p (((s.exit p).goto p .dead).setCtl c (.back p))
  | waitReap {k z} : s.pc p = .waitScan k → s.ptlock = some c → s.tab.findZombie p = some z →
      Moves s c p { (s.reap p z).goto p (.client k) with ptlock := none }
  | waitFail {k} : s.pc p = .waitScan k → s.ptlock = some c →
      Moves s c p { s.goto p (.client k) with ptlock := none }
  | waitSleep {k} : s.pc p = .waitScan k → s.ptlock = some c → s.ncli c = 1 →
      s.tab.findZombie p = none →
      Moves s c p (((s.setProc p
        { s.tab p with chan := some (.proc p), state := .sleeping }).goto p
          (.waitBack k)).setCtl c (.back p))
  | waitBack {k} : s.pc p = .waitBack k →
      Moves s c p ((s.setProc p { s.tab p with chan := none }).goto p (.waitScan k))
  | forkret {k} : s.pc p = .forkret k → s.ptlock = some c →
      Moves s c p { s.goto p (.client k) with ptlock := none }

/-- The steps of `scheduler` on CPU `c`. -/
inductive Schedules (s : Kern cl) (c : ℕ) : Kern cl → Prop
  | lockPt : (s.cpu c).ctl = .idle → s.ptlock = none →
      Schedules s c { s.setCtl c (.scan 0) with ptlock := some c }
  | inspect {p : PSlot} : (s.cpu c).ctl = .scan p → Schedules s c (s.inspect c p)
  | unlockPt {i} : (s.cpu c).ctl = .scan i → NPROC ≤ i → s.ptlock = some c →
      Schedules s c { s.setCtl c .check with ptlock := none }
  | disp {p} : (s.cpu c).ctl = .disp p →
      Schedules s c ((s.setProc p { s.tab p with state := .running }).setCtl c .run)
  | back {p : PSlot} : (s.cpu c).ctl = .back p →
      Schedules s c (s.setCpu c { s.cpu c with proc := none, ctl := .scan (p + 1) })
  | check : (s.cpu c).ctl = .check →
      Schedules s c (s.setCtl c (if (s.cpu c).skipped > NPROC then .halt else .idle))
  | halt : (s.cpu c).ctl = .halt →
      Schedules s c (s.setCpu c { s.cpu c with ctl := .idle, skipped := 0 })

/-- The steps of CPU `c`. -/
inductive Stepped (s : Kern cl) (c : ℕ) : Kern cl → Prop
  | thread {p s'} : s.On c p → Moves s c p s' → Stepped s c s'
  | sched {s'} : Schedules s c s' → Stepped s c s'
  | intr {ch} : s.ptlock = none → Stepped s c (s.setTab (s.tab.wakeup1 (some (.ext ch))))

variable {s s' : Kern cl} {c c' : ℕ} {p : PSlot}

variable {f : Kern cl → Kern cl} {k : cl.K}

theorem lockPt_eq (h : (s.lockPt c).map f = some s') :
    s.ptlock = none ∧ s' = f { s with ptlock := some c } := by
  simp only [lockPt] at h
  split at h <;> cases h
  exact ⟨‹_›, rfl⟩

theorem unlockPt_eq (h : (s.unlockPt c).map f = some s') :
    s.ptlock = some c ∧ s' = f { s with ptlock := none } := by
  simp only [unlockPt] at h
  split at h <;> cases h
  exact ⟨‹_›, rfl⟩

theorem lockLk_eq {lk : cl.L} (h : (s.lockLk c lk).map f = some s') :
    s.lock lk = none ∧ s' = f { s with lock := update s.lock lk (some c) } := by
  simp only [lockLk] at h
  split at h <;> cases h
  exact ⟨‹_›, rfl⟩

theorem unlockLk_eq {lk : cl.L} (h : (s.unlockLk c lk).map f = some s') :
    s.lock lk = some c ∧ s' = f { s with lock := update s.lock lk none } := by
  simp only [unlockLk] at h
  split at h <;> cases h
  exact ⟨‹_›, rfl⟩

theorem sched_eq {t : Kern cl} {pc : KPc cl.L cl.K} (h : s.sched c p pc = some t) :
    s.ptlock = some c ∧ s.ncli c = 1 ∧ t = (s.goto p pc).setCtl c (.back p) := by
  simp only [sched] at h
  split at h <;> cases h
  exact ⟨‹_ ∧ _ ∧ _›.1, ‹_ ∧ _ ∧ _›.2.1, rfl⟩

theorem moves_of_act {x : cl.X} {a : Act cl.L cl.K} {g : cl.G} (hpc : s.pc p = .client k)
    (hp : cl.prog p (s.tab p) s.g k x = some (a, g))
    (h : Kern.act { s with g := g } c p a = some s') : Moves s c p s' := by
  cases a with
  | goto k' => cases h; exact .goto hpc hp
  | acquire lk k' =>
    obtain ⟨hl, rfl⟩ := lockLk_eq h
    exact .acquire hpc hp hl
  | release lk k' =>
    obtain ⟨hl, rfl⟩ := unlockLk_eq h
    exact .release hpc hp hl
  | exit =>
    simp only [act] at h
    split at h <;> cases h
    exact .enter hpc hp rfl fun _ => ‹_›
  | fault k' => cases h; exact .fault hpc hp
  | sleep | wakeup | kill | fork | wait => cases h; exact .enter hpc hp rfl (by rintro ⟨⟩)

theorem moves_of_waitNext (hpc : s.pc p = .waitScan k) (h : s.waitNext c p k = some s') :
    Moves s c p s' := by
  unfold waitNext at h
  rcases hz : s.tab.findZombie p with _ | z <;> simp only [hz] at h
  · split at h
    · obtain ⟨hl, rfl⟩ := unlockPt_eq h
      exact .waitFail hpc hl
    · obtain ⟨hl, hn, rfl⟩ := sched_eq h
      exact .waitSleep hpc hl hn hz
  · obtain ⟨hl, rfl⟩ := unlockPt_eq h
    exact .waitReap hpc hl hz

theorem moves_of_forkNext {k kc : cl.K} (hpc : s.pc p = .forkFind k kc)
    (h : s.forkNext c p k kc = some s') : Moves s c p s' := by
  unfold forkNext at h
  rcases hz : s.tab.findUnused with _ | z <;> simp only [hz] at h
  all_goals
    obtain ⟨hl, rfl⟩ := unlockPt_eq h
  · exact .forkFull hpc hl hz
  · exact .forkAlloc hpc hl hz

theorem moves_of_procNext (h : s.procNext c p (s.pc p) = some s') : Moves s c p s' := by
  rcases hpc : s.pc p <;> simp only [hpc, procNext, reduceCtorEq, Option.some.injEq] at h
  case yieldGo =>
    obtain ⟨hl, hn, rfl⟩ := sched_eq h
    exact .yieldGo hpc hl hn
  case sleepGo =>
    obtain ⟨hl, hn, rfl⟩ := sched_eq h
    exact .sleepGo hpc hl hn
  case exitGo =>
    obtain ⟨hl, hn, rfl⟩ := sched_eq h
    exact .exitGo hpc hl hn
  case yieldBack =>
    obtain ⟨hl, rfl⟩ := unlockPt_eq h
    exact .yieldBack hpc hl
  case sleepBack =>
    obtain ⟨hl, rfl⟩ := unlockPt_eq h
    exact .sleepBack hpc hl
  case wakeGo =>
    obtain ⟨hl, rfl⟩ := unlockPt_eq h
    exact .wakeGo hpc hl
  case killGo =>
    obtain ⟨hl, rfl⟩ := unlockPt_eq h
    exact .killGo hpc hl
  case forkret =>
    obtain ⟨hl, rfl⟩ := unlockPt_eq h
    exact .forkret hpc hl
  case sleepRel =>
    obtain ⟨hl, rfl⟩ := unlockLk_eq h
    exact .sleepRel hpc hl
  case sleepReacq =>
    obtain ⟨hl, rfl⟩ := lockLk_eq h
    exact .sleepReacq hpc hl
  case forkFind => exact moves_of_forkNext hpc h
  case waitScan => exact moves_of_waitNext hpc h
  case forkSetup => subst h; exact .forkSetup hpc
  case forkParent => subst h; exact .forkParent hpc
  case forkRun => subst h; exact .forkRun hpc
  case waitBack => subst h; exact .waitBack hpc

theorem moves_of_threadNext {l : Label cl.X} (h : s.threadNext c p l = some s') :
    Moves s c p s' := by
  cases l with
  | go =>
    simp only [threadNext] at h
    rcases ha : (s.pc p).acquired with _ | pc <;> simp only [ha] at h
    · exact moves_of_procNext h
    · obtain ⟨hl, rfl⟩ := lockPt_eq h
      exact .lockPt ha hl
  | client x =>
    rcases hpc : s.pc p <;> simp only [hpc, threadNext, reduceCtorEq] at h
    obtain ⟨⟨a, g⟩, hp, h⟩ := Option.bind_eq_some_iff.1 h
    exact moves_of_act hpc hp h
  | fail =>
    rcases hpc : s.pc p <;> simp only [hpc, threadNext, reduceCtorEq, Option.some.injEq] at h
    subst h
    exact .forkFail hpc
  | timer =>
    simp only [threadNext] at h
    split at h <;> cases h
    exact .timer ‹_ ∧ _›.1 ‹_ ∧ _›.2
  | intr ch => cases h

theorem schedules_of_schedNext (h : s.schedNext c (s.cpu c).ctl = some s') :
    Schedules s c s' := by
  rcases hc : (s.cpu c).ctl <;> simp only [hc, schedNext, reduceCtorEq, Option.some.injEq] at h
  case idle =>
    obtain ⟨hl, rfl⟩ := lockPt_eq h
    exact .lockPt hc hl
  case scan i =>
    split at h
    · cases h; exact .inspect hc
    · obtain ⟨hl, rfl⟩ := unlockPt_eq h
      exact .unlockPt hc (Nat.le_of_not_lt ‹_›) hl
  case disp => subst h; exact .disp hc
  case back => subst h; exact .back hc
  case check => subst h; exact .check hc
  case halt => subst h; exact .halt hc

/-- **Every step of a CPU is one of these.** -/
theorem stepped_of_next {l : Label cl.X} (h : s.next (c, l) = some s') : Stepped s c s' := by
  cases l
  case intr ch =>
    simp only [next, intrNext] at h
    split at h <;> cases h
    exact .intr ‹_ ∧ _›.2
  all_goals
    simp only [next] at h
    split at h
    · exact .thread ⟨‹_›, ‹_›⟩ (moves_of_threadNext h)
    · cases h
    · first | exact .sched (schedules_of_schedNext h) | cases h

theorem Moves.cpu_ne (h : Moves s c p s') (hc : c' ≠ c) : s'.cpu c' = s.cpu c' := by
  cases h <;> simp [hc]

theorem Schedules.cpu_ne (h : Schedules s c s') (hc : c' ≠ c) : s'.cpu c' = s.cpu c' := by
  cases h
  case inspect => unfold Kern.inspect; split <;> simp [hc]
  all_goals simp [hc]

/-- A step changes only its own CPU. -/
theorem Stepped.cpu_ne (h : Stepped s c s') (hc : c' ≠ c) : s'.cpu c' = s.cpu c' := by
  cases h with
  | thread _ h => exact h.cpu_ne hc
  | sched h => exact h.cpu_ne hc
  | intr => rfl

/-- A step of a thread is one of its client, or leaves it where it is in the client. -/
theorem Moves.client (h : Moves s c p s') : (∃ k x a, s.pc p = .client k ∧
    cl.prog p (s.tab p) s.g k x = some (a, s'.g) ∧ s'.pc p = a.pc) ∨
    s'.g = s.g ∧ (s'.pc p).control = (s.pc p).control ∧
      ∀ kc, (s'.pc p).child = some kc → (s.pc p).child = some kc := by
  cases h with
  | goto hpc hp | acquire hpc hp | release hpc hp | fault hpc hp =>
    exact .inl ⟨_, _, _, hpc, hp, by simp [Act.pc]⟩
  | enter hpc hp ha => exact .inl ⟨_, _, _, hpc, hp, by simp [Act.pc_of_entry ha]⟩
  | timer => exact .inr ⟨rfl, by simp [KPc.control], by simp [KPc.child]⟩
  | lockPt ha =>
    obtain ⟨h1, h2⟩ := KPc.acquired_control ha
    exact .inr ⟨rfl, by simp [h1], by simp [h2]⟩
  | forkAlloc hpc =>
    exact .inr ⟨rfl, by simp [hpc, KPc.control], by simp [KPc.child]⟩
  | yieldGo hpc | yieldBack hpc =>
    exact .inr ⟨rfl, by simp [hpc, KPc.control], by simp [hpc, KPc.child]⟩
  | _ => exact .inr ⟨rfl, by simp_all [KPc.control], by simp_all [KPc.child]⟩

/-- **The invariant rule** for the process machine. -/
theorem Runs.inv {g : cl.G} {I : Kern cl → Prop} (h0 : I (boot cl k g))
    (hstep : ∀ s c s', I s → Stepped s c s' → I s') (h : Runs cl k g s) : I s :=
  Transition.Reach.inv (by rintro _ rfl; exact h0)
    (fun s x s' hi hs => hstep s x.1 s' hi (stepped_of_next hs)) h

end Kern

end Xv6
