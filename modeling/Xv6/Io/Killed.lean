/-
  Kills and sleeps.

  The loops of `piperead`, `pipewrite`, `sys_sleep` and `consoleread` test
  `proc->killed` before they sleep, but without `ptable.lock`.  A `kill`
  between the test and `proc->state = SLEEPING` finds the process running and
  does not wake it up.  A kill at any other time is not missed.
-/
import Xv6.Io.Calls
import Xv6.Proc.Control

namespace Xv6

open Transition

namespace Kern

variable {cl : Client} {s s' : Kern cl} {c : ℕ} {p q : PSlot}

/-- Who marks a process as killed: itself after a fault, or a `kill`, which also wakes it up. -/
theorem Moves.killed (h : Moves s c p s') (hq : (s'.tab q).killed = true) :
    (s.tab q).killed = true ∨
    (q = p ∧ ∃ k x k', cl.prog p (s.tab p) s.g k x = some (.fault k', s'.g) ∧
      s'.pc p = .client k') ∨
    ∃ pid k, s.pc p = .killGo pid k ∧ (s.tab q).pid = pid ∧ (s'.tab q).state ≠ .sleeping := by
  cases h with
  | @killGo pid k hpc hl =>
    simp only [goto_tab, setTab_tab] at hq ⊢
    rcases s.tab.kill_apply pid q with he | ⟨hpid, he⟩
    · exact .inl (by rw [he] at hq; exact hq)
    · refine .inr (.inr ⟨pid, k, hpc, hpid, ?_⟩)
      rw [he]
      dsimp only
      split
      · rintro ⟨⟩
      · assumption
  | fault hpc hp =>
    by_cases hqp : q = p
    · exact .inr (.inl ⟨hqp, _, _, _, hp, by simp⟩)
    · exact .inl (by simpa [hqp] using hq)
  | wakeGo =>
    simp only [goto_tab, setTab_tab, Ptable.wakeup1_apply] at hq
    split at hq <;> exact .inl hq
  | @forkAlloc k kc np =>
    by_cases hqp : q = np <;> simp_all [Ptable.embryo]
  | @waitReap k z =>
    by_cases hqz : q = z <;> simp_all [Ptable.reap]
  | exitGo =>
    simp only [setCtl_tab, goto_tab, exit_tab] at hq
    exact .inl ((s.tab.exit_fields p q).2.2.1 ▸ hq)
  | @forkFail np _ _ => by_cases hnp : q = np <;> simp_all
  | @forkRun np _ _ => by_cases hnp : q = np <;> simp_all
  | @forkParent np _ _ => by_cases hnp : q = np <;> simp_all
  | _ => by_cases hqp : q = p <;> simp_all

theorem Stepped.killed (h : Stepped s c s') (hq : (s'.tab q).killed = true) :
    (s.tab q).killed = true ∨ ∃ p, s.On c p ∧ ((q = p ∧
      ∃ k x k', cl.prog p (s.tab p) s.g k x = some (.fault k', s'.g) ∧ s'.pc p = .client k') ∨
      ∃ pid k, s.pc p = .killGo pid k ∧ (s.tab q).pid = pid ∧ (s'.tab q).state ≠ .sleeping) := by
  cases h with
  | thread hon h => exact (h.killed hq).imp_right fun h => ⟨_, hon, h⟩
  | sched h =>
    cases h with
    | @disp p _ => by_cases hqp : q = p <;> simp_all
    | inspect => unfold Kern.inspect at hq; split at hq <;> exact .inl hq
    | _ => exact .inl hq
  | intr =>
    simp only [setTab_tab, Ptable.wakeup1_apply] at hq
    split at hq <;> exact .inl hq

end Kern

/-! ## Loops that test `proc->killed` -/

/-- The points between the test of `pipewrite` and its `sleep`. -/
def IoPc.tested : IoPc → Bool
  | writeWake _ | writeSleep _ => true
  | _ => false

namespace KPc

variable {L K : Type}

/-- The thread has called `sleep`, and is not yet `SLEEPING`. -/
def dozing : KPc L K → Bool
  | sleepAcq .. | sleepRel .. | sleepGo .. => true
  | yieldAcq pc | yieldGo pc | yieldBack pc => pc.dozing
  | _ => false

theorem acquired_dozing {pc pc' : KPc L K} (h : pc.acquired = some pc') :
    pc'.dozing = pc.dozing := by
  cases pc <;> simp only [acquired, Option.some.injEq, reduceCtorEq] at h <;> subst h <;> rfl

/-- The thread has tested `proc->killed`, and is not yet `SLEEPING`. -/
def Tested (pc : KPc L IoPc) : Prop := pc.dozing = true ∨ ∃ k, pc.control = some k ∧ k.tested

/-- The test of `Tested`. -/
def tested (pc : KPc L IoPc) : Bool := pc.dozing || pc.control.any IoPc.tested

theorem tested_iff {pc : KPc L IoPc} : pc.tested ↔ pc.Tested := by
  simp [tested, Tested, Option.any_eq_true]

end KPc

variable {p q : PSlot} {proc : Proc} {g g' : IoData} {k : IoPc} {a : Act IoLock IoPc}

/-- Only a process that is not killed passes the test. -/
theorem IoStep.tested (h : IoStep p proc g k a g') (ha : a.pc.Tested) :
    k.tested = true ∨ proc.killed = false := by
  cases h with
  | readSleep _ _ hk | writeFull _ _ hk => exact .inr hk
  | sleepSleep hk | consoleSleep hk => exact .inr hk
  | writeWake | writeSleep => exact .inl rfl
  | call x => cases x <;> simp [UserCall.act, Act.pc, KPc.Tested, KPc.dozing, KPc.control,
      IoPc.tested] at ha
  | _ => simp [Act.pc, KPc.Tested, KPc.dozing, KPc.control, IoPc.tested] at ha

theorem IoStep.fault (h : IoStep p proc g k a g') {k' : IoPc} (ha : a = .fault k') :
    k' = .user := by
  cases h with
  | call x => cases x <;> cases ha; rfl
  | _ => cases ha

open Kern

variable {s s' : Kern ioClient} {c : ℕ}

/-- Threads that come to the call of `sleep` are in the client. -/
theorem dozing_of_moves {cl : Client} {s s' : Kern cl} (h : Moves s c p s')
    (hp : (s'.pc p).dozing = true) :
    (s.pc p).dozing = true ∨ ∃ k x a, s.pc p = .client k ∧
      cl.prog p (s.tab p) s.g k x = some (a, s'.g) ∧ s'.pc p = a.pc := by
  cases h with
  | goto hpc hprog | acquire hpc hprog | release hpc hprog | fault hpc hprog =>
    exact .inr ⟨_, _, _, hpc, hprog, by simp [Act.pc]⟩
  | enter hpc hprog ha => exact .inr ⟨_, _, _, hpc, hprog, by simp [Act.pc_of_entry ha]⟩
  | timer => exact .inl (by simpa [KPc.dozing] using hp)
  | lockPt ha => exact .inl (by simpa [KPc.acquired_dozing ha] using hp)
  | _ => simp_all [KPc.dozing]

/-- The thread that makes the step. -/
theorem tested_of_moves (h : Moves s c p s') (hp : KPc.Tested (s'.pc p)) :
    KPc.Tested (s.pc p) ∨ (∃ k, s.pc p = .client k) ∧ (s.tab p).killed = false := by
  have hact : ∀ {k x a}, s.pc p = .client k → ioClient.prog p (s.tab p) s.g k x = some (a, s'.g) →
      s'.pc p = a.pc →
      KPc.Tested (s.pc p) ∨ (∃ k, s.pc p = .client k) ∧ (s.tab p).killed = false := by
    intro k x a hpc hprog hpc'
    rw [hpc'] at hp
    refine ((ioStep_of_prog hprog).tested hp).imp (fun hk => .inr ⟨k, ?_, hk⟩)
      fun hk => ⟨⟨k, hpc⟩, hk⟩
    rw [hpc]
    rfl
  rcases h.client with ⟨k, x, a, hpc, hprog, hpc'⟩ | ⟨hg, hctl, -⟩
  · exact hact hpc hprog hpc'
  · rcases hp with hd | ⟨k, hk, ht⟩
    · rcases dozing_of_moves h hd with hd | ⟨k, x, a, hpc, hprog, hpc'⟩
      · exact .inl (.inl hd)
      · exact hact hpc hprog hpc'
    · exact .inl (.inr ⟨k, hctl.symm.trans hk, ht⟩)

theorem not_tested_user : ¬KPc.Tested (.forkret .user : KPc IoLock IoPc) := by
  simp [KPc.Tested, KPc.dozing, KPc.control, IoPc.tested]

/-- Every process starts in user mode. -/
def startInv : ClientInv ioClient IoPc.user where
  holds _ _ _ := True
  start _ _ := .rfl
  child := ioProg_child
  self _ _ := trivial
  other _ _ _ := trivial

/-- A thread passes the test only if it is not killed. -/
theorem tested_of_stepped (hs : Sane s) (hJ : startInv.Ok s) (h : Stepped s c s')
    (ht : KPc.Tested (s'.pc q)) : KPc.Tested (s.pc q) ∨
      s.On c q ∧ (∃ k, s.pc q = .client k) ∧ (s.tab q).killed = false := by
  cases h with
  | @thread p _ hon h =>
    by_cases hqp : q = p
    · subst hqp
      exact (tested_of_moves h ht).imp_right fun h => ⟨hon, h⟩
    · rcases h.pc_ne hs hqp with he | ⟨-, k, he, hk⟩ <;> rw [he] at ht
      · exact .inl ht
      · rw [hJ.child _ k hk] at ht
        exact absurd ht not_tested_user
  | sched h => rw [h.frame.1] at ht; exact .inl ht
  | intr => exact .inl ht

/-- A process that passed the test and sleeps, or is on its way, is not killed. -/
def Prompt (s : Kern ioClient) : Prop := ∀ p, KPc.Tested (s.pc p) ∨
    (s.tab p).state = .sleeping ∧ (∃ ch lk k, s.pc p = .sleepBack ch lk k) →
  (s.tab p).killed = false

/-- In a step of CPU `c`, no `kill` marks a process that is between its test of `proc->killed`
and its sleep. -/
def KillsInTime (s : Kern ioClient) (c : ℕ) : Prop :=
  ∀ p pid k, s.On c p → s.pc p = .killGo pid k → ∀ q, (s.tab q).pid = pid →
    ¬KPc.Tested (s.pc q)

theorem Prompt.stepped (hi : Prompt s) (hs : Sane s) (hJ : startInv.Ok s) (h : Stepped s c s')
    (hx : KillsInTime s c) : Prompt s' := by
  intro q hq
  rw [← Bool.not_eq_true]
  intro hk
  rcases h.killed hk with hk | ⟨p, hon, ⟨rfl, k, x, k', hprog, hpc'⟩ | ⟨pid, k, hpc, hpid, hst⟩⟩
  · -- a killed process neither passes the test nor goes to sleep
    have hno : ¬(KPc.Tested (s.pc q) ∨
        (s.tab q).state = .sleeping ∧ ∃ ch lk k, s.pc q = .sleepBack ch lk k) := fun h' => by
      rw [hi q h'] at hk
      cases hk
    rcases hq with ht | ⟨hsl, ch, lk, k, hpc⟩
    · rcases tested_of_stepped hs hJ h ht with ht | ⟨-, -, hk'⟩
      · exact hno (.inl ht)
      · rw [hk'] at hk
        cases hk
    · rcases h.sleeping hs hsl with ⟨hsl', -, hpc'⟩ | ⟨ch', lk', k', hpc', -⟩ | ⟨k', hpc', -⟩
      · exact hno (.inr ⟨hsl', ch, lk, k, hpc' ▸ hpc⟩)
      · exact hno (.inl (.inl (by rw [hpc']; rfl)))
      · rw [hpc'] at hpc
        cases hpc
  · -- a fault happens in user mode
    obtain rfl := (ioStep_of_prog hprog).fault rfl
    rcases hq with ht | ⟨-, ch, lk, k, hpc⟩
    · rw [hpc'] at ht
      exact not_tested_user ht
    · rw [hpc'] at hpc
      cases hpc
  · -- `kill` wakes up a process that sleeps
    rcases hq with ht | ⟨hsl, -⟩
    · rcases tested_of_stepped hs hJ h ht with ht | ⟨hon', ⟨k', hpc'⟩, -⟩
      · exact hx p pid k hon hpc q hpid ht
      · obtain rfl := hon.unique hon'
        rw [hpc] at hpc'
        cases hpc'
    · exact hst hsl

/-- **A kill is not missed**, in runs in which no `kill` marks a process between its test of
`proc->killed` and its sleep: no killed process sleeps in one of the loops. -/
theorem Kern.kill_not_missed {data : Fin PIPESIZE → UInt8} {s : Kern ioClient}
    (h : Reach (· = boot ioClient IoPc.user (ioBoot data))
      (fun s x s' => s.next x = some s' ∧ KillsInTime s x.1) s)
    {p : PSlot} {ch : ℕ} {lk : IoLock} {k : IoPc} (hpc : s.pc p = .sleepBack ch lk k)
    (hk : (s.tab p).killed = true) : (s.tab p).state ≠ .sleeping := by
  have hi : Sane s ∧ startInv.Ok s ∧ Prompt s := by
    refine h.inv (I := fun s => Sane s ∧ startInv.Ok s ∧ Prompt s) ?_ fun s x s' hi hs =>
      have hstep := stepped_of_next hs.1
      ⟨hi.1.stepped hstep, hi.2.1.stepped hi.1 hstep, hi.2.2.stepped hi.1 hi.2.1 hstep hs.2⟩
    rintro _ rfl
    refine ⟨.boot _ _, .boot fun _ => trivial, fun p _ => ?_⟩
    simp only [boot]
    split <;> rfl
  intro hst
  rw [hi.2.2 p (.inr ⟨hst, ch, lk, k, hpc⟩)] at hk
  cases hk

/-- The test of `KillsInTime`. -/
def killsInTime (s : Kern ioClient) (c : ℕ) : Bool :=
  (s.cpu c).proc.all fun p =>
    match s.pc p with
    | .killGo pid _ =>
      (List.finRange NPROC).all fun q => (s.tab q).pid ≠ pid || !KPc.tested (s.pc q)
    | _ => true

theorem killsInTime_spec (h : killsInTime s c = true) : KillsInTime s c := by
  intro p pid k hon hpc q hq
  rw [killsInTime, hon.proc, Option.all_some, hpc] at h
  have h := List.all_eq_true.1 h q (List.mem_finRange q)
  rw [hq] at h
  refine mt KPc.tested_iff.2 ?_
  simpa using h

/-- init forks; the child calls `piperead` on CPU 1, and is at the call of `sleep`. -/
def testedRun : List (ℕ × Label IoCall) :=
  List.replicate 4 (0, .go) ++ [(0, .client (.call .fork))] ++ List.replicate 5 (0, .go) ++
  List.replicate 5 (1, .go) ++ List.replicate 3 (1, .client (.piperead 1))

/-- init kills the child. -/
def killRun : List (ℕ × Label IoCall) := [(0, .client (.call (.kill 2))), (0, .go), (0, .go)]

/-- The child sleeps, CPU 1 goes through the rest of the table, and the kill wakes up the child. -/
def killedEnd : Reached
    (Reach (· = boot ioClient IoPc.user (ioBoot fun _ => 0))
      fun s x s' => s.next x = some s' ∧ KillsInTime s x.1) fun s =>
    (s.tab 1).killed && match s.pc 1 with | .sleepBack .. => true | _ => false :=
  Runs.ofNextIf (fun s x => killsInTime s x.1) (fun _ _ => killsInTime_spec)
    (testedRun ++ List.replicate 67 (1, .go) ++ killRun) (by decide +kernel)

theorem Kern.kill_not_missed_sleeping : ∃ s : Kern ioClient,
    (∃ ch lk k, s.pc 1 = .sleepBack ch lk k) ∧ (s.tab 1).killed = true ∧
    (s.tab 1).state ≠ .sleeping := by
  obtain ⟨s, hs, hP⟩ := killedEnd
  obtain ⟨hk, hP⟩ := Bool.and_eq_true_iff.1 hP
  rcases hpc : s.pc 1 <;> rw [hpc] at hP <;> try cases hP
  exact ⟨s, ⟨_, _, _, hpc⟩, hk, kill_not_missed hs hpc hk⟩

/-- The kill comes before the child is `SLEEPING`. -/
def missedEnd : Reached (Runs ioClient IoPc.user (ioBoot fun _ => 0)) fun s =>
    (s.tab 1).killed && (decide ((s.tab 1).state = .sleeping) &&
      ((match s.pc 1 with
        | .sleepBack ch IoLock.pipe (IoPc.readLoop _) => ch == nreadChan
        | _ => false) &&
       match s.pc 0 with | .client IoPc.user => true | _ => false)) :=
  Runs.ofNext (testedRun ++ killRun ++ List.replicate 3 (1, .go))
    (by decide +kernel)

theorem Kern.kill_missed : ∃ s : Kern ioClient,
    Runs ioClient IoPc.user (ioBoot fun _ => 0) s ∧
    (∃ n, s.pc 1 = .sleepBack nreadChan IoLock.pipe (IoPc.readLoop n)) ∧
    (s.tab 1).killed = true ∧ (s.tab 1).state = .sleeping ∧ s.pc 0 = .client IoPc.user := by
  obtain ⟨s, hs, hP⟩ := missedEnd
  obtain ⟨hk, hP⟩ := Bool.and_eq_true_iff.1 hP
  obtain ⟨hst, hP⟩ := Bool.and_eq_true_iff.1 hP
  obtain ⟨h1, h0⟩ := Bool.and_eq_true_iff.1 hP
  refine ⟨s, hs, ?_, hk, of_decide_eq_true hst, ?_⟩
  · split at h1
    · exact ⟨_, by rw [← eq_of_beq h1]; assumption⟩
    · cases h1
  · split at h0
    · assumption
    · cases h0

end Xv6
