/-
  `kill` and the `killed` flag.

  `kill` looks at the pids of all slots, also of those that are `UNUSED`, and
  `killed` is reset by `wait` only.  So `kill` does what its name says exactly
  for the pids that no `UNUSED` slot holds; a flag set on an `UNUSED` slot stays
  there for the next process in it.  The history `Tracked.struck` keeps the
  pids that were killed since `allocproc` gave them out.
-/
import Xv6.Proc.Family

namespace Xv6

open Function Transition

namespace Ptable

/-- What `kill` returns. -/
def killResult (t : Ptable) (pid : Int32) : Int32 :=
  match (List.finRange NPROC).find? fun p => (t p).pid = pid with
  | none => -1
  | some _ => 0

/-- `kill` marks, and wakes up, the one process with this pid, and fails if there is none. -/
structure KillExact (t : Ptable) (pid : Int32) : Prop where
  hit : ∀ p, (t p).state ≠ .unused → (t p).pid = pid →
    (∀ q, (t q).state ≠ .unused → (t q).pid = pid → q = p) ∧ t.killResult pid = 0 ∧
      t.kill pid = update t p { t p with
        killed := true
        state := if (t p).state = .sleeping then .runnable else (t p).state }
  miss : (∀ p, (t p).state ≠ .unused → (t p).pid ≠ pid) →
    t.killResult pid = -1 ∧ t.kill pid = t

variable {t : Ptable} {pid : Int32}

theorem find_pid {p : PSlot} (hp : (t p).pid = pid) (hu : ∀ q, (t q).pid = pid → q = p) :
    ((List.finRange NPROC).find? fun p => (t p).pid = pid) = some p := by
  rcases hf : (List.finRange NPROC).find? fun p => (t p).pid = pid with _ | q
  · have := List.find?_eq_none.1 hf p (List.mem_finRange p)
    simp [hp] at this
  · rw [hu q (by simpa using List.find?_some hf)]

theorem find_pid_none (h : ∀ p, (t p).pid ≠ pid) :
    ((List.finRange NPROC).find? fun p => (t p).pid = pid) = none :=
  List.find?_eq_none.2 fun p _ => by simpa using h p

/-- With different pids in the slots, `kill` is right for the pids that no free slot holds. -/
theorem killExact_iff (hpos : ∀ p, (t p).state ≠ .unused → (t p).pid ≠ 0)
    (hinj : ∀ p q, (t p).pid = (t q).pid → p = q ∨ (t p).pid = 0) :
    t.KillExact pid ↔ ∀ q, (t q).state = .unused → (t q).pid ≠ pid := by
  constructor
  · rintro h q hq rfl
    have hmiss : ∀ p, (t p).state ≠ .unused → (t p).pid ≠ (t q).pid := by
      intro p hp heq
      rcases hinj p q heq with rfl | h0
      · exact hp hq
      · exact hpos p hp h0
    have hret := (h.miss hmiss).1
    rw [killResult] at hret
    split at hret
    · rename_i hf
      have := List.find?_eq_none.1 hf q (List.mem_finRange q)
      simp at this
    · cases hret
  · intro h
    have hu : ∀ q, (t q).pid = pid → (t q).state ≠ .unused := fun q hq hst => h q hst hq
    constructor
    · intro p hp hpid
      have huniq : ∀ q, (t q).pid = pid → q = p := by
        intro q hq
        rcases hinj q p (hq.trans hpid.symm) with rfl | h0
        · rfl
        · exact absurd h0 (hpos q (hu q hq))
      refine ⟨fun q _ => huniq q, ?_, ?_⟩
      · rw [killResult, find_pid hpid huniq]
      · rw [kill, find_pid hpid huniq]
    · intro hmiss
      have hf := find_pid_none fun p hp => hmiss p (hu p hp) hp
      exact ⟨by rw [killResult, hf], by rw [kill, hf]⟩

end Ptable

namespace Kern

variable {cl : Client}

/-! ## What a step does to a slot -/

/-- The slot holds the same process, if any, at the same point of its start. -/
structure Keeps (s s' : Kern cl) (q : PSlot) : Prop where
  pid : (s'.tab q).pid = (s.tab q).pid
  unused : (s'.tab q).state = .unused ↔ (s.tab q).state = .unused
  forkret : ∀ k, s'.pc q = .forkret k → s.pc q = .forkret k

/-- What a step of CPU `c` does to the pid and the `killed` flag of slot `q`. -/
inductive SlotStep (s : Kern cl) (c : ℕ) (s' : Kern cl) (q : PSlot) : Prop
  | keep : Keeps s s' q → (s'.tab q).killed = (s.tab q).killed → SlotStep s c s' q
  | kill {p k} : Keeps s s' q → s.On c p → s.pc p = .killGo (s.tab q).pid k → SlotStep s c s' q
  | fault {k} : Keeps s s' q → s.On c q → s.pc q = .client k → SlotStep s c s' q
  | alloc {p k kc} : s.On c p → s.pc p = .forkFind k kc → s.tab.findUnused = some q →
      s'.allocs = s.allocs + 1 → (s'.tab q).pid = s.nextpid →
      (s'.tab q).killed = (s.tab q).killed → (s'.tab q).state ≠ .unused → SlotStep s c s' q
  | fail {p k} : s.On c p → s.pc p = .forkSetup q k → (s'.tab q).pid = (s.tab q).pid →
      (s'.tab q).killed = (s.tab q).killed → (s'.tab q).state = .unused → SlotStep s c s' q
  | reap : (s'.tab q).pid = 0 → (s'.tab q).killed = false → (s'.tab q).state = .unused →
      SlotStep s c s' q

variable {s s' : Kern cl} {c : ℕ} {p q : PSlot}

theorem SameFamily.unused_iff {t t' : Ptable} (h : SameFamily t t') (q : PSlot) :
    (t' q).state = .unused ↔ (t q).state = .unused := by
  rcases h.state q with h | ⟨h, h'⟩
  · rw [h]
  · constructor <;> intro hu <;> simp_all [ProcState.live]

/-- Only `allocproc` puts a thread at its start. -/
theorem Moves.forkret_of (hs : Sane s) (h : Moves s c p s')
    (hq : ∀ k kc, s.pc p = .forkFind k kc → s.tab.findUnused ≠ some q) {k : cl.K}
    (hk : s'.pc q = .forkret k) : s.pc q = .forkret k := by
  by_cases hqp : q = p
  · subst hqp
    have := h.dead_of_inert hs (by rw [hk]; rfl)
    rw [this] at hk
    cases hk
  · cases h
    case forkAlloc k' kc np hpc _ hf =>
      have hne : q ≠ np := by rintro rfl; exact hq k' kc hpc hf
      simpa [hqp, hne] using hk
    all_goals simpa [hqp] using hk

/-- A step that leaves the processes and their flags alone. -/
theorem SlotStep.plain (hs : Sane s) (h : Moves s c p s') (ht : SameFamily s.tab s'.tab)
    (hk : (s'.tab q).killed = (s.tab q).killed)
    (hq : ∀ k kc, s.pc p = .forkFind k kc → s.tab.findUnused ≠ some q) : SlotStep s c s' q :=
  .keep ⟨ht.pid q, ht.unused_iff q, fun _ => h.forkret_of hs hq⟩ hk

theorem wakeup1_killed (t : Ptable) (ch : Option Chan) (q : PSlot) :
    (t.wakeup1 ch q).killed = (t q).killed := by
  rw [Ptable.wakeup1_apply]
  split <;> rfl

theorem SlotStep.of_moves (hs : Sane s) (hon : s.On c p) (h : Moves s c p s') (q : PSlot) :
    SlotStep s c s' q := by
  have hrun := hs.running hon
  have hpl := @SlotStep.plain cl s s' c p q hs h
  have hpc := @Moves.forkret_of cl s s' c p q hs h
  -- a store to a slot that changes its state only between states of a process
  have hset : ∀ (z : PSlot) (x : Proc), s'.tab = update s.tab z x →
      x.pid = (s.tab z).pid → x.killed = (s.tab z).killed →
      x.state ≠ .unused ∧ (s.tab z).state ≠ .unused →
      (∀ k kc, s.pc p = .forkFind k kc → s.tab.findUnused ≠ some q) → SlotStep s c s' q := by
    intro z x ht h1 h2 h3 h4
    by_cases hqz : q = z
    · subst hqz
      refine .keep ⟨?_, ?_, fun _ => hpc h4⟩ ?_
      · rw [ht, update_self, h1]
      · rw [ht, update_self]
        exact iff_of_false h3.1 h3.2
      · rw [ht, update_self, h2]
    · have := congrFun ht q
      rw [update_of_ne hqz] at this
      exact .keep ⟨by rw [this], by rw [this], fun _ => hpc h4⟩ (by rw [this])
  have hru : (s.tab p).state ≠ .unused := by rw [hrun]; rintro ⟨⟩
  cases h with
  | goto h | acquire h | release h | enter h | yieldBack h | sleepRel h | sleepReacq h | forkSetup h
  | waitFail h | forkret h => exact hpl (.refl _) rfl (by simp [h])
  | fault h =>
    by_cases hqp : q = p
    · subst hqp
      exact .fault ⟨by simp, by simp, fun _ => hpc (by simp [h])⟩ hon h
    · exact .keep ⟨by simp [hqp], by simp [hqp], fun _ => hpc (by simp [h])⟩ (by simp [hqp])
  | timer hn hy =>
    refine .keep ⟨rfl, .rfl, fun k hk => ?_⟩ rfl
    by_cases hqp : q = p
    · subst hqp; simp at hk
    · simpa [hqp] using hk
  | lockPt ha hl => exact hpl (.refl _) rfl (by intro k kc h; rw [h] at ha; cases ha)
  | yieldGo h | sleepGo h | waitSleep h =>
    exact hset p _ rfl rfl rfl ⟨by rintro ⟨⟩, hru⟩ (by simp [h])
  | sleepBack h | waitBack h => exact hset p _ rfl rfl rfl ⟨hru, hru⟩ (by simp [h])
  | wakeGo h =>
    exact hpl (.wakeup1 s.tab _) (wakeup1_killed _ _ q) (by simp [h])
  | @killGo pid k h hl =>
    have hkeep : Keeps s { (s.setTab (s.tab.kill pid)).goto p (.client k) with ptlock := none } q :=
      ⟨(SameFamily.kill s.tab pid).pid q, (SameFamily.kill s.tab pid).unused_iff q,
        fun _ => hpc (by simp [h])⟩
    rcases s.tab.kill_apply pid q with hk | ⟨rfl, -⟩
    · exact .keep hkeep (congrArg Proc.killed hk)
    · exact .kill hkeep hon h
  | forkFull h hl hf => exact hpl (.refl _) rfl (by simp [hf])
  | @forkAlloc k kc np h hl hf =>
    by_cases hqn : q = np
    · subst hqn
      exact .alloc hon h hf (by simp) (by simp [Ptable.embryo]) (by simp [Ptable.embryo])
        (by simp [Ptable.embryo])
    · exact .keep ⟨by simp [Ptable.embryo, hqn], by simp [Ptable.embryo, hqn],
        fun _ => hpc (by simpa [hf] using fun _ _ _ h => hqn h.symm)⟩ (by simp [Ptable.embryo, hqn])
  | @forkFail np k h =>
    by_cases hqn : q = np
    · subst hqn
      exact .fail hon h (by simp) (by simp) (by simp)
    · exact .keep ⟨by simp [hqn], by simp [hqn], fun _ => hpc (by simp [h])⟩ (by simp [hqn])
  | @forkParent np k h =>
    have hnp := (hs.embryo p np (by rw [h]; rfl)).1
    exact hset np _ rfl rfl rfl ⟨by simp [hnp], by simp [hnp]⟩ (by simp [h])
  | @forkRun np k h =>
    have hnp := (hs.embryo p np (by rw [h]; rfl)).1
    exact hset np _ rfl rfl rfl ⟨by rintro ⟨⟩, by simp [hnp]⟩ (by simp [h])
  | exitGo h =>
    obtain ⟨h1, -, h3, -⟩ := s.tab.exit_fields p q
    refine .keep ⟨h1, ?_, fun _ => hpc (by simp [h])⟩ h3
    obtain ⟨t, x, ht, hwk, hx⟩ := exit_wakes s.tab p
    simp only [setCtl_tab, goto_tab, exit_tab, ht]
    by_cases hqp : q = p
    · subst hqp; simp [hx, hru]
    · rw [update_of_ne hqp]
      rcases hwk q with h | ⟨h, h'⟩
      · rw [h]
      · simp [h, h']
  | @waitReap k z h hl hz =>
    by_cases hqz : q = z
    · subst hqz
      exact .reap (by simp [Ptable.reap]) (by simp [Ptable.reap]) (by simp [Ptable.reap])
    · exact .keep ⟨by simp [Ptable.reap, hqz], by simp [Ptable.reap, hqz],
        fun _ => hpc (by simp [h])⟩ (by simp [Ptable.reap, hqz])

theorem SlotStep.of_stepped (hs : Sane s) (h : Stepped s c s') (q : PSlot) :
    SlotStep s c s' q := by
  cases h with
  | thread hon h => exact .of_moves hs hon h q
  | intr hl =>
    exact .keep ⟨(SameFamily.wakeup1 s.tab _).pid q, (SameFamily.wakeup1 s.tab _).unused_iff q,
      fun _ => id⟩ (wakeup1_killed _ _ q)
  | sched h =>
    cases h with
    | inspect => unfold Kern.inspect; split <;> exact .keep ⟨rfl, .rfl, fun _ => id⟩ rfl
    | @disp p hc =>
      have hp := (hs.cpu c).proc
      rw [hc] at hp
      have hf : SameFamily s.tab (update s.tab p { s.tab p with state := .running }) :=
        .update rfl rfl (.inr ⟨rfl, by rw [hp.2]; rfl⟩)
      refine .keep ⟨hf.pid q, hf.unused_iff q, fun _ => id⟩ ?_
      by_cases hqp : q = p <;> simp [hqp]
    | _ => exact .keep ⟨rfl, .rfl, fun _ => id⟩ rfl

/-! ## Which pids were killed -/

/-- The point of the thread that runs on CPU `c`. -/
def point (s : Kern cl) (c : ℕ) : Option (KPc cl.L cl.K) :=
  if (s.cpu c).ctl = .run then (s.cpu c).proc.map s.pc else none

/-- The history after the step of CPU `c`: `kill` strikes its pid, `allocproc` gives out a pid
that nobody has struck. -/
def strike (s : Kern cl) (c : ℕ) (m : Int32 → Bool) : Int32 → Bool :=
  match s.point c with
  | some (.killGo pid _) => update m pid true
  | some (.forkFind ..) =>
    if s.tab.findUnused.isSome then update m s.nextpid false else m
  | _ => m

theorem point_of_on (hon : s.On c p) : s.point c = some (s.pc p) := by
  rw [point, if_pos hon.ctl, hon.proc]
  rfl

theorem strike_killGo {m : Int32 → Bool} {pid : Int32} {k : cl.K} (hon : s.On c p)
    (hpc : s.pc p = .killGo pid k) : s.strike c m pid = true := by
  rw [strike, point_of_on hon, hpc]
  exact update_self ..

theorem strike_of_ne {m : Int32 → Bool} {x : Int32} (hx : x ≠ s.nextpid) (hm : m x = true) :
    s.strike c m x = true := by
  rw [strike]
  rcases s.point c with _ | pc
  · exact hm
  · cases pc with
    | killGo pid _ => by_cases h : x = pid <;> simp [h, hm, update_of_ne]
    | forkFind =>
      dsimp only
      split
      · rw [update_of_ne hx, hm]
      · exact hm
    | _ => exact hm

end Kern

/-- The machine, with the pids that were killed since they were given out. -/
structure Tracked (cl : Client) where
  kern : Kern cl
  struck : Int32 → Bool

namespace Tracked

variable {cl : Client}

def next (s : Tracked cl) (x : ℕ × Label cl.X) : Option (Tracked cl) :=
  (s.kern.next x).map fun k => ⟨k, s.kern.strike x.1 s.struck⟩

/-- No `UNUSED` slot holds the pid of a `kill`, and a `fork` that fails was not killed. -/
def apt (s : Tracked cl) (x : ℕ × Label cl.X) : Bool :=
  match s.kern.point x.1, x.2 with
  | some (.killGo pid _), _ => ∀ q, (s.kern.tab q).state = .unused → (s.kern.tab q).pid ≠ pid
  | some (.forkSetup np _), .fail => (s.kern.tab np).killed = false
  | _, _ => true

variable {x : ℕ × Label cl.X} {k : cl.K} {s s' : Tracked cl}

theorem apt_killGo {s : Tracked cl} {p : PSlot} {pid : Int32} (h : s.apt x) (hon : s.kern.On x.1 p)
    (hpc : s.kern.pc p = .killGo pid k) :
    ∀ q, (s.kern.tab q).state = .unused → (s.kern.tab q).pid ≠ pid := by
  simpa [apt, Kern.point_of_on hon, hpc] using h

theorem apt_fail {s : Tracked cl} {p np : PSlot} (h : s.apt x) (hon : s.kern.On x.1 p)
    (hpc : s.kern.pc p = .forkSetup np k) (hx : x.2 = .fail) :
    (s.kern.tab np).killed = false := by
  simpa [apt, Kern.point_of_on hon, hpc, hx] using h

def boot (cl : Client) (k : cl.K) (g : cl.G) : Tracked cl := ⟨.boot cl k g, fun _ => false⟩

/-- One step that meets the condition `C`. -/
def nextIf (C : Tracked cl → ℕ × Label cl.X → Bool) (s : Tracked cl) (x : ℕ × Label cl.X) :
    Option (Tracked cl) :=
  if C s x then s.next x else none

/-- The runs whose steps all meet `C`. -/
def Runs (C : Tracked cl → ℕ × Label cl.X → Bool) (k : cl.K) (g : cl.G) : Tracked cl → Prop :=
  Reach (· = boot cl k g) fun s x s' => s.nextIf C x = some s'

def Runs.ofNext {C : Tracked cl → ℕ × Label cl.X → Bool} {k : cl.K} {g : cl.G}
    {P : Tracked cl → Bool} (xs : List (ℕ × Label cl.X))
    (h : (run (nextIf C) (boot cl k g) xs).any P = true) :
    Reached (Runs C k g) P :=
  .ofRun (nextIf C) (fun _ _ _ h => h) rfl xs h

/-! ## Flags and pids -/

/-- The slots have different pids but for the free ones with pid 0, the free ones are not marked,
and a process that has not started is marked only if it was struck. -/
structure Ok (s : Tracked cl) : Prop where
  pid_le : ∀ q, 0 ≤ (s.kern.tab q).pid.toInt ∧ (s.kern.tab q).pid.toInt ≤ s.kern.allocs
  pid_inj : ∀ p q, (s.kern.tab p).pid = (s.kern.tab q).pid → p = q ∨ (s.kern.tab p).pid = 0
  clean : ∀ q, (s.kern.tab q).state = .unused → (s.kern.tab q).killed = false
  start : ∀ q k, s.kern.pc q = .forkret k → (s.kern.tab q).state ≠ .unused →
    (s.kern.tab q).killed → s.struck (s.kern.tab q).pid

theorem Ok.boot (k : cl.K) (g : cl.G) : Ok (boot cl k g) where
  pid_le q := by simp only [Tracked.boot, Kern.boot]; split <;> decide
  pid_inj p q := by
    simp only [Tracked.boot, Kern.boot]
    by_cases hp : p = initproc <;> by_cases hq : q = initproc <;> simp [hp, hq]
  clean q := by simp only [Tracked.boot, Kern.boot]; split <;> exact fun _ => rfl
  start q k := by simp only [Tracked.boot, Kern.boot]; split <;> rintro _ _ ⟨⟩

/-- A `fork` gives up its slot only when it fails. -/
theorem fail_of_unused {s s' : Kern cl} {p np : PSlot} (h : s.next x = some s') (hon : s.On x.1 p)
    (hpc : s.pc p = .forkSetup np k) (hnp : (s.tab np).state ≠ .unused)
    (hnp' : (s'.tab np).state = .unused) : x.2 = .fail := by
  obtain ⟨c, l⟩ := x
  have htab : s'.tab ≠ s.tab := fun ht => hnp (ht ▸ hnp')
  cases l with
  | fail => rfl
  | intr ch =>
    simp only [Kern.next, Kern.intrNext] at h
    split at h <;> cases h
    exact absurd (((Kern.SameFamily.wakeup1 s.tab _).unused_iff np).1 hnp') hnp
  | go =>
    simp only [Kern.next, hon.ctl, hon.proc, Kern.threadNext, hpc, KPc.acquired, Kern.procNext,
      Option.some.injEq] at h
    exact absurd (by rw [← h]; rfl) htab
  | client => simp [Kern.next, hon.ctl, hon.proc, Kern.threadNext, hpc] at h
  | timer =>
    simp only [Kern.next, hon.ctl, hon.proc, Kern.threadNext] at h
    split at h <;> cases h
    exact absurd rfl htab

theorem next_eq (h : s.next x = some s') :
    s.kern.next x = some s'.kern ∧ s'.struck = s.kern.strike x.1 s.struck := by
  obtain ⟨k, hk, rfl⟩ := Option.map_eq_some_iff.1 h
  exact ⟨hk, rfl⟩

theorem Ok.step (hi : s.Ok) (hs : s.kern.Sane) (hf : s.kern.Family) (hx : s.apt x)
    (h : s.next x = some s') : s'.Ok := by
  obtain ⟨hn, hm⟩ := next_eq h
  have hst : s.kern.Stepped x.1 s'.kern := Kern.stepped_of_next hn
  have hq := Kern.SlotStep.of_stepped hs hst
  have hle := hst.allocs_le
  have hnp := hf.nextpid
  -- the pid of a slot is the old one, 0, or the next one
  have hpid : ∀ q, (s'.kern.tab q).pid = (s.kern.tab q).pid ∨ (s'.kern.tab q).pid = 0 ∨
      (s'.kern.tab q).pid = s.kern.nextpid ∧ s.kern.tab.findUnused = some q ∧
        s'.kern.allocs = s.kern.allocs + 1 := by
    intro q
    cases hq q with
    | keep hk | kill hk | fault hk => exact .inl hk.pid
    | alloc _ _ h1 h2 h3 => exact .inr (.inr ⟨h3, h1, h2⟩)
    | fail _ _ h1 => exact .inl h1
    | reap h1 => exact .inr (.inl h1)
  have hold : ∀ q, (s.kern.tab q).pid ≠ s.kern.nextpid := by
    intro q heq
    have := (hi.pid_le q).2
    rw [heq] at this
    omega
  constructor
  case pid_le =>
    intro q
    have := hi.pid_le q
    rcases hpid q with h | h | ⟨h, -, ha⟩ <;> rw [h]
    · omega
    · exact ⟨by decide, by simp⟩
    · omega
  case pid_inj =>
    intro p q heq
    rcases hpid p with h | h | ⟨h, h1, -⟩ <;> rcases hpid q with h' | h' | ⟨h', h1', -⟩
    · rw [h] at heq ⊢
      exact hi.pid_inj p q (heq.trans h')
    · exact .inr (heq.trans h')
    · exact absurd (h.symm.trans (heq.trans h')) (hold p)
    · exact .inr h
    · exact .inr h
    · exact .inr h
    · exact absurd (h'.symm.trans (heq.symm.trans h)) (hold q)
    · exact .inr (heq.trans h')
    · exact .inl (Option.some.inj (h1.symm.trans h1'))
  case clean =>
    intro q hu
    cases hq q with
    | keep hk h1 => rw [h1]; exact hi.clean q (hk.unused.1 hu)
    | kill hk hon hpc => exact absurd rfl (apt_killGo hx hon hpc q (hk.unused.1 hu))
    | fault hk hon =>
      have := hs.running hon
      rw [hk.unused.1 hu] at this
      cases this
    | alloc _ _ _ _ _ _ h1 => exact absurd hu h1
    | @fail p k hon hpc h1 h2 =>
      have hemb := (hs.embryo p q (by rw [hpc]; rfl)).1
      rw [h2]
      exact apt_fail hx hon hpc (fail_of_unused hn hon hpc (by rw [hemb]; rintro ⟨⟩) hu)
    | reap _ h1 => exact h1
  case start =>
    intro q k hk hu hkilled
    rw [hm]
    cases hq q with
    | keep hkeep h1 =>
      rw [hkeep.pid]
      exact Kern.strike_of_ne (hold q)
        (hi.start q k (hkeep.forkret k hk) (hu ∘ hkeep.unused.2) (h1 ▸ hkilled))
    | kill hkeep hon hpc => rw [hkeep.pid]; exact Kern.strike_killGo hon hpc
    | fault hkeep hon hpc =>
      have := hkeep.forkret k hk
      rw [hpc] at this
      cases this
    | alloc _ _ h1 _ _ h2 =>
      have := hi.clean q (Ptable.findUnused_spec h1)
      rw [h2, this] at hkilled
      cases hkilled
    | fail _ _ _ _ h1 => exact absurd h1 hu
    | reap _ _ h1 => exact absurd h1 hu

theorem nextIf_eq {C : Tracked cl → ℕ × Label cl.X → Bool} (h : s.nextIf C x = some s') :
    C s x ∧ s.next x = some s' := by
  unfold nextIf at h
  split at h
  · exact ⟨‹_›, h⟩
  · cases h

variable {C : Tracked cl → ℕ × Label cl.X → Bool} {k : cl.K} {g : cl.G} {s : Tracked cl}

theorem Runs.kern (h : Runs C k g s) : Kern.Runs cl k g s.kern := by
  induction h with
  | init h => subst h; exact .init rfl
  | step _ h ih => exact .step ih (next_eq (nextIf_eq h).2).1

theorem Runs.ok (h : Runs apt k g s) (hb : s.kern.allocs < 2 ^ 31 - 1) : s.Ok := by
  induction h with
  | init h => subst h; exact .boot k g
  | @step s s' x hr h ih =>
    obtain ⟨hC, hn⟩ := nextIf_eq h
    have hb' := (Kern.stepped_of_next (next_eq hn).1).allocs_le.trans_lt hb
    exact (ih hb').step (Runs.kern hr).sane ((Runs.kern hr).family hb') hC hn

/-- **`kill` reaches the process with the given pid, and no other.**  As long as no step kills a
pid that an `UNUSED` slot holds, and the pids have not wrapped around, `kill` is exact for all
pids that no `UNUSED` slot holds, and a process that starts is marked only if its pid was killed
since it got it. -/
theorem kill_exact (h : Runs apt k g s) (hb : s.kern.allocs < 2 ^ 31 - 1) :
    (∀ pid, s.kern.tab.KillExact pid ↔
      ∀ q, (s.kern.tab q).state = .unused → (s.kern.tab q).pid ≠ pid) ∧
    ∀ q k, s.kern.pc q = .forkret k → (s.kern.tab q).state ≠ .unused →
      (s.kern.tab q).killed → s.struck (s.kern.tab q).pid := by
  have hi := h.ok hb
  have hf := h.kern.family hb
  refine ⟨fun pid => Ptable.killExact_iff (fun p hp h0 => ?_) hi.pid_inj, hi.start⟩
  have := (hf.pid_le p hp).1
  rw [h0] at this
  exact absurd this (by decide)

/-- The scheduler starts init. -/
def initRun : List (ℕ × Label UserCall) := [(0, .go), (0, .go), (0, .go), (0, .go)]

/-- init kills a pid. -/
def killRun (pid : Int32) : List (ℕ × Label UserCall) :=
  [(0, .client (.kill pid)), (0, .go), (0, .go)]

/-- init forks. -/
def forkRun : List (ℕ × Label UserCall) :=
  [(0, .client .fork), (0, .go), (0, .go), (0, .go), (0, .go), (0, .go)]

/-- init kills its new child. -/
def killChild : Reached (@Runs userClient apt () ()) fun s =>
    s.kern.allocs < 2 ^ 31 - 1 ∧ (s.kern.tab 1).pid = 2 ∧ (s.kern.tab 1).state = .runnable ∧
      (s.kern.tab 1).killed :=
  Runs.ofNext (initRun ++ forkRun ++ killRun 2) (by decide +kernel)

theorem kill_exact_child : ∃ s : Tracked userClient, Runs apt () () s ∧
    (s.kern.tab 1).killed ∧ s.kern.tab.KillExact 2 := by
  obtain ⟨s, hs, hP⟩ := killChild
  obtain ⟨hb, hpid, hst, hk⟩ := of_decide_eq_true hP
  refine ⟨s, hs, hk, ((kill_exact hs hb).1 2).2 fun q hq hq2 => ?_⟩
  rcases (hs.ok hb).pid_inj q 1 (hq2.trans hpid.symm) with rfl | h0
  · rw [hst] at hq
    cases hq
  · rw [hq2] at h0
    cases h0

/-- init calls `kill(0)`, and then `fork`. -/
def killZero : Reached (@Runs userClient (fun _ _ => true) () ()) fun s =>
    (s.kern.tab 1).pid = 2 ∧ (s.kern.tab 1).state = .runnable ∧ (s.kern.pc 1).inert ∧
      (s.kern.tab 1).killed ∧ s.struck 2 = false :=
  Runs.ofNext (initRun ++ killRun 0 ++ forkRun)
    (by decide +kernel)

/-- With init as the only process, `kill(0)` succeeds; the child that init then forks starts
marked, though nobody killed it. -/
theorem kill_zero_marks : (Kern.boot userClient () ()).tab.killResult 0 = 0 ∧
    (∀ p, ((Kern.boot userClient () ()).tab p).state ≠ .unused →
      ((Kern.boot userClient () ()).tab p).pid ≠ 0) ∧
    ∃ s : Tracked userClient, Runs (fun _ _ => true) () () s ∧ (s.kern.tab 1).pid = 2 ∧
      (s.kern.tab 1).state = .runnable ∧ (s.kern.pc 1).inert ∧ (s.kern.tab 1).killed ∧
      s.struck 2 = false := by
  refine ⟨by decide +kernel, by decide +kernel, ?_⟩
  obtain ⟨s, hs, hP⟩ := killZero
  exact ⟨s, hs, of_decide_eq_true hP⟩

end Tracked

end Xv6
