/-
  Parents, children and pids.

  Every process but init has a parent that is alive: the one that forked it,
  or init after that one exited.  `exit` and `wait` hand a process over: it
  becomes a zombie once, and one `wait` takes its pid from the table.  What
  happened is kept in the history `Kern.hist`.
-/
import Mathlib.Algebra.Group.Int.Defs
import Mathlib.Algebra.Group.Nat.Defs
import Xv6.Proc.Monitor

namespace Xv6

open Function Transition

/-- The state of a process that has not exited. -/
def ProcState.live : ProcState → Bool
  | sleeping | runnable | running => true
  | _ => false

namespace KPc

variable {L K : Type}

/-- The thread is in the last part of `exit`. -/
def exiting : KPc L K → Bool
  | exitAcq | exitGo => true
  | yieldAcq pc | yieldGo pc | yieldBack pc => pc.exiting
  | _ => false

/-- The new slot of a `fork` that has not stored to `np->parent`. -/
def orphan : KPc L K → Option PSlot
  | forkSetup np _ | forkParent np _ => some np
  | yieldAcq pc | yieldGo pc | yieldBack pc => pc.orphan
  | _ => none

/-- The new slot of a `fork` that has stored to `np->parent`. -/
def adopted : KPc L K → Option PSlot
  | forkRun np _ => some np
  | yieldAcq pc | yieldGo pc | yieldBack pc => pc.adopted
  | _ => none

theorem acquired_family {pc pc' : KPc L K} (h : pc.acquired = some pc') :
    pc'.exiting = pc.exiting ∧ pc'.orphan = pc.orphan ∧ pc'.adopted = pc.adopted := by
  cases pc <;> simp only [acquired, Option.some.injEq, reduceCtorEq] at h <;>
    subst h <;> exact ⟨rfl, rfl, rfl⟩

theorem embryo_of_orphan {pc : KPc L K} {np : PSlot} (h : pc.orphan = some np) :
    pc.embryo = some np := by
  induction pc with
  | yieldAcq pc ih => exact ih h
  | yieldGo pc ih => exact ih h
  | yieldBack pc ih => exact ih h
  | forkSetup => exact h
  | forkParent => exact h
  | _ => cases h

theorem embryo_of_adopted {pc : KPc L K} {np : PSlot} (h : pc.adopted = some np) :
    pc.embryo = some np := by
  induction pc with
  | yieldAcq pc ih => exact ih h
  | yieldGo pc ih => exact ih h
  | yieldBack pc ih => exact ih h
  | forkRun => exact h
  | _ => cases h

end KPc

theorem Act.entry_family {L K : Type} {a : Act L K} {pc : KPc L K} (h : a.entry = some pc) :
    (pc.exiting → pc = .exitAcq) ∧ pc.orphan = none ∧ pc.adopted = none := by
  cases a <;> simp only [Act.entry, Option.some.injEq, reduceCtorEq] at h <;> subst h <;>
    simp [KPc.exiting, KPc.orphan, KPc.adopted]

/-- The pids that `wait` returned, the last one first. -/
def waits : List Event → List Int32
  | [] => []
  | .wait _ child :: l => child :: waits l
  | _ :: l => waits l

/-- The pid of init. -/
def initpid : Int32 := 1

/-- `wait` of `w` may return `child`, after the events `l`: the child is a
zombie, and `w` forked it, or is init and the process that forked it exited. -/
def Waitable (w child : Int32) (l : List Event) : Prop :=
  .zombie child ∈ l ∧ (∃ parent, .fork parent child ∈ l) ∧
    ∀ parent, .fork parent child ∈ l → w = parent ∨ .zombie parent ∈ l ∧ w = initpid

namespace Kern

variable {cl : Client}

/-- The slots in use have different pids, which were allocated. -/
structure Pids (s : Kern cl) : Prop where
  nextpid : s.nextpid.toInt = s.allocs + 1
  pid_le : ∀ p, (s.tab p).state ≠ .unused →
    1 ≤ (s.tab p).pid.toInt ∧ (s.tab p).pid.toInt ≤ s.allocs
  pid_inj : ∀ p q, (s.tab p).state ≠ .unused → (s.tab q).state ≠ .unused →
    (s.tab p).pid = (s.tab q).pid → p = q
  init_pid : (s.tab initproc).pid = initpid

/-- A pid is forked once. -/
structure Forks (s : Kern cl) : Prop where
  fork_le : ∀ pp x : Int32, .fork pp x ∈ s.hist → x.toInt ≤ s.allocs
  unforked : ∀ p pp, (s.tab p).state = .embryo → .fork pp (s.tab p).pid ∉ s.hist
  fork_inj : ∀ pp pp' x, .fork pp x ∈ s.hist → .fork pp' x ∈ s.hist → pp = pp'

/-- A pid that `wait` returns may be returned, and is not in the table any more. -/
structure Waits (s : Kern cl) : Prop where
  waits_le : ∀ x ∈ waits s.hist, x.toInt ≤ s.allocs
  waited : ∀ p, (s.tab p).state ≠ .unused → (s.tab p).pid ∉ waits s.hist
  nodup : (waits s.hist).Nodup
  waitable : ∀ w x l, (.wait w x :: l) <:+ s.hist → Waitable w x l

structure Family (s : Kern cl) : Prop extends Pids s, Forks s, Waits s where
  init_live : (s.tab initproc).state.live
  exiting : ∀ p, (s.pc p).exiting → p ≠ initproc
  unused : ∀ p, (s.tab p).state = .unused → (s.tab p).parent = none
  orphan : ∀ p np, (s.pc p).orphan = some np → (s.tab np).parent = none
  adopted : ∀ p np, (s.pc p).adopted = some np → (s.tab np).parent = some p
  init_parent : (s.tab initproc).parent = none
  parent_ne : ∀ p, (s.tab p).parent ≠ some p
  parent_live : ∀ p q, (s.tab p).parent = some q → (s.tab q).state.live
  parent : ∀ p, (s.tab p).state.live ∨ (s.tab p).state = .zombie → p ≠ initproc →
    ∃ q pp, (s.tab p).parent = some q ∧ .fork pp (s.tab p).pid ∈ s.hist ∧
      ((s.tab q).pid = pp ∨ .zombie pp ∈ s.hist ∧ q = initproc)
  zombie : ∀ p, (s.tab p).state = .zombie → .zombie (s.tab p).pid ∈ s.hist
  waiting : ∀ p z, (s.tab p).state = .sleeping → (s.tab p).chan = some (.proc p) →
    (s.tab z).parent = some p → (s.tab z).state ≠ .zombie

variable {s s' : Kern cl} {c : ℕ} {p q : PSlot}

theorem Family.boot (k : cl.K) (g : cl.G) : Family (boot cl k g) := by
  have hun : ∀ p, ((Kern.boot cl k g).tab p).state ≠ .unused → p = initproc := by
    intro p
    simp only [Kern.boot]
    split <;> simp_all
  have hpar : ∀ p, ((Kern.boot cl k g).tab p).parent = none := by
    intro p
    simp only [Kern.boot]
    split <;> rfl
  have hpc : ∀ p, ((Kern.boot cl k g).pc p).exiting = false ∧
      ((Kern.boot cl k g).pc p).orphan = none ∧ ((Kern.boot cl k g).pc p).adopted = none := by
    intro p
    simp only [Kern.boot]
    split <;> exact ⟨rfl, rfl, rfl⟩
  have hlive : ∀ p, ((Kern.boot cl k g).tab p).state.live ∨
      ((Kern.boot cl k g).tab p).state = .zombie → p = initproc := by
    intro p hp
    apply hun p
    rintro h
    rw [h] at hp
    rcases hp with hp | hp <;> cases hp
  constructor
  case toPids =>
    refine ⟨rfl, fun p hp => ?_, fun p q hp hq _ => ?_, rfl⟩
    · rw [hun p hp]; simp [Kern.boot]
    · rw [hun p hp, hun q hq]
  case toForks => exact ⟨by rintro _ _ ⟨⟩, fun _ _ _ => List.not_mem_nil, by rintro _ _ _ ⟨⟩⟩
  case toWaits =>
    refine ⟨by rintro _ ⟨⟩, fun _ _ => List.not_mem_nil, List.nodup_nil, fun w x l h => ?_⟩
    cases List.eq_nil_of_suffix_nil h
  case init_live => rfl
  case exiting => intro p hp; rw [(hpc p).1] at hp; cases hp
  case unused => exact fun p _ => hpar p
  case orphan => exact fun _ np _ => hpar np
  case adopted => intro p np h; rw [(hpc p).2.2] at h; cases h
  case init_parent => exact hpar _
  case parent_ne => intro p h; rw [hpar p] at h; cases h
  case parent_live => intro p q h; rw [hpar p] at h; cases h
  case parent => intro p hp hne; exact absurd (hlive p hp) hne
  case zombie =>
    intro p hp
    obtain rfl := hlive p (.inr hp)
    cases hp
  case waiting => intro p z _ _ h; rw [hpar z] at h; cases h

/-! ## Steps that leave the family alone -/

/-- The slots in use were in use before, with the same pids. -/
def Stays (s s' : Kern cl) : Prop := ∀ q, (s'.tab q).state ≠ .unused →
  (s.tab q).state ≠ .unused ∧ (s'.tab q).pid = (s.tab q).pid

theorem Pids.keep (hi : Pids s) (hn : s'.nextpid = s.nextpid) (ha : s'.allocs = s.allocs)
    (ht : Stays s s') (h0 : (s'.tab initproc).state.live) : Pids s' where
  nextpid := by rw [hn, ha]; exact hi.nextpid
  pid_le q hq := by
    rw [(ht q hq).2, ha]
    exact hi.pid_le q (ht q hq).1
  pid_inj q r hq hr h := by
    rw [(ht q hq).2, (ht r hr).2] at h
    exact hi.pid_inj q r (ht q hq).1 (ht r hr).1 h
  init_pid := by
    rw [(ht _ fun h => by rw [h] at h0; cases h0).2]
    exact hi.init_pid

theorem Forks.keep (hi : Forks s) (ha : s'.allocs = s.allocs) (ht : Stays s s')
    (hh : ∀ {pp x}, .fork pp x ∈ s'.hist → .fork pp x ∈ s.hist)
    (he : ∀ q, (s'.tab q).state = .embryo → (s.tab q).state = .embryo) : Forks s' where
  fork_le pp x h := by rw [ha]; exact hi.fork_le pp x (hh h)
  unforked q pp hq h := by
    rw [(ht q (by rw [hq]; rintro ⟨⟩)).2] at h
    exact hi.unforked q pp (he q hq) (hh h)
  fork_inj pp pp' x h h' := hi.fork_inj pp pp' x (hh h) (hh h')

/-- A step with at most one event, which is no `wait`. -/
theorem Waits.keep (hi : Waits s) (ha : s'.allocs = s.allocs) (ht : Stays s s')
    (hh : s'.hist = s.hist ∨ ∃ e, (∀ w x, e ≠ .wait w x) ∧ s'.hist = e :: s.hist) : Waits s' := by
  have hw : waits s'.hist = waits s.hist := by
    rcases hh with hh | ⟨e, he, hh⟩ <;> rw [hh]
    cases e with
    | wait w x => exact absurd rfl (he w x)
    | _ => rfl
  refine ⟨by rw [hw, ha]; exact hi.waits_le, fun q hq => ?_, by rw [hw]; exact hi.nodup,
    fun w x l h => ?_⟩
  · rw [(ht q hq).2, hw]
    exact hi.waited q (ht q hq).1
  · rcases hh with hh | ⟨e, he, hh⟩ <;> rw [hh] at h
    · exact hi.waitable w x l h
    · rcases List.suffix_cons_iff.1 h with h | h
      · exact absurd (List.cons.inj h).1.symm (he w x)
      · exact hi.waitable w x l h

/-- The slots keep their pids and parents, and are processes as before. -/
structure SameFamily (t t' : Ptable) : Prop where
  pid : ∀ q, (t' q).pid = (t q).pid
  parent : ∀ q, (t' q).parent = (t q).parent
  state : ∀ q, (t' q).state = (t q).state ∨ (t' q).state.live ∧ (t q).state.live

theorem Family.frame (hi : Family s) (ht : SameFamily s.tab s'.tab) (hh : s'.hist = s.hist)
    (hn : s'.nextpid = s.nextpid) (ha : s'.allocs = s.allocs)
    (hex : ∀ p, (s'.pc p).exiting → (s.pc p).exiting ∨ p ≠ initproc)
    (hor : ∀ p np, (s'.pc p).orphan = some np → (s.pc p).orphan = some np)
    (had : ∀ p np, (s'.pc p).adopted = some np → (s.pc p).adopted = some np)
    (hw : ∀ p z, (s'.tab p).state = .sleeping → (s'.tab p).chan = some (.proc p) →
      (s.tab z).parent = some p → (s.tab z).state ≠ .zombie) : Family s' := by
  have hun : Stays s s' := fun q hq => by
    refine ⟨?_, ht.pid q⟩
    rcases ht.state q with h | ⟨-, h⟩
    · rwa [← h]
    · intro h'; rw [h'] at h; cases h
  have hlive : ∀ q, (s'.tab q).state.live ↔ (s.tab q).state.live := fun q => by
    rcases ht.state q with h | ⟨h, h'⟩
    · rw [h]
    · simp [h, h']
  have hsame : ∀ {q st}, st.live = false → (s'.tab q).state = st → (s.tab q).state = st :=
    fun {q st} hst hq => by
      rcases ht.state q with h | ⟨h, -⟩
      · rwa [← h]
      · rw [hq, hst] at h; cases h
  constructor
  case toPids => exact hi.toPids.keep hn ha hun ((hlive _).2 hi.init_live)
  case toForks => exact hi.toForks.keep ha hun (by rw [hh]; exact id) fun _ => hsame rfl
  case toWaits => exact hi.toWaits.keep ha hun (.inl hh)
  case init_live => exact (hlive _).2 hi.init_live
  case exiting => exact fun p hp => (hex p hp).elim (hi.exiting p) id
  case unused => intro p hp; rw [ht.parent]; exact hi.unused p (hsame rfl hp)
  case orphan => intro p np h; rw [ht.parent]; exact hi.orphan p np (hor p np h)
  case adopted => intro p np h; rw [ht.parent]; exact hi.adopted p np (had p np h)
  case init_parent => rw [ht.parent]; exact hi.init_parent
  case parent_ne => intro p; rw [ht.parent]; exact hi.parent_ne p
  case parent_live => intro p q h; rw [ht.parent] at h; exact (hlive q).2 (hi.parent_live p q h)
  case parent =>
    intro p hp hne
    obtain ⟨q, pp, h1, h2, h3⟩ := hi.parent p (hp.imp (hlive p).1 (hsame rfl)) hne
    exact ⟨q, pp, by rw [ht.parent, h1], by rw [ht.pid, hh]; exact h2, by rw [ht.pid, hh]; exact h3⟩
  case zombie => intro p hp; rw [ht.pid, hh]; exact hi.zombie p (hsame rfl hp)
  case waiting =>
    intro p z hst hch hp hz
    rw [ht.parent] at hp
    exact hw p z hst hch hp (hsame rfl hz)

theorem SameFamily.refl (t : Ptable) : SameFamily t t :=
  ⟨fun _ => rfl, fun _ => rfl, fun _ => .inl rfl⟩

theorem SameFamily.wakeup1 (t : Ptable) (ch : Option Chan) : SameFamily t (t.wakeup1 ch) := by
  constructor <;> intro q <;> rw [Ptable.wakeup1_apply] <;> split <;> try rfl
  · rename_i h; exact .inr ⟨rfl, by rw [h.1]; rfl⟩
  · exact .inl rfl

theorem SameFamily.kill (t : Ptable) (pid : Int32) : SameFamily t (t.kill pid) := by
  constructor <;> intro q <;> rcases t.kill_apply pid q with h | ⟨-, h⟩ <;> rw [h]
  · exact .inl rfl
  · dsimp only
    split
    · rename_i h; exact .inr ⟨rfl, by rw [h]; rfl⟩
    · exact .inl rfl

/-- A store to a slot that leaves it in its family. -/
theorem SameFamily.update {t : Ptable} {p : PSlot} {x : Proc} (h1 : x.pid = (t p).pid)
    (h2 : x.parent = (t p).parent)
    (h3 : x.state = (t p).state ∨ x.state.live ∧ (t p).state.live) :
    SameFamily t (update t p x) := by
  constructor <;> intro q <;> by_cases hq : q = p
  · subst hq; simpa using h1
  · simp [hq]
  · subst hq; simpa using h2
  · simp [hq]
  · subst hq; simpa using h3
  · simp [hq]

/-- A process sleeps in `wait` only when it found no zombie. -/
theorem Family.waiting_of_stepped (hi : Family s) (hs : Sane s) (h : Stepped s c s') (p z : PSlot)
    (hst : (s'.tab p).state = .sleeping) (hch : (s'.tab p).chan = some (.proc p))
    (hp : (s.tab z).parent = some p) : (s.tab z).state ≠ .zombie := by
  rcases h.sleeping hs hst with ⟨hst', hch', -⟩ | ⟨ch, lk, k, -, -, hch'⟩ | ⟨k, -, -, hz⟩
  · exact hi.waiting p z hst' (hch' ▸ hch) hp
  · rw [hch'] at hch; cases hch
  · exact Ptable.findZombie_none hz hp

/-- A step of thread `p` that leaves the family alone. -/
theorem Family.plain (hi : Family s) (hs : Sane s) (hon : s.On c p) (h : Moves s c p s')
    {pc : KPc cl.L cl.K} (ht : SameFamily s.tab s'.tab)
    (hpc : s'.pc = update s.pc p pc)
    (hk : (s'.hist, s'.nextpid, s'.allocs) = (s.hist, s.nextpid, s.allocs))
    (hex : pc.exiting → (s.pc p).exiting ∨ p ≠ initproc)
    (hor : ∀ np, pc.orphan = some np → (s.pc p).orphan = some np)
    (had : ∀ np, pc.adopted = some np → (s.pc p).adopted = some np) : Family s' := by
  simp only [Prod.mk.injEq] at hk
  refine hi.frame ht hk.1 hk.2.1 hk.2.2 (fun q => ?_) (fun q np => ?_) (fun q np => ?_)
    (hi.waiting_of_stepped hs (.thread hon h))
  all_goals
    rw [hpc]
    by_cases hq : q = p
    · subst hq; simp_all
    · simp_all

/-- A step of thread `p` that is not in a stage of `fork` or `exit` after it. -/
theorem Family.quiet (hi : Family s) (hs : Sane s) (hon : s.On c p) (h : Moves s c p s')
    {pc : KPc cl.L cl.K} (ht : SameFamily s.tab s'.tab)
    (hpc : s'.pc = update s.pc p pc)
    (hk : (s'.hist, s'.nextpid, s'.allocs) = (s.hist, s.nextpid, s.allocs))
    (hq : pc.exiting = false ∧ pc.orphan = none ∧ pc.adopted = none) : Family s' :=
  hi.plain hs hon h ht hpc hk (by simp [hq]) (by simp [hq]) (by simp [hq])

/-! ## Steps of `fork` -/

theorem Family.ne_init_of_not_live (hi : Family s) (h : (s.tab q).state.live = false) :
    q ≠ initproc := by
  rintro rfl
  rw [hi.init_live] at h
  cases h

theorem toInt_add_one {x : Int32} (h : 0 ≤ x.toInt) (hn : x.toInt + 1 < 2 ^ 31) :
    (x + 1).toInt = x.toInt + 1 := by
  rw [Int32.toInt_add]
  simp only [Int32.toInt_one, Int.bmod_def]
  omega

/-- A thread that goes on in its client is in none of the stages of `fork` and `exit`. -/
theorem observe_update {pc : KPc cl.L cl.K} (hpc : s'.pc = update s.pc p pc)
    (h : pc.exiting = false ∧ pc.orphan = none ∧ pc.adopted = none) (q : PSlot) :
    ((s'.pc q).exiting → (s.pc q).exiting) ∧
    (∀ np, (s'.pc q).orphan = some np → q ≠ p ∧ (s.pc q).orphan = some np) ∧
    ∀ np, (s'.pc q).adopted = some np → q ≠ p ∧ (s.pc q).adopted = some np := by
  by_cases hq : q = p
  · subst hq; simp [hpc, h]
  · simp [hpc, hq]

variable {np : PSlot} {k : cl.K}

/-- A store to a slot that is no process, before and after it: `allocproc` takes a slot with a
new pid, and `fork` gives it back when it fails. -/
theorem Family.setEmpty (hi : Family s) {x : Proc}
    (hnp : (s.tab np).state = .unused ∨ (s.tab np).state = .embryo)
    (hpar : (s.tab np).parent = none) (hx : x.state = .unused ∨ x.state = .embryo)
    (hxp : x.parent = none) (htab : s'.tab = update s.tab np x)
    (hpid : x.state = .embryo → x.pid.toInt = s.allocs + 1 ∧ s.allocs < s'.allocs)
    (hh : s'.hist = s.hist) (hn : s'.nextpid.toInt = s'.allocs + 1) (ha : s.allocs ≤ s'.allocs)
    (hex : ∀ q, (s'.pc q).exiting → (s.pc q).exiting)
    (hor : ∀ q nq, (s'.pc q).orphan = some nq → nq = np ∨ (s.pc q).orphan = some nq)
    (had : ∀ q nq, (s'.pc q).adopted = some nq → (s.pc q).adopted = some nq) : Family s' := by
  have hlive : ∀ q, (s.tab q).state.live → q ≠ np := by
    rintro q h rfl
    rcases hnp with hnp | hnp <;> rw [hnp] at h <;> cases h
  have hini : initproc ≠ np := hlive _ hi.init_live
  have ht : ∀ q, q ≠ np → s'.tab q = s.tab q := fun q hq => by
    rw [htab, update_of_ne hq]
  have htn : s'.tab np = x := by rw [htab, update_self]
  have hparent : ∀ q, (s'.tab q).parent = (s.tab q).parent := fun q => by
    by_cases hq : q = np
    · rw [hq, htn, hxp, hpar]
    · rw [ht q hq]
  have hproc : ∀ q, (s'.tab q).state.live ∨ (s'.tab q).state = .zombie → q ≠ np := by
    rintro q h rfl
    rw [htn] at h
    rcases hx with hx | hx <;> rw [hx] at h <;> rcases h with h | h <;> cases h
  constructor
  case toPids =>
    refine ⟨hn, fun q hq => ?_, fun q r hq hr h => ?_, by rw [ht _ hini]; exact hi.init_pid⟩
    · have := hi.pid_le q
      by_cases hqn : q = np <;> grind
    · have hq' := hi.pid_le q
      have hr' := hi.pid_le r
      have := hi.pid_inj q r
      grind
  case toForks =>
    refine ⟨fun pp y hy => (hi.fork_le pp y (hh ▸ hy)).trans (by omega), fun q pp hq hf => ?_,
      by rw [hh]; exact hi.fork_inj⟩
    rw [hh] at hf
    have := hi.fork_le pp _ hf
    by_cases hqn : q = np
    · grind
    · rw [ht q hqn] at hq hf
      exact hi.unforked q pp hq hf
  case toWaits =>
    refine ⟨fun y hy => (hi.waits_le y (hh ▸ hy)).trans (by omega), fun q hq hw => ?_,
      by rw [hh]; exact hi.nodup, by rw [hh]; exact hi.waitable⟩
    rw [hh] at hw
    have := hi.waits_le _ hw
    by_cases hqn : q = np
    · grind
    · rw [ht q hqn] at hq hw
      exact hi.waited q hq hw
  case init_live => rw [ht _ hini]; exact hi.init_live
  case exiting => exact fun q hq => hi.exiting q (hex q hq)
  case unused =>
    intro q hq
    rw [hparent]
    by_cases hqn : q = np
    · rw [hqn, hpar]
    · exact hi.unused q (ht q hqn ▸ hq)
  case orphan =>
    intro q nq hq
    rw [hparent]
    rcases hor q nq hq with rfl | h
    · exact hpar
    · exact hi.orphan q nq h
  case adopted => intro q nq hq; rw [hparent]; exact hi.adopted q nq (had q nq hq)
  case init_parent => rw [hparent]; exact hi.init_parent
  case parent_ne => intro q; rw [hparent]; exact hi.parent_ne q
  case parent_live =>
    intro q r h
    rw [hparent] at h
    have := hi.parent_live q r h
    rwa [ht r (hlive r this)]
  case parent =>
    intro q hq hqi
    have hqn := hproc q hq
    rw [ht q hqn] at hq ⊢
    obtain ⟨r, pp, h1, h2, h3⟩ := hi.parent q hq hqi
    rw [hh]
    exact ⟨r, pp, h1, h2, by rw [ht r (hlive r (hi.parent_live q r h1))]; exact h3⟩
  case zombie =>
    intro q hq
    have hqn := hproc q (.inr hq)
    rw [ht q hqn] at hq ⊢
    rw [hh]
    exact hi.zombie q hq
  case waiting =>
    intro q z hst hch hz hzo
    have hqn := hproc q (.inl (by rw [hst]; rfl))
    have hzn := hproc z (.inr hzo)
    rw [ht q hqn] at hst hch
    rw [ht z hzn] at hz hzo
    exact hi.waiting q z hst hch hz hzo

theorem Family.forkAlloc (hi : Family s) {k kc : cl.K} (hnp : (s.tab np).state = .unused)
    (hne : np ≠ p) (hb : s.allocs + 1 < 2 ^ 31 - 1) :
    Family { (s.allocproc np kc).goto p (.forkSetup np k) with ptlock := none } := by
  have hpid := hi.nextpid
  refine hi.setEmpty (x := { s.tab np with state := .embryo, pid := s.nextpid })
    (.inl hnp) (hi.unused np hnp) (.inr rfl) (hi.unused np hnp) rfl
    (fun _ => ⟨hpid, by simp⟩) rfl ?_ (by simp) (fun q => ?_) (fun q nq => ?_) (fun q nq => ?_)
  · simp only [goto_nextpid, allocproc_nextpid, goto_allocs, allocproc_allocs]
    rw [toInt_add_one (by omega) (by omega), hpid]
    push_cast
    rfl
  all_goals
    by_cases hqp : q = p
    · subst hqp
      simp only [goto_pc, update_self]
      intro h
      cases h <;> exact .inl rfl
    · by_cases hqn : q = np
      · subst hqn; simp [hne, KPc.exiting, KPc.orphan, KPc.adopted]
      · simp only [goto_pc, update_of_ne hqp, allocproc_pc, update_of_ne hqn]
        first | exact id | exact .inr

theorem Family.forkFail (hi : Family s) (hs : Sane s) (hpc : s.pc p = .forkSetup np k) :
    Family ((s.setProc np { s.tab np with state := .unused }).goto p (.client k)) := by
  have hnp := (hs.embryo p np (by rw [hpc]; rfl)).1
  have hpar := hi.orphan p np (by rw [hpc]; rfl)
  have hob := @observe_update cl s (s.goto p (.client k)) p (.client k) rfl ⟨rfl, rfl, rfl⟩
  exact hi.setEmpty (x := { s.tab np with state := .unused }) (.inr hnp) hpar (.inl rfl) hpar rfl
    (by simp) rfl hi.nextpid le_rfl (fun q => (hob q).1) (fun q nq h => .inr ((hob q).2.1 nq h).2)
    (fun q nq h => ((hob q).2.2 nq h).2)

theorem field_update {α : Type} (f : Proc → α) {x : Proc} (htab : s'.tab = update s.tab np x)
    (hf : f x = f (s.tab np)) (q : PSlot) : f (s'.tab q) = f (s.tab q) := by
  by_cases hq : q = np
  · rw [hq, htab, update_self, hf]
  · rw [htab, update_of_ne hq]

/-- `np->parent = proc` -/
theorem Family.forkParent (hi : Family s) (hs : Sane s) (hrun : (s.tab p).state = .running)
    (hpc : s.pc p = .forkParent np k)
    (htab : s'.tab = update s.tab np { s.tab np with parent := some p })
    (hpc' : s'.pc = update s.pc p (.forkRun np k))
    (hk : (s'.hist, s'.nextpid, s'.allocs) = (s.hist, s.nextpid, s.allocs)) : Family s' := by
  obtain ⟨hnp, -, hun⟩ := hs.embryo p np (by rw [hpc]; rfl)
  have hne : np ≠ p := by rintro rfl; rw [hrun] at hnp; cases hnp
  have hini : initproc ≠ np := (hi.ne_init_of_not_live (by rw [hnp]; rfl)).symm
  have ht : ∀ q, q ≠ np → s'.tab q = s.tab q := fun q hq => by
    rw [htab, update_of_ne hq]
  have htn : s'.tab np = { s.tab np with parent := some p } := by rw [htab, update_self]
  have hst : ∀ q, (s'.tab q).state = (s.tab q).state := field_update Proc.state htab rfl
  have hpid : ∀ q, (s'.tab q).pid = (s.tab q).pid := field_update Proc.pid htab rfl
  have hsame : Stays s s' := fun q hq => ⟨hst q ▸ hq, hpid q⟩
  have hpp : s'.pc p = .forkRun np k := by rw [hpc', update_self]
  have hpq : ∀ q, q ≠ p → s'.pc q = s.pc q := fun q hq => by rw [hpc', update_of_ne hq]
  -- the other `fork`s have other slots
  have hoth : ∀ q nq, q ≠ p → (s.pc q).embryo = some nq → nq ≠ np := by
    rintro q nq hq h rfl
    exact hq (hun q h)
  simp only [Prod.mk.injEq] at hk
  obtain ⟨hh, hn, ha⟩ := hk
  have hlive : (s'.tab initproc).state.live := by rw [hst]; exact hi.init_live
  constructor
  case toPids => exact hi.toPids.keep hn ha hsame hlive
  case toForks => exact hi.toForks.keep ha hsame (by rw [hh]; exact id) fun q hq => hst q ▸ hq
  case toWaits => exact hi.toWaits.keep ha hsame (.inl hh)
  case init_live => exact hlive
  case exiting =>
    intro q hq
    by_cases hqp : q = p
    · rw [hqp, hpp] at hq; cases hq
    · exact hi.exiting q (hpq q hqp ▸ hq)
  case unused =>
    intro q hq
    rw [hst] at hq
    rw [ht q (by rintro rfl; rw [hnp] at hq; cases hq)]
    exact hi.unused q hq
  case orphan =>
    intro q nq hq
    by_cases hqp : q = p
    · rw [hqp, hpp] at hq; cases hq
    · rw [hpq q hqp] at hq
      rw [ht nq (hoth q nq hqp (KPc.embryo_of_orphan hq))]
      exact hi.orphan q nq hq
  case adopted =>
    intro q nq hq
    by_cases hqp : q = p
    · rw [hqp, hpp] at hq
      cases hq
      rw [htn, hqp]
    · rw [hpq q hqp] at hq
      rw [ht nq (hoth q nq hqp (KPc.embryo_of_adopted hq))]
      exact hi.adopted q nq hq
  case init_parent => rw [ht _ hini]; exact hi.init_parent
  case parent_ne =>
    intro q
    by_cases hq : q = np
    · rw [hq, htn]
      intro h
      cases h
      exact hne rfl
    · rw [ht q hq]; exact hi.parent_ne q
  case parent_live =>
    intro q r h
    rw [hst]
    by_cases hq : q = np
    · rw [hq, htn] at h
      cases h
      rw [hrun]; rfl
    · exact hi.parent_live q r (ht q hq ▸ h)
  case parent =>
    intro q hq hqi
    rw [hst] at hq
    have hqn : q ≠ np := by
      rintro rfl; rw [hnp] at hq; rcases hq with h | h <;> cases h
    obtain ⟨r, pp, h1, h2, h3⟩ := hi.parent q hq hqi
    rw [ht q hqn, hh]
    exact ⟨r, pp, h1, h2, by rw [hpid]; exact h3⟩
  case zombie => intro q hq; rw [hst] at hq; rw [hpid, hh]; exact hi.zombie q hq
  case waiting =>
    intro q z hsl hch hz hzo
    rw [hst] at hsl hzo
    have hzn : z ≠ np := by rintro rfl; rw [hnp] at hzo; cases hzo
    have hqn : q ≠ np := by rintro rfl; rw [hnp] at hsl; cases hsl
    rw [ht q hqn] at hch
    rw [ht z hzn] at hz
    exact hi.waiting q z hsl hch hz hzo

/-- `np->state = RUNNABLE` -/
theorem Family.forkRun (hi : Family s) (hs : Sane s) (hrun : (s.tab p).state = .running)
    (hpc : s.pc p = .forkRun np k)
    (htab : s'.tab = update s.tab np { s.tab np with state := .runnable })
    (hpc' : s'.pc = update s.pc p (.client k))
    (hh : s'.hist = .fork (s.tab p).pid (s.tab np).pid :: s.hist) (hn : s'.nextpid = s.nextpid)
    (ha : s'.allocs = s.allocs) : Family s' := by
  obtain ⟨hnp, -, hun⟩ := hs.embryo p np (by rw [hpc]; rfl)
  have hpar := hi.adopted p np (by rw [hpc]; rfl)
  have ht : ∀ q, q ≠ np → s'.tab q = s.tab q := fun q hq => by
    rw [htab, update_of_ne hq]
  have htn : s'.tab np = { s.tab np with state := .runnable } := by
    rw [htab, update_self]
  have hne : p ≠ np := by rintro rfl; rw [hrun] at hnp; cases hnp
  have hparent : ∀ q, (s'.tab q).parent = (s.tab q).parent := field_update Proc.parent htab rfl
  have hpid : ∀ q, (s'.tab q).pid = (s.tab q).pid := field_update Proc.pid htab rfl
  have hnu : Stays s s' := fun q hq => by
    refine ⟨?_, hpid q⟩
    by_cases hqn : q = np
    · rw [hqn, hnp]; rintro ⟨⟩
    · rwa [← ht q hqn]
  have hob := observe_update hpc' ⟨rfl, rfl, rfl⟩
  have hlive : ∀ q, (s.tab q).state.live → (s'.tab q).state.live := fun q hq => by
    by_cases hqn : q = np
    · rw [hqn, htn]; rfl
    · rwa [ht q hqn]
  have hzo : ∀ q, (s'.tab q).state = .zombie → q ≠ np ∧ (s.tab q).state = .zombie :=
    fun q hq => by
      have hqn : q ≠ np := by rintro rfl; rw [htn] at hq; cases hq
      exact ⟨hqn, by rwa [← ht q hqn]⟩
  constructor
  case toPids => exact hi.toPids.keep hn ha hnu (hlive _ hi.init_live)
  case toForks =>
    have hnew := fun pp => hi.unforked np pp hnp
    refine ⟨fun pp x hx => ?_, fun q pp hq hf => ?_, fun pp pp' x h h' => ?_⟩
    · rw [hh] at hx
      rw [ha]
      rcases List.mem_cons.1 hx with h | h
      · cases h; exact (hi.pid_le np (by rw [hnp]; rintro ⟨⟩)).2
      · exact hi.fork_le pp x h
    · have hqn : q ≠ np := by rintro rfl; rw [htn] at hq; cases hq
      rw [ht q hqn] at hq hf
      rw [hh] at hf
      rcases List.mem_cons.1 hf with h | h
      · exact hqn (hi.pid_inj q np (by rw [hq]; rintro ⟨⟩) (by rw [hnp]; rintro ⟨⟩) (Event.fork.inj h).2)
      · exact hi.unforked q pp hq h
    · rw [hh] at h h'
      rcases List.mem_cons.1 h with h | h <;> rcases List.mem_cons.1 h' with h' | h'
      · cases h; cases h'; rfl
      · cases h; exact absurd h' (hnew pp')
      · cases h'; exact absurd h (hnew pp)
      · exact hi.fork_inj pp pp' x h h'
  case toWaits => exact hi.toWaits.keep ha hnu (.inr ⟨_, by rintro _ _ ⟨⟩, hh⟩)
  case init_live => exact hlive _ hi.init_live
  case exiting => exact fun q hq => hi.exiting q ((hob q).1 hq)
  case unused =>
    intro q hq
    have hqn : q ≠ np := by rintro rfl; rw [htn] at hq; cases hq
    rw [ht q hqn] at hq ⊢
    exact hi.unused q hq
  case orphan => intro q nq hq; rw [hparent]; exact hi.orphan q nq ((hob q).2.1 nq hq).2
  case adopted => intro q nq hq; rw [hparent]; exact hi.adopted q nq ((hob q).2.2 nq hq).2
  case init_parent => rw [hparent]; exact hi.init_parent
  case parent_ne => intro q; rw [hparent]; exact hi.parent_ne q
  case parent_live => intro q r h; rw [hparent] at h; exact hlive r (hi.parent_live q r h)
  case parent =>
    intro q hq hqi
    by_cases hqn : q = np
    · refine ⟨p, (s.tab p).pid, by rw [hqn, hparent]; exact hpar, ?_, .inl (hpid p)⟩
      rw [hqn, hpid, hh]
      exact .head _
    · rw [ht q hqn] at hq ⊢
      obtain ⟨r, pp, h1, h2, h3⟩ := hi.parent q hq hqi
      refine ⟨r, pp, h1, by rw [hh]; exact .tail _ h2, ?_⟩
      rw [hpid, hh]
      exact h3.imp id fun h => ⟨.tail _ h.1, h.2⟩
  case zombie =>
    intro q hq
    rw [hpid, hh]
    exact .tail _ (hi.zombie q (hzo q hq).2)
  case waiting =>
    intro q z hsl hch hz hzst
    have hqn : q ≠ np := by rintro rfl; rw [htn] at hsl; cases hsl
    rw [ht q hqn] at hsl hch
    rw [hparent] at hz
    exact hi.waiting q z hsl hch hz (hzo z hzst).2

/-! ## `exit` and `wait` -/

/-- `exit` passes the children of `p` to init, and wakes up who waits for a zombie. -/
theorem Family.exit (hi : Family s) (hrun : (s.tab p).state = .running) (hp : p ≠ initproc)
    (htab : s'.tab = s.tab.exit p) (hh : s'.hist = .zombie (s.tab p).pid :: s.hist)
    (hpc' : s'.pc = update s.pc p .dead)
    (hn : s'.nextpid = s.nextpid) (ha : s'.allocs = s.allocs) : Family s' := by
  have hpid : ∀ q, (s'.tab q).pid = (s.tab q).pid := fun q => by
    rw [htab]; exact (s.tab.exit_fields p q).1
  have hchan : ∀ q, (s'.tab q).chan = (s.tab q).chan := fun q => by
    rw [htab]; exact (s.tab.exit_fields p q).2.1
  have hparent : ∀ q, (s'.tab q).parent =
      if (s.tab q).parent = some p then some initproc else (s.tab q).parent := fun q => by
    rw [htab]; exact (s.tab.exit_fields p q).2.2.2
  obtain ⟨t, x, ht, hwk, hx⟩ := exit_wakes s.tab p
  have hpz : (s'.tab p).state = .zombie := by rw [htab, ht, update_self, hx]
  have hst : ∀ q, q ≠ p → (s'.tab q).state = (s.tab q).state ∨
      (s'.tab q).state.live ∧ (s.tab q).state.live := fun q hq => by
    rw [htab, ht, update_of_ne hq]
    rcases hwk q with h | ⟨h, h'⟩
    · exact .inl h
    · exact .inr ⟨by rw [h']; rfl, by rw [h]; rfl⟩
  have hlive : ∀ q, q ≠ p → (s.tab q).state.live → (s'.tab q).state.live := fun q hq h => by
    rcases hst q hq with h' | h'
    · rwa [h']
    · exact h'.1
  have hzo : ∀ q, q ≠ p → (s'.tab q).state = .zombie → (s.tab q).state = .zombie :=
    fun q hq h => by
      rcases hst q hq with h' | h'
      · rwa [← h']
      · rw [h] at h'; cases h'.1
  have hnu : Stays s s' := fun q hq => by
    refine ⟨fun h => ?_, hpid q⟩
    by_cases hqp : q = p
    · rw [hqp, hrun] at h; cases h
    · rcases hst q hqp with h' | h'
      · exact hq (h'.trans h)
      · rw [h] at h'; cases h'.2
  have hsame : ∀ {q st}, st.live = false → st ≠ .zombie → (s'.tab q).state = st →
      (s.tab q).state = st := fun {q st} hs hz hq => by
    have hqp : q ≠ p := by rintro rfl; exact hz (hq.symm.trans hpz)
    rcases hst q hqp with h | h
    · rwa [← h]
    · rw [hq, hs] at h; cases h.1
  have hob := observe_update hpc' ⟨rfl, rfl, rfl⟩
  constructor
  case toPids => exact hi.toPids.keep hn ha hnu (hlive _ hp.symm hi.init_live)
  case toForks =>
    exact hi.toForks.keep ha hnu (fun h => by simpa [hh] using h) fun _ => hsame rfl (by rintro ⟨⟩)
  case toWaits => exact hi.toWaits.keep ha hnu (.inr ⟨_, by rintro _ _ ⟨⟩, hh⟩)
  case init_live => exact hlive _ hp.symm hi.init_live
  case exiting => exact fun q hq => hi.exiting q ((hob q).1 hq)
  case unused =>
    intro q hq
    rw [hparent, hi.unused q (hsame rfl (by rintro ⟨⟩) hq)]
    rfl
  case orphan =>
    intro q nq hq
    rw [hparent, hi.orphan q nq ((hob q).2.1 nq hq).2]
    rfl
  case adopted =>
    intro q nq hq
    obtain ⟨hqp, hq⟩ := (hob q).2.2 nq hq
    rw [hparent, hi.adopted q nq hq, if_neg fun h => hqp (Option.some.inj h)]
  case init_parent => rw [hparent, hi.init_parent]; rfl
  case parent_ne =>
    intro q h
    rw [hparent] at h
    split at h
    · -- init is not a child of anyone
      cases h
      have := hi.init_parent
      simp_all
    · exact hi.parent_ne q h
  case parent_live =>
    intro q r h
    rw [hparent] at h
    split at h
    · cases h; exact hlive _ hp.symm hi.init_live
    · have hr : r ≠ p := by rintro rfl; contradiction
      exact hlive r hr (hi.parent_live q r h)
  case parent =>
    intro q hq hqi
    have hq' : (s.tab q).state.live ∨ (s.tab q).state = .zombie := by
      by_cases hqp : q = p
      · rw [hqp, hrun]; exact .inl rfl
      · rcases hst q hqp with h | h
        · rwa [← h]
        · exact .inl h.2
    obtain ⟨r, pp, h1, h2, h3⟩ := hi.parent q hq' hqi
    rw [hparent, hpid, hh, h1]
    by_cases hr : r = p
    · subst hr
      refine ⟨initproc, pp, if_pos rfl, .tail _ h2, .inr ⟨?_, rfl⟩⟩
      rcases h3 with rfl | h3
      · exact .head _
      · exact .tail _ h3.1
    · refine ⟨r, pp, if_neg fun h => hr (Option.some.inj h), .tail _ h2, ?_⟩
      rw [hpid]
      exact h3.imp id fun h => ⟨.tail _ h.1, h.2⟩
  case zombie =>
    intro q hq
    rw [hpid, hh]
    by_cases hqp : q = p
    · rw [hqp]; exact .head _
    · exact .tail _ (hi.zombie q (hzo q hqp hq))
  case waiting =>
    intro q z hsl hch hz hzst
    rw [htab] at hsl
    rw [hchan] at hch
    rw [hparent] at hz
    obtain ⟨-, hsl', hnot, hinit⟩ := s.tab.exit_sleeping (z := z) hsl
    by_cases hzp : z = p
    · -- `exit` itself wakes up the parent
      subst hzp
      rw [if_neg (hi.parent_ne z)] at hz
      exact hnot q hz hch
    · split at hz
      · cases hz
        exact hinit ‹_› (hzo z hzp hzst) hch
      · exact hi.waiting q z hsl' hch hz (hzo z hzp hzst)

/-- `wait` of `p` takes the zombie `z` from the table. -/
theorem Family.reap (hi : Family s) (hs : Sane s) {z : PSlot} (hz : s.tab.findZombie p = some z)
    (htab : s'.tab = s.tab.reap z) (hh : s'.hist = .wait (s.tab p).pid (s.tab z).pid :: s.hist)
    (hpc' : s'.pc = update s.pc p (.client k)) (hn : s'.nextpid = s.nextpid)
    (ha : s'.allocs = s.allocs) : Family s' := by
  obtain ⟨hzp, hzst⟩ := Ptable.findZombie_spec hz
  have hzl : ∀ q, (s.tab q).state.live → q ≠ z := by rintro q h rfl; rw [hzst] at h; cases h
  have hzi : z ≠ initproc := hi.ne_init_of_not_live (by rw [hzst]; rfl)
  have ht : ∀ q, q ≠ z → s'.tab q = s.tab q := fun q hq => by
    rw [htab, Ptable.reap, update_of_ne hq]
  have hzs : (s'.tab z).state = .unused := by rw [htab, Ptable.reap, update_self]
  have hzpar : (s'.tab z).parent = none := by rw [htab, Ptable.reap, update_self]
  have hpar : ∀ q r, (s'.tab q).parent = some r → q ≠ z := by
    rintro q r h rfl; rw [hzpar] at h; cases h
  have hnu : ∀ q, (s'.tab q).state ≠ .unused → q ≠ z := by rintro q h rfl; exact h hzs
  have hsame : Stays s s' := fun q hq => by
    have he := ht q (hnu q hq)
    exact ⟨he ▸ hq, by rw [he]⟩
  have hzu : (s.tab z).state ≠ .unused := by rw [hzst]; rintro ⟨⟩
  have hob := observe_update hpc' ⟨rfl, rfl, rfl⟩
  have hw : waits s'.hist = (s.tab z).pid :: waits s.hist := by rw [hh]; rfl
  obtain ⟨r, pp, hr, hfork, hpp⟩ := hi.parent z (.inr hzst) hzi
  have hlive : (s'.tab initproc).state.live := by rw [ht _ hzi.symm]; exact hi.init_live
  constructor
  case toPids => exact hi.toPids.keep hn ha hsame hlive
  case toForks =>
    refine hi.toForks.keep ha hsame (fun h => by simpa [hh] using h) fun q hq => ?_
    rwa [← ht q (hnu q (by rw [hq]; rintro ⟨⟩))]
  case toWaits =>
    refine ⟨?_, fun q hq hmem => ?_, ?_, fun w x l h => ?_⟩
    · rw [hw, ha]
      intro y hy
      rcases List.mem_cons.1 hy with rfl | hy
      · exact (hi.pid_le z hzu).2
      · exact hi.waits_le y hy
    · obtain ⟨hq', he⟩ := hsame q hq
      rw [he, hw] at hmem
      rcases List.mem_cons.1 hmem with h | h
      · exact hnu q hq (hi.pid_inj q z hq' hzu h)
      · exact hi.waited q hq' h
    · rw [hw]
      exact List.nodup_cons.2 ⟨hi.waited z hzu, hi.nodup⟩
    · rw [hh] at h
      rcases List.suffix_cons_iff.1 h with h | h
      · cases h
        refine ⟨hi.zombie z hzst, ⟨pp, hfork⟩, fun pp' hfork' => ?_⟩
        cases hi.fork_inj pp pp' _ hfork hfork'
        cases hzp.symm.trans hr
        rcases hpp with hpp | ⟨hpp, rfl⟩
        · exact .inl hpp
        · exact .inr ⟨hpp, hi.init_pid⟩
      · exact hi.waitable w x l h
  case init_live => exact hlive
  case exiting => exact fun q hq => hi.exiting q ((hob q).1 hq)
  case unused =>
    intro q hq
    by_cases hqz : q = z
    · rw [hqz, hzpar]
    · rw [ht q hqz] at hq ⊢
      exact hi.unused q hq
  case orphan =>
    intro q nq hq
    by_cases hqz : nq = z
    · rw [hqz, hzpar]
    · rw [ht nq hqz]
      exact hi.orphan q nq ((hob q).2.1 nq hq).2
  case adopted =>
    intro q nq hq
    have hq := ((hob q).2.2 nq hq).2
    have hemb := (hs.embryo q nq (KPc.embryo_of_adopted hq)).1
    rw [ht nq (by rintro rfl; rw [hzst] at hemb; cases hemb)]
    exact hi.adopted q nq hq
  case init_parent => rw [ht _ hzi.symm]; exact hi.init_parent
  case parent_ne => intro q h; exact hi.parent_ne q (ht q (hpar q q h) ▸ h)
  case parent_live =>
    intro q r h
    have h' := hi.parent_live q r (ht q (hpar q r h) ▸ h)
    rwa [ht r (hzl r h')]
  case parent =>
    intro q hq hqi
    have hqz : q ≠ z := by
      rintro rfl; rw [hzs] at hq; rcases hq with h | h <;> cases h
    rw [ht q hqz] at hq ⊢
    obtain ⟨r, pp, h1, h2, h3⟩ := hi.parent q hq hqi
    refine ⟨r, pp, h1, by rw [hh]; exact .tail _ h2, ?_⟩
    rw [ht r (hzl r (hi.parent_live q r h1)), hh]
    exact h3.imp id fun h => ⟨.tail _ h.1, h.2⟩
  case zombie =>
    intro q hq
    have hqz : q ≠ z := by rintro rfl; rw [hzs] at hq; cases hq
    rw [ht q hqz] at hq ⊢
    rw [hh]
    exact .tail _ (hi.zombie q hq)
  case waiting =>
    intro q y hsl hch hy hyst
    have hqz : q ≠ z := by rintro rfl; rw [hzs] at hsl; cases hsl
    have hyz := hpar y q hy
    rw [ht q hqz] at hsl hch
    rw [ht y hyz] at hy hyst
    exact hi.waiting q y hsl hch hy hyst

theorem Family.moves (hi : Family s) (hs : Sane s) (hon : s.On c p) (h : Moves s c p s')
    (hb : s'.allocs < 2 ^ 31 - 1) : Family s' := by
  have hrun := hs.running hon
  have hst := @Family.plain cl s s' c p hi hs hon h
  have hq := @Family.quiet cl s s' c p hi hs hon h
  cases h with
  | goto | acquire | release | sleepRel | sleepReacq | forkFull | waitFail | forkret =>
    exact hq (.refl _) rfl rfl ⟨rfl, rfl, rfl⟩
  | enter hpc hp ha hne =>
    obtain ⟨h1, h2, h3⟩ := Act.entry_family ha
    exact hst (.refl _) rfl rfl (fun he => .inr (hne (h1 he))) (by rw [h2]; rintro _ ⟨⟩)
      (by rw [h3]; rintro _ ⟨⟩)
  | fault | sleepBack | waitBack => exact hq (.update rfl rfl (.inl rfl)) rfl rfl ⟨rfl, rfl, rfl⟩
  | timer hn hy => exact hst (.refl _) rfl rfl .inl (fun _ => id) (fun _ => id)
  | lockPt ha' hl =>
    obtain ⟨h1, h2, h3⟩ := KPc.acquired_family ha'
    exact hst (.refl _) rfl rfl (fun h => .inl (h1 ▸ h)) (fun _ h => h2 ▸ h) (fun _ h => h3 ▸ h)
  | yieldGo hpc hl hn =>
    exact hst (.update rfl rfl (.inr ⟨rfl, by rw [hrun]; rfl⟩)) rfl rfl
      (fun h => .inl (by rw [hpc]; exact h)) (fun _ h => by rw [hpc]; exact h)
      (fun _ h => by rw [hpc]; exact h)
  | yieldBack hpc hl =>
    exact hst (.refl _) rfl rfl (fun h => .inl (by rw [hpc]; exact h))
      (fun _ h => by rw [hpc]; exact h) (fun _ h => by rw [hpc]; exact h)
  | sleepGo | waitSleep =>
    exact hq (.update rfl rfl (.inr ⟨rfl, by rw [hrun]; rfl⟩)) rfl rfl ⟨rfl, rfl, rfl⟩
  | wakeGo hpc hl => exact hq (.wakeup1 s.tab _) rfl rfl ⟨rfl, rfl, rfl⟩
  | killGo hpc hl => exact hq (.kill s.tab _) rfl rfl ⟨rfl, rfl, rfl⟩
  | @forkAlloc k kc np hpc hl hf =>
    have hnp := Ptable.findUnused_spec hf
    exact hi.forkAlloc hnp (by rintro rfl; rw [hnp] at hrun; cases hrun) hb
  | forkSetup hpc =>
    exact hst (.refl _) rfl rfl (by rintro ⟨⟩) (fun _ h => by rw [hpc]; exact h) (by rintro _ ⟨⟩)
  | forkFail hpc => exact hi.forkFail hs hpc
  | forkParent hpc => exact hi.forkParent hs hrun hpc rfl rfl rfl
  | forkRun hpc => exact hi.forkRun hs hrun hpc rfl rfl rfl rfl rfl
  | exitGo hpc hl hn =>
    exact hi.exit hrun (hi.exiting p (by rw [hpc]; rfl)) rfl rfl rfl rfl rfl
  | waitReap hpc hl hz => exact hi.reap hs hz rfl rfl rfl rfl rfl

theorem Stepped.allocs_le (h : Stepped s c s') : s.allocs ≤ s'.allocs := by
  cases h with
  | thread hon h => cases h <;> simp
  | sched h =>
    cases h with
    | inspect => simp only [Kern.inspect]; split <;> exact le_rfl
    | _ => exact le_rfl
  | intr => exact le_rfl

/-- As long as the pids have not wrapped around, every step keeps the family. -/
theorem Family.stepped (hi : Family s) (hs : Sane s) (h : Stepped s c s')
    (hb : s'.allocs < 2 ^ 31 - 1) : Family s' := by
  have hw := hi.waiting_of_stepped hs h
  cases h with
  | thread hon h => exact hi.moves hs hon h hb
  | intr hl =>
    exact hi.frame (.wakeup1 s.tab _) rfl rfl rfl (fun _ => .inl) (fun _ _ => id)
      (fun _ _ => id) hw
  | sched h =>
    cases h with
    | @inspect p hc =>
      revert hw
      simp only [Kern.inspect]
      split <;> intro hw <;>
        exact hi.frame (.refl _) rfl rfl rfl (fun _ => .inl) (fun _ _ => id) (fun _ _ => id) hw
    | @disp p hc =>
      have hp := (hs.cpu c).proc
      rw [hc] at hp
      refine hi.frame (.update rfl rfl (.inr ⟨rfl, by rw [hp.2]; rfl⟩)) rfl rfl rfl (fun _ => .inl)
        (fun _ _ => id) (fun _ _ => id) hw
    | _ =>
      exact hi.frame (.refl _) rfl rfl rfl (fun _ => .inl) (fun _ _ => id) (fun _ _ => id) hw

theorem Runs.family {g : cl.G} (h : Runs cl k g s) (hb : s.allocs < 2 ^ 31 - 1) :
    Family s :=
  (h.inv (I := fun s => Sane s ∧ (s.allocs < 2 ^ 31 - 1 → Family s))
    ⟨.boot k g, fun _ => .boot k g⟩ fun _ _ _ hi hs =>
      ⟨hi.1.stepped hs, fun hb =>
        (hi.2 (hs.allocs_le.trans_lt hb)).stepped hi.1 hs hb⟩).2 hb

/-- **The hand-over of a process by `exit` and `wait`.**  As long as the pids
have not wrapped around, the processes have different pids, the parent of a
zombie is alive, and no process sleeps in `wait` while it has a zombie child.
Each pid is returned by one `wait` at most, of its parent or of init after the
parent exited, and after it became a zombie. -/
theorem exit_wait_handover {k : cl.K} {g : cl.G} (h : Runs cl k g s)
    (hb : s.allocs < 2 ^ 31 - 1) :
    (s.ptlock = none →
      (∀ p q, (s.tab p).state ≠ .unused → (s.tab q).state ≠ .unused →
        (s.tab p).pid = (s.tab q).pid → p = q) ∧
      (∀ z, (s.tab z).state = .zombie → ∃ p, (s.tab z).parent = some p ∧
        (s.tab p).state ≠ .unused ∧ (s.tab p).state ≠ .zombie) ∧
      ∀ p z k', (s.tab p).state = .sleeping → s.pc p = .waitBack k' →
        (s.tab z).parent = some p → (s.tab z).state ≠ .zombie) ∧
    (waits s.hist).Nodup ∧
    ∀ w x l, (.wait w x :: l) <:+ s.hist → Waitable w x l := by
  have hi := h.family hb
  refine ⟨fun _ => ⟨hi.pid_inj, fun z hz => ?_, fun p z k' hp hpc => hi.waiting p z hp ?_⟩,
    hi.nodup, hi.waitable⟩
  · obtain ⟨p, -, hp, -⟩ := hi.parent z (.inr hz)
      (hi.ne_init_of_not_live (by rw [hz]; rfl))
    have hl := hi.parent_live z p hp
    refine ⟨p, hp, ?_, ?_⟩ <;> intro h' <;> rw [h'] at hl <;> cases hl
  · obtain ⟨ch, hch, hsl⟩ := h.asleep p hp
    rw [hpc] at hsl
    rw [hch, ← hsl]
    rfl

/-- init waits for a child that exited on another CPU. -/
def waitEnd : Reached (Runs userClient () ()) fun s =>
    s.allocs < 2 ^ 31 - 1 ∧ s.ptlock = none ∧ .wait initpid 2 ∈ s.hist :=
  Runs.ofNext (exitRun ++ [(0, .go)]) (by decide +kernel)

theorem exit_wait_handover_run : ∃ s, Runs userClient () () s ∧ s.allocs < 2 ^ 31 - 1 ∧
    s.ptlock = none ∧ .wait initpid 2 ∈ s.hist ∧ (waits s.hist).Nodup := by
  obtain ⟨s, hs, hP⟩ := waitEnd
  obtain ⟨h1, h2, h3⟩ := of_decide_eq_true hP
  exact ⟨s, hs, h1, h2, h3, (exit_wait_handover hs h1).2.1⟩

/-- **Every process has a parent that is alive**: the one that forked it or, after that has exited,
init, which has none and never exits. -/
theorem parent_alive {k : cl.K} {g : cl.G} (h : Runs cl k g s) (hb : s.allocs < 2 ^ 31 - 1) :
    (s.tab initproc).state.live ∧ (s.tab initproc).parent = none ∧
    ∀ p, (s.tab p).state.live ∨ (s.tab p).state = .zombie → p ≠ initproc →
      ∃ q pp, (s.tab p).parent = some q ∧ q ≠ p ∧ (s.tab q).state.live ∧
        .fork pp (s.tab p).pid ∈ s.hist ∧
        ((s.tab q).pid = pp ∨ .zombie pp ∈ s.hist ∧ q = initproc) := by
  have hi := h.family hb
  refine ⟨hi.init_live, hi.init_parent, fun p hp hne => ?_⟩
  obtain ⟨q, pp, hq, hfork, hpid⟩ := hi.parent p hp hne
  refine ⟨q, pp, hq, ?_, hi.parent_live p q hq, hfork, hpid⟩
  rintro rfl
  exact hi.parent_ne q hq

/-- A child of init has exited. -/
def zombieEnd : Reached (Runs userClient () ()) fun s =>
    s.allocs < 2 ^ 31 - 1 ∧ (s.tab 1).state = .zombie :=
  Runs.ofNext exitRun (by decide +kernel)

theorem parent_alive_zombie : ∃ s q, Runs userClient () () s ∧ (s.tab 1).state = .zombie ∧
    (s.tab 1).parent = some q ∧ q ≠ 1 ∧ (s.tab q).state.live := by
  obtain ⟨s, hs, hP⟩ := zombieEnd
  obtain ⟨h1, h2⟩ := of_decide_eq_true hP
  obtain ⟨q, -, hq, hne, hl, -⟩ := (parent_alive hs h1).2.2 1 (.inr h2) (by decide)
  exact ⟨s, q, hs, h2, hq, hne, hl⟩

end Kern

end Xv6
