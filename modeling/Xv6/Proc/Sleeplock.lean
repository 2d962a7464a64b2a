/-
  Sleep-locks (`sleeplock.c`).
-/
import Xv6.Proc.Monitor

namespace Xv6

/-- `struct sleeplock`, without the spin-lock `lk->lk`. -/
structure Sleeplock where
  locked : Bool
  pid : Int32

/-- Points of `acquiresleep` and `releasesleep`. -/
inductive SleeplockPc where
  | user
  /-- `acquiresleep`: before `acquire(&lk->lk)`, in the loop, before `release(&lk->lk)` -/
  | acq | loop | acqRel
  /-- between `acquiresleep` and `releasesleep` -/
  | critical
  /-- `releasesleep`: before `acquire(&lk->lk)`, `lk->locked = 0`, `wakeup(lk)`,
  `release(&lk->lk)` -/
  | rel | clear | wake | relRel
  deriving DecidableEq

/-- What a process does next outside of the two functions. -/
inductive SleeplockCall where
  /-- enter the next of the two -/
  | next
  | call (x : UserCall)

/-- The address of the sleep-lock, as a channel. -/
def lkChan : ℕ := 0

/-- `acquiresleep(lk)` and `releasesleep(lk)`, in turn, by the process `proc`.  Between them it
makes any calls but `exit`. -/
def sleeplockProg (proc : Proc) (lk : Sleeplock) :
    SleeplockPc → SleeplockCall → Act Unit SleeplockPc × Sleeplock
  | .user, .next => (.goto .acq, lk)
  | .user, .call x => (x.act .user .user, lk)
  | .acq, _ => (.acquire () .loop, lk)
  | .loop, _ =>
    if lk.locked then (.sleep lkChan () .loop, lk)
    else (.goto .acqRel, { locked := true, pid := proc.pid })
  | .acqRel, _ => (.release () .critical, lk)
  | .critical, .next | .critical, .call .exit => (.goto .rel, lk)
  | .critical, .call x => (x.act .critical .user, lk)
  | .rel, _ => (.acquire () .clear, lk)
  | .clear, _ => (.goto .wake, { locked := false, pid := 0 })
  | .wake, _ => (.wakeup lkChan .relRel, lk)
  | .relRel, _ => (.release () .user, lk)

/-- Processes that use one sleep-lock. -/
def sleeplockClient : Client where
  L := Unit
  K := SleeplockPc
  G := Sleeplock
  X := SleeplockCall
  prog _ proc lk k x := some (sleeplockProg proc lk k x)

namespace SleeplockPc

/-- The points at which the code holds `lk->lk`. -/
def holds : SleeplockPc → Bool
  | loop | acqRel | clear | wake | relRel => true
  | _ => false

/-- The points between the stores `lk->locked = 1` and `lk->locked = 0`; the process is between
`acquiresleep` and `releasesleep` only there. -/
def owns : SleeplockPc → Bool
  | acqRel | critical | rel | clear => true
  | _ => false

end SleeplockPc

variable {proc : Proc} {lk : Sleeplock} {k : SleeplockPc} {x : SleeplockCall}

theorem sleeplockProg_lawful : (sleeplockProg proc lk k x).1.Lawful (fun k _ => k.holds = true)
    fun _ => k.holds = true := by
  rcases k with _ | _
  case user =>
    rcases x with _ | x
    · simp [sleeplockProg, Act.Lawful, SleeplockPc.holds]
    · exact x.act_lawful (by simp [SleeplockPc.holds]) (by simp [SleeplockPc.holds])
  case critical =>
    rcases x with _ | _ | _ <;>
      simp [sleeplockProg, UserCall.act, Act.Lawful, SleeplockPc.holds]
  case loop =>
    rcases h : lk.locked <;> simp [sleeplockProg, h, Act.Lawful, SleeplockPc.holds]
  all_goals simp [sleeplockProg, Act.Lawful, SleeplockPc.holds]

theorem sleeplockProg_sleep {ch : ℕ} {k' : SleeplockPc}
    (h : (sleeplockProg proc lk k x).1 = .sleep ch () k') :
    (sleeplockProg proc lk k x).2.locked = true := by
  rcases k with _ | _
  case user => rcases x with _ | _ | _ <;> simp [sleeplockProg, UserCall.act] at h
  case critical => rcases x with _ | _ | _ <;> simp [sleeplockProg, UserCall.act] at h
  case loop => rcases hl : lk.locked <;> simp_all [sleeplockProg]
  all_goals simp [sleeplockProg] at h

theorem sleeplockProg_owes
    (h : k = .wake ∨ lk.locked = true ∧ ¬(sleeplockProg proc lk k x).2.locked = true) :
    (sleeplockProg proc lk k x).1.Owes (fun k _ => k.holds = true) () lkChan (· = .wake) := by
  rcases h with rfl | ⟨hl, h⟩
  · simp [sleeplockProg, Act.Owes, SleeplockPc.holds]
  · rcases k with _ | _
    case user => rcases x with _ | _ <;> simp_all [sleeplockProg]
    case critical => rcases x with _ | _ | _ <;> simp_all [sleeplockProg]
    all_goals simp_all [sleeplockProg, Act.Owes]

def sleeplockLocking : Locking sleeplockClient where
  holds k _ := SleeplockPc.holds k
  lawful {p proc lk k x a g'} h := by
    obtain rfl : (sleeplockProg proc lk k x).1 = a := congrArg Prod.fst (Option.some.inj h)
    exact sleeplockProg_lawful

/-- Processes wait while the lock is taken; who clears it owes a `wakeup`. -/
def sleeplockMonitor : Monitor sleeplockLocking where
  toOutline := .trivial _ ()
  ch := lkChan
  calm lk := Sleeplock.locked lk = true
  owes k := k = .wake
  owes_holds := by rintro _ rfl; rfl
  sleep {p proc lk k x lk' k' g'} h _ := by
    have h := Option.some.inj h
    obtain rfl : (sleeplockProg proc lk k x).2 = g' := congrArg Prod.snd h
    exact ⟨rfl, sleeplockProg_sleep (congrArg Prod.fst h)⟩
  wake {p proc lk k x a g'} h := by
    obtain rfl : (sleeplockProg proc lk k x).1 = a := congrArg Prod.fst (Option.some.inj h)
    obtain rfl : (sleeplockProg proc lk k x).2 = g' := congrArg Prod.snd (Option.some.inj h)
    exact sleeplockProg_owes

/-! ## Mutual exclusion -/

/-- The thread owns the sleep-lock. -/
def OwnsLk (pc : KPc Unit SleeplockPc) : Prop := ∃ k, pc.control = some k ∧ k.owns

theorem ownsLk_congr {pc pc' : KPc Unit SleeplockPc} (h : pc'.control = pc.control) :
    OwnsLk pc' ↔ OwnsLk pc := by
  simp only [OwnsLk, h]

theorem not_ownsLk_user : ¬OwnsLk (.forkret .user) := by
  rintro ⟨k, hk, ho⟩
  cases hk
  cases ho

/-- What an action does to the lock: its owner leaves it alone until it gives it up, and only a
free lock gets an owner. -/
theorem sleeplockProg_owns (proc : Proc) (lk : Sleeplock) (k : SleeplockPc) (x : SleeplockCall) :
    let y := sleeplockProg proc lk k x
    (OwnsLk y.1.pc → k.owns ∧ y.2 = lk ∨ lk.locked = false ∧ y.2 = ⟨true, proc.pid⟩) ∧
    (k.owns ∨ y.2 = lk ∨ lk.locked = false) ∧ ∀ kc, y.1.pc.child = some kc → kc = .user := by
  rcases k with _ | _
  case user =>
    rcases x with _ | _ | _ <;>
      simp [sleeplockProg, UserCall.act, Act.pc, OwnsLk, KPc.control, KPc.child, SleeplockPc.owns]
  case critical =>
    rcases x with _ | _ | _ <;>
      simp [sleeplockProg, UserCall.act, Act.pc, OwnsLk, KPc.control, KPc.child, SleeplockPc.owns]
  case loop =>
    rcases h : lk.locked <;>
      simp [sleeplockProg, h, Act.pc, OwnsLk, KPc.control, KPc.child, SleeplockPc.owns]
  all_goals simp [sleeplockProg, Act.pc, OwnsLk, KPc.control, KPc.child, SleeplockPc.owns]

open Kern

structure SleeplockOk (s : Kern sleeplockClient) : Prop where
  child : ∀ p kc, (s.pc p).child = some kc → kc = SleeplockPc.user
  inert : ∀ p, (s.pc p).inert → ¬OwnsLk (s.pc p)
  owner : ∀ p, OwnsLk (s.pc p) →
    Sleeplock.locked s.g = true ∧ Sleeplock.pid s.g = (s.tab p).pid
  uniq : ∀ p q, OwnsLk (s.pc p) → OwnsLk (s.pc q) → p = q

variable {s s' : Kern sleeplockClient} {c : ℕ} {p q : PSlot}

theorem SleeplockOk.boot :
    SleeplockOk (boot sleeplockClient SleeplockPc.user (Sleeplock.mk false 0)) := by
  have hno : ∀ p, ¬OwnsLk
      ((Kern.boot sleeplockClient SleeplockPc.user (Sleeplock.mk false 0)).pc p) := by
    intro p
    simp only [Kern.boot]
    split
    · exact not_ownsLk_user
    · rintro ⟨k, hk, -⟩
      cases hk
  refine ⟨fun p kc => ?_, fun p _ => hno p, fun p hp => absurd hp (hno p),
    fun p q hp => absurd hp (hno p)⟩
  simp only [Kern.boot]
  split <;> rintro ⟨⟩

theorem SleeplockOk.alive (hi : SleeplockOk s) (hs : Sane s) (h : OwnsLk (s.pc p)) :
    (s.tab p).state ≠ .unused ∧ (s.tab p).state ≠ .zombie := by
  constructor <;> intro hst
  · exact hi.inert p (hs.inert p (.inl hst)) h
  · exact hi.inert p (hs.inert p (.inr (.inr hst))) h

/-- A child does not start with the lock. -/
theorem SleeplockOk.moves_ne (hi : SleeplockOk s) (hs : Sane s) (h : Moves s c p s')
    (hq : q ≠ p) : s'.pc q = s.pc q ∨ s'.pc q = .forkret SleeplockPc.user := by
  rcases h.pc_ne hs hq with he | ⟨-, k, he, hk⟩
  · exact .inl he
  · exact .inr (by rw [he, hi.child p k hk])

theorem SleeplockOk.moves (hi : SleeplockOk s) (hs : Sane s) (hon : s.On c p)
    (h : Moves s c p s') : SleeplockOk s' := by
  have hrun := hs.running hon
  have hne : ∀ q, q ≠ p → OwnsLk (s'.pc q) → OwnsLk (s.pc q) := fun q hq ho => by
    rcases hi.moves_ne hs h hq with he | he <;> rw [he] at ho
    · exact ho
    · exact absurd ho not_ownsLk_user
  have hpid : ∀ q, OwnsLk (s.pc q) → (s'.tab q).pid = (s.tab q).pid := fun q hq =>
    h.pid_eq (hi.alive hs hq).1 (hi.alive hs hq).2
  -- the lock after the step, and the thread that made it
  have hstep : (∀ kc, (s'.pc p).child = some kc → kc = SleeplockPc.user) ∧
      (OwnsLk (s'.pc p) → OwnsLk (s.pc p) ∧ s'.g = s.g ∨
        Sleeplock.locked s.g = false ∧ s'.g = Sleeplock.mk true (s.tab p).pid) ∧
      (OwnsLk (s.pc p) ∨ s'.g = s.g ∨ Sleeplock.locked s.g = false) := by
    rcases h.client with ⟨k, x, a, hpc, hprog, hpc'⟩ | ⟨hg, hctl, hch⟩
    · obtain rfl : (sleeplockProg (s.tab p) s.g k x).1 = a :=
        congrArg Prod.fst (Option.some.inj hprog)
      have hg : (sleeplockProg (s.tab p) s.g k x).2 = s'.g :=
        congrArg Prod.snd (Option.some.inj hprog)
      obtain ⟨h1, h2, h3⟩ := sleeplockProg_owns (s.tab p) s.g k x
      have hk : k.owns → OwnsLk (s.pc p) := fun hk => ⟨k, by rw [hpc]; rfl, hk⟩
      rw [hpc', ← hg]
      exact ⟨h3, fun ho => (h1 ho).imp_left fun h => ⟨hk h.1, h.2⟩, h2.imp_left hk⟩
    · have : OwnsLk (s'.pc p) ↔ OwnsLk (s.pc p) := ownsLk_congr hctl
      exact ⟨fun kc hkc => hi.child p kc (hch kc hkc), fun ho => .inl ⟨this.1 ho, hg⟩, .inr (.inl hg)⟩
  obtain ⟨hchild, hown, hlock⟩ := hstep
  constructor
  case child =>
    intro q kc hkc
    by_cases hq : q = p
    · subst hq; exact hchild kc hkc
    · rcases hi.moves_ne hs h hq with he | he <;> rw [he] at hkc
      · exact hi.child q kc hkc
      · cases hkc
  case inert =>
    intro q hin
    by_cases hq : q = p
    · subst hq
      rw [h.dead_of_inert hs hin]
      rintro ⟨k, hk, -⟩
      cases hk
    · rcases hi.moves_ne hs h hq with he | he <;> rw [he] at hin ⊢
      · exact hi.inert q hin
      · exact not_ownsLk_user
  case owner =>
    intro q hq
    by_cases hqp : q = p
    · subst hqp
      rcases hown hq with ⟨ho, hg⟩ | ⟨-, hg⟩
      · rw [hg, hpid q ho]; exact hi.owner q ho
      · rw [hg]
        exact ⟨rfl, (h.pid_eq (by rw [hrun]; rintro ⟨⟩) (by rw [hrun]; rintro ⟨⟩)).symm⟩
    · have ho := hne q hqp hq
      obtain ⟨hl, hp⟩ := hi.owner q ho
      have hg : s'.g = s.g := by
        rcases hlock with h' | h' | h'
        · exact absurd (hi.uniq q p ho h') hqp
        · exact h'
        · rw [hl] at h'; cases h'
      rw [hg, hpid q ho]
      exact ⟨hl, hp⟩
  case uniq =>
    -- the thread that made the step and another one
    have hpq : ∀ q, q ≠ p → OwnsLk (s'.pc p) → ¬OwnsLk (s'.pc q) := fun q hqp hp hq => by
      have ho := hne q hqp hq
      rcases hown hp with ⟨hop, -⟩ | ⟨hl, -⟩
      · exact hqp (hi.uniq q p ho hop)
      · rw [(hi.owner q ho).1] at hl; cases hl
    intro q r hq hr
    by_cases hqp : q = p <;> by_cases hrp : r = p
    · rw [hqp, hrp]
    · subst hqp; exact absurd hr (hpq r hrp hq)
    · subst hrp; exact absurd hq (hpq q hqp hr)
    · exact hi.uniq q r (hne q hqp hq) (hne r hrp hr)

theorem SleeplockOk.stepped (hi : SleeplockOk s) (hs : Sane s) (h : Stepped s c s') :
    SleeplockOk s' := by
  have hpid : ∀ q, OwnsLk (s.pc q) → (s'.tab q).pid = (s.tab q).pid := fun q hq =>
    h.pid_eq (hi.alive hs hq).1 (hi.alive hs hq).2
  cases h with
  | thread hon h => exact hi.moves hs hon h
  | sched h =>
    obtain ⟨hpc, -, hg, -⟩ := h.frame
    constructor
    · rw [hpc]; exact hi.child
    · rw [hpc]; exact hi.inert
    · intro p hp
      rw [hpc] at hp
      rw [hg, hpid p hp]
      exact hi.owner p hp
    · rw [hpc]; exact hi.uniq
  | intr => exact ⟨hi.child, hi.inert, fun p hp => by rw [hpid p hp]; exact hi.owner p hp, hi.uniq⟩

/-- **Sleep-locks give mutual exclusion and wake their waiters.**  At most one
process is between `acquiresleep` and `releasesleep`, the lock is taken and has
its pid; and when `lk->lk` is free, no process sleeps on a lock that is not
taken. -/
theorem Kern.sleeplock_exclusive {s : Kern sleeplockClient}
    (h : Runs sleeplockClient SleeplockPc.user (Sleeplock.mk false 0) s) :
    (∀ p q, OwnsLk (s.pc p) → OwnsLk (s.pc q) → p = q) ∧
    (∀ p, OwnsLk (s.pc p) →
      Sleeplock.locked s.g = true ∧ Sleeplock.pid s.g = (s.tab p).pid) ∧
    (s.lock () = none → Sleeplock.locked s.g = false →
      ∀ p, ¬((s.tab p).state = .sleeping ∧ (s.tab p).chan = some (.ext lkChan))) := by
  have hi := h.inv (I := fun s => Sane s ∧ SleeplockOk s) ⟨.boot _ _, .boot⟩
    fun _ _ _ hi hs => ⟨hi.1.stepped hs, hi.2.stepped hi.1 hs⟩
  refine ⟨hi.2.uniq, hi.2.owner, fun hlk hl p ⟨hst, hch⟩ => ?_⟩
  have hrun := sleeplockMonitor.no_lost_wakeup (by simp [sleeplockLocking, SleeplockPc.holds]) h
  rcases hrun.2 p hst hch with hc | ⟨q, hq⟩
  · have hc : Sleeplock.locked s.g = true := hc
    rw [hl] at hc
    cases hc
  · obtain ⟨c, -, hc⟩ := hrun.1.held q () hq.holds
    rw [hlk] at hc
    cases hc

/-- init takes the lock and forks; the child waits for it on CPU 1. -/
def sleeplockRun : List (ℕ × Label SleeplockCall) :=
  List.replicate 4 (0, .go) ++ [(0, .client .next), (0, .client .next), (0, .client .next),
    (0, .client .next), (0, .client (.call .fork))] ++ List.replicate 5 (0, .go) ++
  List.replicate 5 (1, .go) ++ [(1, .client .next), (1, .client .next), (1, .client .next),
    (1, .go), (1, .go), (1, .go)]

def sleeplockEnd : Transition.Reached
    (Runs sleeplockClient SleeplockPc.user (Sleeplock.mk false 0)) fun s =>
    (s.tab 1).state = .sleeping && s.lock () = none &&
      (KPc.control (s.pc 0)).any SleeplockPc.owns :=
  Runs.ofNext sleeplockRun (by decide +kernel)

theorem Kern.sleeplock_exclusive_run : ∃ s,
    Runs sleeplockClient SleeplockPc.user (Sleeplock.mk false 0) s ∧
    (s.tab 1).state = .sleeping ∧ s.lock () = none ∧ OwnsLk (s.pc 0) ∧
    Sleeplock.pid s.g = (s.tab 0).pid := by
  obtain ⟨s, hs, hP⟩ := sleeplockEnd
  obtain ⟨hP, ho⟩ := Bool.and_eq_true_iff.1 hP
  obtain ⟨h1, hl⟩ := Bool.and_eq_true_iff.1 hP
  have ho : OwnsLk (s.pc 0) := (Option.any_eq_true _ _).1 ho
  exact ⟨s, hs, of_decide_eq_true h1, of_decide_eq_true hl, ho,
    ((sleeplock_exclusive hs).2.1 0 ho).2⟩

end Xv6
