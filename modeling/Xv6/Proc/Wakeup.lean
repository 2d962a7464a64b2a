/-
  Sleepers and wakers: processes that wait for a condition with `sleep`, and
  processes that make it true and call `wakeup`.
-/
import Xv6.Proc.Monitor

namespace Xv6

/-- Points of the code
`acquire(lk); while(!cond) sleep(chan, lk); …; release(lk)` of a sleeper and
`acquire(lk); cond = true; wakeup(chan); release(lk)` of a waker. -/
inductive CondPc where
  | user
  /-- before `acquire(lk)`, at the test of `cond`, before `release(lk)` -/
  | sleeperAcq | sleeperTest | sleeperRel
  /-- before `acquire(lk)`, `cond = true`, `wakeup(chan)`, `release(lk)` -/
  | wakerAcq | wakerSet | wakerWake | wakerRel
  deriving DecidableEq

/-- What a process in user mode does next. -/
inductive CondCall where
  | sleeper | waker
  | call (x : UserCall)

/-- The code of sleepers and wakers, with `chan = ch`. -/
def condProg (ch : ℕ) (cond : Bool) : CondPc → CondCall → Act Unit CondPc × Bool
  | .user, .sleeper => (.goto .sleeperAcq, cond)
  | .user, .waker => (.goto .wakerAcq, cond)
  | .user, .call x => (x.act .user .user, cond)
  | .sleeperAcq, _ => (.acquire () .sleeperTest, cond)
  | .sleeperTest, _ => (if cond then .goto .sleeperRel else .sleep ch () .sleeperTest, cond)
  | .sleeperRel, _ => (.release () .user, cond)
  | .wakerAcq, _ => (.acquire () .wakerSet, cond)
  | .wakerSet, _ => (.goto .wakerWake, true)
  | .wakerWake, _ => (.wakeup ch .wakerRel, cond)
  | .wakerRel, _ => (.release () .user, cond)

/-- Sleepers and wakers; the shared data is the condition. -/
def condClient (ch : ℕ) : Client where
  L := Unit
  K := CondPc
  G := Bool
  X := CondCall
  prog _ _ cond k x := some (condProg ch cond k x)

/-- The points at which the code holds the lock. -/
def CondPc.holds : CondPc → Bool
  | sleeperTest | sleeperRel | wakerSet | wakerWake | wakerRel => true
  | _ => false

theorem condProg_lawful (ch : ℕ) (cond : Bool) (k : CondPc) (x : CondCall) :
    (condProg ch cond k x).1.Lawful (fun k _ => k.holds = true) fun _ => k.holds = true := by
  rcases k with _ | _
  case user =>
    rcases x with _ | _ | x
    case call => exact x.act_lawful (by simp [CondPc.holds]) (by simp [CondPc.holds])
    all_goals simp [condProg, Act.Lawful, CondPc.holds]
  case sleeperTest => cases cond <;> simp [condProg, Act.Lawful, CondPc.holds]
  all_goals simp [condProg, Act.Lawful, CondPc.holds]

/-- Sleepers find that the condition is false. -/
theorem condProg_sleep {ch ch' : ℕ} {cond : Bool} {k k' : CondPc} {x : CondCall}
    (h : (condProg ch cond k x).1 = .sleep ch' () k') : (condProg ch cond k x).2 = false := by
  rcases k with _ | _
  case user => rcases x with _ | _ | _ | _ <;> simp [condProg, UserCall.act] at h
  case sleeperTest => cases cond <;> simp_all [condProg]
  all_goals simp [condProg] at h

/-- A waker that makes the condition true calls `wakeup` next. -/
theorem condProg_owes {ch : ℕ} {cond : Bool} {k : CondPc} {x : CondCall}
    (h : k = .wakerWake ∨ cond = false ∧ ¬(condProg ch cond k x).2 = false) :
    (condProg ch cond k x).1.Owes (fun k _ => k.holds = true) () ch (· = .wakerWake) := by
  rcases h with rfl | ⟨rfl, h⟩
  · simp [condProg, Act.Owes, CondPc.holds]
  · rcases k with _ | _
    case user => rcases x with _ | _ | _ <;> simp [condProg] at h
    all_goals simp_all [condProg, Act.Owes]

def condLocking (ch : ℕ) : Locking (condClient ch) where
  holds k _ := CondPc.holds k
  lawful {p x g k c a g'} h := by
    obtain rfl : (condProg ch g k c).1 = a := congrArg Prod.fst (Option.some.inj h)
    exact condProg_lawful ch g k c

def condMonitor (ch : ℕ) : Monitor (condLocking ch) where
  toOutline := .trivial _ ()
  ch := ch
  calm g := g = false
  owes k := k = .wakerWake
  owes_holds := by rintro _ rfl; rfl
  sleep {p x g k c lk' k' g'} h _ := by
    have h := Option.some.inj h
    exact ⟨rfl, (congrArg Prod.snd h).symm.trans (condProg_sleep (congrArg Prod.fst h))⟩
  wake {p x g k c a g'} h := by
    obtain rfl : (condProg ch g k c).1 = a := congrArg Prod.fst (Option.some.inj h)
    obtain rfl : (condProg ch g k c).2 = g' := congrArg Prod.snd (Option.some.inj h)
    exact condProg_owes

/-- The thread is between `cond = true` and the end of its `wakeup`. -/
def KPc.waking {L : Type} : KPc L CondPc → Bool
  | client .wakerWake | wakeAcq _ _ | wakeGo _ _ => true
  | yieldAcq pc | yieldGo pc | yieldBack pc => pc.waking
  | _ => false

theorem waking_of_owing {ch : ℕ} {pc : KPc Unit CondPc} (h : (condMonitor ch).Owing pc) :
    pc.waking := by
  induction pc with
  | client k => cases h; rfl
  | wakeAcq | wakeGo => rfl
  | yieldAcq pc ih => exact ih h
  | yieldGo pc ih => exact ih h
  | yieldBack pc ih => exact ih h
  | _ => cases h

/-- **No lost wakeup.**  Once the condition is true and no waker has its
`wakeup` before it, no sleeper sleeps. -/
theorem Kern.no_sleeper_of_cond {ch : ℕ} {s : Kern (condClient ch)}
    (h : Runs (condClient ch) CondPc.user false s) (hcond : s.g = true)
    (hw : ∀ q, KPc.waking (s.pc q) = false) (p : PSlot) :
    ¬((s.tab p).state = .sleeping ∧ (s.tab p).chan = some (.ext ch)) := by
  rintro ⟨hst, hch⟩
  have hrun := (condMonitor ch).no_lost_wakeup (by simp [condLocking, CondPc.holds]) h
  rcases hrun.2 p hst hch with hc | ⟨q, hq⟩
  · have hc : s.g = false := hc
    rw [hcond] at hc
    cases hc
  · exact Bool.eq_false_iff.1 (hw q) (waking_of_owing hq)

/-- init forks, sleeps, and is woken up by its child. -/
def wakeupRun : List (ℕ × Label CondCall) :=
  [(0, .go), (0, .go), (0, .go), (0, .go), (0, .client (.call .fork)), (0, .go), (0, .go), (0, .go),
    (0, .go), (0, .go), (0, .client .sleeper), (0, .client .sleeper), (0, .client .sleeper),
    (0, .go), (0, .go), (0, .go), (0, .go), (0, .go), (0, .go), (0, .go), (0, .client .waker),
    (0, .client .waker), (0, .client .waker), (0, .client .waker), (0, .go), (0, .go)]

def wakeupEnd : Transition.Reached (Kern.Runs (condClient 0) CondPc.user false) fun s =>
    (s.g : Bool) && (s.tab 0).state = .runnable &&
      (List.finRange NPROC).all fun q => !KPc.waking (s.pc q) :=
  Kern.Runs.ofNext wakeupRun (by decide +kernel)

theorem Kern.no_sleeper_of_cond_run : ∃ s, Runs (condClient 0) CondPc.user false s ∧ s.g = true ∧
    (s.tab 0).state = .runnable ∧
    ∀ p, ¬((s.tab p).state = .sleeping ∧ (s.tab p).chan = some (.ext 0)) := by
  obtain ⟨s, hs, hP⟩ := wakeupEnd
  obtain ⟨hP, hw⟩ := Bool.and_eq_true_iff.1 hP
  obtain ⟨hg, h0⟩ := Bool.and_eq_true_iff.1 hP
  refine ⟨s, hs, hg, of_decide_eq_true h0, no_sleeper_of_cond hs hg fun q => ?_⟩
  simpa using List.all_eq_true.1 hw q (List.mem_finRange q)

end Xv6
