/-
  The process table and the sections of `proc.c` that run under `ptable.lock`:
  `allocproc`, `wakeup1`, `kill`, and the bodies of `exit` and `wait`.

  Of `struct proc` the model keeps the fields that these functions test:
  `state`, `pid`, `parent`, `chan` and `killed`.  `initproc` is the first slot,
  which `userinit` takes from the empty table.
-/
import Mathlib.Data.List.FinRange
import Mathlib.Logic.Function.Basic
import Xv6.Param

namespace Xv6

open Function

/-- A slot of `ptable.proc`. -/
abbrev PSlot := Fin NPROC

inductive ProcState where
  | unused | embryo | sleeping | runnable | running | zombie
  deriving DecidableEq

/-- What a process can sleep on: `wait` sleeps on the process itself, all other
code on addresses outside of the process table. -/
inductive Chan where
  | proc (p : PSlot)
  | ext (n : ℕ)
  deriving DecidableEq

structure Proc where
  state : ProcState
  pid : Int32
  parent : Option PSlot
  /-- if non-zero, sleeping on chan -/
  chan : Option Chan
  killed : Bool
  deriving DecidableEq

abbrev Ptable := PSlot → Proc

/-- The slot of the first process. -/
def initproc : PSlot := 0

namespace Ptable

/-- Wake up all processes sleeping on `ch`. -/
def wakeup1 (t : Ptable) (ch : Option Chan) : Ptable := fun p =>
  if (t p).state = .sleeping ∧ (t p).chan = ch then { t p with state := .runnable } else t p

/-- The loop of `kill`: the first slot with this pid. -/
def kill (t : Ptable) (pid : Int32) : Ptable :=
  match (List.finRange NPROC).find? fun p => (t p).pid = pid with
  | none => t
  | some p =>
    update t p { t p with
      killed := true
      state := if (t p).state = .sleeping then .runnable else (t p).state }

/-- The search of `allocproc`. -/
def findUnused (t : Ptable) : Option PSlot :=
  (List.finRange NPROC).find? fun p => (t p).state = .unused

/-- The `found:` part of `allocproc` up to the release of the lock. -/
def embryo (t : Ptable) (np : PSlot) (pid : Int32) : Ptable :=
  update t np { t np with state := .embryo, pid := pid }

/-- One turn of the loop of `exit` that passes children to init. -/
def abandon1 (p : PSlot) (t : Ptable) (q : PSlot) : Ptable :=
  if (t q).parent = some p then
    let t : Ptable := update t q { t q with parent := some initproc }
    if (t q).state = .zombie then t.wakeup1 (some (.proc initproc)) else t
  else t

/-- Pass abandoned children to init. -/
def abandon (t : Ptable) (p : PSlot) : Ptable := (List.finRange NPROC).foldl (abandon1 p) t

/-- The section of `exit` between `acquire(&ptable.lock)` and `sched()`. -/
def exit (t : Ptable) (p : PSlot) : Ptable :=
  let t := (t.wakeup1 ((t p).parent.map .proc)).abandon p
  update t p { t p with state := .zombie }

/-- The zombie child that the scan of `wait` finds first. -/
def findZombie (t : Ptable) (p : PSlot) : Option PSlot :=
  (List.finRange NPROC).find? fun q => (t q).parent = some p ∧ (t q).state = .zombie

/-- `havekids` -/
def havekids (t : Ptable) (p : PSlot) : Bool :=
  (List.finRange NPROC).any fun q => (t q).parent = some p

/-- `wait` frees the slot of a zombie. -/
def reap (t : Ptable) (q : PSlot) : Ptable :=
  update t q
    { t q with pid := 0, parent := none, killed := false, state := .unused }

/-! ## What the loops compute -/

section

variable {t : Ptable} {p q : PSlot}

theorem wakeup1_apply {ch : Option Chan} : t.wakeup1 ch q =
    if (t q).state = .sleeping ∧ (t q).chan = ch then { t q with state := .runnable } else t q :=
  rfl

/-- `kill` marks at most one slot, and wakes it up if it sleeps. -/
theorem kill_apply (t : Ptable) (pid : Int32) (q : PSlot) : t.kill pid q = t q ∨
    (t q).pid = pid ∧ t.kill pid q = { t q with
      killed := true
      state := if (t q).state = .sleeping then .runnable else (t q).state } := by
  unfold kill
  rcases hp : (List.finRange NPROC).find? fun p => (t p).pid = pid with _ | p
  · exact .inl rfl
  · by_cases hq : q = p
    · subst hq
      exact .inr ⟨by simpa using List.find?_some hp, update_self ..⟩
    · exact .inl (update_of_ne hq ..)

theorem findUnused_spec (h : t.findUnused = some p) : (t p).state = .unused := by
  simpa using List.find?_some h

theorem findZombie_spec (h : t.findZombie p = some q) :
    (t q).parent = some p ∧ (t q).state = .zombie := by
  simpa using List.find?_some h

theorem findZombie_none (h : t.findZombie p = none) (hq : (t q).parent = some p) :
    (t q).state ≠ .zombie := by
  intro hz
  have := List.find?_eq_none.1 h q (List.mem_finRange q)
  simp [hq, hz] at this

theorem abandon1_apply (z : PSlot) : abandon1 p t z q = { t q with
    parent := if q = z ∧ (t q).parent = some p then some initproc else (t q).parent
    state := if ((t q).state = .sleeping ∧ (t q).chan = some (.proc initproc)) ∧
        (t z).parent = some p ∧ (t z).state = .zombie
      then .runnable else (t q).state } := by
  unfold abandon1
  by_cases hz : (t z).parent = some p <;> by_cases hs : (t z).state = .zombie <;>
    by_cases hq : q = z
  all_goals simp [hz, hs, hq, wakeup1_apply]
  · split <;> rfl
  · rw [← hs]

/-- The slots after the loop of `exit`: the children have a new parent, and
init is awake if one of them is a zombie. -/
theorem abandon_foldl (l : List PSlot) : l.foldl (abandon1 p) t q =
    { t q with
      parent := if q ∈ l ∧ (t q).parent = some p then some initproc else (t q).parent
      state := if ((t q).state = .sleeping ∧ (t q).chan = some (.proc initproc)) ∧
          (l.any fun z => (t z).parent = some p ∧ (t z).state = .zombie)
        then .runnable else (t q).state } := by
  induction l generalizing t with
  | nil => simp
  | cons z l ih =>
    rw [List.foldl_cons, ih]
    simp only [abandon1_apply, Proc.mk.injEq, List.mem_cons, List.any_cons]
    refine ⟨?_, trivial, ?_, trivial, trivial⟩
    · by_cases hs : (t q).state = .sleeping ∧ (t q).chan = some (.proc initproc)
      · by_cases hz : (t z).parent = some p ∧ (t z).state = .zombie
        · simp [hs, hz]
        · -- `z` wakes nobody, and is no abandoned zombie itself
          have hx : ∀ x, ((if x = z ∧ (t x).parent = some p then some initproc
              else (t x).parent) = some p ∧ (t x).state = .zombie) ↔
              ((t x).parent = some p ∧ (t x).state = .zombie) := by
            intro x
            by_cases hxz : x = z
            · subst hxz
              by_cases hp : (t x).parent = some p <;> simp_all
            · simp [hxz]
          simp [hs, hz, hx]
      · simp [hs]
    · grind

theorem abandon_apply (t : Ptable) (p q : PSlot) : t.abandon p q =
    { t q with
      parent := if (t q).parent = some p then some initproc else (t q).parent
      state := if ((t q).state = .sleeping ∧ (t q).chan = some (.proc initproc)) ∧
          ((List.finRange NPROC).any fun z => (t z).parent = some p ∧ (t z).state = .zombie)
        then .runnable else (t q).state } := by
  rw [abandon, abandon_foldl]
  simp only [List.mem_finRange, true_and]

theorem exit_eq (t : Ptable) (p : PSlot) : t.exit p =
    update ((t.wakeup1 ((t p).parent.map .proc)).abandon p) p
      { (t.wakeup1 ((t p).parent.map .proc)).abandon p p with state := .zombie } := by
  simp only [exit]

/-- What `exit` leaves in the slots besides their states. -/
theorem exit_fields (t : Ptable) (p q : PSlot) : (t.exit p q).pid = (t q).pid ∧
    (t.exit p q).chan = (t q).chan ∧ (t.exit p q).killed = (t q).killed ∧
    (t.exit p q).parent = if (t q).parent = some p then some initproc else (t q).parent := by
  rw [exit_eq]
  by_cases hq : q = p
  · subst hq
    rw [update_self, abandon_apply, wakeup1_apply]
    split <;> exact ⟨rfl, rfl, rfl, rfl⟩
  · rw [update_of_ne hq, abandon_apply, wakeup1_apply]
    split <;> exact ⟨rfl, rfl, rfl, rfl⟩

/-- Who still sleeps after `exit` slept before it, not on the parent, and not on init if there are
abandoned zombies. -/
theorem exit_sleeping (t : Ptable) {p q z : PSlot} (hq : (t.exit p q).state = .sleeping) :
    q ≠ p ∧ (t q).state = .sleeping ∧ (∀ r, (t p).parent = some r → (t q).chan ≠ some (.proc r)) ∧
    ((t z).parent = some p → (t z).state = .zombie → (t q).chan ≠ some (.proc initproc)) := by
  have hqp : q ≠ p := by
    rintro rfl
    rw [exit_eq, update_self] at hq
    cases hq
  rw [exit_eq, update_of_ne hqp, abandon_apply] at hq
  dsimp only at hq
  split at hq
  · cases hq
  · rename_i hno
    have hw : t.wakeup1 ((t p).parent.map .proc) q = t q ∧
        ¬((t q).state = .sleeping ∧ (t q).chan = (t p).parent.map .proc) := by
      rw [wakeup1_apply] at hq ⊢
      split at hq
      · cases hq
      · exact ⟨if_neg ‹_›, ‹_›⟩
    rw [hw.1] at hq hno
    refine ⟨hqp, hq, fun r hr hch => hw.2 ⟨hq, by rw [hch, hr]; rfl⟩, fun hp hz hch => hno ?_⟩
    refine ⟨⟨hq, hch⟩, List.any_eq_true.2 ⟨z, List.mem_finRange z, ?_⟩⟩
    simp [wakeup1_apply, hz, hp]

end

end Ptable

end Xv6
