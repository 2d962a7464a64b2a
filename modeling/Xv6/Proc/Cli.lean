/-
  `pushcli` and `popcli` of `spinlock.c` on one CPU, across the context switches
  of `proc.c`.

  `cpu->ncli` and `cpu->intena` belong to the CPU, but what they say is about
  the kernel thread that runs.  A thread may be interrupted whenever interrupts
  are on, also within `pushcli` between `readeflags` and `cli`; the interrupt
  handler runs on the same kernel stack, takes and gives back locks of its own
  and may yield.  A thread that calls `sched` keeps `cpu->intena` in a local
  variable.  The scheduler does not: it and a process that has not run before go
  on with the value that the last thread left.
-/
import Mathlib.Data.Int.Notation
import Mathlib.Data.List.Basic
import Mathlib.Logic.Function.Basic
import Xv6.Lib.Reach

namespace Xv6.Cli

open Transition Function

/-- The calls of `panic` on the way. -/
inductive Panic where
  | popcliInterruptible | popcli | acquire | release | schedPtable | schedLocks
  | schedInterruptible
  deriving DecidableEq

/-- The fields of `struct cpu` and the interrupt flag.  `ncli` does not come near the bounds of an
`int`, as no thread holds so many locks. -/
structure Cpu where
  ncli : ℤ
  /-- `cpu->intena`, which is only ever compared with 0 -/
  intena : Bool
  /-- `FL_IF` of the flags register -/
  ints : Bool
  deriving DecidableEq

namespace Cpu

def cli (c : Cpu) : Cpu := { c with ints := false }

def sti (c : Cpu) : Cpu := { c with ints := true }

/-- `pushcli` after `eflags = readeflags()`. -/
def pushcli (eflags : Bool) (c : Cpu) : Cpu :=
  let c := c.cli
  let c := if c.ncli = 0 then { c with intena := eflags } else c
  { c with ncli := c.ncli + 1 }

def popcli (c : Cpu) : Except Panic Cpu :=
  if c.ints then .error .popcliInterruptible
  else
    let c := { c with ncli := c.ncli - 1 }
    if c.ncli < 0 then .error .popcli
    else .ok (if c.ncli = 0 ∧ c.intena then c.sti else c)

end Cpu

inductive Lock where
  | ptable
  | other (n : ℕ)
  deriving DecidableEq

/-- What a trap leaves on the kernel stack: the flag it restores, and `eflags` of a `pushcli` that
it interrupts. -/
structure Frame where
  ints : Bool
  eflags : Option Bool

/-- A kernel thread. -/
structure Thread where
  /-- in `pushcli` between `readeflags` and `cli`, what has been read -/
  eflags : Option Bool := none
  frames : List Frame := []
  /-- `intena` of `sched`, for a thread that is switched out -/
  intena : Option Bool := none
  /-- not in the code: the interrupt flag before the last `cli` of an outermost `pushcli` -/
  outer : Option Bool := none

structure State where
  cpu : Cpu
  /-- the calls of `pushcli` without their `popcli`: by `acquire` of a lock, or another -/
  held : List (Option Lock)
  /-- the thread that runs; `none` is the scheduler -/
  cur : Option ℕ
  thread : Option ℕ → Thread

namespace State

def self (s : State) : Thread := s.thread s.cur

def setSelf (s : State) (t : Thread) : State :=
  { s with thread := update s.thread s.cur t }

def holding (s : State) (lk : Lock) : Bool := some lk ∈ s.held

end State

inductive Op where
  /-- the first statement of `pushcli` -/
  | readeflags
  /-- the rest of `pushcli`, in `acquire` of a lock or called by itself -/
  | push (o : Option Lock)
  /-- `popcli`, in `release` of a lock or called by itself -/
  | pop (o : Option Lock)
  | sched
  /-- the scheduler's `swtch` to a process -/
  | swtch (t : ℕ)
  | interrupt
  | iret
  /-- `sti`, `cli`, and entering and leaving the kernel by `syscall` and `sysret` -/
  | setIf (b : Bool)
  deriving DecidableEq

/-- What may happen: threads are balanced, releasing only what is held, in any order; a handler
returns, and the flag is set, only with nothing held; and `sched` is called with `ptable.lock`
only. -/
def Legal (s : State) : Op → Prop
  | .readeflags => s.self.eflags = none
  | .push o => s.self.eflags.isSome ∧ ∀ lk ∈ o, s.holding lk = false
  | .pop o => s.self.eflags = none ∧ o ∈ s.held
  | .sched => s.self.eflags = none ∧ s.cur.isSome ∧ s.held = [some .ptable]
  | .swtch _ => s.self.eflags = none ∧ s.cur = none ∧ s.held = [some .ptable]
  | .interrupt => s.cpu.ints = true
  | .iret => s.self.eflags = none ∧ s.held = [] ∧ s.self.frames ≠ []
  | .setIf _ => s.self.eflags = none ∧ s.held = []

/-- `acquire` from `cli` on, or the rest of a plain `pushcli`. -/
def State.push (s : State) (o : Option Lock) (eflags : Bool) : Except Panic State :=
  if o.any s.holding then .error .acquire
  else
    let outer := if s.held = [] then some s.cpu.ints else s.self.outer
    .ok { s.setSelf { s.self with eflags := none, outer := outer } with
      cpu := s.cpu.pushcli eflags, held := o :: s.held }

/-- `release`, or a plain `popcli`. -/
def State.pop (s : State) (o : Option Lock) : Except Panic State :=
  if o.any fun lk => !s.holding lk then .error .release
  else do
    let cpu ← s.cpu.popcli
    .ok { s with cpu := cpu, held := s.held.erase o }

def State.sched (s : State) : Except Panic State :=
  if !s.holding .ptable then .error .schedPtable
  else if s.cpu.ncli ≠ 1 then .error .schedLocks
  else if s.cpu.ints then .error .schedInterruptible
  else .ok { s.setSelf { s.self with intena := some s.cpu.intena } with cur := none }

/-- The scheduler's `swtch`, and `cpu->intena = intena` in a process that was in `sched`; a new
process goes to `forkret`. -/
def State.swtch (s : State) (t : ℕ) : State :=
  let th := s.thread (some t)
  let s := { s with cpu := { s.cpu with intena := th.intena.getD s.cpu.intena }, cur := some t }
  s.setSelf { th with intena := none }

def exec (s : State) : Op → Except Panic State
  | .readeflags => .ok (s.setSelf { s.self with eflags := some s.cpu.ints })
  | .push o =>
    match s.self.eflags with
    | none => .ok s
    | some eflags => s.push o eflags
  | .pop o => s.pop o
  | .sched => s.sched
  | .swtch t => .ok (s.swtch t)
  | .interrupt => .ok { s.setSelf { s.self with
      eflags := none, frames := ⟨s.cpu.ints, s.self.eflags⟩ :: s.self.frames } with
      cpu := s.cpu.cli }
  | .iret =>
    match s.self.frames with
    | [] => .ok s
    | fr :: frames => .ok { s.setSelf { s.self with eflags := fr.eflags, frames := frames } with
        cpu := { s.cpu with ints := fr.ints } }
  | .setIf b => .ok { s with cpu := { s.cpu with ints := b } }

instance (s : State) : DecidablePred (Legal s)
  | .readeflags => inferInstanceAs (Decidable (_ = _))
  | .push _ | .pop _ | .sched | .swtch _ | .iret | .setIf _ => inferInstanceAs (Decidable (_ ∧ _))
  | .interrupt => inferInstanceAs (Decidable (_ = _))

/-- A CPU on which only the scheduler's stack has been in use and no lock is held. -/
def Start (s : State) : Prop :=
  s.cpu.ncli = 0 ∧ s.held = [] ∧ s.cur = none ∧ s.thread = fun _ => {}

def Step (s : State) (op : Op) (s' : State) : Prop := Legal s op ∧ exec s op = .ok s'

abbrev Runs : State → Prop := Reach Start Step

/-! ## The invariant -/

structure Inv (s : State) : Prop where
  ncli : s.cpu.ncli = s.held.length
  off : s.held ≠ [] → s.cpu.ints = false
  /-- what `pushcli` has read is still so, here and at the end of each interrupt -/
  read : ∀ b ∈ s.self.eflags, b = s.cpu.ints
  frames : ∀ u, ∀ fr ∈ (s.thread u).frames, ∀ b ∈ fr.eflags, b = fr.ints
  idle : ∀ u, u ≠ s.cur → (s.thread u).eflags = none
  /-- while a process holds something, `cpu->intena` is its own -/
  intena : s.held ≠ [] → ∀ t, s.cur = some t → ∀ b ∈ s.self.outer, s.cpu.intena = b
  saved : ∀ t, some t ≠ s.cur → ∀ b ∈ (s.thread (some t)).outer,
    (s.thread (some t)).intena = some b

variable {s s' : State} {op : Op} {o : Option Lock} {t : ℕ} {b : Bool}

@[simp] theorem setSelf_self (th : Thread) : (s.setSelf th).thread s.cur = th :=
  update_self ..

theorem setSelf_of_ne {u : Option ℕ} (h : u ≠ s.cur) (th : Thread) :
    (s.setSelf th).thread u = s.thread u := update_of_ne h ..

theorem Inv.start (h : Start s) : Inv s := by
  obtain ⟨hn, hh, hc, ht⟩ := h
  constructor <;> simp [State.self, hn, hh, ht]

/-- A step of the running thread that leaves the other threads as they are. -/
theorem Inv.local (hi : Inv s) {th : Thread} (hthread : s'.thread = (s.setSelf th).thread)
    (hcur : s'.cur = s.cur) (hncli : s'.cpu.ncli = s'.held.length)
    (hoff : s'.held ≠ [] → s'.cpu.ints = false) (hread : ∀ b ∈ th.eflags, b = s'.cpu.ints)
    (hframes : ∀ fr ∈ th.frames, ∀ b ∈ fr.eflags, b = fr.ints)
    (hintena : s'.held ≠ [] → ∀ t, s.cur = some t → ∀ b ∈ th.outer, s'.cpu.intena = b) :
    Inv s' := by
  have hself : s'.self = th := by rw [State.self, hthread, hcur, setSelf_self]
  have hother : ∀ u, u ≠ s.cur → s'.thread u = s.thread u := fun u hu => by
    rw [hthread, setSelf_of_ne hu]
  refine ⟨hncli, hoff, by rwa [hself], fun u => ?_, fun u hu => ?_, ?_, fun t ht => ?_⟩
  · by_cases hu : u = s.cur
    · rw [hu, hthread, setSelf_self]
      exact hframes
    · rw [hother u hu]
      exact hi.frames u
  · rw [hcur] at hu
    rw [hother u hu]
    exact hi.idle u hu
  · rwa [hself, hcur]
  · rw [hcur] at ht
    rw [hother _ ht]
    exact hi.saved t ht

theorem pushcli_ncli (c : Cpu) (eflags : Bool) : (c.pushcli eflags).ncli = c.ncli + 1 := by
  unfold Cpu.pushcli Cpu.cli
  simp only
  split_ifs <;> rfl

theorem pushcli_ints (c : Cpu) (eflags : Bool) : (c.pushcli eflags).ints = false := by
  unfold Cpu.pushcli Cpu.cli
  simp only
  split_ifs <;> rfl

theorem pushcli_intena (c : Cpu) (eflags : Bool) :
    (c.pushcli eflags).intena = if c.ncli = 0 then eflags else c.intena := by
  unfold Cpu.pushcli Cpu.cli
  simp only
  split_ifs <;> rfl

/-- `popcli` with interrupts off and something held. -/
theorem popcli_ok {c : Cpu} {n : ℕ} (hoff : c.ints = false) (hn : c.ncli = (n + 1 : ℕ)) :
    c.popcli = .ok { c with ncli := n, ints := decide (n = 0) && c.intena } := by
  have hsub : c.ncli - 1 = n := by omega
  rw [Cpu.popcli, hoff]
  simp only [Bool.false_eq_true, if_false, hsub, Int.natCast_eq_zero]
  rw [if_neg (by omega)]
  by_cases h0 : n = 0
  · cases hin : c.intena
    · simp [h0]
    · simp [h0, Cpu.sti]
  · simp [h0]

/-- **`popcli` and `release`** of something that is held. -/
theorem Inv.pop_eq (hi : Inv s) (hmem : o ∈ s.held) :
    s.pop o = .ok { s with
      cpu := { s.cpu with
        ncli := (s.held.erase o).length
        ints := decide ((s.held.erase o).length = 0) && s.cpu.intena }
      held := s.held.erase o } := by
  have hlen := List.length_erase_add_one hmem
  have hhold : (o.any fun lk => !s.holding lk) = false := by
    cases o with
    | none => rfl
    | some lk => simp [State.holding, hmem]
  rw [State.pop, hhold, popcli_ok (hi.off (List.ne_nil_of_mem hmem)) (by rw [hi.ncli, ← hlen])]
  rfl

theorem Inv.sched_eq (hi : Inv s) (hheld : s.held = [some .ptable]) :
    s.sched = .ok { s.setSelf { s.self with intena := some s.cpu.intena } with cur := none } := by
  have hn : s.cpu.ncli = 1 := by rw [hi.ncli, hheld]; rfl
  have hoff : s.cpu.ints = false := hi.off (by simp [hheld])
  have hp : s.holding .ptable = true := by simp [State.holding, hheld]
  simp [State.sched, hn, hoff, hp]

/-- **No legal step panics.** -/
theorem Inv.exec_ok (hi : Inv s) (h : Legal s op) : ∃ s', exec s op = .ok s' := by
  cases op with
  | push o =>
    obtain ⟨hsome, hfree⟩ := h
    obtain ⟨b, hb⟩ := Option.isSome_iff_exists.1 hsome
    have hany : o.any s.holding = false := by
      cases o with
      | none => rfl
      | some lk => exact hfree lk rfl
    rw [exec, hb]
    simp [State.push, hany]
  | pop o => exact ⟨_, hi.pop_eq h.2⟩
  | sched => exact ⟨_, hi.sched_eq h.2.2⟩
  | iret =>
    rw [exec]
    split <;> exact ⟨_, rfl⟩
  | readeflags | swtch | interrupt | setIf => exact ⟨_, rfl⟩

/-! ## Steps -/

theorem Inv.push (hi : Inv s) (hb : s.self.eflags = some b) (hok : s.push o b = .ok s') :
    Inv s' := by
  have hany : ¬ o.any s.holding := by
    intro hany
    rw [State.push, if_pos hany] at hok
    cases hok
  rw [State.push, if_neg hany] at hok
  cases hok
  have hread := hi.read b hb
  refine hi.local rfl rfl ?_ ?_ ?_ ?_ ?_
  · simp only [pushcli_ncli, hi.ncli, List.length_cons]
    rfl
  · exact fun _ => pushcli_ints ..
  · exact fun _ hc => by cases hc
  · exact hi.frames s.cur
  · intro _ t hcur c hc
    simp only [pushcli_intena, hi.ncli]
    by_cases hnil : s.held = []
    · -- the outermost call: the flag was read before `cli`, and has not changed since
      simp only [if_pos hnil] at hc
      rw [if_pos (by simp [hnil]), hread]
      exact Option.some.inj hc
    · simp only [if_neg hnil] at hc
      rw [if_neg (by simpa using hnil)]
      exact hi.intena hnil t hcur c hc

theorem Inv.pop (hi : Inv s) (hmem : o ∈ s.held) (hno : s.self.eflags = none)
    (hok : s.pop o = .ok s') : Inv s' := by
  rw [hi.pop_eq hmem] at hok
  cases hok
  have hthread : s.thread = (s.setSelf s.self).thread := (update_eq_self ..).symm
  refine hi.local hthread rfl rfl ?_ ?_ (hi.frames s.cur) ?_
  · intro hne
    have hlen : (s.held.erase o).length ≠ 0 := by simpa using hne
    simp only [hlen, decide_false, Bool.false_and]
  · rw [hno]
    exact fun _ hc => by cases hc
  · exact fun _ => hi.intena (List.ne_nil_of_mem hmem)

theorem Inv.sched (hi : Inv s) (hno : s.self.eflags = none) (hheld : s.held = [some .ptable])
    (hcur : s.cur.isSome) (hok : s.sched = .ok s') : Inv s' := by
  obtain ⟨t, ht⟩ := Option.isSome_iff_exists.1 hcur
  have hne : s.held ≠ [] := by simp [hheld]
  rw [hi.sched_eq hheld] at hok
  cases hok
  have hother : ∀ u th, u ≠ s.cur → (s.setSelf th).thread u = s.thread u :=
    fun u th hu => setSelf_of_ne hu th
  refine ⟨hi.ncli, hi.off, ?_, fun u => ?_, fun u _ => ?_, ?_, fun w _ => ?_⟩
  · -- the scheduler was in `swtch`
    simp only [State.self]
    rw [hother none _ (by simp [ht]), hi.idle none (by simp [ht])]
    exact fun _ hc => by cases hc
  · by_cases hu : u = s.cur
    · subst hu
      simp only [setSelf_self]
      exact hi.frames s.cur
    · simp only [hother u _ hu]
      exact hi.frames u
  · by_cases hu : u = s.cur
    · subst hu
      simp only [setSelf_self]
      exact hno
    · simp only [hother u _ hu]
      exact hi.idle u hu
  · exact fun _ _ hc => by cases hc
  · by_cases hw : some w = s.cur
    · simp only [hw, setSelf_self]
      exact fun b hb => congrArg some (hi.intena hne t ht b hb)
    · simp only [hother _ _ hw]
      exact hi.saved w hw

theorem Inv.swtch (hi : Inv s) (hno : s.self.eflags = none) (hcur : s.cur = none)
    (t : ℕ) : Inv (s.swtch t) := by
  have hself : (s.swtch t).self = { s.thread (some t) with intena := none } := by
    simp [State.swtch, State.self, State.setSelf]
  have hother : ∀ u, u ≠ some t → (s.swtch t).thread u = s.thread u := fun u hu => by
    simp [State.swtch, State.setSelf, hu]
  have hidle : ∀ u, (s.thread u).eflags = none := by
    intro u
    by_cases hu : u = s.cur
    · rw [hu]
      exact hno
    · exact hi.idle u hu
  refine ⟨hi.ncli, hi.off, ?_, fun u => ?_, fun u hu => ?_, fun _ w hw => ?_, fun w hw => ?_⟩
  · rw [hself]
    simp only [hidle]
    exact fun _ hc => by cases hc
  · by_cases hu : u = some t
    · rw [hu, show (s.swtch t).thread (some t) = _ from hself]
      exact hi.frames (some t)
    · rw [hother u hu]
      exact hi.frames u
  · rw [hother u hu, hidle]
  · rw [hself]
    intro b hb
    change (s.thread (some t)).intena.getD s.cpu.intena = b
    rw [hi.saved t (by simp [hcur]) b hb]
    rfl
  · rw [hother _ hw]
    exact hi.saved w (by simp [hcur])

theorem Inv.step (hi : Inv s) (h : Step s op s') : Inv s' := by
  obtain ⟨hl, hok⟩ := h
  cases op with
  | readeflags =>
    cases hok
    refine hi.local rfl rfl hi.ncli hi.off ?_ (hi.frames s.cur) hi.intena
    exact fun b hb => (Option.some.inj hb).symm
  | push o =>
    obtain ⟨b, hb⟩ := Option.isSome_iff_exists.1 hl.1
    rw [exec, hb] at hok
    exact hi.push hb hok
  | pop o => exact hi.pop hl.2 hl.1 hok
  | sched => exact hi.sched hl.1 hl.2.2 hl.2.1 hok
  | swtch t =>
    cases hok
    exact hi.swtch hl.1 hl.2.1 t
  | interrupt =>
    cases hok
    refine hi.local rfl rfl hi.ncli (fun _ => rfl) (fun _ hc => by cases hc) ?_ hi.intena
    intro fr hfr
    rcases List.mem_cons.1 hfr with rfl | hfr
    · exact hi.read
    · exact hi.frames s.cur fr hfr
  | iret =>
    obtain ⟨-, hnil, hne⟩ := hl
    rw [exec] at hok
    split at hok
    · exact absurd ‹_› hne
    · rename_i fr frames hfr
      cases hok
      have hall : ∀ x ∈ fr :: frames, ∀ b ∈ x.eflags, b = x.ints := by
        rw [← hfr]
        exact hi.frames s.cur
      refine hi.local rfl rfl hi.ncli (fun h => absurd hnil h) (hall fr (by simp)) ?_
        fun h => absurd hnil h
      exact fun x hx => hall x (by simp [hx])
  | setIf b =>
    cases hok
    have hthread : s.thread = (s.setSelf s.self).thread := (update_eq_self ..).symm
    refine hi.local hthread rfl hi.ncli (fun h => absurd hl.2 h) ?_ (hi.frames s.cur)
      fun h => absurd hl.2 h
    rw [hl.1]
    exact fun _ hc => by cases hc

theorem Runs.inv (h : Runs s) : Inv s :=
  Reach.inv (I := Inv) (fun _ => Inv.start) (fun _ _ _ hi hs => hi.step hs) h

/-! ## The interrupt flag -/

/-- **The interrupt flag is restored.**  In every run of balanced threads: interrupts are off while
`cpu->ncli` is positive; no call of `popcli`, `acquire`, `release` or `sched` panics; and when a
process makes the `popcli` that brings `cpu->ncli` to 0, wherever it has been switched out since its
outermost `pushcli`, interrupts are then on iff they were on before that `pushcli`. -/
theorem interrupts_restored (h : Runs s) :
    (0 < s.cpu.ncli → s.cpu.ints = false) ∧ (∀ op, Legal s op → ∃ s', exec s op = .ok s') ∧
    ∀ o s' t, Step s (.pop o) s' → s.cur = some t → s'.cpu.ncli = 0 → ∀ b,
      (s.thread (some t)).outer = some b → (s'.cpu.ints = true ↔ b = true) := by
  have hi := Runs.inv h
  refine ⟨fun hpos => hi.off ?_, fun op => hi.exec_ok, ?_⟩
  · rintro hnil
    rw [hi.ncli, hnil] at hpos
    exact absurd hpos (by decide)
  · rintro o s' t ⟨⟨-, hmem⟩, hok⟩ hcur hzero b hb
    have hpop : s.pop o = .ok s' := hok
    rw [hi.pop_eq hmem] at hpop
    cases hpop
    have hlen : (s.held.erase o).length = 0 := Int.ofNat_eq_zero.1 hzero
    have hin : s.cpu.intena = b :=
      hi.intena (List.ne_nil_of_mem hmem) t hcur b (by rw [State.self, hcur]; exact hb)
    simp only [hlen, decide_true, Bool.true_and, hin]

/-- A legal step, as a partial function. -/
def next (s : State) (op : Op) : Option State := if Legal s op then (exec s op).toOption else none

theorem next_step (h : next s op = some s') : Step s op s' := by
  rw [next] at h
  split_ifs at h with hl
  refine ⟨hl, ?_⟩
  cases hok : exec s op with
  | error e =>
    rw [hok] at h
    cases h
  | ok t =>
    rw [hok] at h
    cases h
    rfl

def bootCpu : State := ⟨⟨0, false, false⟩, [], none, fun _ => {}⟩

/-- `acquire`, and an interrupt that yields. -/
def acquireOps (lk : Lock) : List Op := [.readeflags, .push (some lk)]

def timerOps : List Op := .interrupt :: acquireOps .ptable ++ [.sched]

/-- Process 0 is interrupted within `pushcli` and yields with interrupts off, and process 1 starts
with that flag; process 0 goes to sleep with a lock, and runs again after process 1 has yielded. -/
def sleepRun : List Op :=
  .setIf true :: acquireOps .ptable ++ [.swtch 0, .pop (some .ptable), .readeflags] ++ timerOps ++
  [.swtch 1, .pop (some .ptable), .setIf true] ++ timerOps ++
  [.swtch 0, .pop (some .ptable), .iret, .push (some (.other 0))] ++ acquireOps .ptable ++
  [.pop (some (.other 0)), .sched, .pop (some .ptable), .setIf true] ++ acquireOps .ptable ++
  [.swtch 1, .pop (some .ptable), .iret] ++ timerOps ++ [.swtch 0]

def sleepRun_reached : Reached Runs fun s =>
    decide (s.cur = some 0 ∧ s.held = [some .ptable] ∧ s.self.eflags = none ∧
      (s.thread (some 0)).outer = some true) :=
  .ofRun (s := bootCpu) next (fun _ _ _ => next_step) ⟨rfl, rfl, rfl, rfl⟩ sleepRun
    (by decide +kernel)

theorem interrupts_restored_sleep : ∃ s s', Runs s ∧ Step s (.pop (some .ptable)) s' ∧
    s.cur = some 0 ∧ s'.cpu.ncli = 0 ∧ s'.cpu.ints = true := by
  obtain ⟨s, hs, hp⟩ := sleepRun_reached
  obtain ⟨hcur, hheld, hno, hout⟩ := of_decide_eq_true hp
  obtain ⟨-, hnp, hrest⟩ := interrupts_restored hs
  have hl : Legal s (.pop (some .ptable)) := ⟨hno, by simp [hheld]⟩
  obtain ⟨s', hok⟩ := hnp _ hl
  have hzero : s'.cpu.ncli = 0 := by
    have hpop : s.pop (some .ptable) = .ok s' := hok
    rw [(Runs.inv hs).pop_eq hl.2] at hpop
    cases hpop
    simp [hheld]
  exact ⟨s, s', hs, ⟨hl, hok⟩, hcur, hzero, (hrest _ s' 0 ⟨hl, hok⟩ hcur hzero true hout).2 rfl⟩

end Xv6.Cli
