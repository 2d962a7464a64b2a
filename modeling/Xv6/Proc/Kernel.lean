/-
  The process machine: CPUs that run `scheduler`, and the kernel threads of the
  processes with their calls of `fork`, `exit`, `wait`, `yield`, `sleep`,
  `wakeup` and `kill`.

  A step is an `acquire`, a `release`, or the code between two of them; the
  stores that `fork` makes without `ptable.lock`, and the parts of `scheduler`
  and `sched` on the two sides of `swtch`, are steps of their own.  What the
  processes do besides these calls is the parameter `Client`: its code, the
  spin-locks it uses, and the data it shares.  CPUs are numbered without a
  bound; one that never steps is not there.
-/
import Mathlib.Data.Fintype.Card
import Mathlib.Tactic.Simps.Basic
import Xv6.Lib.Reach
import Xv6.Proc.Table

namespace Xv6

open Function Transition

/-! ## Clients -/

/-- What the code of a client does next, with the control after it. -/
inductive Act (L K : Type) where
  /-- a step of its own -/
  | goto (k : K)
  | acquire (lk : L) (k : K)
  | release (lk : L) (k : K)
  | sleep (ch : ℕ) (lk : L) (k : K)
  | wakeup (ch : ℕ) (k : K)
  | kill (pid : Int32) (k : K)
  /-- `kc` is the control of the child -/
  | fork (k kc : K)
  | exit
  | wait (k : K)
  /-- a fault in user mode: `trap` sets `proc->killed` -/
  | fault (k : K)

/-- The code that processes run outside of `proc.c`: from the own slot, the
shared data and the control, with a choice that stands for all that is not
modelled, to the next action and the new shared data. -/
structure Client where
  /-- spin-locks other than `ptable.lock` -/
  L : Type
  /-- points of the code -/
  K : Type
  /-- shared data -/
  G : Type
  /-- choices -/
  X : Type
  [decL : DecidableEq L]
  [finL : Fintype L]
  prog : PSlot → Proc → G → K → X → Option (Act L K × G)

instance (cl : Client) : DecidableEq cl.L := cl.decL
instance (cl : Client) : Fintype cl.L := cl.finL

/-- The calls that a user program can make. -/
inductive UserCall where
  | fork | exit | wait
  | kill (pid : Int32)
  | fault

/-- A call from the point `k` of the client; a child starts at `kc`. -/
def UserCall.act {L K : Type} (k kc : K) : UserCall → Act L K
  | fork => .fork k kc
  | exit => .exit
  | wait => .wait k
  | kill pid => .kill pid k
  | fault => .fault k

/-- User programs that make any of these calls, in any order. -/
def userClient : Client where
  L := Empty
  K := Unit
  G := Unit
  X := UserCall
  prog _ _ _ _ x := some (x.act () (), ())

/-! ## States -/

/-- Where a kernel thread is.  `…Acq` stands before `acquire(&ptable.lock)`,
`…Back` after the return of `sched()`. -/
inductive KPc (L K : Type) where
  | client (k : K)
  /-- in `yield`, called from a timer interrupt at `pc` -/
  | yieldAcq (pc : KPc L K) | yieldGo (pc : KPc L K) | yieldBack (pc : KPc L K)
  | sleepAcq (ch : ℕ) (lk : L) (k : K) | sleepRel (ch : ℕ) (lk : L) (k : K)
  | sleepGo (ch : ℕ) (lk : L) (k : K) | sleepBack (ch : ℕ) (lk : L) (k : K)
  /-- `acquire(lk)` at the end of `sleep` -/
  | sleepReacq (lk : L) (k : K)
  | wakeAcq (ch : ℕ) (k : K) | wakeGo (ch : ℕ) (k : K)
  | killAcq (pid : Int32) (k : K) | killGo (pid : Int32) (k : K)
  | forkAcq (k kc : K) | forkFind (k kc : K)
  /-- `fork` has the slot `np`, and allocates its memory -/
  | forkSetup (np : PSlot) (k : K)
  /-- before `np->parent = proc` -/
  | forkParent (np : PSlot) (k : K)
  /-- before `np->state = RUNNABLE` -/
  | forkRun (np : PSlot) (k : K)
  | exitAcq | exitGo
  | waitAcq (k : K) | waitScan (k : K) | waitBack (k : K)
  | forkret (k : K)
  /-- after the last `sched()` of `exit` -/
  | dead

namespace KPc

variable {L K : Type}

/-- The code behind `acquire(&ptable.lock)`. -/
def acquired : KPc L K → Option (KPc L K)
  | yieldAcq pc => some (yieldGo pc)
  | sleepAcq ch lk k => some (sleepRel ch lk k)
  | wakeAcq ch k => some (wakeGo ch k)
  | killAcq pid k => some (killGo pid k)
  | forkAcq k kc => some (forkFind k kc)
  | exitAcq => some exitGo
  | waitAcq k => some (waitScan k)
  | _ => none

/-- The thread is in `yield`, in a timer interrupt. -/
def yielding : KPc L K → Bool
  | yieldAcq _ | yieldGo _ | yieldBack _ => true
  | _ => false

end KPc

/-- Where the thread of control of a CPU is. -/
inductive Ctl where
  /-- in `scheduler`, before `acquire(&ptable.lock)` -/
  | idle
  /-- before the test of slot `i`; at `NPROC`, before `release(&ptable.lock)` -/
  | scan (i : ℕ)
  /-- after `proc = p`, before `p->state = RUNNING` -/
  | disp (p : PSlot)
  /-- in the kernel thread, or the user code, of `proc` -/
  | run
  /-- `swtch` returned from slot `p` to `scheduler`, before `proc = 0` -/
  | back (p : PSlot)
  /-- before the test of `skipped` -/
  | check
  /-- at `hlt()` -/
  | halt
  deriving DecidableEq

structure Cpu where
  /-- the per-CPU variable `proc` -/
  proc : Option PSlot
  ctl : Ctl
  skipped : ℕ
  /-- history: the slots that `scheduler` found not `RUNNABLE` since its last dispatch -/
  found : Finset PSlot

/-- What happens to processes, by their pids. -/
inductive Event where
  /-- `fork` of `parent` made `child` runnable -/
  | fork (parent child : Int32)
  /-- the process became a zombie -/
  | zombie (pid : Int32)
  /-- `wait` of `waiter` returns `child` -/
  | wait (waiter child : Int32)
  deriving DecidableEq

structure Kern (cl : Client) where
  tab : Ptable
  pc : PSlot → KPc cl.L cl.K
  cpu : ℕ → Cpu
  /-- the CPU that holds `ptable.lock` -/
  ptlock : Option ℕ
  /-- the CPUs that hold the other spin-locks -/
  lock : cl.L → Option ℕ
  g : cl.G
  nextpid : Int32
  /-- history: slots given out by `allocproc` -/
  allocs : ℕ
  /-- history: events, the last one first -/
  hist : List Event

/-- One step of a CPU. -/
inductive Label (X : Type) where
  /-- go on -/
  | go
  /-- go on in the client, with this choice -/
  | client (x : X)
  /-- `kalloc` or `copyuvm` fails in `fork` -/
  | fail
  /-- a timer interrupt that calls `yield` -/
  | timer
  /-- an interrupt whose handler calls `wakeup` -/
  | intr (ch : ℕ)

namespace Kern

variable {cl : Client}

/-- `cpu->ncli`: the number of spin-locks that the CPU holds. -/
def ncli (s : Kern cl) (c : ℕ) : ℕ :=
  (if s.ptlock = some c then 1 else 0) +
    (Finset.univ.filter fun lk => s.lock lk = some c).card

@[simps, grind =]
def goto (s : Kern cl) (p : PSlot) (pc : KPc cl.L cl.K) : Kern cl :=
  { s with pc := update s.pc p pc }

@[simps, grind =]
def setTab (s : Kern cl) (t : Ptable) : Kern cl := { s with tab := t }

@[simps, grind =]
def setProc (s : Kern cl) (p : PSlot) (x : Proc) : Kern cl :=
  { s with tab := update s.tab p x }

@[simps, grind =]
def setCpu (s : Kern cl) (c : ℕ) (x : Cpu) : Kern cl :=
  { s with cpu := update s.cpu c x }

@[simps, grind =]
def setCtl (s : Kern cl) (c : ℕ) (ctl : Ctl) : Kern cl :=
  { s with cpu := update s.cpu c { s.cpu c with ctl := ctl } }

/-- `acquire(&ptable.lock)`, when it gets the lock. -/
def lockPt (s : Kern cl) (c : ℕ) : Option (Kern cl) :=
  if s.ptlock = none then some { s with ptlock := some c } else none

/-- `release(&ptable.lock)`; it panics unless the CPU holds the lock. -/
def unlockPt (s : Kern cl) (c : ℕ) : Option (Kern cl) :=
  if s.ptlock = some c then some { s with ptlock := none } else none

/-- `acquire(lk)`, when it gets the lock. -/
def lockLk (s : Kern cl) (c : ℕ) (lk : cl.L) : Option (Kern cl) :=
  if s.lock lk = none then some { s with lock := update s.lock lk (some c) } else none

def unlockLk (s : Kern cl) (c : ℕ) (lk : cl.L) : Option (Kern cl) :=
  if s.lock lk = some c then some { s with lock := update s.lock lk none } else none

/-- `sched()` of slot `p`, with its tests, up to the return of `swtch` in
`scheduler`; the thread will go on at `pc`. -/
def sched (s : Kern cl) (c : ℕ) (p : PSlot) (pc : KPc cl.L cl.K) : Option (Kern cl) :=
  if s.ptlock = some c ∧ s.ncli c = 1 ∧ (s.tab p).state ≠ .running then
    some ((s.goto p pc).setCtl c (.back p))
  else none

/-- The section of `allocproc` under the lock; `np` starts at `forkret`. -/
@[simps]
def allocproc (s : Kern cl) (np : PSlot) (kc : cl.K) : Kern cl :=
  { s with
    tab := s.tab.embryo np s.nextpid
    pc := update s.pc np (.forkret kc)
    nextpid := s.nextpid + 1
    allocs := s.allocs + 1 }

/-- `wait` frees the slot of the zombie `z`. -/
@[simps]
def reap (s : Kern cl) (p z : PSlot) : Kern cl :=
  { s with
    tab := s.tab.reap z
    hist := .wait (s.tab p).pid (s.tab z).pid :: s.hist }

/-- `exit` leaves a zombie. -/
@[simps]
def exit (s : Kern cl) (p : PSlot) : Kern cl :=
  { s with tab := s.tab.exit p, hist := .zombie (s.tab p).pid :: s.hist }

/-- `np->state = RUNNABLE` in `fork`. -/
@[simps]
def forkDone (s : Kern cl) (p np : PSlot) : Kern cl :=
  { s with
    tab := update s.tab np { s.tab np with state := .runnable }
    hist := .fork (s.tab p).pid (s.tab np).pid :: s.hist }

/-! ## Steps -/

/-- The action of a client. -/
def act (s : Kern cl) (c : ℕ) (p : PSlot) : Act cl.L cl.K → Option (Kern cl)
  | .goto k => some (s.goto p (.client k))
  | .acquire lk k => (s.lockLk c lk).map (·.goto p (.client k))
  | .release lk k => (s.unlockLk c lk).map (·.goto p (.client k))
  | .sleep ch lk k => some (s.goto p (.sleepAcq ch lk k))
  | .wakeup ch k => some (s.goto p (.wakeAcq ch k))
  | .kill pid k => some (s.goto p (.killAcq pid k))
  | .fork k kc => some (s.goto p (.forkAcq k kc))
  | .exit => if p = initproc then none else some (s.goto p .exitAcq)
  | .wait k => some (s.goto p (.waitAcq k))
  | .fault k => some
      ((s.setProc p { s.tab p with killed := true }).goto p (.client k))

/-- `wait` after `acquire(&ptable.lock)`, or after a sleep. -/
def waitNext (s : Kern cl) (c : ℕ) (p : PSlot) (k : cl.K) : Option (Kern cl) :=
  match s.tab.findZombie p with
  | some z => ((s.reap p z).unlockPt c).map (·.goto p (.client k))
  | none =>
    if s.tab.havekids p = false ∨ (s.tab p).killed then
      (s.unlockPt c).map (·.goto p (.client k))
    else
      (s.setProc p { s.tab p with chan := some (.proc p), state := .sleeping }).sched c p
        (.waitBack k)

/-- `fork` after `acquire(&ptable.lock)` in `allocproc`. -/
def forkNext (s : Kern cl) (c : ℕ) (p : PSlot) (k kc : cl.K) : Option (Kern cl) :=
  match s.tab.findUnused with
  | none => (s.unlockPt c).map (·.goto p (.client k))
  | some np => ((s.allocproc np kc).unlockPt c).map (·.goto p (.forkSetup np k))

/-- The kernel thread of slot `p` goes on, on CPU `c`, in `proc.c`. -/
def procNext (s : Kern cl) (c : ℕ) (p : PSlot) : KPc cl.L cl.K → Option (Kern cl)
  | .yieldGo pc =>
    (s.setProc p { s.tab p with state := .runnable }).sched c p (.yieldBack pc)
  | .yieldBack pc => (s.unlockPt c).map (·.goto p pc)
  | .sleepRel ch lk k => (s.unlockLk c lk).map (·.goto p (.sleepGo ch lk k))
  | .sleepGo ch lk k =>
    (s.setProc p { s.tab p with chan := some (.ext ch), state := .sleeping }).sched c p
      (.sleepBack ch lk k)
  | .sleepBack _ lk k =>
    ((s.setProc p { s.tab p with chan := none }).unlockPt c).map (·.goto p (.sleepReacq lk k))
  | .sleepReacq lk k => (s.lockLk c lk).map (·.goto p (.client k))
  | .wakeGo ch k =>
    ((s.setTab (s.tab.wakeup1 (some (.ext ch)))).unlockPt c).map (·.goto p (.client k))
  | .killGo pid k => ((s.setTab (s.tab.kill pid)).unlockPt c).map (·.goto p (.client k))
  | .forkFind k kc => s.forkNext c p k kc
  | .forkSetup np k => some (s.goto p (.forkParent np k))
  | .forkParent np k =>
    some ((s.setProc np { s.tab np with parent := some p }).goto p (.forkRun np k))
  | .forkRun np k => some ((s.forkDone p np).goto p (.client k))
  | .exitGo => (s.exit p).sched c p .dead
  | .waitScan k => s.waitNext c p k
  | .waitBack k => some ((s.setProc p { s.tab p with chan := none }).goto p (.waitScan k))
  | .forkret k => (s.unlockPt c).map (·.goto p (.client k))
  | _ => none

/-- The kernel thread of slot `p` on CPU `c`. -/
def threadNext (s : Kern cl) (c : ℕ) (p : PSlot) : Label cl.X → Option (Kern cl)
  | .go =>
    match (s.pc p).acquired with
    | some pc => (s.lockPt c).map (·.goto p pc)
    | none => s.procNext c p (s.pc p)
  | .client x =>
    match s.pc p with
    | .client k => (cl.prog p (s.tab p) s.g k x).bind fun y => Kern.act { s with g := y.2 } c p y.1
    | _ => none
  | .fail =>
    match s.pc p with
    | .forkSetup np k =>
      some ((s.setProc np { s.tab np with state := .unused }).goto p (.client k))
    | _ => none
  | .timer =>
    if s.ncli c = 0 ∧ (s.pc p).yielding = false then some (s.goto p (.yieldAcq (s.pc p)))
    else none
  | .intr _ => none

/-- The loop body of `scheduler` for slot `p`, up to `switchuvm(p)`. -/
def inspect (s : Kern cl) (c : ℕ) (p : PSlot) : Kern cl :=
  if (s.tab p).state = .runnable then
    s.setCpu c { proc := some p, ctl := .disp p, skipped := 0, found := ∅ }
  else
    s.setCpu c { s.cpu c with
      ctl := .scan (p + 1)
      skipped := (s.cpu c).skipped + 1
      found := insert p (s.cpu c).found }

/-- `scheduler` on CPU `c`. -/
def schedNext (s : Kern cl) (c : ℕ) : Ctl → Option (Kern cl)
  | .idle => (s.lockPt c).map (·.setCtl c (.scan 0))
  | .scan i =>
    if h : i < NPROC then some (s.inspect c ⟨i, h⟩)
    else (s.unlockPt c).map (·.setCtl c .check)
  | .disp p => some ((s.setProc p { s.tab p with state := .running }).setCtl c .run)
  | .run => none
  | .back p => some (s.setCpu c { s.cpu c with proc := none, ctl := .scan (p + 1) })
  | .check => some (s.setCtl c (if (s.cpu c).skipped > NPROC then .halt else .idle))
  | .halt => some (s.setCpu c { s.cpu c with ctl := .idle, skipped := 0 })

/-- The handler of a device interrupt wakes up the sleepers on `ch`. -/
def intrNext (s : Kern cl) (c : ℕ) (ch : ℕ) : Option (Kern cl) :=
  if s.ncli c = 0 ∧ s.ptlock = none then
    some (s.setTab (s.tab.wakeup1 (some (.ext ch))))
  else none

/-- One step of CPU `c`. -/
def next (s : Kern cl) : ℕ × Label cl.X → Option (Kern cl)
  | (c, .intr ch) => s.intrNext c ch
  | (c, l) =>
    match (s.cpu c).ctl, (s.cpu c).proc with
    | .run, some p => s.threadNext c p l
    | .run, none => none
    | ctl, _ =>
      match l with
      | .go => s.schedNext c ctl
      | _ => none

/-- The machine after `userinit`: init will start at `k`. -/
def boot (cl : Client) (k : cl.K) (g : cl.G) : Kern cl where
  tab p :=
    if p = initproc then ⟨.runnable, 1, none, none, false⟩ else ⟨.unused, 0, none, none, false⟩
  pc p := if p = initproc then .forkret k else .dead
  cpu _ := ⟨none, .idle, 0, ∅⟩
  ptlock := none
  lock _ := none
  g := g
  nextpid := 2
  allocs := 1
  hist := []

/-- The states of the machine. -/
def Runs (cl : Client) (k : cl.K) (g : cl.G) : Kern cl → Prop :=
  Reach (· = boot cl k g) fun s x s' => s.next x = some s'

/-- The end of a run. -/
def Runs.ofNext {cl : Client} {k : cl.K} {g : cl.G} {P : Kern cl → Bool}
    (xs : List (ℕ × Label cl.X)) (h : (run next (boot cl k g) xs).any P = true) :
    Reached (Runs cl k g) P :=
  .ofRun next (fun _ _ _ h => h) rfl xs h

/-- The end of a run whose steps all pass `test`. -/
def Runs.ofNextIf {cl : Client} {k : cl.K} {g : cl.G} {P : Kern cl → Bool}
    {C : Kern cl → ℕ × Label cl.X → Prop} (test : Kern cl → ℕ × Label cl.X → Bool)
    (hC : ∀ s x, test s x = true → C s x) (xs : List (ℕ × Label cl.X))
    (h : (run (fun s x => if test s x then s.next x else none) (boot cl k g) xs).any P =
      true) :
    Reached
      (Reach (· = boot cl k g) fun s x s' => s.next x = some s' ∧ C s x) P :=
  .ofRun (fun s x => if test s x then s.next x else none)
    (fun s x s' hs => by
      split at hs
      · exact ⟨hs, hC s x ‹_›⟩
      · cases hs) rfl xs h

end Kern

end Xv6
