/-
  Group commit: any number of processes running
  `begin_op(); … log_write(b) …; end_op()` (`log.c`).

  The buffer cache is seen as the contents it shows (`Mach.mem`), as if there
  were a buffer for every block.  The cache of `bio.c` has `NBUF` buffers and
  its `bget` can panic; that it shows such contents while the header fits
  (`Fits`) is the subject of `Xv6.Bio`.  A step of a process is one
  lock-protected section, the unlocked tests of `log_write`, one store into a
  buffer or one disk write.

  History variables number the operations in the order of their `begin_op`,
  and record the stores of all operations, the number of operations whose
  group has been committed (`done`), the block numbers passed to `log_write`
  since the last commit (`group`), for each running operation the blocks it
  has passed (`logged`), and which process has modified a block without having
  passed it to `log_write` or `bwrite` yet (`pend`).

  `Ctl` is the control invariant: operations and commits exclude each other.
  `Copied` says what the log blocks hold while a commit is going on.
-/
import Xv6.Log.Ops
import Xv6.Log.Commit
import Xv6.Lib.Reach
import Xv6.Lib.Count

namespace Xv6

open Count Function

/-! ## Stores -/

/-- Operation `op` changes block `b` by `f`. -/
structure Store where
  op : ℕ
  b : BlockNo
  f : Block → Block

/-- The contents after a list of stores. -/
def replay (ss : List Store) (d : Disk) : Disk :=
  ss.foldl (fun d st => update d st.b (st.f (d st.b))) d

/-- The stores of the operations below `k`. -/
def storesBelow (k : ℕ) (ss : List Store) : List Store := ss.filter fun st => st.op < k

theorem replay_concat (ss : List Store) (st : Store) (d : Disk) :
    replay (ss ++ [st]) d = update (replay ss d) st.b (st.f (replay ss d st.b)) := by
  simp [replay]

/-- Only the stores to a block matter for its contents. -/
theorem replay_apply (b : BlockNo) : ∀ (ss : List Store) (d : Disk),
    replay ss d b = (ss.filter fun st => st.b = b).foldl (fun v st => st.f v) (d b)
  | [], _ => rfl
  | st :: ss, d => by
    have ih := replay_apply b ss (update d st.b (st.f (d st.b)))
    rw [replay, List.foldl_cons, ← replay, ih]
    by_cases h : st.b = b
    · subst h; simp
    · simp [h, update_of_ne (Ne.symm h)]

variable {k : ℕ} {ss : List Store}

/-- Leaving out stores to other blocks does not change a block. -/
theorem replay_storesBelow {b : BlockNo} (d : Disk) (h : ∀ st ∈ ss, st.b = b → st.op < k) :
    replay (storesBelow k ss) d b = replay ss d b := by
  rw [replay_apply, replay_apply, storesBelow, List.filter_filter]
  congr 1
  refine List.filter_congr fun st hst => ?_
  by_cases hb : st.b = b
  · simp [hb, h st hst hb]
  · simp [hb]

theorem storesBelow_eq_self (h : ∀ st ∈ ss, st.op < k) :
    storesBelow k ss = ss :=
  List.filter_eq_self.2 fun st hst => by simpa using h st hst

theorem storesBelow_concat_of_le {st : Store} (h : k ≤ st.op) :
    storesBelow k (ss ++ [st]) = storesBelow k ss := by
  simp [storesBelow, Nat.not_lt.2 h]

/-! ## The system -/

/-- Where a process is in `commit`. -/
inductive CommitPc where
  /-- about to test `log.lh.n > 0` -/
  | start
  | writeLog (tail : ℕ)
  /-- about to write the header: the real commit -/
  | writeHead
  | installTrans (tail : ℕ)
  /-- `log.lh.n` is `0`; about to erase the transaction from the log -/
  | clearHead
  /-- `commit` has returned to `end_op` -/
  | finish
  deriving DecidableEq

/-- A running operation. -/
structure Op where
  id : ℕ
  logged : List BlockNo
  deriving DecidableEq

/-- Where a process is. -/
inductive LogPc where
  | out
  /-- between `begin_op` and `end_op` -/
  | op (o : Op)
  /-- in `log_write`, between the tests and the locked section -/
  | logWrite (o : Op) (b : BlockNo)
  /-- in `end_op`, after setting `log.committing` -/
  | commit (c : CommitPc)
  deriving DecidableEq

/-- The operation a process is running. -/
def LogPc.op? : LogPc → Option Op
  | .op o | .logWrite o _ => some o
  | _ => none

@[ext]
structure LogSys where
  log : Log
  mach : Mach
  proc : ℕ → LogPc
  panic : Option LogPanic
  /-- operations begun so far -/
  nops : ℕ
  stores : List Store
  /-- the operations below `done` belong to groups whose commit has finished -/
  done : ℕ
  group : List BlockNo
  pend : BlockNo → Option ℕ

/-- What a process does next. -/
inductive LogAct where
  | beginOp
  /-- change the contents of a buffer -/
  | store (b : BlockNo) (f : Block → Block)
  /-- call `log_write` -/
  | logWrite (b : BlockNo)
  /-- the locked section of `log_write` -/
  | logAdd
  /-- write a buffer to disk, outside `commit` -/
  | bwrite (b : BlockNo)
  | endOp
  /-- go on with `commit` -/
  | commit

namespace LogSys

/-- The system after `initlog`, with disk `d` and an empty cache. -/
def init (d : Disk) : LogSys where
  log := .init
  mach := .boot d
  proc _ := .out
  panic := none
  nops := 0
  stores := []
  done := 0
  group := []
  pend _ := none

/-- Process `p` goes to `pc`. -/
def goto (s : LogSys) (p : ℕ) (pc : LogPc) : LogSys :=
  { s with proc := update s.proc p pc }

/-- Process `p` changes the contents of block `b` by `f`. -/
def store (s : LogSys) (p : ℕ) (b : BlockNo) (f : Block → Block) : LogSys :=
  { s with
    mach := { s.mach with mem := update s.mach.mem b (f (s.mach.mem b)) }
    pend := update s.pend b (some p) }

/-- Process `p` writes block `b` to disk. -/
def bwrite (s : LogSys) (b : BlockNo) : LogSys :=
  { s with mach := s.mach.bwrite b (s.mach.mem b), pend := update s.pend b none }

/-- The locked section of `log_write`. -/
def logAdd (s : LogSys) (b : BlockNo) : LogSys :=
  { s with
    log := s.log.logWriteAdd b
    group := s.group ++ [b]
    pend := update s.pend b none }

/-- One step of `commit`. -/
def commitStep (a : LogArea) (s : LogSys) (p : ℕ) : CommitPc → LogSys
  | .start => s.goto p (.commit (if 0 < s.log.lh.length then .writeLog 0 else .finish))
  | .writeLog tail =>
    match s.log.lh[tail]? with
    | some b =>
      { s with mach := writeLogBody a b tail s.mach }.goto p (.commit (.writeLog (tail + 1)))
    | none => s.goto p (.commit .writeHead)
  | .writeHead =>
    { s with mach := Xv6.writeHead a s.log.lh s.mach }.goto p (.commit (.installTrans 0))
  | .installTrans tail =>
    match s.log.lh[tail]? with
    | some b =>
      { s with mach := installTransBody a b tail s.mach }.goto p
        (.commit (.installTrans (tail + 1)))
    | none =>
      { s with log := { s.log with lh := [] }, group := [] }.goto p (.commit .clearHead)
  | .clearHead => { s with mach := Xv6.writeHead a s.log.lh s.mach }.goto p (.commit .finish)
  | .finish => { s with log := s.log.commitDone, done := s.nops }.goto p .out

/-- One step of process `p`; `none` if it cannot take it. -/
def next (a : LogArea) (s : LogSys) (p : ℕ) (x : LogAct) : Option LogSys :=
  if s.panic.isSome then none else
  match x, s.proc p with
  | .beginOp, .out =>
    s.log.beginOp.map fun l => { s with log := l, nops := s.nops + 1 }.goto p (.op ⟨s.nops, []⟩)
  | .store b f, .out => some (s.store p b f)
  | .store b f, .op o => some { s.store p b f with stores := s.stores ++ [Store.mk o.id b f] }
  | .logWrite b, .op o =>
    match s.log.logWriteTest a.size with
    | .error e => some { s with panic := some e }
    | .ok () => some (s.goto p (.logWrite o b))
  | .logAdd, .logWrite o b =>
    some ((s.logAdd b).goto p (.op { o with logged := o.logged ++ [b] }))
  | .bwrite b, .out => some (s.bwrite b)
  | .bwrite b, .op _ => some (s.bwrite b)
  | .endOp, .op _ =>
    match s.log.endOp with
    | .error e => some { s with panic := some e }
    | .ok (l, true) => some ({ s with log := l }.goto p (.commit .start))
    | .ok (l, false) => some ({ s with log := l }.goto p .out)
  | .commit, .commit c => some (s.commitStep a p c)
  | _, _ => none

/-! ## What a step can be -/

/-- The steps of process `p`. -/
inductive Stepped (a : LogArea) (s : LogSys) (p : ℕ) : LogAct → LogSys → Prop
  | beginOp {l : Log} : s.proc p = .out → s.log.beginOp = some l →
      Stepped a s p .beginOp ({ s with log := l, nops := s.nops + 1 }.goto p (.op ⟨s.nops, []⟩))
  | storeOut (b : BlockNo) (f : Block → Block) : s.proc p = .out →
      Stepped a s p (.store b f) (s.store p b f)
  | storeOp {o : Op} (b : BlockNo) (f : Block → Block) : s.proc p = .op o →
      Stepped a s p (.store b f) { s.store p b f with stores := s.stores ++ [Store.mk o.id b f] }
  | logPanic {o : Op} (b : BlockNo) {e : LogPanic} : s.proc p = .op o →
      s.log.logWriteTest a.size = .error e →
      Stepped a s p (.logWrite b) { s with panic := some e }
  | logWrite {o : Op} (b : BlockNo) : s.proc p = .op o → s.log.logWriteTest a.size = .ok () →
      Stepped a s p (.logWrite b) (s.goto p (.logWrite o b))
  | logAdd {o : Op} {b : BlockNo} : s.proc p = .logWrite o b →
      Stepped a s p .logAdd ((s.logAdd b).goto p (.op { o with logged := o.logged ++ [b] }))
  | bwrite (b : BlockNo) : Stepped a s p (.bwrite b) (s.bwrite b)
  | endPanic {o : Op} {e : LogPanic} : s.proc p = .op o → s.log.endOp = .error e →
      Stepped a s p .endOp { s with panic := some e }
  | endCommit {o : Op} {l : Log} : s.proc p = .op o → s.log.endOp = .ok (l, true) →
      Stepped a s p .endOp ({ s with log := l }.goto p (.commit .start))
  | endOp {o : Op} {l : Log} : s.proc p = .op o → s.log.endOp = .ok (l, false) →
      Stepped a s p .endOp ({ s with log := l }.goto p .out)
  | commitEmpty : s.proc p = .commit .start → s.log.lh = [] →
      Stepped a s p .commit (s.goto p (.commit .finish))
  | commitStart : s.proc p = .commit .start →
      Stepped a s p .commit (s.goto p (.commit (.writeLog 0)))
  | writeLog {tail : ℕ} (ht : tail < s.log.lh.length) : s.proc p = .commit (.writeLog tail) →
      Stepped a s p .commit ({ s with mach := writeLogBody a s.log.lh[tail] tail s.mach }.goto p
        (.commit (.writeLog (tail + 1))))
  | writeLogEnd {tail : ℕ} : s.proc p = .commit (.writeLog tail) → s.log.lh.length ≤ tail →
      Stepped a s p .commit (s.goto p (.commit .writeHead))
  | writeHead : s.proc p = .commit .writeHead →
      Stepped a s p .commit ({ s with mach := Xv6.writeHead a s.log.lh s.mach }.goto p
        (.commit (.installTrans 0)))
  | install {tail : ℕ} (ht : tail < s.log.lh.length) : s.proc p = .commit (.installTrans tail) →
      Stepped a s p .commit ({ s with mach := installTransBody a s.log.lh[tail] tail s.mach }.goto p
        (.commit (.installTrans (tail + 1))))
  | installEnd {tail : ℕ} : s.proc p = .commit (.installTrans tail) → s.log.lh.length ≤ tail →
      Stepped a s p .commit ({ s with log := { s.log with lh := [] }, group := [] }.goto p
        (.commit .clearHead))
  | clearHead : s.proc p = .commit .clearHead →
      Stepped a s p .commit ({ s with mach := Xv6.writeHead a s.log.lh s.mach }.goto p
        (.commit .finish))
  | finish : s.proc p = .commit .finish →
      Stepped a s p .commit ({ s with log := s.log.commitDone, done := s.nops }.goto p .out)

variable {p : ℕ} {a : LogArea} {f : ℕ → LogPc} {n : ℤ}

theorem commitStep_stepped (a : LogArea) {s : LogSys} {c : CommitPc} (hp : s.proc p = .commit c) :
    Stepped a s p .commit (s.commitStep a p c) := by
  cases c with
  | start =>
    unfold commitStep
    split_ifs with hn
    · exact .commitStart hp
    · exact .commitEmpty hp (by simpa using hn)
  | writeLog tail =>
    rcases Nat.lt_or_ge tail s.log.lh.length with ht | ht
    · simp only [commitStep, List.getElem?_eq_getElem ht]
      exact .writeLog ht hp
    · simp only [commitStep, List.getElem?_eq_none ht]
      exact .writeLogEnd hp ht
  | writeHead => exact .writeHead hp
  | installTrans tail =>
    rcases Nat.lt_or_ge tail s.log.lh.length with ht | ht
    · simp only [commitStep, List.getElem?_eq_getElem ht]
      exact .install ht hp
    · simp only [commitStep, List.getElem?_eq_none ht]
      exact .installEnd hp ht
  | clearHead => exact .clearHead hp
  | finish => exact .finish hp

theorem next_stepped {s s' : LogSys} {x : LogAct} (h : s.next a p x = some s') :
    s.panic = none ∧ Stepped a s p x s' := by
  unfold next at h
  split_ifs at h with hpan
  refine ⟨by simpa using hpan, ?_⟩
  split at h
  next hp =>
    obtain ⟨l, hl, rfl⟩ := Option.map_eq_some_iff.1 h
    exact .beginOp hp hl
  next b f hp => cases h; exact .storeOut b f hp
  next b f o hp => cases h; exact .storeOp b f hp
  next b o hp =>
    split at h
    next e he => cases h; exact .logPanic b hp he
    next he => cases h; exact .logWrite b hp he
  next o b hp => cases h; exact .logAdd hp
  next b hp => cases h; exact .bwrite b
  next b o hp => cases h; exact .bwrite b
  next o hp =>
    split at h
    next e he => cases h; exact .endPanic hp he
    next l he => cases h; exact .endCommit hp he
    next l he => cases h; exact .endOp hp he
  next c hp => cases h; exact commitStep_stepped a hp
  next => cases h

/-! ## Operations and commits exclude each other -/

@[simp] theorem goto_log (s : LogSys) (p : ℕ) (pc : LogPc) : (s.goto p pc).log = s.log := rfl
@[simp] theorem goto_mach (s : LogSys) (p : ℕ) (pc : LogPc) : (s.goto p pc).mach = s.mach := rfl
@[simp] theorem goto_panic (s : LogSys) (p : ℕ) (pc : LogPc) : (s.goto p pc).panic = s.panic := rfl
@[simp] theorem goto_nops (s : LogSys) (p : ℕ) (pc : LogPc) : (s.goto p pc).nops = s.nops := rfl
@[simp] theorem goto_done (s : LogSys) (p : ℕ) (pc : LogPc) : (s.goto p pc).done = s.done := rfl
@[simp] theorem goto_stores (s : LogSys) (p : ℕ) (pc : LogPc) :
    (s.goto p pc).stores = s.stores := rfl
@[simp] theorem goto_group (s : LogSys) (p : ℕ) (pc : LogPc) : (s.goto p pc).group = s.group := rfl
@[simp] theorem goto_proc (s : LogSys) (p : ℕ) (pc : LogPc) :
    (s.goto p pc).proc = update s.proc p pc := rfl

theorem goto_self (s : LogSys) (p : ℕ) : s.goto p (s.proc p) = s := by
  rw [goto, update_eq_self]

/-- Process `p` runs an operation. -/
def InOp (f : ℕ → LogPc) (p : ℕ) : Prop := (f p).op?.isSome

theorem inOp_update {p q : ℕ} {pc : LogPc} :
    InOp (update f p pc) q ↔ if q = p then pc.op?.isSome = true else InOp f q := by
  unfold InOp
  split_ifs with h
  · subst h; rw [update_self]
  · rw [update_of_ne h]

theorem counts_same {pc : LogPc} (h : Counts (InOp f) n) (hpc : pc.op?.isSome = (f p).op?.isSome) :
    Counts (InOp (update f p pc)) n := by
  refine h.congr fun q => ?_
  rw [inOp_update]
  split_ifs with hq
  · subst hq; rw [hpc]; rfl
  · rfl

theorem counts_enter (pc : LogPc) (h : Counts (InOp f) n) (hp : (f p).op? = none)
    (hpc : pc.op?.isSome) :
    Counts (InOp (update f p pc)) (n + 1) := by
  refine h.enter (p := p) (by simp [InOp, hp]) fun q => ?_
  rw [inOp_update]
  split_ifs with hq <;> simp [hq, hpc]

theorem counts_leave (pc : LogPc) (h : Counts (InOp f) n) (hp : InOp f p) (hpc : pc.op? = none) :
    Counts (InOp (update f p pc)) (n - 1) := by
  refine h.leave hp fun q => ?_
  rw [inOp_update]
  split_ifs with hq <;> simp [hq, hpc]

/-- The control invariant: `log.outstanding` counts the running operations,
    `log.committing` is set while some process is in `commit`, there is then no
    running operation, and between groups the header is empty. -/
structure Ctl (s : LogSys) : Prop where
  active : Counts (InOp s.proc) s.log.outstanding
  unique : ∀ {p q c c'}, s.proc p = .commit c → s.proc q = .commit c' → p = q
  committing : s.log.committing = true ↔ ∃ p c, s.proc p = .commit c
  quiet : s.log.committing = true → s.log.outstanding = 0
  idle : s.log.committing = false → s.log.outstanding = 0 → s.log.lh = []
  erased : ∀ {p}, s.proc p = .commit .clearHead ∨ s.proc p = .commit .finish → s.log.lh = []
  panic : s.panic ≠ some .committing

namespace Ctl
variable {a : LogArea} {s s' : LogSys} {p : ℕ}

theorem init (d : Disk) : Ctl (init d) where
  active := Counts.none fun q => by simp [InOp, LogSys.init, LogPc.op?]
  unique h := by cases h
  committing := by simp [LogSys.init, Log.init]
  quiet h := by cases h
  idle _ _ := rfl
  erased h := by rcases h with h | h <;> cases h
  panic := by simp [LogSys.init]

/-- A running operation excludes a commit. -/
theorem not_committing (h : Ctl s) (hp : InOp s.proc p) : s.log.committing = false := by
  by_contra hc
  have h0 := h.quiet (by simpa using hc)
  have := h.active.pos hp
  omega

theorem no_commit (h : Ctl s) (hc : s.log.committing = false) (q : ℕ) (c : CommitPc) :
    s.proc q ≠ .commit c := by
  intro hq
  rw [h.committing.2 ⟨q, c, hq⟩] at hc
  cases hc

/-- A commit excludes running operations. -/
theorem no_op (h : Ctl s) {c : CommitPc} (hp : s.proc p = .commit c) (q : ℕ) :
    (s.proc q).op? = none := by
  have h0 := h.quiet (h.committing.2 ⟨p, c, hp⟩)
  have hq : ¬ InOp s.proc q := (h0 ▸ h.active).not_of_zero
  simpa [InOp] using hq

variable {t : LogSys}

/-- A step of an operation that leaves it running, and `lh` and the counters alone
    or grows `lh`. -/
theorem goto_op (h : Ctl s) (pc : LogPc) (hp : InOp s.proc p) (hpc : pc.op?.isSome)
    (ht : t.proc = update s.proc p pc) (ho : t.log.outstanding = s.log.outstanding)
    (hc : t.log.committing = s.log.committing) (hpan : t.panic = s.panic) : Ctl t := by
  have hnc := h.not_committing hp
  have hno : ∀ q c, t.proc q ≠ .commit c := by
    intro q c hq
    rw [ht] at hq
    by_cases hqp : q = p
    · subst hqp
      rw [update_self] at hq
      rw [hq] at hpc
      cases hpc
    · rw [update_of_ne hqp] at hq
      exact h.no_commit hnc q c hq
  have hpos := h.active.pos hp
  refine ⟨?_, fun hq => absurd hq (hno _ _), ?_, ?_, ?_, ?_, by rw [hpan]; exact h.panic⟩
  · rw [ht, ho]
    exact counts_same h.active (by rw [hpc]; exact hp.symm)
  · rw [hc, hnc]
    refine ⟨fun hf => (Bool.false_ne_true hf).elim, ?_⟩
    rintro ⟨q, c, hq⟩
    exact absurd hq (hno q c)
  · intro hf
    rw [hc, hnc] at hf
    cases hf
  · intro _ h0
    omega
  · rintro q (hq | hq) <;> exact absurd hq (hno _ _)

/-- A step from one position in `commit` to another. -/
theorem goto_commit (h : Ctl s) {c c' : CommitPc} (hp : s.proc p = .commit c)
    (ht : t.proc = update s.proc p (.commit c'))
    (ho : t.log.outstanding = s.log.outstanding) (hc : t.log.committing = s.log.committing)
    (hlh : c' = .clearHead ∨ c' = .finish → t.log.lh = []) (hpan : t.panic = s.panic) : Ctl t := by
  have hcm : s.log.committing = true := h.committing.2 ⟨p, c, hp⟩
  have honly : ∀ {q c₁}, t.proc q = .commit c₁ → q = p := by
    intro q c₁ hq
    by_contra hqp
    rw [ht, update_of_ne hqp] at hq
    exact hqp (h.unique hq hp)
  have htp : t.proc p = .commit c' := by rw [ht, update_self]
  refine ⟨?_, fun h1 h2 => (honly h1).trans (honly h2).symm, ?_, ?_, ?_, ?_, by
    rw [hpan]; exact h.panic⟩
  · rw [ht, ho]
    exact counts_same h.active (by rw [hp]; rfl)
  · exact ⟨fun _ => ⟨p, c', htp⟩, fun _ => hc.trans hcm⟩
  · intro _
    rw [ho]
    exact h.quiet hcm
  · intro hf
    rw [hc, hcm] at hf
    cases hf
  · intro q hq
    have hqp : q = p := hq.elim honly honly
    subst hqp
    rw [htp, LogPc.commit.injEq, LogPc.commit.injEq] at hq
    exact hlh hq

/-- Nothing of the control state changes. -/
theorem frame (h : Ctl s) (ht : t.proc = s.proc) (hl : t.log = s.log) (hpan : t.panic = s.panic) :
    Ctl t := by
  obtain ⟨h1, h2, h3, h4, h5, h6, h7⟩ := h
  exact ⟨ht ▸ hl ▸ h1, ht ▸ h2, ht ▸ hl ▸ h3, hl ▸ h4, hl ▸ h5, ht ▸ hl ▸ h6, hpan ▸ h7⟩

/-- A process leaves `commit` or an operation for good: nobody is in `commit` afterwards. -/
theorem leave (h : Ctl s) (ht : t.proc = update s.proc p .out)
    (hno : ∀ q c, q ≠ p → s.proc q ≠ .commit c) (hact : Counts (InOp t.proc) t.log.outstanding)
    (hc : t.log.committing = false) (hidle : t.log.outstanding = 0 → t.log.lh = [])
    (hpan : t.panic = s.panic) : Ctl t := by
  have hno' : ∀ q c, t.proc q ≠ .commit c := by
    intro q c hq
    by_cases hqp : q = p
    · subst hqp; rw [ht, update_self] at hq; cases hq
    · rw [ht, update_of_ne hqp] at hq; exact hno q c hqp hq
  refine ⟨hact, fun hq => absurd hq (hno' _ _), ?_, ?_, fun _ => hidle, ?_, by
    rw [hpan]; exact h.panic⟩
  · rw [hc]
    refine ⟨fun hf => (Bool.false_ne_true hf).elim, ?_⟩
    rintro ⟨q, c, hq⟩
    exact absurd hq (hno' q c)
  · intro hf; rw [hc] at hf; cases hf
  · rintro q (hq | hq) <;> exact absurd hq (hno' _ _)

/-- **Operations and commits exclude each other**, whatever the processes do. -/
theorem step (h : Ctl s) {x : LogAct} (hs : Stepped a s p x s') : Ctl s' := by
  cases hs with
  | beginOp hp hl =>
    obtain ⟨hc, -, rfl⟩ := Log.beginOp_some hl
    have hno := h.no_commit hc
    have hact := counts_enter (.op ⟨s.nops, []⟩) h.active (p := p) (by rw [hp]; rfl) rfl
    have hno' : ∀ q c, update s.proc p (.op ⟨s.nops, []⟩) q ≠ .commit c := by
      intro q c hq
      by_cases hqp : q = p
      · subst hqp; rw [update_self] at hq; cases hq
      · rw [update_of_ne hqp] at hq; exact hno q c hq
    have hpos : 0 < s.log.outstanding + 1 := hact.pos (p := p) (by simp [InOp, LogPc.op?])
    exact {
      active := hact
      unique := fun hq => absurd hq (hno' _ _)
      committing := by
        simp only [goto_log, hc]
        refine ⟨fun hf => (Bool.false_ne_true hf).elim, ?_⟩
        rintro ⟨q, c, hq⟩
        exact absurd hq (hno' q c)
      quiet := fun hf => by simp only [goto_log, hc] at hf; cases hf
      idle := fun _ h0 => absurd h0 (by simp only [goto_log]; omega)
      erased := fun hq => by rcases hq with hq | hq <;> exact absurd hq (hno' _ _)
      panic := h.panic }
  | storeOut | storeOp | bwrite => exact h.frame rfl rfl rfl
  | logPanic b hp he =>
    refine ⟨h.active, h.unique, h.committing, h.quiet, h.idle, h.erased, fun hf => ?_⟩
    obtain rfl := Option.some.inj hf
    unfold Log.logWriteTest at he
    split_ifs at he <;> cases he
  | logWrite b hp he => exact h.goto_op _ (by simp [InOp, hp, LogPc.op?]) rfl rfl rfl rfl rfl
  | @logAdd o b hp =>
    refine h.goto_op (.op { o with logged := o.logged ++ [b] })
      (by simp [InOp, hp, LogPc.op?]) rfl rfl ?_ ?_ rfl
    · simp [LogSys.logAdd, Log.logWriteAdd_eq]
    · simp [LogSys.logAdd, Log.logWriteAdd_eq]
  | endPanic hp he =>
    -- `log.committing` is clear while an operation is running
    have := h.not_committing (p := p) (by simp [InOp, hp, LogPc.op?])
    rw [(Log.endOp_error he).2] at this
    cases this
  | endCommit hp he =>
    obtain ⟨hc, ho, rfl⟩ := Log.endOp_true he
    have hno := h.no_commit hc
    have hact := counts_leave (.commit .start) h.active (p := p)
      (by simp [InOp, hp, LogPc.op?]) rfl
    have honly : ∀ {q c}, update s.proc p (.commit .start) q = .commit c → q = p := by
      intro q c hq
      by_contra hqp
      rw [update_of_ne hqp] at hq
      exact hno q c hq
    exact {
      active := by rwa [ho] at hact
      unique := fun h1 h2 => (honly h1).trans (honly h2).symm
      committing := ⟨fun _ => ⟨p, .start, by simp⟩, fun _ => rfl⟩
      quiet := fun _ => rfl
      idle := fun hf => by cases hf
      erased := fun {q} hq => by
        have hqp : q = p := hq.elim honly honly
        subst hqp
        simp at hq
      panic := h.panic }
  | endOp hp he =>
    obtain ⟨hc, ho, rfl⟩ := Log.endOp_false he
    have hop : InOp s.proc p := by simp [InOp, hp, LogPc.op?]
    refine h.leave rfl (fun q c _ => h.no_commit hc q c) (counts_leave _ h.active hop rfl) hc
      (fun h0 => absurd h0 ?_) rfl
    simp only [goto_log]
    omega
  | commitEmpty hp hlh => exact h.goto_commit hp rfl rfl rfl (fun _ => hlh) rfl
  | commitStart hp | writeLogEnd hp | writeHead hp =>
    exact h.goto_commit hp rfl rfl rfl (by simp) rfl
  | writeLog ht hp | install ht hp => exact h.goto_commit hp rfl rfl rfl (by simp) rfl
  | installEnd hp ht => exact h.goto_commit hp rfl rfl rfl (fun _ => rfl) rfl
  | clearHead hp => exact h.goto_commit hp rfl rfl rfl (fun _ => h.erased (.inl hp)) rfl
  | finish hp =>
    refine h.leave rfl (fun q c hqp hq => hqp (h.unique hq hp))
      (counts_same h.active (by rw [hp]; rfl)) rfl (fun _ => h.erased (.inr hp)) rfl

end Ctl

/-! ## The header holds the group -/

/-- The header lists the blocks passed to `log_write` since the last commit, each once. -/
structure Grouped (s : LogSys) : Prop where
  nodup : s.log.lh.Nodup
  group : ∀ b, b ∈ s.log.lh ↔ b ∈ s.group

namespace Grouped
variable {a : LogArea} {s s' : LogSys} {p : ℕ}

theorem init (d : Disk) : Grouped (init d) := ⟨.nil, by simp [LogSys.init, Log.init]⟩

theorem logAdd (h : Grouped s) (b : BlockNo) : Grouped (s.logAdd b) := by
  simp only [LogSys.logAdd, Log.logWriteAdd_eq]
  split_ifs with hb
  · refine ⟨h.nodup, fun b' => ?_⟩
    have := h.group b'
    simp only [List.mem_append, List.mem_singleton, ← this]
    exact ⟨.inl, fun hb' => hb'.elim id (· ▸ hb)⟩
  · refine ⟨List.nodup_append.2 ⟨h.nodup, by simp, ?_⟩, fun b' => by simp [h.group b']⟩
    rintro x hx y hy rfl
    exact hb (List.mem_singleton.1 hy ▸ hx)

theorem step (h : Grouped s) {x : LogAct} (hs : Stepped a s p x s') : Grouped s' := by
  cases hs with
  | beginOp hp hb =>
    obtain ⟨-, -, rfl⟩ := Log.beginOp_some hb
    exact ⟨h.nodup, h.group⟩
  | logAdd hp => exact ⟨(h.logAdd _).nodup, (h.logAdd _).group⟩
  | endCommit hp he =>
    obtain ⟨-, -, rfl⟩ := Log.endOp_true he
    exact ⟨h.nodup, h.group⟩
  | endOp hp he =>
    obtain ⟨-, -, rfl⟩ := Log.endOp_false he
    exact ⟨h.nodup, h.group⟩
  | installEnd hp ht => exact ⟨.nil, by simp⟩
  | storeOut | storeOp | logPanic | logWrite | bwrite | endPanic | commitEmpty | commitStart
  | writeLog | writeLogEnd | writeHead | install | clearHead | finish => exact ⟨h.nodup, h.group⟩

/-- `log.lh.n` is the number of distinct blocks passed to `log_write` since the last
    commit. -/
theorem length_eq (h : Grouped s) : s.log.lh.length = s.group.toFinset.card := by
  rw [← List.toFinset_card_of_nodup h.nodup]
  congr 1
  ext b
  simp [h.group b]

end Grouped

/-! ## The log blocks during a commit -/

/-- The header fits in `log.lh.block` and in the log area behind the header block. -/
structure Fits (a : LogArea) (s : LogSys) : Prop where
  array : s.log.lh.length ≤ LOGSIZE
  room : s.log.lh.length ≤ a.size - 1

/-- What the callers of the log and the buffer locks guarantee about a step of
    process `p`: only home blocks are changed and logged, `bwrite` is not used on a
    logged block, and `commit` has the buffer of a block for itself. -/
def Legal (a : LogArea) (s : LogSys) (p : ℕ) : LogAct → Prop
  | .store b _ | .logWrite b => ¬ a.Mem b
  | .bwrite b => b ∉ s.log.lh
  | .commit => ∀ tail (ht : tail < s.log.lh.length),
      s.proc p = .commit (.writeLog tail) ∨ s.proc p = .commit (.installTrans tail) →
      s.pend s.log.lh[tail] = none
  | _ => True

/-- The log blocks that hold the contents of their home blocks at position `c` of
    `commit` with `n` logged blocks: those from the first number on and below the
    second. -/
def written (n : ℕ) : CommitPc → ℕ × ℕ
  | .writeLog tail => (0, tail)
  | .writeHead => (0, n)
  | .installTrans tail => (tail, n)
  | _ => (0, 0)

/-- The log blocks in the range `r` hold what their home blocks hold, except for home
    blocks that are just being changed. -/
def LogBlocks (a : LogArea) (s : LogSys) (r : ℕ × ℕ) : Prop :=
  ∀ i (h : i < s.log.lh.length), r.1 ≤ i → i < r.2 → s.pend s.log.lh[i] = none →
    s.mach.mem (a.blk (i + 1)) = s.mach.mem s.log.lh[i]

/-- A change of the contents that touches neither the log blocks nor an unchanged home
    block of the transaction. -/
theorem LogBlocks.congr {s t : LogSys} {r : ℕ × ℕ} (h : LogBlocks a s r)
    (hlog : t.log.lh = s.log.lh)
    (hm : ∀ i, i < s.log.lh.length → t.mach.mem (a.blk (i + 1)) = s.mach.mem (a.blk (i + 1)))
    (hp : ∀ b ∈ s.log.lh, t.pend b = none → s.pend b = none ∧ t.mach.mem b = s.mach.mem b) :
    LogBlocks a t r := by
  intro i hi hr hr' hpend
  have hi' : i < s.log.lh.length := by rwa [hlog] at hi
  have hb : t.log.lh[i] = s.log.lh[i] := List.getElem_of_eq hlog hi
  rw [hb] at hpend ⊢
  obtain ⟨hpend', hbm⟩ := hp _ (List.getElem_mem hi') hpend
  rw [hm i hi', hbm]
  exact h i hi' hr hr' hpend'

/-- The log blocks and the header block hold no home block. -/
theorem Fits.blk_mem {s : LogSys} (h : Fits a s) {i : ℕ} (hi : i < s.log.lh.length) :
    a.Mem (a.blk (i + 1)) :=
  LogArea.blk_mem (by have := h.room; have := a.pos; omega)

structure Copied (a : LogArea) (s : LogSys) : Prop where
  home : ∀ b ∈ s.log.lh, ¬ a.Mem b
  logging : ∀ {p o b}, s.proc p = .logWrite o b → ¬ a.Mem b
  blocks : ∀ {p c}, s.proc p = .commit c → LogBlocks a s (written s.log.lh.length c)

namespace Copied
variable {a : LogArea} {s s' : LogSys} {p : ℕ}

theorem init (d : Disk) : Copied a (init d) where
  home := by simp [LogSys.init, Log.init]
  logging h := by cases h
  blocks h := by cases h

/-- `install_trans` does not change what the cache shows. -/
theorem install_mem (h : Copied a s) {tail : ℕ} (ht : tail < s.log.lh.length)
    (hp : s.proc p = .commit (.installTrans tail)) (hpend : s.pend s.log.lh[tail] = none) :
    (installTransBody a s.log.lh[tail] tail s.mach).mem = s.mach.mem := by
  have hb := h.blocks hp tail ht le_rfl ht hpend
  simp only [installTransBody, Mach.bwrite, Mach.bread, hb, update_eq_self]

variable {t : LogSys}

/-- A step of an operation: nobody is in `commit`. -/
theorem of_no_commit (h : Copied a s) {pc : LogPc} (ht : t.proc = update s.proc p pc)
    (hno : ∀ q c, t.proc q ≠ .commit c) (hhome : ∀ b ∈ t.log.lh, ¬ a.Mem b)
    (hpc : ∀ {o b}, pc = .logWrite o b → ¬ a.Mem b) :
    Copied a t where
  home := hhome
  logging {q o b} hq := by
    by_cases hqp : q = p
    · subst hqp; rw [ht, update_self] at hq; exact hpc hq
    · rw [ht, update_of_ne hqp] at hq; exact h.logging hq
  blocks hq := absurd hq (hno _ _)

/-- A step of the process in `commit`. -/
theorem goto_commit (h : Copied a s) (hctl : Ctl s) {c c' : CommitPc} (hp : s.proc p = .commit c)
    (ht : t.proc = update s.proc p (.commit c'))
    (hlh : t.log.lh = s.log.lh ∨ t.log.lh = []) (hb : LogBlocks a t (written t.log.lh.length c')) :
    Copied a t where
  home := by rcases hlh with hlh | hlh <;> rw [hlh]; exacts [h.home, by simp]
  logging {q o b} hq := by
    by_cases hqp : q = p
    · subst hqp; rw [ht, update_self] at hq; cases hq
    · rw [ht, update_of_ne hqp] at hq; exact h.logging hq
  blocks {q c₁} hq := by
    by_cases hqp : q = p
    · subst hqp; rw [ht, update_self] at hq; cases hq; exact hb
    · rw [ht, update_of_ne hqp] at hq
      exact absurd (hctl.unique hq hp) hqp

/-- A step that leaves the control state and the header alone. -/
theorem frame (h : Copied a s) (ht : t.proc = s.proc) (hlog : t.log = s.log)
    (hm : ∀ i, i < s.log.lh.length → t.mach.mem (a.blk (i + 1)) = s.mach.mem (a.blk (i + 1)))
    (hp : ∀ b ∈ s.log.lh, t.pend b = none → s.pend b = none ∧ t.mach.mem b = s.mach.mem b) :
    Copied a t where
  home := hlog ▸ h.home
  logging hq := h.logging (ht ▸ hq)
  blocks hq := by
    rw [hlog]
    exact (h.blocks (ht ▸ hq)).congr (by rw [hlog]) hm hp

theorem store (h : Copied a s) (hf : Fits a s) {b : BlockNo} (hb : ¬ a.Mem b)
    (f : Block → Block) : Copied a (s.store p b f) := by
  refine h.frame rfl rfl (fun i hi => ?_) (fun b' _ hpend => ?_)
  · exact update_of_ne (LogArea.ne_of_not_mem hb (hf.blk_mem hi)) _ _
  · have hne : b' ≠ b := by
      rintro rfl
      simp [LogSys.store] at hpend
    simpa [LogSys.store, update_of_ne hne] using hpend

/-- The locked section of `log_write` adds a home block. -/
theorem logAdd (h : Copied a s) {o o' : Op} {b : BlockNo} (hp : s.proc p = .logWrite o b)
    (hno : ∀ q c, ((s.logAdd b).goto p (.op o')).proc q ≠ .commit c) :
    Copied a ((s.logAdd b).goto p (.op o')) := by
  refine h.of_no_commit rfl hno ?_ (fun hq => by cases hq)
  simp only [LogSys.logAdd, goto_log, Log.logWriteAdd_eq]
  split_ifs with hb
  · exact h.home
  · intro b' hb'
    rcases List.mem_append.1 hb' with hb' | hb'
    · exact h.home b' hb'
    · rw [List.mem_singleton.1 hb']; exact h.logging hp

/-- `write_log` copies one block. -/
theorem writeLog (h : Copied a s) (hctl : Ctl s) (hf : Fits a s) {tail : ℕ}
    (ht : tail < s.log.lh.length) (hp : s.proc p = .commit (.writeLog tail)) :
    Copied a ({ s with mach := writeLogBody a s.log.lh[tail] tail s.mach }.goto p
      (.commit (.writeLog (tail + 1)))) := by
  refine h.goto_commit hctl hp rfl (.inl rfl) fun i (hi : i < s.log.lh.length) _ hi' hpend => ?_
  have hsz := hf.room
  have hpos := a.pos
  have hne : s.log.lh[i] ≠ a.blk (tail + 1) :=
    (LogArea.ne_of_not_mem (h.home _ (List.getElem_mem hi)) (hf.blk_mem ht)).symm
  simp only [written] at hi'
  change update s.mach.mem _ (s.mach.mem s.log.lh[tail]) (a.blk (i + 1)) =
    update s.mach.mem _ (s.mach.mem s.log.lh[tail]) s.log.lh[i]
  rw [update_of_ne hne]
  rcases Nat.lt_succ_iff_lt_or_eq.1 hi' with hlt | rfl
  · have hne' : a.blk (i + 1) ≠ a.blk (tail + 1) := fun heq => by
      have := LogArea.blk_inj (a := a) (by omega) (by omega) heq
      omega
    rw [update_of_ne hne']
    exact h.blocks hp i hi (Nat.zero_le _) hlt hpend
  · rw [update_self]

/-- Writing the header block changes no log block and no home block. -/
theorem writeHead (h : Copied a s) (hf : Fits a s) {r : ℕ × ℕ} (hb : LogBlocks a s r) (pc : LogPc) :
    LogBlocks a ({ s with mach := Xv6.writeHead a s.log.lh s.mach }.goto p pc) r := by
  refine hb.congr rfl (fun i hi => ?_) (fun b hb hpend => ⟨hpend, ?_⟩)
  · have := hf.room; have := a.pos
    exact update_of_ne (LogArea.blk_ne_head (by omega)) _ _
  · exact update_of_ne (LogArea.ne_of_not_mem (h.home b hb) LogArea.head_mem).symm _ _

theorem step (h : Copied a s) (hctl : Ctl s) (hf : Fits a s) {x : LogAct} (hl : Legal a s p x)
    (hs : Stepped a s p x s') : Copied a s' := by
  have hctl' := hctl.step hs
  cases hs with
  | beginOp hp hb =>
    obtain ⟨hc, -, rfl⟩ := Log.beginOp_some hb
    exact h.of_no_commit rfl (hctl'.no_commit hc) h.home (fun hq => by cases hq)
  | storeOut b f hp => exact h.store hf hl f
  | storeOp b f hp => exact (h.store (p := p) hf hl f).frame rfl rfl (fun _ _ => rfl) (by simp)
  | logPanic | endPanic => exact h.frame rfl rfl (fun _ _ => rfl) (by simp)
  | logWrite b hp he =>
    have hnc := hctl.not_committing (p := p) (by simp [InOp, hp, LogPc.op?])
    exact h.of_no_commit rfl (hctl'.no_commit hnc) h.home (fun hq => by cases hq; exact hl)
  | logAdd hp =>
    have hnc := hctl.not_committing (p := p) (by simp [InOp, hp, LogPc.op?])
    exact h.logAdd hp (hctl'.no_commit (by simpa [LogSys.logAdd, Log.logWriteAdd_eq] using hnc))
  | bwrite b =>
    refine h.frame rfl rfl (fun i _ => ?_) (fun b' hb' hpend => ?_)
    · simp [LogSys.bwrite, Mach.bwrite]
    · have hne : b' ≠ b := fun heq => hl (heq ▸ hb')
      simpa [LogSys.bwrite, Mach.bwrite, update_of_ne hne] using hpend
  | endCommit hp he =>
    obtain ⟨hc, -, rfl⟩ := Log.endOp_true he
    refine ⟨h.home, fun {q o b} hq => ?_, fun {q c} hq => ?_⟩
    · by_cases hqp : q = p
      · subst hqp; simp at hq
      · rw [goto_proc, update_of_ne hqp] at hq; exact h.logging hq
    · by_cases hqp : q = p
      · subst hqp
        simp only [goto_proc, update_self, LogPc.commit.injEq] at hq
        subst hq
        exact fun i _ _ hi' => absurd hi' (by simp [written])
      · rw [goto_proc, update_of_ne hqp] at hq
        exact absurd hq (hctl.no_commit hc q c)
  | endOp hp he =>
    obtain ⟨hc, -, rfl⟩ := Log.endOp_false he
    exact h.of_no_commit rfl (hctl'.no_commit hc) h.home (fun hq => by cases hq)
  | commitEmpty hp | commitStart hp | clearHead hp =>
    exact h.goto_commit hctl hp rfl (.inl rfl) fun i _ _ hi' => absurd hi' (by simp [written])
  | writeLog ht hp => exact h.writeLog hctl hf ht hp
  | writeLogEnd hp ht =>
    refine h.goto_commit hctl hp rfl (.inl rfl) fun i hi _ _ => ?_
    exact h.blocks hp i hi (Nat.zero_le _) (Nat.lt_of_lt_of_le hi ht)
  | writeHead hp => exact h.goto_commit hctl hp rfl (.inl rfl) (h.writeHead hf (h.blocks hp) _)
  | @install tail ht hp =>
    have hm := h.install_mem ht hp (hl tail ht (.inr hp))
    refine h.goto_commit hctl hp rfl (.inl rfl) fun i hi hr hi' hpend => ?_
    simp only [goto_mach, hm]
    exact h.blocks hp i hi (by simp only [written] at hr ⊢; omega) hi' hpend
  | installEnd hp ht =>
    exact h.goto_commit hctl hp rfl (.inr rfl) fun i _ _ hi' => absurd hi' (by simp [written])
  | finish hp => exact h.of_no_commit rfl (hctl'.no_commit rfl) h.home (fun hq => by cases hq)

end Copied

/-- All of the above. -/
structure Sound (a : LogArea) (s : LogSys) : Prop where
  ctl : Ctl s
  fits : Fits a s
  grouped : Grouped s
  copied : Copied a s

namespace Sound
variable {a : LogArea} {s s' : LogSys} {p : ℕ}

theorem init (d : Disk) : Sound a (init d) :=
  ⟨.init d, ⟨Nat.zero_le _, Nat.zero_le _⟩, .init d, .init d⟩

theorem step (h : Sound a s) {x : LogAct} (hl : Legal a s p x) (hs : Stepped a s p x s')
    (hf : Fits a s') : Sound a s' :=
  ⟨h.ctl.step hs, hf, h.grouped.step hs, h.copied.step h.ctl h.fits hl hs⟩

/-- The transaction in the header. -/
def trans (h : Sound a s) : Trans a :=
  ⟨s.log.lh, h.grouped.nodup, h.copied.home, h.fits.array, h.fits.room⟩

end Sound

end LogSys

end Xv6
