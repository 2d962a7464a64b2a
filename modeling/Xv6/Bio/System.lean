/-
  Processes that share the buffer cache, the disk and the log.

  A step is one lock-protected section (`bget`'s search, `acquiresleep`,
  `releasesleep`, the end of `brelse`, the sections of `log.c`), one transfer
  by `iderw`, one store into a locked buffer, or the unlocked tests of
  `log_write`.  A process outside `commit` is a client that calls `bread`,
  `bwrite`, `brelse`, `begin_op`, `log_write` and `end_op` as it likes, as long
  as it uses only buffers it holds; `commit` runs its own code.

  `Sys.mach.mem` is not part of the kernel: it is the plain map from blocks to
  contents that the same stores are applied to.  The copies that
  `install_trans` makes are not applied to it.  `Sys.abs` forgets the cache.
-/
import Xv6.Bio.Cache
import Xv6.Log.Group

namespace Xv6

open Function

/-! ## Processes -/

/-- What a process has in progress in `bread` or `brelse`. -/
inductive Io where
  | idle
  /-- in `bread`, about to take the sleep-lock of buffer `i` -/
  | lock (i : Fin NBUF)
  /-- in `bread`, about to read buffer `i` if it is not valid -/
  | read (i : Fin NBUF)
  /-- in `brelse`, after `releasesleep` -/
  | unref (i : Fin NBUF)
  deriving DecidableEq

/-- The buffer a process refers to in `bread` or `brelse` without holding it. -/
def Io.buf? : Io → Option (Fin NBUF)
  | .lock i | .unref i => some i
  | .idle | .read _ => none

/-- The two loops of `commit`. -/
inductive Loop where
  | writeLog
  | installTrans
  deriving DecidableEq

/-- A position in the body of `write_log` or `install_trans`. -/
inductive CopyPc where
  | readLog
  /-- the log block has been asked for -/
  | readHome (l : Fin NBUF)
  | copy (dst src : Fin NBUF)
  | relSrc (dst src : Fin NBUF)
  | relDst (dst : Fin NBUF)
  deriving DecidableEq

/-- A position in `write_head`. -/
inductive HeadPc where
  | read
  | write (i : Fin NBUF)
  | rel (i : Fin NBUF)
  deriving DecidableEq

/-- A position in `commit`. -/
inductive BioCommitPc where
  | start
  | loop (k : Loop) (tail : ℕ) (c : CopyPc)
  /-- in the `write_head` that follows loop `k` -/
  | head (k : Loop) (h : HeadPc)
  | finish
  deriving DecidableEq

/-- A position of a process. -/
inductive BioPc where
  | out
  | op (o : Op)
  /-- in `log_write(b)`, between the tests and the locked section -/
  | logWrite (o : Op) (i : Fin NBUF)
  | commit (c : BioCommitPc)
  deriving DecidableEq

/-- The process runs its own code and not that of `log.c`. -/
def BioPc.Client : BioPc → Prop
  | .out | .op _ => True
  | _ => False

instance : DecidablePred BioPc.Client
  | .out | .op _ => .isTrue trivial
  | .logWrite .. | .commit _ => .isFalse id

structure Sys where
  cache : Bcache
  mach : Mach
  log : Log
  pc : ℕ → BioPc
  io : ℕ → Io
  panic : Option BioPanic
  nops : ℕ
  stores : List Store
  done : ℕ
  group : List BlockNo
  pend : BlockNo → Option ℕ

/-- What a process does next. -/
inductive BioAct where
  | bread (dev : UInt32) (b : BlockNo)
  /-- change the contents of a buffer -/
  | store (i : Fin NBUF) (f : Block → Block)
  | bwrite (i : Fin NBUF)
  | brelse (i : Fin NBUF)
  | beginOp
  | logWrite (i : Fin NBUF)
  | endOp
  /-- go on with the function the process is in -/
  | run

namespace Sys

/-- The system after `initlog`, with disk `d` and an empty cache. -/
def init (d : Disk) : Sys where
  cache := .init
  mach := .boot d
  log := .init
  pc _ := .out
  io _ := .idle
  panic := none
  nops := 0
  stores := []
  done := 0
  group := []
  pend _ := none

/-- Process `p` goes to position `pc` with `io` in progress. -/
def goto (s : Sys) (p : ℕ) (io : Io) (pc : BioPc) : Sys :=
  { s with io := update s.io p io, pc := update s.pc p pc }

def fail (s : Sys) (e : BioPanic) : Sys := { s with panic := some e }

/-! ## `bio.c` -/

/-- `bget(dev, b)` up to `acquiresleep`; `k` is where `bread` returns to. -/
def bget (s : Sys) (p : ℕ) (dev : UInt32) (b : BlockNo) (k : Fin NBUF → BioPc) : Sys :=
  match s.cache.bget dev b with
  | some (c, i) => { s with cache := c }.goto p (.lock i) (k i)
  | none => s.fail .noBuffers

/-- `brelse(b)` up to `releasesleep`; the process goes on at `pc`. -/
def brelse (s : Sys) (p : ℕ) (i : Fin NBUF) (pc : BioPc) : Sys :=
  if (s.cache.buf i).holder.isNone then s.fail .brelse
  else { s with cache := s.cache.set i { s.cache.buf i with holder := none } }.goto p (.unref i) pc

/-- The rest of `bread` and `brelse`. -/
def runIo (disksize : ℕ) (s : Sys) (p : ℕ) : Io → Option Sys
  | .idle => none
  | .lock i =>
    if (s.cache.buf i).holder.isSome then none   -- `acquiresleep` waits
    else some ({ s with cache := s.cache.set i { s.cache.buf i with holder := some p } }.goto p
      (.read i) (s.pc p))
  | .read i =>
    if (s.cache.buf i).valid then some (s.goto p .idle (s.pc p))
    else match iderw disksize (s.cache.buf i) s.mach with
      | .ok (b, m) => some ({ s with cache := s.cache.set i b, mach := m }.goto p .idle (s.pc p))
      | .error e => some (s.fail e)
  | .unref i => some ({ s with cache := s.cache.unref i }.goto p .idle (s.pc p))

/-- `bwrite(b)` of a buffer that has been filled with `v`. -/
def bwrite (disksize : ℕ) (s : Sys) (i : Fin NBUF) (v : Block) (k : Sys → Sys) : Sys :=
  match { s.cache.buf i with data := v }.bwrite disksize s.mach with
  | .ok (b, m) => k { s with cache := s.cache.set i b, mach := m }
  | .error e => s.fail e

/-! ## `log.c` -/

/-- The store of `f` in block `b` on the plain map. -/
def setMem (s : Sys) (b : BlockNo) (v : Block) : Sys :=
  { s with mach := { s.mach with mem := update s.mach.mem b v } }

/-- One step of `commit`. -/
def commitStep (a : LogArea) (disksize : ℕ) (s : Sys) (p : ℕ) : BioCommitPc → Sys
  | .start => s.goto p .idle
      (.commit (if 0 < s.log.lh.length then .loop .writeLog 0 .readLog else .finish))
  | .loop k tail .readLog =>
    if tail < s.log.lh.length then
      s.bget p ROOTDEV (a.blk (tail + 1)) fun l => .commit (.loop k tail (.readHome l))
    else match k with
      | .writeLog => s.goto p .idle (.commit (.head .writeLog .read))
      | .installTrans => { s with log := { s.log with lh := [] }, group := [] }.goto p .idle
          (.commit (.head .installTrans .read))
  | .loop k tail (.readHome l) =>
    s.bget p ROOTDEV (s.log.lh.getD tail 0) fun h =>
      .commit (.loop k tail (match k with | .writeLog => .copy l h | .installTrans => .copy h l))
  | .loop k tail (.copy dst src) =>
    s.bwrite disksize dst (s.cache.buf src).data fun t =>
      (match k with
      | .writeLog => t.setMem (s.cache.buf dst).blockno (s.mach.mem (s.cache.buf src).blockno)
      | .installTrans => t).goto p .idle (.commit (.loop k tail (.relSrc dst src)))
  | .loop k tail (.relSrc dst src) => s.brelse p src (.commit (.loop k tail (.relDst dst)))
  | .loop k tail (.relDst dst) => s.brelse p dst (.commit (.loop k (tail + 1) .readLog))
  | .head k .read => s.bget p ROOTDEV a.head fun i => .commit (.head k (.write i))
  | .head k (.write i) =>
    s.bwrite disksize i (encodeHead s.log.lh (s.cache.buf i).data) fun t =>
      (t.setMem (s.cache.buf i).blockno
        (encodeHead s.log.lh (s.mach.mem (s.cache.buf i).blockno))).goto p .idle
        (.commit (.head k (.rel i)))
  | .head k (.rel i) => s.brelse p i
      (.commit (match k with | .writeLog => .loop .installTrans 0 .readLog | .installTrans => .finish))
  | .finish => { s with log := s.log.commitDone, done := s.nops }.goto p .idle .out

/-- A client changes the contents of buffer `i`. -/
def store (s : Sys) (p : ℕ) (i : Fin NBUF) (f : Block → Block) (ss : List Store) : Sys :=
  let b := (s.cache.buf i).blockno
  { s.setMem b (f (s.mach.mem b)) with
    cache := s.cache.set i { s.cache.buf i with data := f (s.cache.buf i).data }
    pend := update s.pend b (some p)
    stores := ss }

/-- The locked section of `log_write`. -/
def logAdd (s : Sys) (p : ℕ) (o : Op) (i : Fin NBUF) : Sys :=
  let b := (s.cache.buf i).blockno
  { s with
    log := s.log.logWriteAdd b
    cache := s.cache.set i { s.cache.buf i with dirty := true }
    group := s.group ++ [b]
    pend := update s.pend b none }.goto p .idle (.op { o with logged := o.logged ++ [b] })

/-- A call made by a client. -/
def client (a : LogArea) (disksize : ℕ) (s : Sys) (p : ℕ) : BioAct → Option Sys
  | .bread dev b => if (s.pc p).Client then some (s.bget p dev b fun _ => s.pc p) else none
  | .store i f =>
    if (s.cache.buf i).holder = some p then
      match s.pc p with
      | .out => some (s.store p i f s.stores)
      | .op o => some (s.store p i f (s.stores ++ [Store.mk o.id (s.cache.buf i).blockno f]))
      | _ => none
    else none
  | .bwrite i =>
    if (s.pc p).Client ∧ (s.cache.buf i).holder = some p then
      some (s.bwrite disksize i (s.cache.buf i).data fun t =>
        { t with pend := update t.pend (s.cache.buf i).blockno none })
    else none
  | .brelse i =>
    if (s.pc p).Client ∧ (s.cache.buf i).holder = some p then some (s.brelse p i (s.pc p)) else none
  | .beginOp =>
    match s.pc p with
    | .out => s.log.beginOp.map fun l =>
        { s with log := l, nops := s.nops + 1 }.goto p .idle (.op ⟨s.nops, []⟩)
    | _ => none
  | .logWrite i =>
    match s.pc p with
    | .op o =>
      if (s.cache.buf i).holder = some p then
        match s.log.logWriteTest a.size with
        | .error e => some (s.fail (.log e))
        | .ok () => some (s.goto p .idle (.logWrite o i))
      else none
    | _ => none
  | .endOp =>
    match s.pc p with
    | .op _ =>
      match s.log.endOp with
      | .error e => some (s.fail (.log e))
      | .ok (l, true) => some ({ s with log := l }.goto p .idle (.commit .start))
      | .ok (l, false) => some ({ s with log := l }.goto p .idle .out)
    | _ => none
  | .run => none

/-- One step of process `p`; `none` if it cannot take it. -/
def next (a : LogArea) (disksize : ℕ) (s : Sys) (p : ℕ) (x : BioAct) : Option Sys :=
  if s.panic.isSome then none else
  match s.io p, x with
  | .idle, .run =>
    match s.pc p with
    | .logWrite o i => some (s.logAdd p o i)
    | .commit c => some (s.commitStep a disksize p c)
    | _ => none
  | .idle, x => s.client a disksize p x
  | io, .run => s.runIo disksize p io
  | _, _ => none

/-! ## What a step can be -/

/-- Process `p` calls `bread(dev, b)` by action `x` and goes to `k i` with buffer `i`. -/
inductive Calls (a : LogArea) (s : Sys) (p : ℕ) :
    BioAct → UInt32 → BlockNo → (Fin NBUF → BioPc) → Prop
  | client (dev : UInt32) (b : BlockNo) : (s.pc p).Client →
      Calls a s p (.bread dev b) dev b fun _ => s.pc p
  | log {k : Loop} {tail : ℕ} : s.pc p = .commit (.loop k tail .readLog) →
      tail < s.log.lh.length →
      Calls a s p .run ROOTDEV (a.blk (tail + 1)) fun l => .commit (.loop k tail (.readHome l))
  | home {k : Loop} {tail : ℕ} {l : Fin NBUF} : s.pc p = .commit (.loop k tail (.readHome l)) →
      Calls a s p .run ROOTDEV (s.log.lh.getD tail 0) fun h =>
        .commit (.loop k tail (match k with | .writeLog => .copy l h | .installTrans => .copy h l))
  | head {k : Loop} : s.pc p = .commit (.head k .read) →
      Calls a s p .run ROOTDEV a.head fun i => .commit (.head k (.write i))

/-- Process `p` calls `brelse` on buffer `i` by action `x` and goes to `pc`. -/
inductive Releases (s : Sys) (p : ℕ) : BioAct → Fin NBUF → BioPc → Prop
  | client (i : Fin NBUF) : (s.pc p).Client → (s.cache.buf i).holder = some p →
      Releases s p (.brelse i) i (s.pc p)
  | src {k : Loop} {tail : ℕ} {dst src : Fin NBUF} :
      s.pc p = .commit (.loop k tail (.relSrc dst src)) →
      Releases s p .run src (.commit (.loop k tail (.relDst dst)))
  | dst {k : Loop} {tail : ℕ} {dst : Fin NBUF} : s.pc p = .commit (.loop k tail (.relDst dst)) →
      Releases s p .run dst (.commit (.loop k (tail + 1) .readLog))
  | head {k : Loop} {i : Fin NBUF} : s.pc p = .commit (.head k (.rel i)) →
      Releases s p .run i (.commit (match k with
        | .writeLog => .loop .installTrans 0 .readLog | .installTrans => .finish))

/-- The steps of process `p`. -/
inductive Stepped (a : LogArea) (s : Sys) (p : ℕ) : BioAct → Sys → Prop
  | bget {x : BioAct} {dev : UInt32} {b : BlockNo} {k : Fin NBUF → BioPc} {c : Bcache}
      {i : Fin NBUF} : s.io p = .idle → Calls a s p x dev b k → s.cache.Got dev b i c →
      Stepped a s p x ({ s with cache := c }.goto p (.lock i) (k i))
  | fail {x : BioAct} (e : BioPanic) : (∀ e', e ≠ .log e') → Stepped a s p x (s.fail e)
  | lock {i : Fin NBUF} : s.io p = .lock i → (s.cache.buf i).holder = none →
      Stepped a s p .run ({ s with
        cache := s.cache.set i { s.cache.buf i with holder := some p } }.goto p (.read i) (s.pc p))
  | hit {i : Fin NBUF} : s.io p = .read i → (s.cache.buf i).valid = true →
      Stepped a s p .run (s.goto p .idle (s.pc p))
  | fetch {i : Fin NBUF} {disksize : ℕ} {b : Buf} {m : Mach} : s.io p = .read i →
      (s.cache.buf i).valid = false → iderw disksize (s.cache.buf i) s.mach = .ok (b, m) →
      Stepped a s p .run ({ s with cache := s.cache.set i b, mach := m }.goto p .idle (s.pc p))
  | unref {i : Fin NBUF} : s.io p = .unref i →
      Stepped a s p .run ({ s with cache := s.cache.unref i }.goto p .idle (s.pc p))
  | brelse {x : BioAct} {i : Fin NBUF} {pc : BioPc} : s.io p = .idle → Releases s p x i pc →
      (s.cache.buf i).holder.isSome →
      Stepped a s p x ({ s with
        cache := s.cache.set i { s.cache.buf i with holder := none } }.goto p (.unref i) pc)
  | storeOut {i : Fin NBUF} (f : Block → Block) : s.io p = .idle →
      (s.cache.buf i).holder = some p → s.pc p = .out →
      Stepped a s p (.store i f) (s.store p i f s.stores)
  | storeOp {i : Fin NBUF} (f : Block → Block) {o : Op} : s.io p = .idle →
      (s.cache.buf i).holder = some p → s.pc p = .op o →
      Stepped a s p (.store i f)
        (s.store p i f (s.stores ++ [Store.mk o.id (s.cache.buf i).blockno f]))
  | bwrite {i : Fin NBUF} {disksize : ℕ} {b : Buf} {m : Mach} : s.io p = .idle → (s.pc p).Client →
      (s.cache.buf i).holder = some p → (s.cache.buf i).bwrite disksize s.mach = .ok (b, m) →
      Stepped a s p (.bwrite i) { s with
        cache := s.cache.set i b, mach := m
        pend := update s.pend (s.cache.buf i).blockno none }
  | copyLog {tail : ℕ} {dst src : Fin NBUF} {disksize : ℕ} {b : Buf} {m : Mach} :
      s.io p = .idle → s.pc p = .commit (.loop .writeLog tail (.copy dst src)) →
      { s.cache.buf dst with data := (s.cache.buf src).data }.bwrite disksize s.mach = .ok (b, m) →
      Stepped a s p .run (({ s with cache := s.cache.set dst b, mach := m }.setMem
        (s.cache.buf dst).blockno (s.mach.mem (s.cache.buf src).blockno)).goto p .idle
        (.commit (.loop .writeLog tail (.relSrc dst src))))
  | copyHome {tail : ℕ} {dst src : Fin NBUF} {disksize : ℕ} {b : Buf} {m : Mach} :
      s.io p = .idle → s.pc p = .commit (.loop .installTrans tail (.copy dst src)) →
      { s.cache.buf dst with data := (s.cache.buf src).data }.bwrite disksize s.mach = .ok (b, m) →
      Stepped a s p .run ({ s with cache := s.cache.set dst b, mach := m }.goto p .idle
        (.commit (.loop .installTrans tail (.relSrc dst src))))
  | writeHead {k : Loop} {i : Fin NBUF} {disksize : ℕ} {b : Buf} {m : Mach} : s.io p = .idle →
      s.pc p = .commit (.head k (.write i)) →
      { s.cache.buf i with data := encodeHead s.log.lh (s.cache.buf i).data }.bwrite disksize s.mach
        = .ok (b, m) →
      Stepped a s p .run (({ s with cache := s.cache.set i b, mach := m }.setMem
        (s.cache.buf i).blockno
        (encodeHead s.log.lh (s.mach.mem (s.cache.buf i).blockno))).goto p .idle
        (.commit (.head k (.rel i))))
  | beginOp {l : Log} : s.io p = .idle → s.pc p = .out → s.log.beginOp = some l →
      Stepped a s p .beginOp
        ({ s with log := l, nops := s.nops + 1 }.goto p .idle (.op ⟨s.nops, []⟩))
  | logPanic {i : Fin NBUF} {o : Op} {e : LogPanic} : s.pc p = .op o →
      s.log.logWriteTest a.size = .error e → Stepped a s p (.logWrite i) (s.fail (.log e))
  | logWrite {i : Fin NBUF} {o : Op} : s.io p = .idle → s.pc p = .op o →
      (s.cache.buf i).holder = some p → s.log.logWriteTest a.size = .ok () →
      Stepped a s p (.logWrite i) (s.goto p .idle (.logWrite o i))
  | logAdd {i : Fin NBUF} {o : Op} : s.io p = .idle → s.pc p = .logWrite o i →
      Stepped a s p .run (s.logAdd p o i)
  | endPanic {o : Op} {e : LogPanic} : s.pc p = .op o → s.log.endOp = .error e →
      Stepped a s p .endOp (s.fail (.log e))
  | endCommit {o : Op} {l : Log} : s.io p = .idle → s.pc p = .op o →
      s.log.endOp = .ok (l, true) →
      Stepped a s p .endOp ({ s with log := l }.goto p .idle (.commit .start))
  | endOp {o : Op} {l : Log} : s.io p = .idle → s.pc p = .op o → s.log.endOp = .ok (l, false) →
      Stepped a s p .endOp ({ s with log := l }.goto p .idle .out)
  | commitEmpty : s.io p = .idle → s.pc p = .commit .start → s.log.lh = [] →
      Stepped a s p .run (s.goto p .idle (.commit .finish))
  | commitStart : s.io p = .idle → s.pc p = .commit .start →
      Stepped a s p .run (s.goto p .idle (.commit (.loop .writeLog 0 .readLog)))
  | writeLogEnd {tail : ℕ} : s.io p = .idle → s.pc p = .commit (.loop .writeLog tail .readLog) →
      s.log.lh.length ≤ tail →
      Stepped a s p .run (s.goto p .idle (.commit (.head .writeLog .read)))
  | installEnd {tail : ℕ} : s.io p = .idle →
      s.pc p = .commit (.loop .installTrans tail .readLog) → s.log.lh.length ≤ tail →
      Stepped a s p .run ({ s with log := { s.log with lh := [] }, group := [] }.goto p .idle
        (.commit (.head .installTrans .read)))
  | finish : s.io p = .idle → s.pc p = .commit .finish →
      Stepped a s p .run ({ s with log := s.log.commitDone, done := s.nops }.goto p .idle .out)

section
variable {a : LogArea} {disksize : ℕ} {s s' : Sys} {p : ℕ} {x : BioAct}

theorem bget_stepped {dev : UInt32} {b : BlockNo} {k : Fin NBUF → BioPc} (hio : s.io p = .idle)
    (h : Calls a s p x dev b k) : Stepped a s p x (s.bget p dev b k) := by
  unfold bget
  split
  next c i hc => exact .bget hio h (Bcache.bget_some hc)
  next => exact .fail _ (by rintro _ ⟨⟩)

theorem brelse_stepped {i : Fin NBUF} {pc : BioPc} (hio : s.io p = .idle)
    (h : Releases s p x i pc) : Stepped a s p x (s.brelse p i pc) := by
  unfold brelse
  split_ifs with hh
  · exact .fail _ (by rintro _ ⟨⟩)
  · exact .brelse hio h (by simpa [Option.isSome_iff_ne_none] using hh)

/-- No transfer ends in a panic of the log. -/
theorem iderw_error {b : Buf} {m : Mach} {e : BioPanic} (h : iderw disksize b m = .error e) :
    ∀ e', e ≠ .log e' := by
  unfold iderw at h
  split_ifs at h <;> cases h <;> rintro _ ⟨⟩

theorem bwrite_error {b : Buf} {m : Mach} {e : BioPanic} (h : b.bwrite disksize m = .error e) :
    ∀ e', e ≠ .log e' := by
  unfold Buf.bwrite at h
  split_ifs at h
  · cases h; rintro _ ⟨⟩
  · exact iderw_error h

theorem runIo_stepped (h : s.runIo disksize p (s.io p) = some s') : Stepped a s p .run s' := by
  rcases hio : s.io p with _ | i | i | i <;> rw [hio] at h
  · cases h
  · simp only [runIo] at h
    split_ifs at h with hh
    cases h
    exact .lock hio (by simpa using hh)
  · simp only [runIo] at h
    split_ifs at h with hv
    · cases h; exact .hit hio hv
    · split at h
      next b m hb => cases h; exact .fetch hio (by simpa using hv) hb
      next e he => cases h; exact .fail e (iderw_error he)
  · cases h
    exact .unref hio

theorem commitStep_stepped (a : LogArea) (disksize : ℕ) {c : BioCommitPc} (hio : s.io p = .idle)
    (hp : s.pc p = .commit c) : Stepped a s p .run (s.commitStep a disksize p c) := by
  rcases c with _ | ⟨k, tail, c⟩ | ⟨k, c⟩ | _
  · unfold commitStep
    split_ifs with hn
    · exact .commitStart hio hp
    · exact .commitEmpty hio hp (by simpa using hn)
  · rcases c with _ | l | ⟨dst, src⟩ | ⟨dst, src⟩ | dst
    · simp only [commitStep]
      split_ifs with ht
      · exact bget_stepped hio (.log hp ht)
      · cases k with
        | writeLog => exact .writeLogEnd hio hp (Nat.not_lt.1 ht)
        | installTrans => exact .installEnd hio hp (Nat.not_lt.1 ht)
    · exact bget_stepped hio (.home hp)
    · simp only [commitStep, bwrite]
      split
      next b m hb =>
        cases k with
        | writeLog => exact .copyLog hio hp hb
        | installTrans => exact .copyHome hio hp hb
      next e he => exact .fail e (bwrite_error he)
    · exact brelse_stepped hio (.src hp)
    · exact brelse_stepped hio (.dst hp)
  · rcases c with _ | i | i
    · exact bget_stepped hio (.head hp)
    · simp only [commitStep, bwrite]
      split
      next b m hb => exact .writeHead hio hp hb
      next e he => exact .fail e (bwrite_error he)
    · exact brelse_stepped hio (.head hp)
  · exact .finish hio hp

theorem client_stepped (hio : s.io p = .idle) (h : s.client a disksize p x = some s') :
    Stepped a s p x s' := by
  cases x with
  | bread dev b =>
    simp only [client] at h
    split_ifs at h with hc
    cases h
    exact bget_stepped hio (.client dev b hc)
  | store i f =>
    simp only [client] at h
    split_ifs at h with hh
    split at h
    next hp => cases h; exact .storeOut f hio hh hp
    next o hp => cases h; exact .storeOp f hio hh hp
    next => cases h
  | bwrite i =>
    simp only [client, bwrite] at h
    split_ifs at h with hc
    cases h
    split
    next b m hb => exact .bwrite hio hc.1 hc.2 hb
    next e he => exact .fail e (bwrite_error he)
  | brelse i =>
    simp only [client] at h
    split_ifs at h with hc
    cases h
    exact brelse_stepped hio (.client i hc.1 hc.2)
  | beginOp =>
    simp only [client] at h
    split at h
    next hp =>
      obtain ⟨l, hl, rfl⟩ := Option.map_eq_some_iff.1 h
      exact .beginOp hio hp hl
    next => cases h
  | logWrite i =>
    simp only [client] at h
    split at h
    next o hp =>
      split_ifs at h with hh
      split at h
      next e he => cases h; exact .logPanic hp he
      next he => cases h; exact .logWrite hio hp hh he
    next => cases h
  | endOp =>
    simp only [client] at h
    split at h
    next o hp =>
      split at h
      next e he => cases h; exact .endPanic hp he
      next l he => cases h; exact .endCommit hio hp he
      next l he => cases h; exact .endOp hio hp he
    next => cases h
  | run => cases h

theorem next_stepped (h : s.next a disksize p x = some s') : s.panic = none ∧ Stepped a s p x s' := by
  unfold next at h
  split_ifs at h with hpan
  refine ⟨by simpa using hpan, ?_⟩
  split at h
  next hio =>
    split at h
    next o i hp => cases h; exact .logAdd hio hp
    next c hp => cases h; exact commitStep_stepped a disksize hio hp
    next => cases h
  next hio _ => exact client_stepped hio h
  next => exact runIo_stepped h
  next => cases h

end

end Sys

end Xv6
