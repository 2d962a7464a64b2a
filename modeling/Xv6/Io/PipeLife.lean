/-
  Pipes and the descriptors that refer to them (`pipe.c`, `file.c`,
  `sysfile.c`, `proc.c`).

  Processes make pipes, pass descriptors on with `dup` and `fork`, read, write,
  close and exit.  A step is what a process does between two operations on a
  lock; what it does to its own descriptors goes with such a step.  Pages are
  numbered in the order in which `pipealloc` gets them from `kalloc`, which
  panics when there are none.
-/
import Xv6.Io.File
import Xv6.Io.Calls

namespace Xv6.PipeLife

open Function

/-- `piperead` with the count, or `pipewrite` with the bytes that are left. -/
inductive Rw where
  | read (n : ℕ)
  | write (bs : List UInt8)

/-- Where `fileclose` returns to. -/
inductive Cont where
  /-- `sys_close`, and the error paths of `sys_pipe` and `sys_open`, with the files to close next -/
  | close (fs : List (Fin NFILE))
  /-- the loop of `exit` -/
  | exit (fd : ℕ)

inductive Pc where
  | unused
  /-- made by `fork`, which has not yet returned -/
  | embryo
  | zombie
  | user
  /-- `pipealloc`: has one file, has both -/
  | pipe1 (f0 : Fin NFILE) | pipe2 (f0 f1 : Fin NFILE)
  /-- `sys_open`: has the file -/
  | open1 (f : Fin NFILE)
  /-- `fork`: before the descriptor `i` is passed on -/
  | fork (np : ℕ) (i : ℕ)
  /-- before the next `fileclose` -/
  | run (k : Cont)
  /-- `pipeclose`: before `acquire`, in the critical section, before `release`, before `kfree` -/
  | clAcq (p : ℕ) (writable : Bool) (k : Cont) | clCrit (p : ℕ) (writable : Bool) (k : Cont)
  | clRel (p : ℕ) (writable : Bool) (last : Bool) (k : Cont) | clFree (p : ℕ) (k : Cont)
  /-- `piperead` and `pipewrite`: before `acquire`, in the loop, before `release`; after that the
      call returns, or it sleeps and goes on with the loop -/
  | rwAcq (p : ℕ) (x : Rw) | rwCrit (p : ℕ) (x : Rw) | rwRel (p : ℕ) (next : Option Rw)

/-- A process: its descriptors and where it is. -/
structure ProcFiles where
  ofile : Ofile
  pc : Pc

/-- A page that holds, or held, a pipe. -/
structure PipePage where
  pipe : Pipe
  lock : Option ℕ
  /-- how often the page has been passed to `kfree` -/
  frees : ℕ

structure State where
  procs : ℕ → ProcFiles
  ftable : Ftable
  pages : ℕ → PipePage
  npages : ℕ

inductive Call where
  | pipe
  | open
  | dup (fd : Fin NOFILE)
  | close (fd : Fin NOFILE)
  | fork (np : ℕ)
  | exit
  | wait (np : ℕ)
  | read (fd : Fin NOFILE) (n : ℕ)
  | write (fd : Fin NOFILE) (bs : List UInt8)

/-- What a step finds: `proc->killed`, the bytes of the page that `kalloc` returns, and the inode
    that `sys_open` has found and the mode it was called with. -/
structure Env where
  killed : Bool
  page : Fin PIPESIZE → UInt8
  ip : Fin NINODE
  omode : UInt32

inductive Label where
  | call (p : ℕ) (x : Call)
  | step (p : ℕ) (e : Env)

namespace State

def setProc (s : State) (p : ℕ) (x : ProcFiles) : State :=
  { s with procs := update s.procs p x }

def setPage (s : State) (a : ℕ) (x : PipePage) : State :=
  { s with pages := update s.pages a x }

/-- Process `p` goes on at `pc`. -/
def goto (s : State) (p : ℕ) (pc : Pc) : State := s.setProc p { s.procs p with pc }

end State

/-- The loop of `piperead` or `pipewrite`, up to a `sleep` or the `release` at the end. -/
def rwLoop (killed : Bool) (pipe : Pipe) : Rw → Pipe × Option Rw
  | .read n =>
    if pipe.nread = pipe.nwrite ∧ pipe.writeopen then
      (pipe, if killed then none else some (.read n))
    else ((pipe.drain n).1, none)
  | .write bs =>
    let r := pipe.fill bs
    if bs.drop r.2 = [] then (r.1, none)
    else if pipe.readopen = false ∨ killed then (r.1, none)
    else (r.1, some (.write (bs.drop r.2)))

/-- The kernel's `piperead` does the same to the pipe, and sleeps when this one goes on. -/
theorem rwLoop_read (proc : Proc) (g : IoData) (n : ℕ) :
    (rwLoop proc.killed g.pipe (.read n)).1 = (pipereadLoop proc g n).2.pipe ∧
    ((rwLoop proc.killed g.pipe (.read n)).2 = some (.read n) ↔
      (pipereadLoop proc g n).1 = .sleep nreadChan .pipe (.readLoop n)) := by
  rw [rwLoop, pipereadLoop]
  split_ifs <;> simp

/-- So does `pipewrite`, which wakes the readers first. -/
theorem rwLoop_write (p : PSlot) (proc : Proc) (g : IoData) (bs rest : List UInt8) :
    (rwLoop proc.killed g.pipe (.write bs)).1 = (pipewriteLoop p proc g bs).2.pipe ∧
    ((rwLoop proc.killed g.pipe (.write bs)).2 = some (.write rest) ↔
      (pipewriteLoop p proc g bs).1 = .goto (.writeWake rest)) := by
  simp only [rwLoop, pipewriteLoop]
  split_ifs <;> simp

/-- The file ends of the new pipe `a`. -/
def readEnd (f : File) (a : ℕ) : File :=
  { f with type := .FD_PIPE, readable := true, writable := false, pipe := a }

def writeEnd (f : File) (a : ℕ) : File :=
  { f with type := .FD_PIPE, readable := false, writable := true, pipe := a }

abbrev O_WRONLY : UInt32 := 0x001

abbrev O_RDWR : UInt32 := 0x002

/-- The end of `sys_open`. -/
def openFile (f : File) (ip : Fin NINODE) (omode : UInt32) : File :=
  { f with
    type := .FD_INODE
    ip := ip
    off := 0
    readable := omode &&& O_WRONLY = 0
    writable := omode &&& O_WRONLY ≠ 0 ∨ omode &&& O_RDWR ≠ 0 }

/-- `fdalloc` for both ends in `sys_pipe`. -/
def pipeFds (x : ProcFiles) (f0 f1 : Fin NFILE) : ProcFiles :=
  let fail := { x with pc := .run (.close [f0, f1]) }
  match fdalloc x.ofile with
  | none => fail
  | some fd0 =>
    let o := update x.ofile fd0 (some f0)
    match fdalloc o with
    | none => { fail with ofile := update o fd0 none }
    | some fd1 => ⟨update o fd1 (some f1), .user⟩

/-- `fileclose` returns. -/
def ProcFiles.closed (x : ProcFiles) : Cont → ProcFiles
  | .close fs => { x with pc := .run (.close fs) }
  | .exit fd =>
    if h : fd < NOFILE then ⟨update x.ofile ⟨fd, h⟩ none, .run (.exit (fd + 1))⟩ else x

/-- `fileclose` of `f`, which returns to `k`, up to the `release` of `ftable.lock`. -/
def State.fileclose (s : State) (p : ℕ) (f : Fin NFILE) (k : Cont) : Option State := do
  let (t, ff) ← Xv6.fileclose s.ftable f
  let s := { s with ftable := t }
  match ff with
  | some ff =>
    if ff.type = .FD_PIPE then some (s.goto p (.clAcq ff.pipe ff.writable k))
    else some (s.setProc p ((s.procs p).closed k))
  | none => some (s.setProc p ((s.procs p).closed k))

/-- A system call up to its first operation on a lock. -/
def State.call (s : State) (p : ℕ) : Call → Option State
  | .pipe =>
    match filealloc s.ftable with
    | none => some s
    | some (f0, t) => some ({ s with ftable := t }.goto p (.pipe1 f0))
  | .open =>
    match filealloc s.ftable with
    | none => some s
    | some (f, t) => some ({ s with ftable := t }.goto p (.open1 f))
  | .dup fd =>
    match (s.procs p).ofile fd with
    | none => some s
    | some f =>
      match fdalloc (s.procs p).ofile with
      | none => some s
      | some fd' => do
        let t ← filedup s.ftable f
        some ({ s with ftable := t }.setProc p
          ⟨update (s.procs p).ofile fd' (some f), .user⟩)
  | .close fd =>
    match (s.procs p).ofile fd with
    | none => some s
    | some f =>
      some (s.setProc p ⟨update (s.procs p).ofile fd none, .run (.close [f])⟩)
  | .fork np =>
    match (s.procs np).pc with
    | .unused => some ((s.goto np .embryo).goto p (.fork np 0))
    | _ => none
  | .exit => some (s.goto p (.run (.exit 0)))
  | .wait np =>
    match (s.procs np).pc with
    | .zombie => some (s.goto np .unused)
    | _ => none
  | .read fd n =>
    match (s.procs p).ofile fd with
    | none => some s
    | some f =>
      if (s.ftable f).readable ∧ (s.ftable f).type = .FD_PIPE then
        some (s.goto p (.rwAcq (s.ftable f).pipe (.read n)))
      else some s
  | .write fd bs =>
    match (s.procs p).ofile fd with
    | none => some s
    | some f =>
      if (s.ftable f).writable ∧ (s.ftable f).type = .FD_PIPE then
        some (s.goto p (.rwAcq (s.ftable f).pipe (.write bs)))
      else some s

/-- `acquire(&p->lock)` -/
def State.acquire (s : State) (p a : ℕ) (pc : Pc) : Option State :=
  if (s.pages a).lock = none then
    some ((s.setPage a { s.pages a with lock := some p }).goto p pc)
  else none

/-- `release(&p->lock)` -/
def State.release (s : State) (a : ℕ) : State := s.setPage a { s.pages a with lock := none }

/-- The flag that `pipeclose` clears. -/
def clear (pipe : Pipe) (writable : Bool) : Pipe :=
  if writable then { pipe with writeopen := false } else { pipe with readopen := false }

/-- The next step of process `p`. -/
def State.step (s : State) (p : ℕ) (e : Env) : Option State :=
  let x := s.procs p
  match x.pc with
  | .unused => none
  | .embryo => none
  | .zombie => none
  | .user => none
  | .pipe1 f0 =>
    match filealloc s.ftable with
    | none => some (s.goto p (.run (.close [f0])))
    | some (f1, t) => some ({ s with ftable := t }.goto p (.pipe2 f0 f1))
  | .pipe2 f0 f1 =>
    let a := s.npages
    let t := update s.ftable f0 (readEnd (s.ftable f0) a)
    let t := update t f1 (writeEnd (t f1) a)
    some ({ s with ftable := t, npages := a + 1 }.setPage a ⟨.pipealloc e.page, none, 0⟩
      |>.setProc p (pipeFds x f0 f1))
  | .open1 f =>
    match fdalloc x.ofile with
    | none => some (s.goto p (.run (.close [f])))
    | some fd =>
      let t := update s.ftable f (openFile (s.ftable f) e.ip e.omode)
      some ({ s with ftable := t }.setProc p ⟨update x.ofile fd (some f), .user⟩)
  | .fork np i =>
    if h : i < NOFILE then
      match x.ofile ⟨i, h⟩ with
      | none => some (s.goto p (.fork np (i + 1)))
      | some f => do
        let t ← filedup s.ftable f
        let child := s.procs np
        some (({ s with ftable := t }.setProc np
          { child with ofile := update child.ofile ⟨i, h⟩ (some f) }).goto p
            (.fork np (i + 1)))
    else some ((s.goto np .user).goto p .user)
  | .run (.close []) => some (s.goto p .user)
  | .run (.close (f :: fs)) => s.fileclose p f (.close fs)
  | .run (.exit fd) =>
    if h : fd < NOFILE then
      match x.ofile ⟨fd, h⟩ with
      | none => some (s.goto p (.run (.exit (fd + 1))))
      | some f => s.fileclose p f (.exit fd)
    else some (s.goto p .zombie)
  | .clAcq a w k => s.acquire p a (.clCrit a w k)
  | .clCrit a w k =>
    let pipe := clear (s.pages a).pipe w
    let last := !pipe.readopen && !pipe.writeopen
    some ((s.setPage a { s.pages a with pipe }).goto p (.clRel a w last k))
  | .clRel a _ true k => some ((s.release a).goto p (.clFree a k))
  | .clRel a _ false k => some ((s.release a).setProc p (x.closed k))
  | .clFree a k =>
    some ((s.setPage a { s.pages a with frees := (s.pages a).frees + 1 }).setProc p (x.closed k))
  | .rwAcq a y => s.acquire p a (.rwCrit a y)
  | .rwCrit a y =>
    let r := rwLoop e.killed (s.pages a).pipe y
    some ((s.setPage a { s.pages a with pipe := r.1 }).goto p (.rwRel a r.2))
  | .rwRel a none => some ((s.release a).goto p .user)
  | .rwRel a (some y) => some ((s.release a).goto p (.rwAcq a y))

def State.next (s : State) : Label → Option State
  | .call p x =>
    match (s.procs p).pc with
    | .user => s.call p x
    | _ => none
  | .step p e => s.step p e

end Xv6.PipeLife
