/-
  System calls that wait: `piperead`, `pipewrite` and `pipeclose` on one pipe,
  `sys_sleep` and `consoleread`.

  What the interrupt handlers store to `ticks` and to `input` is not modelled:
  the calls read any value there.
-/
import Xv6.Io.Pipe
import Xv6.Proc.Monitor

namespace Xv6

/-- `p->lock`, `tickslock` and `input.lock`. -/
inductive IoLock where
  | pipe | ticks | input
  deriving DecidableEq

instance : Fintype IoLock := ⟨{.pipe, .ticks, .input}, by rintro (_ | _ | _) <;> decide⟩

/-! ## Channels -/

/-- `&p->nread` -/
def nreadChan : ℕ := 0

/-- `&p->nwrite` -/
def nwriteChan : ℕ := 1

/-- `&ticks` -/
def ticksChan : ℕ := 2

/-- `&input.r` -/
def inputChan : ℕ := 3

/-- The pipe, and what happened to it. -/
structure IoData where
  pipe : Pipe
  /-- history: the bytes that `pipewrite` stored, and by which process -/
  stored : List (PSlot × UInt8)
  /-- history: the bytes that `piperead` copied -/
  copied : List UInt8
  /-- history: the bytes that each process passed to `pipewrite`, call by call -/
  writes : PSlot → List (List UInt8)
  /-- history: a `pipewrite` returned -1 after it stored bytes, with no `wakeup` in between -/
  hushed : Bool

/-- Points of the calls.  `…Acq` stands before the `acquire`. -/
inductive IoPc where
  | user
  /-- `piperead`: `while(p->nread == p->nwrite && p->writeopen)`, `wakeup(&p->nwrite)` -/
  | readAcq (n : ℕ) | readLoop (n : ℕ) | readWake
  /-- `pipewrite`, with the bytes that are not yet stored: `for(i = 0; i < n; i++)`,
  `wakeup(&p->nread)` and `sleep(&p->nwrite, &p->lock)` in it, `wakeup(&p->nread)` after it -/
  | writeAcq (bs : List UInt8) | writeLoop (bs : List UInt8) | writeWake (bs : List UInt8)
  | writeSleep (bs : List UInt8) | writeDone
  /-- `pipeclose` -/
  | closeAcq (writable : Bool) | close (writable : Bool) | closeWake (writable : Bool)
  /-- `sys_sleep`: `ticks0 = ticks`, `while(ticks - ticks0 < n)` -/
  | sleepAcq (n : UInt32) | sleepInit (n : UInt32) | sleepLoop (n ticks0 : UInt32)
  /-- `consoleread`: `while(n > 0)` -/
  | consoleAcq (n : ℕ) | consoleLoop (n : ℕ)
  /-- the `release` at the end of a call -/
  | release (lk : IoLock)
  deriving DecidableEq

/-- What a process in user mode does next, and what a call finds in `ticks` or `input`. -/
inductive IoCall where
  | call (x : UserCall)
  | piperead (n : ℕ)
  | pipewrite (bs : List UInt8)
  | pipeclose (writable : Bool)
  | sleep (n : UInt32)
  | consoleread (n : ℕ)
  | ticks (t : UInt32)
  /-- `input.buf[input.r]`, if `input.r` is not `input.w` -/
  | input (c : Option UInt8)

/-- The loop of `piperead`. -/
def pipereadLoop (proc : Proc) (g : IoData) (n : ℕ) : Act IoLock IoPc × IoData :=
  if g.pipe.nread = g.pipe.nwrite ∧ g.pipe.writeopen then
    if proc.killed then (.goto (.release .pipe), g)
    else (.sleep nreadChan .pipe (.readLoop n), g)
  else
    let r := g.pipe.drain n
    (.goto .readWake, { g with pipe := r.1, copied := g.copied ++ r.2 })

/-- The loop of `pipewrite`, up to the test that finds the pipe full. -/
def pipewriteLoop (p : PSlot) (proc : Proc) (g : IoData) (bs : List UInt8) :
    Act IoLock IoPc × IoData :=
  let r := g.pipe.fill bs
  let g' := { g with pipe := r.1, stored := g.stored ++ (bs.take r.2).map (p, ·) }
  if bs.drop r.2 = [] then (.goto .writeDone, g')
  else if g.pipe.readopen = false ∨ proc.killed then
    (.goto (.release .pipe), { g' with hushed := g.hushed || r.2 ≠ 0 })
  else (.goto (.writeWake (bs.drop r.2)), g')

/-- `pipeclose`, up to its `wakeup`. -/
def pipeclose (g : IoData) (writable : Bool) : IoData :=
  if writable then { g with pipe := { g.pipe with writeopen := false } }
  else { g with pipe := { g.pipe with readopen := false } }

/-- The loop of `sys_sleep`, which finds `ticks = t`. -/
def sleepLoop (proc : Proc) (n ticks0 t : UInt32) : Act IoLock IoPc :=
  if t - ticks0 < n then
    if proc.killed then .goto (.release .ticks)
    else .sleep ticksChan .ticks (.sleepLoop n ticks0)
  else .goto (.release .ticks)

/-- One turn of the loop of `consoleread`, with the character it finds: it ends
at the end of the input (`C('D')`) and of a line. -/
def consoleLoop (proc : Proc) (n : ℕ) (c : Option UInt8) : Act IoLock IoPc :=
  match n, c with
  | 0, _ => .goto (.release .input)
  | n + 1, none =>
    if proc.killed then .goto (.release .input)
    else .sleep inputChan .input (.consoleLoop (n + 1))
  | n + 1, some c =>
    if c = 4 ∨ c = 10 then .goto (.release .input) else .goto (.consoleLoop n)

/-- The calls of process `proc` in slot `p`. -/
def ioProg (p : PSlot) (proc : Proc) (g : IoData) :
    IoPc → IoCall → Option (Act IoLock IoPc × IoData)
  | .user, .call x => some (x.act .user .user, g)
  | .user, .piperead n => some (.goto (.readAcq n), g)
  | .user, .pipewrite bs => some (.goto (.writeAcq bs), g)
  | .user, .pipeclose w => some (.goto (.closeAcq w), g)
  | .user, .sleep n => some (.goto (.sleepAcq n), g)
  | .user, .consoleread n => some (.goto (.consoleAcq n), g)
  | .readAcq n, _ => some (.acquire .pipe (.readLoop n), g)
  | .readLoop n, _ => some (pipereadLoop proc g n)
  | .readWake, _ => some (.wakeup nwriteChan (.release .pipe), g)
  | .writeAcq bs, _ =>
    some (.acquire .pipe (.writeLoop bs),
      { g with writes := Function.update g.writes p (g.writes p ++ [bs]) })
  | .writeLoop bs, _ => some (pipewriteLoop p proc g bs)
  | .writeWake bs, _ => some (.wakeup nreadChan (.writeSleep bs), g)
  | .writeSleep bs, _ => some (.sleep nwriteChan .pipe (.writeLoop bs), g)
  | .writeDone, _ => some (.wakeup nreadChan (.release .pipe), g)
  | .closeAcq w, _ => some (.acquire .pipe (.close w), g)
  | .close w, _ => some (.goto (.closeWake w), pipeclose g w)
  | .closeWake w, _ => some (.wakeup (if w then nreadChan else nwriteChan) (.release .pipe), g)
  | .sleepAcq n, _ => some (.acquire .ticks (.sleepInit n), g)
  | .sleepInit n, .ticks t => some (.goto (.sleepLoop n t), g)
  | .sleepLoop n t0, .ticks t => some (sleepLoop proc n t0 t, g)
  | .consoleAcq n, _ => some (.acquire .input (.consoleLoop n), g)
  | .consoleLoop n, .input c => some (consoleLoop proc n c, g)
  | .release lk, _ => some (.release lk .user, g)
  | _, _ => none

/-- Processes that make these calls, and those of `UserCall`, in any order. -/
def ioClient : Client where
  L := IoLock
  K := IoPc
  G := IoData
  X := IoCall
  prog := ioProg

/-- A new pipe, to which nothing has happened. -/
def ioBoot (data : Fin PIPESIZE → UInt8) : IoData where
  pipe := .pipealloc data
  stored := []
  copied := []
  writes _ := []
  hushed := false

/-! ## Steps -/

/-- The steps of the calls, one constructor for each outcome. -/
inductive IoStep (p : PSlot) (proc : Proc) (g : IoData) : IoPc → Act IoLock IoPc → IoData → Prop
  | call (x : UserCall) : IoStep p proc g .user (x.act .user .user) g
  | piperead (n) : IoStep p proc g .user (.goto (.readAcq n)) g
  | pipewrite (bs) : IoStep p proc g .user (.goto (.writeAcq bs)) g
  | pipeclose (w) : IoStep p proc g .user (.goto (.closeAcq w)) g
  | sleep (n) : IoStep p proc g .user (.goto (.sleepAcq n)) g
  | consoleread (n) : IoStep p proc g .user (.goto (.consoleAcq n)) g
  | readAcq {n} : IoStep p proc g (.readAcq n) (.acquire .pipe (.readLoop n)) g
  | readKilled {n} : proc.killed = true →
      IoStep p proc g (.readLoop n) (.goto (.release .pipe)) g
  | readSleep {n} : g.pipe.nread = g.pipe.nwrite → g.pipe.writeopen = true →
      proc.killed = false →
      IoStep p proc g (.readLoop n) (.sleep nreadChan .pipe (.readLoop n)) g
  | readCopy {n} : ¬(g.pipe.nread = g.pipe.nwrite ∧ g.pipe.writeopen = true) →
      IoStep p proc g (.readLoop n) (.goto .readWake)
        { g with pipe := (g.pipe.drain n).1, copied := g.copied ++ (g.pipe.drain n).2 }
  | readWake : IoStep p proc g .readWake (.wakeup nwriteChan (.release .pipe)) g
  | writeAcq {bs} : IoStep p proc g (.writeAcq bs) (.acquire .pipe (.writeLoop bs))
      { g with writes := Function.update g.writes p (g.writes p ++ [bs]) }
  | writeAll {bs} : bs.drop (g.pipe.fill bs).2 = [] →
      IoStep p proc g (.writeLoop bs) (.goto .writeDone)
        { g with
          pipe := (g.pipe.fill bs).1
          stored := g.stored ++ (bs.take (g.pipe.fill bs).2).map (p, ·) }
  | writeErr {bs} : bs.drop (g.pipe.fill bs).2 ≠ [] →
      g.pipe.readopen = false ∨ proc.killed = true →
      IoStep p proc g (.writeLoop bs) (.goto (.release .pipe))
        { g with
          pipe := (g.pipe.fill bs).1
          stored := g.stored ++ (bs.take (g.pipe.fill bs).2).map (p, ·)
          hushed := g.hushed || (g.pipe.fill bs).2 ≠ 0 }
  | writeFull {bs} : bs.drop (g.pipe.fill bs).2 ≠ [] → g.pipe.readopen = true →
      proc.killed = false →
      IoStep p proc g (.writeLoop bs) (.goto (.writeWake (bs.drop (g.pipe.fill bs).2)))
        { g with
          pipe := (g.pipe.fill bs).1
          stored := g.stored ++ (bs.take (g.pipe.fill bs).2).map (p, ·) }
  | writeWake {bs} : IoStep p proc g (.writeWake bs) (.wakeup nreadChan (.writeSleep bs)) g
  | writeSleep {bs} :
      IoStep p proc g (.writeSleep bs) (.sleep nwriteChan .pipe (.writeLoop bs)) g
  | writeDone : IoStep p proc g .writeDone (.wakeup nreadChan (.release .pipe)) g
  | closeAcq {w} : IoStep p proc g (.closeAcq w) (.acquire .pipe (.close w)) g
  | close {w} : IoStep p proc g (.close w) (.goto (.closeWake w)) (Xv6.pipeclose g w)
  | closeWake {w} : IoStep p proc g (.closeWake w)
      (.wakeup (if w then nreadChan else nwriteChan) (.release .pipe)) g
  | sleepAcq {n} : IoStep p proc g (.sleepAcq n) (.acquire .ticks (.sleepInit n)) g
  | sleepInit {n} (t) : IoStep p proc g (.sleepInit n) (.goto (.sleepLoop n t)) g
  | sleepSleep {n t0} : proc.killed = false →
      IoStep p proc g (.sleepLoop n t0) (.sleep ticksChan .ticks (.sleepLoop n t0)) g
  | sleepEnd {n t0} : IoStep p proc g (.sleepLoop n t0) (.goto (.release .ticks)) g
  | consoleAcq {n} : IoStep p proc g (.consoleAcq n) (.acquire .input (.consoleLoop n)) g
  | consoleSleep {n} : proc.killed = false →
      IoStep p proc g (.consoleLoop n) (.sleep inputChan .input (.consoleLoop n)) g
  | consoleNext {n} : IoStep p proc g (.consoleLoop (n + 1)) (.goto (.consoleLoop n)) g
  | consoleEnd {n} : IoStep p proc g (.consoleLoop n) (.goto (.release .input)) g
  | release {lk} : IoStep p proc g (.release lk) (.release lk .user) g

variable {p : PSlot} {proc : Proc} {g g' : IoData} {k : IoPc} {x : IoCall} {a : Act IoLock IoPc}

theorem ioStep_pipereadLoop (n : ℕ) :
    IoStep p proc g (.readLoop n) (pipereadLoop proc g n).1 (pipereadLoop proc g n).2 := by
  unfold pipereadLoop
  split
  · rename_i h
    split
    · exact .readKilled ‹_›
    · exact .readSleep h.1 h.2 (Bool.eq_false_iff.2 ‹_›)
  · exact .readCopy ‹_›

theorem ioStep_pipewriteLoop (bs : List UInt8) :
    IoStep p proc g (.writeLoop bs) (pipewriteLoop p proc g bs).1
      (pipewriteLoop p proc g bs).2 := by
  unfold pipewriteLoop
  dsimp only
  split
  · exact .writeAll ‹_›
  · split
    · exact .writeErr ‹_› ‹_›
    · rename_i h
      rw [not_or] at h
      exact .writeFull ‹_› (Bool.eq_true_of_not_eq_false h.1) (Bool.eq_false_iff.2 h.2)

theorem ioStep_sleepLoop (n t0 t : UInt32) :
    IoStep p proc g (.sleepLoop n t0) (sleepLoop proc n t0 t) g := by
  unfold sleepLoop
  split
  · split
    · exact .sleepEnd
    · exact .sleepSleep (Bool.eq_false_iff.2 ‹_›)
  · exact .sleepEnd

theorem ioStep_consoleLoop (n : ℕ) (c : Option UInt8) :
    IoStep p proc g (.consoleLoop n) (consoleLoop proc n c) g := by
  unfold consoleLoop
  split
  · exact .consoleEnd
  · split
    · exact .consoleEnd
    · exact .consoleSleep (Bool.eq_false_iff.2 ‹_›)
  · split
    · exact .consoleEnd
    · exact .consoleNext

theorem ioStep_of_prog (h : ioProg p proc g k x = some (a, g')) : IoStep p proc g k a g' := by
  cases k with
  | user => cases x <;> cases h <;> constructor
  | readLoop n =>
    have h : pipereadLoop proc g n = (a, g') := Option.some.inj h
    have hs : IoStep p proc g (.readLoop n) _ _ := ioStep_pipereadLoop n
    rwa [h] at hs
  | writeLoop bs =>
    have h : pipewriteLoop p proc g bs = (a, g') := Option.some.inj h
    have hs : IoStep p proc g (.writeLoop bs) _ _ := ioStep_pipewriteLoop bs
    rwa [h] at hs
  | sleepInit n => cases x <;> cases h; exact .sleepInit _
  | sleepLoop n t0 => cases x <;> cases h; exact ioStep_sleepLoop n t0 _
  | consoleLoop n => cases x <;> cases h; exact ioStep_consoleLoop n _
  | _ => cases h; constructor

/-- Children start in user mode. -/
theorem IoStep.child (h : IoStep p proc g k a g') {kc : IoPc} (hc : a.pc.child = some kc) :
    kc = .user := by
  cases h with
  | call x => cases x <;> cases hc; rfl
  | _ => cases hc

/-! ## Locks -/

/-- The lock that the calls hold at a point. -/
def IoPc.lock : IoPc → Option IoLock
  | readLoop _ | readWake | writeLoop _ | writeWake _ | writeSleep _ | writeDone | close _
  | closeWake _ => some .pipe
  | sleepInit _ | sleepLoop _ _ => some .ticks
  | consoleLoop _ => some .input
  | release lk => some lk
  | _ => none

theorem IoStep.lawful (h : IoStep p proc g k a g') :
    a.Lawful (fun k l => k.lock = some l) fun l => k.lock = some l := by
  cases h with
  | call x => exact x.act_lawful (by simp [IoPc.lock]) (by simp [IoPc.lock])
  | _ => simp [Act.Lawful, IoPc.lock, eq_comm]

theorem ioProg_child {kc : ioClient.K} (h : ioClient.prog p proc g k x = some (a, g'))
    (hc : a.pc.child = some kc) : kc = IoPc.user :=
  (ioStep_of_prog h).child hc

def ioLocking : Locking ioClient where
  holds k l := IoPc.lock k = some l
  lawful h := (ioStep_of_prog h).lawful

end Xv6
