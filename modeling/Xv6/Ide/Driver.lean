/-
  The disk driver (`ide.c`).

  `iderw` puts a buffer at the end of the list `idequeue` and sleeps until the
  interrupt handler has served it.  The list and the disk are touched with
  `idelock` held only; a step of the system is what a process or the handler
  does from getting the lock to giving it up, or what the disk does.  The disk
  executes the command in its registers and raises an interrupt.
-/
import Xv6.Bio.Cache
import Xv6.Lib.Reach
import Xv6.Lib.Ring

namespace Xv6

open Function

namespace Ide

abbrev SECTOR_SIZE : ℕ := 512

/-! ## The disk -/

/-- The codes `IDE_CMD_*`. -/
inductive Code where
  | read | write | rdmul | wrmul
  deriving DecidableEq

/-- The registers at the ports `0x1f2` to `0x1f6`. -/
structure Regs where
  count : UInt8
  lba0 : UInt8
  lba1 : UInt8
  lba2 : UInt8
  drive : UInt8

/-- The sector that the registers stand for. -/
def Regs.sector (r : Regs) : UInt32 :=
  UInt32.ofNat (r.lba0.toNat + 2 ^ 8 * r.lba1.toNat + 2 ^ 16 * r.lba2.toNat +
    2 ^ 24 * (r.drive.toNat % 16))

/-- Whether the registers select the second drive. -/
def Regs.slave (r : Regs) : Bool := r.drive.toNat / 16 % 2 = 1

/-- A command, with the data that is sent along. -/
structure Command where
  regs : Regs
  code : Code
  data : Option Block

structure Device where
  /-- the sectors of the first (`false`) and the second drive -/
  disk : Bool → Disk
  /-- the outstanding command -/
  cmd : Option Command
  /-- it has been executed, and the interrupt is raised -/
  irq : Bool
  /-- what is read at port `0x1f0` -/
  out : Block
  /-- how many commands it has got -/
  count : ℕ

namespace Device

/-- `IDE_BSY` -/
def busy (d : Device) : Bool := d.cmd.isSome && !d.irq

/-- Get a command. -/
def issue (d : Device) (c : Command) : Device :=
  { d with cmd := some c, irq := false, count := d.count + 1 }

/-- Execute the command. -/
def exec (d : Device) : Option Device :=
  match d.cmd with
  | some ⟨r, .read, _⟩ =>
    if d.irq then none else some { d with irq := true, out := d.disk r.slave r.sector }
  | some ⟨r, .write, some v⟩ =>
    if d.irq then none
    else some { d with
      irq := true
      disk := update d.disk r.slave (update (d.disk r.slave) r.sector v) }
  | _ => none

/-- The interrupt is taken. -/
def ack (d : Device) : Device := { d with cmd := none, irq := false }

end Device

/-! ## The driver -/

/-- Why the code does not go on. -/
inductive Stop where
  | panic (msg : String)
  /-- a loop does not end -/
  | spin
  deriving DecidableEq

/-- Where a process is. -/
inductive Pc where
  /-- not in `iderw` -/
  | idle
  /-- in `iderw(b)`, about to get `idelock` for the first time -/
  | enter (b : Fin NBUF)
  /-- in `sleep(b, &idelock)` -/
  | asleep (b : Fin NBUF)
  /-- woken up, about to get `idelock` again -/
  | ready (b : Fin NBUF)
  deriving DecidableEq

structure State where
  buf : Fin NBUF → Buf
  qnext : Fin NBUF → Option (Fin NBUF)
  idequeue : Option (Fin NBUF)
  havedisk1 : Bool
  dev : Device
  proc : ℕ → Pc

namespace State

/-- `*pp`, where `none` is `&idequeue` and `some b` is `&b->qnext`. -/
def next (s : State) : Option (Fin NBUF) → Option (Fin NBUF)
  | none => s.idequeue
  | some b => s.qnext b

/-- `*pp = b` -/
def setNext (s : State) (b : Fin NBUF) : Option (Fin NBUF) → State
  | none => { s with idequeue := some b }
  | some c => { s with qnext := update s.qnext c (some b) }

/-- Go to a program counter. -/
def goto (s : State) (p : ℕ) (pc : Pc) : State := { s with proc := update s.proc p pc }

def sectorPerBlock : ℕ := BSIZE / SECTOR_SIZE

/-- What `idestart` writes to the ports for the buffer `b`. -/
def command (b : Buf) : Command :=
  let sector := b.blockno.toNat * sectorPerBlock
  { regs :=
      { count := UInt8.ofNat sectorPerBlock
        lba0 := UInt8.ofNat (sector % 256)
        lba1 := UInt8.ofNat (sector / 2 ^ 8 % 256)
        lba2 := UInt8.ofNat (sector / 2 ^ 16 % 256)
        drive := UInt8.ofNat (0xe0 ||| (b.dev.toNat % 2) * 16 ||| sector / 2 ^ 24 % 16) }
    code :=
      if b.dirty then (if sectorPerBlock = 1 then .write else .wrmul)
      else (if sectorPerBlock = 1 then .read else .rdmul)
    data := if b.dirty then some b.data else none }

def idestart (s : State) : Option (Fin NBUF) → Except Stop State
  | none => .error (.panic "idestart")
  | some b =>
    if FSSIZE ≤ (s.buf b).blockno.toNat then .error (.panic "incorrect blockno")
    else if 7 < sectorPerBlock then .error (.panic "idestart")
    else if s.dev.busy then .error .spin  -- `idewait(0)`
    else .ok { s with dev := s.dev.issue (command (s.buf b)) }

/-- `wakeup(b)` -/
def wakeup (s : State) (b : Fin NBUF) : State :=
  { s with proc := fun p => if s.proc p = .asleep b then .ready b else s.proc p }

/-- Change the buffer `b`. -/
def setBuf (s : State) (b : Fin NBUF) (x : Buf) : State :=
  { s with buf := update s.buf b x }

/-- Read data if needed: `if(!(b->flags & B_DIRTY) && idewait(1) >= 0) insl(...)`.  The disk
reports no error. -/
def readData (s : State) (b : Fin NBUF) : Except Stop State :=
  if (s.buf b).dirty then .ok s
  else if s.dev.busy then .error .spin
  else .ok (s.setBuf b { s.buf b with data := s.dev.out })

def ideintr (s : State) : Except Stop State :=
  match s.idequeue with
  | none => .ok s
  | some b => do
    let s ← { s with idequeue := s.qnext b }.readData b
    let s := s.setBuf b { s.buf b with valid := true, dirty := false }
    let s := s.wakeup b
    if s.idequeue ≠ none then s.idestart s.idequeue else .ok s

/-- The tests at the beginning of `iderw`. -/
def check (s : State) (b : Fin NBUF) : Except Stop Unit :=
  if (s.buf b).holder.isNone then .error (.panic "iderw: buf not locked")
  else if (s.buf b).valid ∧ ¬ (s.buf b).dirty then .error (.panic "iderw: nothing to do")
  else if (s.buf b).dev ≠ 0 ∧ s.havedisk1 = false then
    .error (.panic "iderw: ide disk 1 not present")
  else .ok ()

/-- Append `b` to `idequeue`. -/
def append (s : State) (b : Fin NBUF) : Except Stop State :=
  let s := { s with qnext := update s.qnext b none }
  match Ring.seek (fun pp => (s.next pp).isNone) s.next (NBUF + 1) none with
  | none => .error .spin
  | some pp => .ok (s.setNext b pp)

/-- The test of the loop in `iderw`, to return or to sleep. -/
def wait (s : State) (p : ℕ) (b : Fin NBUF) : State :=
  s.goto p (if (s.buf b).valid ∧ ¬ (s.buf b).dirty then .idle else .asleep b)

/-- `iderw(b)` from getting `idelock` to the first `sleep`. -/
def iderw (s : State) (p : ℕ) (b : Fin NBUF) : Except Stop State := do
  let s ← s.append b
  let s ← if s.idequeue = some b then s.idestart (some b) else .ok s
  .ok (s.wait p b)

end State

/-- The buffer of the call that a process is in. -/
def Pc.call : Pc → Option (Fin NBUF)
  | idle => none
  | enter b | asleep b | ready b => some b

inductive Act where
  /-- a buffer that no call is about is changed -/
  | edit (b : Fin NBUF) (x : Buf)
  | call (p : ℕ) (b : Fin NBUF)
  | enter (p : ℕ) (b : Fin NBUF)
  | resume (p : ℕ) (b : Fin NBUF)
  /-- the disk executes its command -/
  | exec
  /-- an interrupt, with the buffer that it serves -/
  | intr (b : Option (Fin NBUF))

inductive Step : State → Act → State → Prop
  | edit {s : State} {b : Fin NBUF} {x : Buf} : (∀ p, (s.proc p).call ≠ some b) →
      Step s (.edit b x) (s.setBuf b x)
  | call {s : State} {p : ℕ} {b : Fin NBUF} : s.proc p = .idle → (s.buf b).holder = some p →
      (s.buf b).dev = 1 → (s.buf b).blockno.toNat < FSSIZE → s.check b = .ok () →
      Step s (.call p b) (s.goto p (.enter b))
  | enter {s s' : State} {p : ℕ} {b : Fin NBUF} : s.proc p = .enter b → s.iderw p b = .ok s' →
      Step s (.enter p b) s'
  | resume {s : State} {p : ℕ} {b : Fin NBUF} : s.proc p = .ready b →
      Step s (.resume p b) (s.wait p b)
  | exec {s : State} {d : Device} : s.dev.exec = some d → Step s .exec { s with dev := d }
  | intr {s s' : State} : s.dev.irq = true → State.ideintr { s with dev := s.dev.ack } = .ok s' →
      Step s (.intr s.idequeue) s'
  /-- an interrupt that comes from nowhere, while there is nothing to do -/
  | spurious {s s' : State} : s.idequeue = none → s.ideintr = .ok s' → Step s (.intr none) s'

/-- There is a second drive, and nothing to do yet. -/
def Init (s : State) : Prop :=
  s.idequeue = none ∧ s.havedisk1 = true ∧ s.dev.cmd = none ∧ s.dev.irq = false ∧
    s.dev.count = 0 ∧ ∀ p, s.proc p = .idle

end Ide

end Xv6
