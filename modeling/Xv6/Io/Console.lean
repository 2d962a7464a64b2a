/-
  Console input (`console.c`).

  `consoleintr` edits the last line of a ring buffer with three wrapping
  indices, and `consoleread` takes characters from its front.  Both hold
  `input.lock` while they touch the buffer; a reader gives it up only in
  `sleep`.  A step of the system is therefore what one party does from
  getting the lock to giving it up.  The echo of the characters is left out.
-/
import Xv6.Lib.Reach
import Xv6.Lib.RingBuf

namespace Xv6

namespace Console

abbrev INPUT_BUF : ℕ := 128

instance : NeZero INPUT_BUF := ⟨by decide⟩

/-- `C(x)`: control-x. -/
def ctrl (x : Char) : UInt8 := UInt8.ofNat (x.toNat - '@'.toNat)

abbrev newline : UInt8 := 10

/-- The variable `input`, without its lock. -/
structure Input where
  buf : Fin INPUT_BUF → UInt8
  /-- read index -/
  r : UInt32
  /-- write index -/
  w : UInt32
  /-- edit index -/
  e : UInt32

namespace Input

/-- `input.buf[i % INPUT_BUF]` -/
def char (i : Input) (k : UInt32) : UInt8 := i.buf (RingBuf.idx INPUT_BUF k)

/-- `input.e--` -/
def erase (i : Input) : Input := { i with e := i.e - 1 }

theorem erase_lt {i : Input} (h : i.e ≠ i.w) :
    (i.erase.e - i.erase.w).toNat < (i.e - i.w).toNat := by
  have := i.e.toNat_lt
  have := i.w.toNat_lt
  have hne : i.e.toNat ≠ i.w.toNat := mt UInt32.toNat_inj.1 h
  simp only [erase, UInt32.toNat_sub, UInt32.toNat_one]
  omega

/-- The loop of kill-line. -/
def killLine (i : Input) : Input :=
  if h : i.e ≠ i.w ∧ i.char (i.e - 1) ≠ newline then
    have := erase_lt h.1
    i.erase.killLine
  else i
termination_by (i.e - i.w).toNat

/-- `input.buf[input.e++ % INPUT_BUF] = c` -/
def store (i : Input) (c : UInt8) : Input :=
  { i with buf := Function.update i.buf (RingBuf.idx INPUT_BUF i.e) c, e := i.e + 1 }

/-- `input.r++` -/
def next (i : Input) : Input := { i with r := i.r + 1 }

/-- One turn of the loop of `consoleintr`, and whether it wakes up the readers. -/
def getc (i : Input) (c : UInt8) : Input × Bool :=
  if c = ctrl 'Z' then (i, false)  -- the reboot comes with the next interrupt
  else if c = ctrl 'P' then (i, false)  -- `procdump` only prints
  else if c = ctrl 'U' then (i.killLine, false)
  else if c = ctrl 'H' ∨ c = 0x7f then (if i.e ≠ i.w then i.erase else i, false)
  else if c ≠ 0 ∧ i.e - i.r < UInt32.ofNat INPUT_BUF then
    let c := if c = 13 then newline else c
    let i := i.store c
    if c = newline ∨ c = ctrl 'D' ∨ i.e = i.r + UInt32.ofNat INPUT_BUF then
      ({ i with w := i.e }, true)
    else (i, false)
  else (i, false)

/-- `consoleintr`, with the characters that it gets. -/
def consoleintr (i : Input) : List UInt8 → Input × Bool
  | [] => (i, false)
  | c :: cs =>
    let x := i.getc c
    let y := x.1.consoleintr cs
    (y.1, x.2 || y.2)

end Input

/-- The variables of a call of `consoleread`, with the characters copied so far. -/
structure Read where
  target : ℕ
  n : ℕ
  dst : List UInt8
  deriving DecidableEq

/-- The loop of `consoleread`, up to the next point at which it sleeps (`false`) or to its
end (`true`). -/
def Input.consoleread (target : ℕ) : ℕ → List UInt8 → Input → Input × Read × Bool
  | 0, dst, i => (i, ⟨target, 0, dst⟩, true)
  | n + 1, dst, i =>
    if i.r = i.w then (i, ⟨target, n + 1, dst⟩, false)
    else
      let c := i.char i.r
      let i := i.next
      if c = ctrl 'D' then
        -- save it for next time, so that the caller gets a 0-byte result
        (if n + 1 < target then { i with r := i.r - 1 } else i, ⟨target, n + 1, dst⟩, true)
      else if c = newline then (i, ⟨target, n, dst ++ [c]⟩, true)
      else i.consoleread target n (dst ++ [c])

/-- Where a reader is. -/
inductive Reader where
  /-- not in `consoleread` -/
  | idle
  /-- about to get `input.lock` -/
  | ready (c : Read)
  /-- in `sleep(&input.r, &input.lock)` -/
  | asleep (c : Read)
  deriving DecidableEq

/-- What `wakeup(&input.r)` does to a reader. -/
def Reader.wakeup : Reader → Reader
  | asleep c => ready c
  | x => x

structure State (ι : Type) where
  input : Input
  reader : ι → Reader

inductive Act (ι : Type) where
  /-- an interrupt with these characters -/
  | intr (cs : List UInt8)
  /-- a call `consoleread(n)` -/
  | call (p : ι) (n : ℕ)
  /-- a section of a read that ends in `sleep` -/
  | sleep (p : ι)
  /-- the last section of a read, with its result and the characters that were read -/
  | ret (p : ι) (k : ℕ) (ds : List UInt8)

variable {ι : Type} [DecidableEq ι]

/-- The characters that the discipline is about. -/
def Typed (c : UInt8) : Prop := c ≠ 0 ∧ c ≠ ctrl 'P' ∧ c ≠ ctrl 'Z'

instance : DecidablePred Typed := fun c =>
  inferInstanceAs (Decidable (c ≠ 0 ∧ c ≠ ctrl 'P' ∧ c ≠ ctrl 'Z'))

def State.intr (s : State ι) (cs : List UInt8) : State ι :=
  let x := s.input.consoleintr cs
  { input := x.1, reader := if x.2 then fun p => (s.reader p).wakeup else s.reader }

inductive Step : State ι → Act ι → State ι → Prop
  | intr {s : State ι} {cs : List UInt8} : (∀ c ∈ cs, Typed c) → Step s (.intr cs) (s.intr cs)
  | call {s : State ι} {p : ι} {n : ℕ} : s.reader p = .idle →
      Step s (.call p n) { s with reader := Function.update s.reader p (.ready ⟨n, n, []⟩) }
  | sleep {s : State ι} {p : ι} {c c' : Read} {i : Input} : s.reader p = .ready c →
      s.input.consoleread c.target c.n c.dst = (i, c', false) →
      Step s (.sleep p) { input := i, reader := Function.update s.reader p (.asleep c') }
  | ret {s : State ι} {p : ι} {c c' : Read} {i : Input} : s.reader p = .ready c →
      s.input.consoleread c.target c.n c.dst = (i, c', true) →
      Step s (.ret p (c'.target - c'.n) c'.dst)
        { input := i, reader := Function.update s.reader p .idle }

/-- At boot the buffer is empty and nobody reads. -/
def Init (s : State ι) : Prop := s.input = ⟨fun _ => 0, 0, 0, 0⟩ ∧ ∀ p, s.reader p = .idle

/-- The states in which `input.lock` is free. -/
def Runs : State ι → Prop := Transition.Reach Init Step

end Console

end Xv6
