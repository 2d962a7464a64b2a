/-
  The memory allocator of user programs (`umalloc.c`).

  Memory is a map from addresses to the `Header` that stands there; addresses
  count bytes, and `p + 1` on a `Header*` is `p + HDR`.  Sizes are C `uint`s
  and count headers.  `base` is the address of the static header, `0` the null
  pointer.  The loops take the number of rounds they may run; `none` means that
  this was not enough.

  Around the allocator stand `sbrk`, which decides on each call what it
  returns, and the program, which may do as it likes with the bytes it was
  given (`Step.write`).
-/
import Xv6.Lib.Extent
import Xv6.Lib.Reach
import Xv6.Lib.Ring

namespace Xv6

namespace Umalloc

/-- `union header` -/
structure Header where
  ptr : ℕ
  size : UInt32
  deriving DecidableEq

/-- `sizeof(Header)` -/
abbrev HDR : ℕ := 16

/-- The memory of the program. -/
abbrev Mem := ℕ → Header

namespace Mem

def ptr (m : Mem) (p : ℕ) : ℕ := (m p).ptr

def size (m : Mem) (p : ℕ) : UInt32 := (m p).size

/-- `p->s.ptr = q` -/
def setPtr (m : Mem) (p q : ℕ) : Mem := Function.update m p { m p with ptr := q }

/-- `p->s.size = n` -/
def setSize (m : Mem) (p : ℕ) (n : UInt32) : Mem := Function.update m p { m p with size := n }

/-- `p + n` on `Header*` -/
def plus (p : ℕ) (n : UInt32) : ℕ := p + HDR * n.toNat

end Mem

open Mem

/-- The memory, the list head, and what `sbrk` returned so far. -/
structure Heap where
  mem : Mem
  freep : ℕ
  core : List Extent

/-- The test that ends the search of `free`: `bp` lies between `p` and the next block, or beyond
    the end of the list. -/
def here (m : Mem) (bp p : ℕ) : Bool :=
  (p < bp ∧ bp < m.ptr p) ∨ (m.ptr p ≤ p ∧ (p < bp ∨ bp < m.ptr p))

/-- `free` joins `bp` with the block above it. -/
def joinUpper (m : Mem) (bp p : ℕ) : Mem :=
  if plus bp (m.size bp) = m.ptr p then
    let m := m.setSize bp (m.size bp + m.size (m.ptr p))
    m.setPtr bp (m.ptr (m.ptr p))
  else m.setPtr bp (m.ptr p)

/-- `free` joins `bp` with the block below it. -/
def joinLower (m : Mem) (bp p : ℕ) : Mem :=
  if plus p (m.size p) = bp then
    let m := m.setSize p (m.size p + m.size bp)
    m.setPtr p (m.ptr bp)
  else m.setPtr p bp

def free (fuel : ℕ) (h : Heap) (ap : ℕ) : Option Heap := do
  let bp := ap - HDR
  let p ← Ring.seek (here h.mem bp) h.mem.ptr fuel h.freep
  return { h with mem := joinLower (joinUpper h.mem bp p) bp p, freep := p }

/-- What `sbrk` returns, from what it returned before and the number of bytes. -/
abbrev Sbrk := List Extent → ℕ → Option ℕ

/-- The result is null if `sbrk` fails. -/
def morecore (sbrk : Sbrk) (fuel : ℕ) (h : Heap) (nu : UInt32) : Option (Heap × ℕ) :=
  let nu := if nu < 4096 then 4096 else nu
  match sbrk h.core (nu.toNat * HDR) with
  | none => some (h, 0)
  | some hp => do
    let h := { h with mem := h.mem.setSize hp nu, core := ⟨hp, nu.toNat * HDR⟩ :: h.core }
    let h ← free fuel h (hp + HDR)
    return (h, h.freep)

/-- `malloc` takes `nunits` from the block `p`, the one after `prevp`. -/
def take (h : Heap) (nunits : UInt32) (prevp p : ℕ) : Heap × ℕ :=
  if h.mem.size p = nunits then
    ({ h with mem := h.mem.setPtr prevp (h.mem.ptr p), freep := prevp }, p + HDR)
  else
    let m := h.mem.setSize p (h.mem.size p - nunits)
    let q := plus p (m.size p)
    ({ h with mem := m.setSize q nunits, freep := prevp }, q + HDR)

/-- The loop of `malloc`. -/
def search (sbrk : Sbrk) (nunits : UInt32) : ℕ → Heap → ℕ → ℕ → Option (Heap × ℕ)
  | 0, _, _, _ => none
  | fuel + 1, h, prevp, p =>
    if nunits ≤ h.mem.size p then some (take h nunits prevp p)
    else if p = h.freep then do
      let (h, p) ← morecore sbrk fuel h nunits
      if p = 0 then return (h, 0)
      search sbrk nunits fuel h p (h.mem.ptr p)
    else search sbrk nunits fuel h p (h.mem.ptr p)

/-- `(nbytes + sizeof(Header) - 1)/sizeof(Header) + 1`, computed with 64 bits. -/
def nunits (nbytes : UInt32) : UInt32 := .ofNat ((nbytes.toNat + HDR - 1) / HDR + 1)

/-- The first call sets up the list. -/
def setup (base : ℕ) (h : Heap) : Heap :=
  if h.freep = 0 then { h with mem := (h.mem.setPtr base base).setSize base 0, freep := base }
  else h

def malloc (base : ℕ) (sbrk : Sbrk) (fuel : ℕ) (h : Heap) (nbytes : UInt32) :
    Option (Heap × ℕ) :=
  let h := setup base h
  search sbrk (nunits nbytes) fuel h h.freep (h.mem.ptr h.freep)

/-! ## A program that allocates -/

/-- The heap, and the results of `malloc` that were not freed with the sizes asked for. -/
structure State where
  heap : Heap
  live : List (ℕ × UInt32)

/-- The block of an allocation, with its header. -/
def blockAt (m : Mem) (p : ℕ) : Extent := ⟨p - HDR, HDR * (m.size (p - HDR)).toNat⟩

/-- `sbrk` returns fresh memory above the static header and everything it returned before, in all
    less than `2^36` bytes, or fails. -/
def Fresh (base : ℕ) (sbrk : Sbrk) : Prop :=
  ∀ core n a, sbrk core n = some a → HDR ∣ a ∧ base + HDR ≤ a ∧ (∀ b ∈ core, b.stop ≤ a) ∧
    Extent.total core + n < 2 ^ 36

/-- What a program does. -/
inductive Step (base : ℕ) (s : State) : Unit → State → Prop
  | malloc (sbrk : Sbrk) (fuel : ℕ) (n : UInt32) (h : Heap) (p : ℕ) : Fresh base sbrk →
      malloc base sbrk fuel s.heap n = some (h, p) →
      Step base s () ⟨h, if p = 0 then s.live else (p, n) :: s.live⟩
  | free (fuel : ℕ) (p : ℕ) (n : UInt32) (h : Heap) : (p, n) ∈ s.live →
      free fuel s.heap p = some h → Step base s () ⟨h, s.live.erase (p, n)⟩
  /-- the program writes into its allocations, which changes all that stands behind the headers -/
  | write (m : Mem) : (∀ x, m x ≠ s.heap.mem x →
        ∃ a ∈ s.live, a.1 - HDR < x ∧ (blockAt s.heap.mem a.1).Has x) →
      Step base s () ⟨{ s.heap with mem := m }, s.live⟩

/-- At first the list is not set up, and the memory holds anything. -/
def Init (s : State) : Prop := s.heap.freep = 0 ∧ s.heap.core = [] ∧ s.live = []

/-- The states that a program reaches. -/
def Runs (base : ℕ) : State → Prop := Transition.Reach Init (Step base)

end Umalloc

end Xv6
