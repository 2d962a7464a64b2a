/-
  The buffer cache (`bio.c`) and the memory disk (`memide.c`).

  A buffer is `struct buf`; of its sleep-lock the model keeps the process that
  holds it.  The doubly linked list through `prev`/`next` is the list of the
  buffers from `head.next` on, the most recently used first.  The functions
  below are the lock-protected sections of `bget` and `brelse` and the
  transfer of one block by `iderw`.
-/
import Xv6.Log.Ops
import Xv6.Log.Commit

namespace Xv6

open Function

/-- The panics of `bio.c`, `memide.c` and `log.c`. -/
inductive BioPanic where
  /-- `panic("bget: no buffers")` -/
  | noBuffers
  /-- `panic("bwrite")` -/
  | bwrite
  /-- `panic("brelse")` -/
  | brelse
  /-- `panic("iderw: buf not locked")` -/
  | notLocked
  /-- `panic("iderw: nothing to do")` -/
  | nothingToDo
  /-- `panic("iderw: request not for disk 1")` -/
  | notDisk1
  /-- `panic("iderw: block out of range")` -/
  | outOfRange
  | log (e : LogPanic)
  deriving DecidableEq

structure Buf where
  /-- `B_VALID`: buffer has been read from disk -/
  valid : Bool
  /-- `B_DIRTY`: buffer needs to be written to disk -/
  dirty : Bool
  dev : UInt32
  blockno : BlockNo
  /-- the process that has the sleep-lock -/
  holder : Option ℕ
  refcnt : ℕ
  data : Block

/-- A buffer without its references and its lock. -/
def Buf.content (b : Buf) : UInt32 × BlockNo × Bool × Bool × Block :=
  (b.dev, b.blockno, b.valid, b.dirty, b.data)

structure Bcache where
  buf : Fin NBUF → Buf
  /-- the buffers from `head.next` on -/
  order : List (Fin NBUF)

namespace Bcache

/-- The cache after `binit`: every buffer has been put at the head of the list in turn. -/
def init : Bcache where
  buf _ := ⟨false, false, 0, 0, none, 0, fun _ => 0⟩
  order := (List.finRange NBUF).reverse

def set (c : Bcache) (i : Fin NBUF) (b : Buf) : Bcache := { c with buf := update c.buf i b }

/-- Is the block already cached? -/
def find (c : Bcache) (dev : UInt32) (b : BlockNo) : Option (Fin NBUF) :=
  c.order.find? fun i => (c.buf i).dev = dev ∧ (c.buf i).blockno = b

/-- The unused and clean buffer that `bget` recycles. -/
def victim (c : Bcache) : Option (Fin NBUF) :=
  c.order.reverse.find? fun i => (c.buf i).refcnt = 0 ∧ (c.buf i).dirty = false

/-- The locked section of `bget`; `none` is the panic. -/
def bget (c : Bcache) (dev : UInt32) (b : BlockNo) : Option (Bcache × Fin NBUF) :=
  match c.find dev b with
  | some i => some (c.set i { c.buf i with refcnt := (c.buf i).refcnt + 1 }, i)
  | none =>
    match c.victim with
    | some i =>
      some (c.set i { c.buf i with
        dev := dev, blockno := b, valid := false, dirty := false, refcnt := 1 }, i)
    | none => none

/-- The locked section of `brelse`, after `releasesleep`. -/
def unref (c : Bcache) (i : Fin NBUF) : Bcache :=
  let b := { c.buf i with refcnt := (c.buf i).refcnt - 1 }
  -- no one is waiting for it: move it to the head of the list
  { c.set i b with order := if b.refcnt = 0 then i :: c.order.erase i else c.order }

@[simp] theorem set_buf (c : Bcache) (i : Fin NBUF) (b : Buf) :
    (c.set i b).buf = update c.buf i b := rfl
@[simp] theorem set_order (c : Bcache) (i : Fin NBUF) (b : Buf) : (c.set i b).order = c.order := rfl

variable {c : Bcache} {i : Fin NBUF} {dev : UInt32} {b : BlockNo}

/-- What the change of one buffer leaves alone. -/
theorem set_congr {α : Type*} (f : Buf → α) {b : Buf} (h : f b = f (c.buf i)) (j : Fin NBUF) :
    f ((c.set i b).buf j) = f (c.buf j) := by
  rw [set_buf, update_apply]
  split_ifs with hj
  · rw [h, hj]
  · rfl

theorem find_some (h : c.find dev b = some i) : (c.buf i).dev = dev ∧ (c.buf i).blockno = b := by
  simpa using List.find?_some h

theorem find_none (h : c.find dev b = none) (hi : i ∈ c.order) (hd : (c.buf i).dev = dev) :
    (c.buf i).blockno ≠ b := by
  have := List.find?_eq_none.1 h i hi
  simpa [hd] using this

theorem victim_some (h : c.victim = some i) :
    (c.buf i).refcnt = 0 ∧ (c.buf i).dirty = false := by
  simpa using List.find?_some h

/-- The outcomes of `bget`. -/
inductive Got (c : Bcache) (dev : UInt32) (b : BlockNo) (i : Fin NBUF) : Bcache → Prop
  | hit : (c.buf i).dev = dev → (c.buf i).blockno = b →
      Got c dev b i (c.set i { c.buf i with refcnt := (c.buf i).refcnt + 1 })
  | recycled : (∀ j ∈ c.order, (c.buf j).dev = dev → (c.buf j).blockno ≠ b) →
      (c.buf i).refcnt = 0 → (c.buf i).dirty = false →
      Got c dev b i (c.set i { c.buf i with
        dev := dev, blockno := b, valid := false, dirty := false, refcnt := 1 })

theorem bget_some {c c' : Bcache} (h : c.bget dev b = some (c', i)) : Got c dev b i c' := by
  unfold bget at h
  split at h
  next j hj =>
    cases h
    obtain ⟨h1, h2⟩ := find_some hj
    exact .hit h1 h2
  next hn =>
    split at h
    next j hj =>
      cases h
      obtain ⟨h1, h2⟩ := victim_some hj
      exact .recycled (fun k hk hd => find_none hn hk hd) h1 h2
    next => cases h

end Bcache

/-! ## The disk -/

/-- `iderw(b)` for a disk of `disksize` blocks: the buffer and the machine afterwards. -/
def iderw (disksize : ℕ) (b : Buf) (m : Mach) : Except BioPanic (Buf × Mach) :=
  if b.holder.isNone then .error .notLocked
  else if b.valid ∧ ¬ b.dirty then .error .nothingToDo
  else if b.dev ≠ ROOTDEV then .error .notDisk1
  else if disksize ≤ b.blockno.toNat then .error .outOfRange
  else if b.dirty then
    .ok ({ b with dirty := false, valid := true },
      { m with disk := update m.disk b.blockno b.data
               writes := m.writes ++ [(b.blockno, b.data)] })
  else .ok ({ b with data := m.disk b.blockno, valid := true }, m)

/-- `bwrite(b)`. -/
def Buf.bwrite (disksize : ℕ) (b : Buf) (m : Mach) : Except BioPanic (Buf × Mach) :=
  if b.holder.isNone then .error .bwrite
  else iderw disksize { b with dirty := true } m

/-- Reading a buffer that is not valid. -/
theorem iderw_read {disksize : ℕ} {b b' : Buf} {m m' : Mach} (hb : b.dirty = false)
    (h : iderw disksize b m = .ok (b', m')) :
    b.dev = ROOTDEV ∧ b' = { b with data := m.disk b.blockno, valid := true } ∧ m' = m := by
  unfold iderw at h
  split_ifs at h with h1 h2 h3 h4 h5
  · rw [hb] at h5; cases h5
  · cases h; exact ⟨not_not.1 h3, rfl, rfl⟩

/-- `bwrite` writes the contents to disk and leaves the buffer clean. -/
theorem Buf.bwrite_ok {disksize : ℕ} {b b' : Buf} {m m' : Mach}
    (h : b.bwrite disksize m = .ok (b', m')) : b.dev = ROOTDEV ∧
      b' = { b with dirty := false, valid := true } ∧
      m' = { m with disk := update m.disk b.blockno b.data
                    writes := m.writes ++ [(b.blockno, b.data)] } := by
  unfold Buf.bwrite iderw at h
  split_ifs at h with h1 h2 h3 h4 h5
  · cases h; exact ⟨not_not.1 h3, rfl, rfl⟩
  · exact absurd rfl h5

end Xv6
