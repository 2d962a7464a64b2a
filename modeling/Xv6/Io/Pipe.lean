/-
  Pipes (`pipe.c`).

  The loops of `pipewrite` and `piperead` that copy bytes are functions on the
  pipe: they run with `p->lock` held, up to the next point at which they give
  it up.
-/
import Xv6.Lib.RingBuf
import Xv6.Param

namespace Xv6

abbrev PIPESIZE : ℕ := 512

/-- `struct pipe`, without its lock. -/
structure Pipe where
  data : Fin PIPESIZE → UInt8
  /-- number of bytes read -/
  nread : UInt32
  /-- number of bytes written -/
  nwrite : UInt32
  /-- read fd is still open -/
  readopen : Bool
  /-- write fd is still open -/
  writeopen : Bool

namespace Pipe

/-- A new pipe, in a page with the bytes `data`. -/
def pipealloc (data : Fin PIPESIZE → UInt8) : Pipe :=
  { data := data, nread := 0, nwrite := 0, readopen := true, writeopen := true }

/-- The test `p->nwrite == p->nread + PIPESIZE`. -/
def full (p : Pipe) : Bool := p.nwrite = p.nread + UInt32.ofNat PIPESIZE

/-- `p->data[p->nwrite++ % PIPESIZE] = b` -/
def store (p : Pipe) (b : UInt8) : Pipe :=
  { p with
    data := Function.update p.data (RingBuf.idx PIPESIZE p.nwrite) b
    nwrite := p.nwrite + 1 }

/-- The loop of `pipewrite` until all bytes are stored or the pipe is full, and how many
it stores. -/
def fill : Pipe → List UInt8 → Pipe × ℕ
  | p, [] => (p, 0)
  | p, b :: bs =>
    if p.full then (p, 0)
    else
      let r := (p.store b).fill bs
      (r.1, r.2 + 1)

/-- The loop of `piperead` that copies up to `n` bytes, and the bytes. -/
def drain : Pipe → ℕ → Pipe × List UInt8
  | p, 0 => (p, [])
  | p, n + 1 =>
    if p.nread = p.nwrite then (p, [])
    else
      let r := drain { p with nread := p.nread + 1 } n
      (r.1, p.data (RingBuf.idx PIPESIZE p.nread) :: r.2)

/-! ## The pipe is a queue -/

/-- The buffer. -/
def buf (p : Pipe) : RingBuf UInt8 PIPESIZE := ⟨p.data, p.nread, p.nwrite⟩

/-- The counters are at most `PIPESIZE` apart. -/
def Ok (p : Pipe) : Prop := p.buf.size ≤ PIPESIZE

variable {p : Pipe}

theorem full_iff : p.full ↔ p.buf.size = PIPESIZE := by
  rw [full, decide_eq_true_iff, RingBuf.size_eq_iff (by decide)]
  rfl

theorem empty_iff : p.nread = p.nwrite ↔ p.buf.size = 0 :=
  (RingBuf.size_eq_zero_iff (b := p.buf)).symm

theorem store_buf (p : Pipe) (b : UInt8) : (p.store b).buf = p.buf.push b := rfl

/-- One turn of the loop of `pipewrite`. -/
theorem Ok.store (h : p.Ok) (hf : p.full = false) (b : UInt8) : (p.store b).Ok ∧
    (p.store b).buf.toList = p.buf.toList ++ [b] := by
  have hlt : p.buf.size < PIPESIZE := by
    refine lt_of_le_of_ne h fun he => ?_
    rw [full_iff.2 he] at hf
    cases hf
  rw [Pipe.Ok, store_buf, RingBuf.size_push b (by simp only [PIPESIZE] at hlt; omega)]
  exact ⟨hlt, RingBuf.toList_push (by decide) (by decide) b hlt⟩

/-- The loop of `pipewrite` appends the bytes that it stores. -/
theorem Ok.fill (h : p.Ok) (bs : List UInt8) : (p.fill bs).1.Ok ∧
    (p.fill bs).1.buf.toList = p.buf.toList ++ bs.take (p.fill bs).2 := by
  induction bs generalizing p with
  | nil => simpa [Pipe.fill] using h
  | cons b bs ih =>
    rw [Pipe.fill]
    split
    · simpa using h
    · rename_i hf
      obtain ⟨h1, h2⟩ := h.store (Bool.eq_false_iff.2 hf) b
      obtain ⟨h3, h4⟩ := ih h1
      exact ⟨h3, by rw [h4, h2]; simp⟩

/-- The loop of `piperead` takes the bytes from the front. -/
theorem Ok.drain (h : p.Ok) (n : ℕ) : (p.drain n).1.Ok ∧
    (p.drain n).2 ++ (p.drain n).1.buf.toList = p.buf.toList := by
  induction n generalizing p with
  | zero => simpa [Pipe.drain] using h
  | succ n ih =>
    rw [Pipe.drain]
    split
    · simpa using h
    · rename_i hne
      have hs := RingBuf.size_pop (b := p.buf) (mt empty_iff.2 hne)
      obtain ⟨h1, h2⟩ := ih (p := { p with nread := p.nread + 1 })
        (show p.buf.pop.size ≤ PIPESIZE by have : p.buf.size ≤ PIPESIZE := h; omega)
      refine ⟨h1, ?_⟩
      rw [List.cons_append, h2, RingBuf.toList_pop (b := p.buf) hne]
      rfl

/-! ## What the loops leave alone -/

theorem fill_open (p : Pipe) (bs : List UInt8) : (p.fill bs).1.nread = p.nread ∧
    (p.fill bs).1.readopen = p.readopen ∧ (p.fill bs).1.writeopen = p.writeopen := by
  induction bs generalizing p with
  | nil => exact ⟨rfl, rfl, rfl⟩
  | cons b bs ih =>
    rw [fill]
    split
    · exact ⟨rfl, rfl, rfl⟩
    · exact ih (p.store b)

theorem drain_open (p : Pipe) (n : ℕ) : (p.drain n).1.nwrite = p.nwrite ∧
    (p.drain n).1.readopen = p.readopen ∧ (p.drain n).1.writeopen = p.writeopen := by
  induction n generalizing p with
  | zero => exact ⟨rfl, rfl, rfl⟩
  | succ n ih =>
    rw [drain]
    split
    · exact ⟨rfl, rfl, rfl⟩
    · exact ih { p with nread := p.nread + 1 }

/-- The loop of `pipewrite` stops early only at a full pipe. -/
theorem full_of_fill {bs : List UInt8} (h : bs.drop (p.fill bs).2 ≠ []) :
    (p.fill bs).1.full = true := by
  induction bs generalizing p with
  | nil => exact absurd rfl h
  | cons b bs ih =>
    rw [fill] at h ⊢
    split
    · assumption
    · rename_i hf
      rw [if_neg hf] at h
      exact ih h

theorem fill_of_full (h : p.full = true) (bs : List UInt8) : p.fill bs = (p, 0) := by
  cases bs with
  | nil => rfl
  | cons b bs => rw [fill, if_pos h]

theorem fill_of_zero {bs : List UInt8} (h : (p.fill bs).2 = 0) : (p.fill bs).1 = p := by
  cases bs with
  | nil => rfl
  | cons b bs =>
    rw [fill] at h ⊢
    split
    · rfl
    · rename_i hf
      rw [if_neg hf] at h
      cases h

end Pipe

end Xv6
