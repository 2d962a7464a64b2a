/-
  System call arguments: `fetchstr`, `fetcharg`, `argint`, `argaddr`, `argptr`
  and `argstr` of `syscall.c`, and which user memory they admit.

  Addresses are 64-bit words; the casts of the source to `uint` and `int` are
  written out.  What a function stores through its pointer argument is part of
  its result (`none`: nothing is stored), and the outer `none` is the panic of
  `fetcharg`.
-/
import Xv6.Vm.Mmu
import Mathlib.Data.List.Basic
import Mathlib.Data.List.Range

namespace Xv6

/-- The registers that a system call or an interrupt saves. -/
structure Trapframe where
  rax : UInt64
  rbx : UInt64
  rcx : UInt64
  rdx : UInt64
  rbp : UInt64
  rsi : UInt64
  rdi : UInt64
  r8 : UInt64
  r9 : UInt64
  r10 : UInt64
  r11 : UInt64
  r12 : UInt64
  r13 : UInt64
  r14 : UInt64
  r15 : UInt64
  trapno : UInt64
  err : UInt64
  rip : UInt64
  cs : UInt64
  rflags : UInt64
  rsp : UInt64
  ss : UInt64
  deriving DecidableEq

/-- What the argument functions see of `proc`: the saved registers, the size of
the process and the bytes of its address space. -/
structure Caller where
  tf : Trapframe
  sz : UInt64
  mem : UInt64 → UInt8

namespace Caller

/-- The loop of `fetchstr`: the distance of the first zero byte of `[addr, sz)`. -/
def strlen (p : Caller) (addr : UInt64) : Option ℕ :=
  (List.range (p.sz.toNat - addr.toNat)).find? fun k => p.mem (addr + UInt64.ofNat k) = 0

def fetchstr (p : Caller) (addr : UInt64) : Int32 × Option UInt64 :=
  if addr < PGSIZE ∨ p.sz ≤ addr then (-1, none)
  else match p.strlen addr with
    | some k => (Int32.ofNat k, some addr)
    | none => (-1, some addr)

def fetcharg (p : Caller) (n : ℕ) : Option UInt64 :=
  match n with
  | 0 => some p.tf.rdi
  | 1 => some p.tf.rsi
  | 2 => some p.tf.rdx
  | 3 => some p.tf.r10
  | 4 => some p.tf.r8
  | 5 => some p.tf.r9
  | _ => none

def argint (p : Caller) (n : ℕ) : Option Int32 :=
  (p.fetcharg n).map fun a => a.toUInt32.toInt32

def argaddr (p : Caller) (n : ℕ) : Option UInt64 := p.fetcharg n

/-- The test of `argptr`: `(uint)i` and the 32-bit sum `(uint)i+size` against `sz`. -/
def badptr (p : Caller) (i : UInt64) (size : Int32) : Prop :=
  size < 0 ∨ p.sz ≤ i.toUInt32.toUInt64 ∨ p.sz < (i.toUInt32 + size.toUInt32).toUInt64

instance (p : Caller) (i : UInt64) (size : Int32) : Decidable (p.badptr i size) :=
  inferInstanceAs (Decidable (_ ∨ _))

def argptr (p : Caller) (n : ℕ) (size : Int32) : Option (UInt64 × Option UInt64) :=
  (p.argaddr n).map fun i => if p.badptr i size then (-1, none) else (0, some i)

def argstr (p : Caller) (n : ℕ) : Option (Int32 × Option UInt64) :=
  (p.argint n).map fun addr => p.fetchstr addr.toInt64.toUInt64

/-! ## What is admitted -/

/-- A block of `size` bytes at `i` inside the image, as integers. -/
def Inside (p : Caller) (i : UInt64) (size : ℕ) : Prop :=
  ∀ a : ℕ, i.toNat ≤ a → a < i.toNat + size → PGSIZE.toNat ≤ a ∧ a < p.sz.toNat

/-- A string of length `k` at `i`, with its NUL inside the image. -/
structure StringAt (p : Caller) (i : UInt64) (k : ℕ) : Prop where
  inside : p.Inside i (k + 1)
  nul : p.mem (i + UInt64.ofNat k) = 0
  first : ∀ j < k, p.mem (i + UInt64.ofNat j) ≠ 0

/-- The register as an `int`, widened again: the address that `argstr` works on. -/
def narrow (i : UInt64) : UInt64 := i.toUInt32.toInt32.toInt64.toUInt64

variable {p : Caller} {i : UInt64} {addr : UInt64}

theorem inside_iff {size : ℕ} (h : 0 < size) :
    p.Inside i size ↔ PGSIZE.toNat ≤ i.toNat ∧ i.toNat + size ≤ p.sz.toNat := by
  constructor
  · intro hin
    have hlo := (hin i.toNat le_rfl (by omega)).1
    have hhi := (hin (i.toNat + size - 1) (by omega) (by omega)).2
    exact ⟨hlo, by omega⟩
  · rintro ⟨hlo, hhi⟩ a ha ha'
    exact ⟨by omega, by omega⟩

theorem strlen_eq_some {k : ℕ} :
    p.strlen addr = some k ↔ k < p.sz.toNat - addr.toNat ∧
      p.mem (addr + UInt64.ofNat k) = 0 ∧ ∀ j < k, p.mem (addr + UInt64.ofNat j) ≠ 0 := by
  rw [strlen, List.find?_range_eq_some]
  simp only [decide_eq_true_eq, Bool.not_eq_true', decide_eq_false_iff_not, List.mem_range]
  tauto

/-- `fetchstr` returns a length exactly where a string of the process starts. -/
theorem fetchstr_eq {r : Int32} {pp : Option UInt64} (h : p.fetchstr addr = (r, pp)) (hr : 0 ≤ r) :
    pp = some addr ∧ ∃ k, p.StringAt addr k ∧ r = Int32.ofNat k := by
  unfold fetchstr at h
  split at h
  · obtain ⟨rfl, -⟩ := Prod.mk.inj h
    exact absurd hr (by decide)
  · rename_i hb
    obtain ⟨hlo, hhi⟩ := not_or.1 hb
    rw [UInt64.not_lt, UInt64.le_iff_toNat_le] at hlo
    rw [UInt64.not_le, UInt64.lt_iff_toNat_lt] at hhi
    split at h
    · rename_i k hk
      obtain ⟨rfl, rfl⟩ := Prod.mk.inj h
      obtain ⟨hlt, hnul, hfirst⟩ := strlen_eq_some.1 hk
      refine ⟨rfl, k, ⟨(inside_iff (by omega)).2 ⟨hlo, by omega⟩, hnul, hfirst⟩, rfl⟩
    · obtain ⟨rfl, -⟩ := Prod.mk.inj h
      exact absurd hr (by decide)

theorem StringAt.fetchstr_eq {k : ℕ} (h : p.StringAt addr k) :
    p.fetchstr addr = (Int32.ofNat k, some addr) := by
  obtain ⟨hlo, hhi⟩ := (inside_iff (by omega)).1 h.inside
  have hb : ¬ (addr < PGSIZE ∨ p.sz ≤ addr) := by
    rw [UInt64.lt_iff_toNat_lt, UInt64.le_iff_toNat_le]
    omega
  have hk : p.strlen addr = some k := strlen_eq_some.2 ⟨by omega, h.nul, h.first⟩
  rw [fetchstr, if_neg hb, hk]

/-- The test of `argptr` in terms of integers. -/
theorem badptr_iff {size : Int32} (h : 0 ≤ size) :
    p.badptr i size ↔ p.sz.toNat ≤ i.toNat % 2 ^ 32 ∨
      p.sz.toNat < (i.toNat % 2 ^ 32 + size.toNatClampNeg) % 2 ^ 32 := by
  rw [badptr, UInt64.le_iff_toNat_le, UInt64.lt_iff_toNat_lt, UInt32.toNat_toUInt64,
    UInt32.toNat_toUInt64, UInt32.toNat_add, UInt64.toNat_toUInt32,
    Int32.toNat_toUInt32_of_le h, or_iff_right]
  exact Int32.not_lt.2 h

theorem argptr_zero {n : ℕ} {size : Int32} {pp : Option UInt64} (hi : p.fetcharg n = some i) :
    p.argptr n size = some (0, pp) ↔ ¬ p.badptr i size ∧ pp = some i := by
  rw [argptr, argaddr, hi, Option.map_some]
  by_cases hb : p.badptr i size
  · simp [hb]
  · simp [hb, eq_comm]

theorem argstr_eq {n : ℕ} (hi : p.fetcharg n = some i) :
    p.argstr n = some (p.fetchstr (narrow i)) := by
  rw [argstr, argint, hi]
  rfl

/-- A process of three pages whose first arguments are given, with zeroed memory. -/
def ofRegs (rdi rsi : UInt64) : Caller where
  tf := ⟨0, 0, 0, 0, 0, rsi, rdi, 0, 0, 0, 0, 0, 0, 0, 0, 0, 0, 0, 0, 0, 0, 0⟩
  sz := 0x3000
  mem := fun _ => 0

end Caller

end Xv6
