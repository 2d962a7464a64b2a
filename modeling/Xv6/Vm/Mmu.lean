/-
  The paging macros of `mmu.h` and `memlayout.h`.

  Addresses and page table entries are 64-bit words, and the macros are the
  bit operations of the source.  What the rest of the development uses is
  their meaning in terms of integers: rounding to pages, the four 9-bit
  indices of an address, and an entry as an aligned address plus flags.
-/
import Mathlib.Data.Nat.Bitwise
import Mathlib.Tactic.Common

namespace Xv6

/-- Bytes mapped by a page. -/
abbrev PGSIZE : UInt64 := 4096

/-- Entries of a page table page. -/
abbrev NPDENTRIES : ℕ := 512

/-- Top of physical memory. -/
abbrev PHYSTOP : UInt64 := 0xE000000

/-- First kernel virtual address. -/
abbrev KERNBASE : UInt64 := 0xFFFF800000000000

/-- Address where the kernel is linked. -/
abbrev KERNLINK : UInt64 := 0xFFFF800000100000

abbrev PTE_P : UInt64 := 0x001
abbrev PTE_W : UInt64 := 0x002
abbrev PTE_U : UInt64 := 0x004

def v2p (a : UInt64) : UInt64 := a - KERNBASE

def p2v (a : UInt64) : UInt64 := a + KERNBASE

def pgroundup (sz : UInt64) : UInt64 := (sz + (PGSIZE - 1)) &&& ~~~ (PGSIZE - 1)

def pgrounddown (a : UInt64) : UInt64 := a &&& ~~~ (PGSIZE - 1)

def pmx (va : UInt64) : UInt64 := (va >>> 39) &&& 0x1FF

def pdpx (va : UInt64) : UInt64 := (va >>> 30) &&& 0x1FF

def pdx (va : UInt64) : UInt64 := (va >>> 21) &&& 0x1FF

def ptx (va : UInt64) : UInt64 := (va >>> 12) &&& 0x1FF

def pteAddr (pte : UInt64) : UInt64 := pte &&& ~~~ 0xFFF

def pteFlags (pte : UInt64) : UInt64 := pte &&& 0xFFF

/-! ## Rounding -/

theorem toNat_and_low (a : UInt64) : (a &&& 0xFFF).toNat = a.toNat % 4096 := by
  rw [UInt64.toNat_and]
  exact Nat.and_two_pow_sub_one_eq_mod a.toNat 12

/-- Clearing the low `s` bits. -/
theorem toNat_and_mask (a : UInt64) {m : UInt64} {s : ℕ} (hs : s ≤ 64)
    (hm : m.toNat = (2 ^ (64 - s) - 1) <<< s) : (a &&& m).toNat = a.toNat / 2 ^ s * 2 ^ s := by
  have hshift : a.toNat / 2 ^ s * 2 ^ s = a.toNat >>> s <<< s := by
    rw [Nat.shiftRight_eq_div_pow, Nat.shiftLeft_eq]
  rw [UInt64.toNat_and, hm, hshift]
  refine Nat.eq_of_testBit_eq fun i => ?_
  rw [Nat.testBit_and, Nat.testBit_shiftLeft, Nat.testBit_shiftLeft, Nat.testBit_shiftRight,
    Nat.testBit_two_pow_sub_one]
  by_cases hi : s ≤ i
  · rw [show s + (i - s) = i by omega]
    by_cases h64 : i - s < 64 - s
    · simp [hi, h64]
    · have : a.toNat.testBit i = false :=
        Nat.testBit_lt_two_pow (lt_of_lt_of_le a.toNat_lt (Nat.pow_le_pow_right (by decide) (by omega)))
      simp [hi, this]
  · simp [hi]

theorem toNat_and_high (a : UInt64) : (a &&& ~~~ 0xFFF).toNat = a.toNat / 4096 * 4096 :=
  toNat_and_mask a (s := 12) (by decide) (by decide)

theorem toNat_pgrounddown (a : UInt64) : (pgrounddown a).toNat = a.toNat / 4096 * 4096 :=
  toNat_and_high a

theorem toNat_pgroundup {a : UInt64} (h : a.toNat + 4095 < 2 ^ 64) :
    (pgroundup a).toNat = (a.toNat + 4095) / 4096 * 4096 := by
  have hadd : (a + (PGSIZE - 1)).toNat = a.toNat + 4095 := by
    rw [UInt64.toNat_add]
    exact Nat.mod_eq_of_lt h
  rw [pgroundup, show PGSIZE - 1 = 0xFFF from rfl, toNat_and_high, ← hadd]
  rfl

/-! ## Indices -/

theorem toNat_index (va : UInt64) {s : UInt64} (hs : s.toNat < 64) :
    ((va >>> s) &&& 0x1FF).toNat = va.toNat / 2 ^ s.toNat % 512 := by
  rw [UInt64.toNat_and, UInt64.toNat_shiftRight, Nat.mod_eq_of_lt hs, Nat.shiftRight_eq_div_pow]
  exact Nat.and_two_pow_sub_one_eq_mod _ 9

theorem toNat_pmx (va : UInt64) : (pmx va).toNat = va.toNat / 2 ^ 39 % 512 :=
  toNat_index va (by decide)

theorem toNat_pdpx (va : UInt64) : (pdpx va).toNat = va.toNat / 2 ^ 30 % 512 :=
  toNat_index va (by decide)

theorem toNat_pdx (va : UInt64) : (pdx va).toNat = va.toNat / 2 ^ 21 % 512 :=
  toNat_index va (by decide)

theorem toNat_ptx (va : UInt64) : (ptx va).toNat = va.toNat / 2 ^ 12 % 512 :=
  toNat_index va (by decide)

/-! ## Entries -/

variable {a f : UInt64}

/-- An aligned address and flags do not overlap. -/
theorem toNat_or_flags (ha : a.toNat % 4096 = 0) (hf : f.toNat < 4096) :
    (a ||| f).toNat = a.toNat + f.toNat := by
  have hdiv : a.toNat = 2 ^ 12 * (a.toNat / 4096) := by omega
  rw [UInt64.toNat_or, hdiv]
  exact (Nat.two_pow_add_eq_or_of_lt hf _).symm

theorem pteAddr_or (ha : a.toNat % 4096 = 0) (hf : f.toNat < 4096) :
    pteAddr (a ||| f) = a := by
  rw [← UInt64.toNat_inj, pteAddr, toNat_and_high, toNat_or_flags ha hf]
  omega

theorem pteFlags_or (ha : a.toNat % 4096 = 0) (hf : f.toNat < 4096) :
    pteFlags (a ||| f) = f := by
  rw [← UInt64.toNat_inj, pteFlags, toNat_and_low, toNat_or_flags ha hf]
  omega

/-- The flags of a present entry have the present bit. -/
theorem pteFlags_or_present {e : UInt64} (h : e &&& PTE_P ≠ 0) :
    pteFlags e ||| PTE_P = pteFlags e := by
  have hbit : e.toNat % 2 ≠ 0 := by
    intro h0
    refine h (UInt64.toNat_inj.1 ?_)
    rw [UInt64.toNat_and]
    exact (Nat.and_one_is_mod _).trans h0
  have hlow : (pteFlags e).toNat = e.toNat % 4096 := toNat_and_low e
  have hodd : (pteFlags e).toNat = 2 ^ 1 * ((pteFlags e).toNat / 2) ||| 1 := by
    rw [← Nat.two_pow_add_eq_or_of_lt (by decide)]
    omega
  rw [← UInt64.toNat_inj, UInt64.toNat_or, hodd]
  change _ ||| 1 ||| 1 = _ ||| 1
  rw [Nat.or_assoc]
  rfl

@[simp] theorem p2v_v2p (a : UInt64) : p2v (v2p a) = a := UInt64.sub_add_cancel a KERNBASE

@[simp] theorem v2p_p2v (a : UInt64) : v2p (p2v a) = a := UInt64.add_sub_cancel a KERNBASE

end Xv6
