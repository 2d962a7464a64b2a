/-
  The physical page allocator of `kalloc.c`.

  Memory is seen the way the kernel sees it: a map from the kernel virtual
  address of a page to its 4096 bytes.  The free list is threaded through the
  free pages, the next pointer in their first eight bytes.  `Pool` ties it to
  a list of pages, and `kalloc` and `kfree` are the head and the cons of that
  list.  The panics of this part of the kernel are the values of `Crash`.
-/
import Xv6.Lib.Bytes
import Xv6.Vm.Mmu
import Mathlib.Logic.Function.Basic
import Mathlib.Data.Finset.Card

namespace Xv6

open Bytes

/-- The bytes of a page. -/
abbrev Page : Type := Fin 4096 → UInt8

/-- The ways in which the kernel stops in `kalloc.c`, `vm.c` and their callers. -/
inductive Crash
  /-- panic "kfree" -/
  | kfree
  /-- panic "Out of memory!" -/
  | outOfMemory
  /-- panic "remap" -/
  | remap
  /-- panic "loaduvm: addr must be page aligned" -/
  | loaduvmAligned
  /-- panic "loaduvm: address should exist" -/
  | loaduvmExist
  /-- panic "freevm: no pgdir" -/
  | freevm
  /-- panic "clearpteu" -/
  | clearpteu
  /-- panic "copyuvm: pte should exist" -/
  | copyuvmExist
  /-- panic "copyuvm: page not present" -/
  | copyuvmPresent
  /-- The kernel reads a page table entry through a null pointer. -/
  | nullPte
  deriving DecidableEq

/-- What the boot fixes: the first address after the kernel (the linker's `end`), which lies
between the kernel's link address and the top of memory, and the page that `kvmalloc` took for the
kernel's part of every page table. -/
structure Boot where
  kend : UInt64
  kpdpt : UInt64
  above : KERNLINK ≤ kend
  below : kend ≤ p2v PHYSTOP

/-- The memory and the head of the free list. -/
structure Kmem where
  mem : UInt64 → Page
  freelist : UInt64

namespace Kmem

/-- The `i`-th 8-byte word of a page. -/
def word (k : Kmem) (p : UInt64) (i : ℕ) : UInt64 := UInt64.ofNat (leGet 8 (k.mem p) (8 * i))

def setPage (k : Kmem) (p : UInt64) (pg : Page) : Kmem := { k with mem := Function.update k.mem p pg }

def setWord (k : Kmem) (p : UInt64) (i : ℕ) (v : UInt64) : Kmem :=
  k.setPage p (leSet 8 (k.mem p) (8 * i) v.toNat)

def kalloc (k : Kmem) : Except Crash (UInt64 × Kmem) :=
  let r := k.freelist
  if r ≠ 0 then .ok (r, { k with freelist := k.word r 0 }) else .error .outOfMemory

/-- A page that `kfree` accepts. -/
def Valid (B : Boot) (v : UInt64) : Prop := v % PGSIZE = 0 ∧ B.kend ≤ v ∧ v2p v < PHYSTOP

instance (B : Boot) (v : UInt64) : Decidable (Valid B v) := inferInstanceAs (Decidable (_ ∧ _))

def kfree (B : Boot) (v : UInt64) (k : Kmem) : Except Crash Kmem :=
  if Valid B v then
    -- junk, then the link
    let k := k.setPage v fun _ => 1
    .ok { k.setWord v 0 k.freelist with freelist := v }
  else .error .kfree

/-- The loop of `freerange` with `n` pages to go. -/
def freeLoop (B : Boot) : ℕ → UInt64 → Kmem → Except Crash Kmem
  | 0, _, k => .ok k
  | n + 1, p, k => do
    let k ← k.kfree B p
    freeLoop B n (p + PGSIZE) k

def freerange (B : Boot) (vstart vend : UInt64) (k : Kmem) : Except Crash Kmem :=
  let p := pgroundup vstart
  freeLoop B ((vend.toNat - p.toNat) / 4096) p k

def kinit1 (B : Boot) (vstart vend : UInt64) (k : Kmem) : Except Crash Kmem :=
  freerange B vstart vend { k with freelist := 0 }

/-! ## Reading and writing -/

@[simp] theorem mem_setPage (k : Kmem) (p : UInt64) (pg : Page) : (k.setPage p pg).mem p = pg :=
  Function.update_self ..

variable {p q : UInt64} {p : UInt64} {B : Boot}

theorem mem_setPage_of_ne (k : Kmem) (pg : Page) (h : q ≠ p) :
    (k.setPage p pg).mem q = k.mem q := Function.update_of_ne h ..

theorem mem_setWord_of_ne (k : Kmem) (i : ℕ) (v : UInt64) (h : q ≠ p) :
    (k.setWord p i v).mem q = k.mem q := k.mem_setPage_of_ne _ h

theorem word_congr {k k' : Kmem} (h : k'.mem p = k.mem p) (i : ℕ) :
    k'.word p i = k.word p i := by rw [word, word, h]

theorem word_setPage_zero (k : Kmem) (p : UInt64) (i : ℕ) :
    (k.setPage p fun _ => 0).word p i = 0 := by
  rw [word, mem_setPage, leGet_zero]
  rfl

theorem word_setWord (k : Kmem) (p : UInt64) {i : ℕ} (hi : i < 512) (v : UInt64) :
    (k.setWord p i v).word p i = v := by
  rw [word, setWord, mem_setPage, leGet_leSet 8 _ _ (by omega), ← UInt64.toNat_inj,
    UInt64.toNat_ofNat', show (256 : ℕ) ^ 8 = 2 ^ 64 by decide, Nat.mod_mod]
  exact Nat.mod_eq_of_lt v.toNat_lt

theorem word_setWord_of_ne (k : Kmem) {i j : ℕ} (v : UInt64) (h : q = p → j ≠ i) :
    (k.setWord p i v).word q j = k.word q j := by
  by_cases hq : q = p
  · subst hq
    have hji := h rfl
    rw [word, setWord, mem_setPage, leGet_leSet_ne 8 8 _ _ (by omega), word]
  · exact word_congr (k.mem_setWord_of_ne i v hq) j

theorem Valid.toNat_v2p (h : Valid B p) :
    (v2p p).toNat = p.toNat - KERNBASE.toNat ∧ KERNLINK.toNat ≤ p.toNat := by
  have habove := UInt64.le_iff_toNat_le.1 B.above
  have hend := UInt64.le_iff_toNat_le.1 h.2.1
  have hbase : KERNBASE.toNat ≤ KERNLINK.toNat := by decide
  have hle : KERNBASE ≤ p := UInt64.le_iff_toNat_le.2 (hbase.trans (habove.trans hend))
  exact ⟨UInt64.toNat_sub_of_le _ _ hle, habove.trans hend⟩

theorem Valid.toNat_mod (h : Valid B p) : p.toNat % 4096 = 0 := by
  have := congrArg UInt64.toNat h.1
  rwa [UInt64.toNat_mod] at this

theorem Valid.v2p_mod (h : Valid B p) : (v2p p).toNat % 4096 = 0 := by
  have hmod := h.toNat_mod
  obtain ⟨hsub, hle⟩ := h.toNat_v2p
  rw [hsub, show KERNBASE.toNat = 0xFFFF800000000000 from rfl]
  rw [show KERNLINK.toNat = 0xFFFF800000100000 from rfl] at hle
  omega

theorem Valid.v2p_ne_zero (h : Valid B p) : v2p p ≠ 0 := by
  obtain ⟨hsub, hle⟩ := h.toNat_v2p
  rw [Ne, ← UInt64.toNat_inj, hsub, show KERNBASE.toNat = 0xFFFF800000000000 from rfl]
  rw [show KERNLINK.toNat = 0xFFFF800000100000 from rfl] at hle
  rw [show (0 : UInt64).toNat = 0 from rfl]
  omega

theorem Valid.ne_zero (h : Valid B p) : p ≠ 0 := by
  rintro rfl
  exact absurd h.toNat_v2p.2 (by decide)

/-! ## The free list -/

/-- The pages from `p` on, up to a null pointer. -/
def Chain (k : Kmem) : UInt64 → List UInt64 → Prop
  | p, [] => p = 0
  | p, q :: l => p = q ∧ Chain k (k.word q 0) l

theorem Chain.congr {k k' : Kmem} : ∀ {l : List UInt64} {p : UInt64}, Chain k p l →
    (∀ q ∈ l, k'.mem q = k.mem q) → Chain k' p l
  | [], _, h, _ => h
  | q :: l, p, ⟨hp, hl⟩, hmem => by
    refine ⟨hp, ?_⟩
    rw [word_congr (hmem q (by simp))]
    exact hl.congr fun q hq => hmem q (List.mem_cons_of_mem _ hq)

/-- The free list is `l`: no page twice, and only pages that may be freed. -/
structure Pool (B : Boot) (k : Kmem) (l : List UInt64) : Prop where
  chain : Chain k k.freelist l
  nodup : l.Nodup
  valid : ∀ p ∈ l, Valid B p

variable {B : Boot} {k : Kmem} {l : List UInt64} {p : UInt64}

theorem Pool.congr {k' : Kmem} (h : Pool B k l) (hfree : k'.freelist = k.freelist)
    (hmem : ∀ q ∈ l, k'.mem q = k.mem q) : Pool B k' l :=
  ⟨hfree ▸ h.chain.congr hmem, h.nodup, h.valid⟩

/-- `kalloc` panics on an empty list and otherwise takes its first page. -/
theorem Pool.kalloc (h : Pool B k l) :
    (l = [] ∧ k.kalloc = .error .outOfMemory) ∨
    ∃ p l' k', l = p :: l' ∧ k.kalloc = .ok (p, k') ∧ k'.mem = k.mem ∧ Pool B k' l' := by
  cases l with
  | nil => exact .inl ⟨rfl, if_neg (not_not.2 h.chain)⟩
  | cons p l' =>
    obtain ⟨hhead, htail⟩ := h.chain
    have hp := h.valid p (by simp)
    refine .inr ⟨p, l', { k with freelist := k.word p 0 }, rfl, ?_, rfl, ?_⟩
    · rw [Kmem.kalloc, hhead]
      exact if_pos hp.ne_zero
    · exact ⟨htail.congr fun _ _ => rfl, (List.nodup_cons.1 h.nodup).2,
        fun q hq => h.valid q (List.mem_cons_of_mem _ hq)⟩

/-- `kfree` puts a page that is not free in front. -/
theorem Pool.kfree (h : Pool B k l) (hp : Valid B p) (hl : p ∉ l) :
    ∃ k', k.kfree B p = .ok k' ∧ Pool B k' (p :: l) ∧ ∀ q, q ≠ p → k'.mem q = k.mem q := by
  have hok : k.kfree B p =
      .ok { (k.setPage p fun _ => 1).setWord p 0 k.freelist with freelist := p } := if_pos hp
  generalize hk : (k.setPage p fun _ => 1).setWord p 0 k.freelist = k₁ at hok
  have hmem : ∀ q, q ≠ p → k₁.mem q = k.mem q := fun q hq => by
    rw [← hk, mem_setWord_of_ne _ _ _ hq, mem_setPage_of_ne _ _ hq]
  have hnext : k₁.word p 0 = k.freelist := by
    rw [← hk]
    exact word_setWord _ _ (by decide) _
  refine ⟨_, hok, ⟨⟨rfl, ?_⟩, List.nodup_cons.2 ⟨hl, h.nodup⟩, ?_⟩, hmem⟩
  · have hchain : Chain k₁ (k₁.word p 0) l := by
      rw [hnext]
      exact h.chain.congr fun q hq => hmem q (by rintro rfl; exact hl hq)
    exact hchain.congr fun _ _ => rfl
  · intro q hq
    rcases List.mem_cons.1 hq with rfl | hq
    · exact hp
    · exact h.valid q hq

/-- Freeing a run of pages above those that are free. -/
theorem Pool.freeLoop : ∀ (n : ℕ) {k : Kmem} {l : List UInt64} {p : UInt64}, Pool B k l →
    p.toNat % 4096 = 0 → B.kend ≤ p → p.toNat + 4096 * n ≤ (p2v PHYSTOP).toNat →
    (∀ q ∈ l, q < p) →
    ∃ k' l', k.freeLoop B n p = .ok k' ∧ Pool B k' l' ∧ l'.length = l.length + n ∧
      ∀ q, q ∈ l' ↔ q ∈ l ∨ Valid B q ∧ p ≤ q ∧ q.toNat < p.toNat + 4096 * n
  | 0, k, l, p, h, _, _, _, _ => by
    refine ⟨k, l, rfl, h, rfl, fun q => (or_iff_left ?_).symm⟩
    rintro ⟨-, hle, hlt⟩
    have := UInt64.le_iff_toNat_le.1 hle
    omega
  | n + 1, k, l, p, h, hmod, hend, htop, hl => by
    have htopv : (p2v PHYSTOP).toNat = 0xFFFF80000E000000 := by decide
    have hbase : KERNBASE.toNat = 0xFFFF800000000000 := rfl
    have habove := UInt64.le_iff_toNat_le.1 (UInt64.le_trans B.above hend)
    rw [show KERNLINK.toNat = 0xFFFF800000100000 from rfl] at habove
    have hsub : (v2p p).toNat = p.toNat - KERNBASE.toNat :=
      UInt64.toNat_sub_of_le _ _ (UInt64.le_iff_toNat_le.2 (by omega))
    have hp : Valid B p := by
      refine ⟨?_, hend, UInt64.lt_iff_toNat_lt.2 ?_⟩
      · rw [← UInt64.toNat_inj, UInt64.toNat_mod]
        exact hmod
      · rw [hsub, show PHYSTOP.toNat = 0xE000000 from rfl]
        omega
    have hpl : p ∉ l := fun hm => UInt64.lt_irrefl p (hl p hm)
    obtain ⟨k₁, hok₁, hpool₁, -⟩ := h.kfree hp hpl
    have hnext : (p + PGSIZE).toNat = p.toNat + 4096 := by
      rw [UInt64.toNat_add, show PGSIZE.toNat = 4096 from rfl]
      omega
    obtain ⟨k₂, l₂, hok₂, hpool₂, hlen, hmem⟩ := Pool.freeLoop n (p := p + PGSIZE) hpool₁ (by omega)
      (UInt64.le_trans hend (UInt64.le_iff_toNat_le.2 (by omega))) (by omega) (fun q hq => by
        rw [UInt64.lt_iff_toNat_lt, hnext]
        rcases List.mem_cons.1 hq with rfl | hq
        · omega
        · have := UInt64.lt_iff_toNat_lt.1 (hl q hq)
          omega)
    refine ⟨k₂, l₂, ?_, hpool₂, by rw [hlen, List.length_cons]; omega, fun q => ?_⟩
    · rw [Kmem.freeLoop, hok₁]
      exact hok₂
    · rw [hmem, List.mem_cons]
      constructor
      · rintro ((rfl | hq) | ⟨hv, hle, hlt⟩)
        · exact .inr ⟨hp, UInt64.le_refl _, by omega⟩
        · exact .inl hq
        · rw [UInt64.le_iff_toNat_le, hnext] at hle
          exact .inr ⟨hv, UInt64.le_iff_toNat_le.2 (by omega), by omega⟩
      · rintro (hq | ⟨hv, hle, hlt⟩)
        · exact .inl (.inr hq)
        · rw [UInt64.le_iff_toNat_le] at hle
          have hqmod := hv.toNat_mod
          by_cases heq : q = p
          · exact .inl (.inl heq)
          · have hne : q.toNat ≠ p.toNat := fun he => heq (UInt64.toNat_inj.1 he)
            exact .inr ⟨hv, UInt64.le_iff_toNat_le.2 (by omega), by omega⟩

/-- **After `kinit1`** every page between the kernel and the top of memory is free. -/
theorem kinit1_pool (B : Boot) (k : Kmem) :
    ∃ k' l, k.kinit1 B B.kend (p2v PHYSTOP) = .ok k' ∧ Pool B k' l ∧ (∀ p, p ∈ l ↔ Valid B p) ∧
      l.length = ((p2v PHYSTOP).toNat - (pgroundup B.kend).toNat) / 4096 := by
  have htop : (p2v PHYSTOP).toNat = 0xFFFF80000E000000 := by decide
  have hbelow := UInt64.le_iff_toNat_le.1 B.below
  have hround := toNat_pgroundup (a := B.kend) (by omega)
  have hempty : Pool B { k with freelist := 0 } [] := ⟨rfl, List.nodup_nil, by simp⟩
  obtain ⟨k', l, hok, hpool, hlen, hmem⟩ :=
    Pool.freeLoop (((p2v PHYSTOP).toNat - (pgroundup B.kend).toNat) / 4096)
      (p := pgroundup B.kend) hempty (by omega) (UInt64.le_iff_toNat_le.2 (by omega))
      (by omega) (by simp)
  refine ⟨k', l, hok, hpool, fun p => ?_, by simpa using hlen⟩
  rw [hmem]
  simp only [List.not_mem_nil, false_or, and_iff_left_iff_imp]
  intro hp
  have hmod := hp.toNat_mod
  obtain ⟨hsub, hlink⟩ := hp.toNat_v2p
  have hend := UInt64.le_iff_toNat_le.1 hp.2.1
  have hlt := UInt64.lt_iff_toNat_lt.1 hp.2.2
  rw [hsub, show KERNBASE.toNat = 0xFFFF800000000000 from rfl,
    show PHYSTOP.toNat = 0xE000000 from rfl] at hlt
  rw [show KERNLINK.toNat = 0xFFFF800000100000 from rfl] at hlink
  exact ⟨UInt64.le_iff_toNat_le.2 (by omega), by omega⟩

/-- There are fewer pages than a page table can map. -/
theorem length_le_of_valid (hn : l.Nodup) (hv : ∀ p ∈ l, Valid B p) : l.length ≤ 57344 := by
  have hinj : (l.map fun p => (v2p p).toNat / 4096).Nodup := by
    refine List.Nodup.map_on (fun p hp q hq heq => ?_) hn
    have h1 := (hv p hp).v2p_mod
    have h2 := (hv q hq).v2p_mod
    have : v2p p = v2p q := UInt64.toNat_inj.1 (by omega)
    rw [← p2v_v2p p, this, p2v_v2p]
  have hsub : (l.map fun p => (v2p p).toNat / 4096).toFinset ⊆ Finset.range 57344 := by
    intro i hi
    obtain ⟨p, hp, rfl⟩ := List.mem_map.1 (List.mem_toFinset.1 hi)
    have hlt := UInt64.lt_iff_toNat_lt.1 (hv p hp).2.2
    rw [show PHYSTOP.toNat = 0xE000000 from rfl] at hlt
    exact Finset.mem_range.2 (by omega)
  have hcard := Finset.card_le_card hsub
  rwa [List.toFinset_card_of_nodup hinj, List.length_map, Finset.card_range] at hcard

end Kmem

end Xv6
