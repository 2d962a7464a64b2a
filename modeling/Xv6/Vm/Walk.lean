/-
  Four-level page tables: `walkpgdir`, `mappages` and `setupkvm` of `vm.c`.

  A page table is a radix tree of pages with 512 entries each, of whose root
  the first 256 entries are for user addresses.  `Tree` says that the free
  pages and the tables of a page table are different pages, which all belong
  to a set `S`; walking with `alloc` moves pages of `S` from the first role to
  the second and touches no others.  What a page table means is the entry
  `pte` of every virtual page.
-/
import Xv6.Lib.Fallible
import Xv6.Lib.Own
import Xv6.Lib.Radix
import Xv6.Vm.Kalloc

namespace Xv6

open Own Fallible

/-- A `pte_t *` that is not null: a table and an index in it. -/
structure PtePtr where
  table : UInt64
  index : ℕ
  deriving DecidableEq

namespace Kmem

/-- One level of `walkpgdir`: the table that entry `i` of `t` leads to, if need be a new one. -/
def descend (t i : UInt64) (alloc : Bool) (k : Kmem) : Except Crash (Option UInt64 × Kmem) :=
  let e := k.word t i.toNat
  if e &&& PTE_P ≠ 0 then .ok (some (p2v (pteAddr e)), k)
  else if !alloc then .ok (none, k)
  else do
    let (p, k) ← k.kalloc
    if p = 0 then .ok (none, k)
    else
      let k := k.setPage p fun _ => 0
      .ok (some p, k.setWord t i.toNat (v2p p ||| PTE_P ||| PTE_W ||| PTE_U))

/-- The entry of `va`; `none` is the null pointer. -/
def walkpgdir (pml4 va : UInt64) (alloc : Bool) (k : Kmem) :
    Except Crash (Option PtePtr × Kmem) := do
  match ← descend pml4 (pmx va) alloc k with
  | (none, k) => .ok (none, k)
  | (some pdp, k) =>
    match ← descend pdp (pdpx va) alloc k with
    | (none, k) => .ok (none, k)
    | (some pd, k) =>
      match ← descend pd (pdx va) alloc k with
      | (none, k) => .ok (none, k)
      | (some pgtab, k) => .ok (some ⟨pgtab, (ptx va).toNat⟩, k)

def get (k : Kmem) (s : PtePtr) : UInt64 := k.word s.table s.index

def set (k : Kmem) (s : PtePtr) (e : UInt64) : Kmem := k.setWord s.table s.index e

/-- One round of the loop of `mappages`. -/
def mapPage (pgdir a pa : UInt64) (perm : Int32) (k : Kmem) : Except Crash (Int32 × Kmem) := do
  match ← walkpgdir pgdir a true k with
  | (none, k) => .ok (-1, k)
  | (some pte, k) =>
    if k.get pte &&& PTE_P ≠ 0 then .error .remap
    else .ok (0, k.set pte (pa ||| perm.toInt64.toUInt64 ||| PTE_P))

/-- The loop of `mappages` with `n` pages to go after this one. -/
def mapLoop (pgdir : UInt64) (perm : Int32) : ℕ → UInt64 → UInt64 → Kmem →
    Except Crash (Int32 × Kmem)
  | 0, a, pa, k => mapPage pgdir a pa perm k
  | n + 1, a, pa, k => do
    let (res, k) ← mapPage pgdir a pa perm k
    if res < 0 then .ok (res, k) else mapLoop pgdir perm n (a + PGSIZE) (pa + PGSIZE) k

def mappages (pgdir va size pa : UInt64) (perm : Int32) (k : Kmem) :
    Except Crash (Int32 × Kmem) :=
  let a := pgrounddown va
  let last := pgrounddown (va + size - 1)
  mapLoop pgdir perm ((last - a) / PGSIZE).toNat a pa k

def setupkvm (B : Boot) (k : Kmem) : Except Crash (UInt64 × Kmem) := do
  let (pml4, k) ← k.kalloc
  let k := k.setPage pml4 fun _ => 0
  .ok (pml4, k.setWord pml4 256 (v2p B.kpdpt ||| PTE_P ||| PTE_W))

/-! ## The tree of a page table -/

/-- The tables below the user half of a PML4. -/
def format : Radix.Format UInt64 UInt64 where
  width := 512
  top := 256
  child e := if e &&& PTE_P ≠ 0 then some (p2v (pteAddr e)) else none
  width_pos := by decide

/-- The table at depth `d` (PML4, PDPT, PD, PT) for the virtual addresses with prefix `x`. -/
abbrev node (k : Kmem) (r : UInt64) (d x : ℕ) : Option UInt64 := Radix.node format k.word r d x

/-- The entry of virtual page `v`, 0 where there is no table. -/
abbrev pte (k : Kmem) (r : UInt64) (v : ℕ) : UInt64 := Radix.find format k.word r 3 0 v

/-- What a page is used for: free, or a table. -/
inductive Role
  | free (p : UInt64)
  | table (d x : ℕ)

/-- The page in a role. -/
def roles (k : Kmem) (l : List UInt64) (r : UInt64) : Role → Option UInt64
  | .free p => if p ∈ l then some p else none
  | .table d x => if d ≤ 3 then node k r d x else none

variable {k : Kmem} {l : List UInt64} {v : ℕ}

theorem roles_free {r p : UInt64} (hp : p ∈ l) :
    roles k l r (.free p) = some p := if_pos hp

theorem roles_free_none {r p : UInt64} (hp : p ∉ l) :
    roles k l r (.free p) = none := if_neg hp

theorem roles_table {r : UInt64} {d : ℕ} (hd : d ≤ 3) (x : ℕ) :
    roles k l r (.table d x) = node k r d x := if_pos hd

theorem roles_table_congr {k k' : Kmem} {l l' : List UInt64} {r : UInt64}
    (h : ∀ d ≤ 3, ∀ x, node k' r d x = node k r d x) (d x : ℕ) :
    roles k' l' r (.table d x) = roles k l r (.table d x) := by
  by_cases hd : d ≤ 3
  · rw [roles_table hd, roles_table hd, h d hd]
  · rw [roles, roles, if_neg hd, if_neg hd]

theorem roles_free_cons {k k' : Kmem} {r p q : UInt64} (h : Role.free q ≠ Role.free p) :
    roles k (p :: l) r (.free q) = roles k' l r (.free q) := by
  have hqp : q ≠ p := by
    rintro rfl
    exact h rfl
  simp only [roles, List.mem_cons, hqp, false_or]

/-- The free pages `l` and the tables of `r` are different pages, those of `S`. -/
structure Tree (B : Boot) (k : Kmem) (l : List UInt64) (r : UInt64) (S : UInt64 → Prop) : Prop where
  pool : Pool B k l
  valid : ∀ p, S p → Valid B p
  owns : Owns (roles k l r) S

/-- What an operation with pages in `S` keeps: other pages, the tables there are, and the kernel's
half of the root. -/
structure Grows (S : UInt64 → Prop) (r : UInt64) (k k' : Kmem) : Prop where
  mem : ∀ q, ¬ S q → k'.mem q = k.mem q
  node : ∀ {d x q}, d ≤ 3 → node k r d x = some q → node k' r d x = some q
  high : ∀ i, 256 ≤ i → i < 512 → k'.word r i = k.word r i

variable {B : Boot} {k k' k'' : Kmem} {l : List UInt64} {r : UInt64} {S : UInt64 → Prop}

theorem Grows.refl : Grows S r k k := ⟨fun _ _ => rfl, fun _ h => h, fun _ _ _ => rfl⟩

theorem Grows.trans (h : Grows S r k k') (h' : Grows S r k' k'') : Grows S r k k'' where
  mem q hq := (h'.mem q hq).trans (h.mem q hq)
  node hd hn := h'.node hd (h.node hd hn)
  high i hi hi' := (h'.high i hi hi').trans (h.high i hi hi')

namespace Tree

theorem free (h : Tree B k l r S) {p : UInt64} (hp : p ∈ l) : S p := h.owns.mem (roles_free hp)

theorem table (h : Tree B k l r S) {d x : ℕ} {t : UInt64} (hd : d ≤ 3) (ht : node k r d x = some t) :
    S t := h.owns.mem ((roles_table hd x).trans ht)

theorem not_free (h : Tree B k l r S) {d x : ℕ} {t : UInt64} (hd : d ≤ 3)
    (ht : node k r d x = some t) : t ∉ l := by
  intro htl
  cases h.owns.inj (roles_free htl) ((roles_table hd x).trans ht)

theorem inj (h : Tree B k l r S) : Radix.Inj format k.word r 3 := by
  intro d d' x x' p hd hd' hx hx'
  cases h.owns.inj ((roles_table hd x).trans hx) ((roles_table hd' x').trans hx')
  exact ⟨rfl, rfl⟩

theorem root (h : Tree B k l r S) : S r := h.table (x := 0) (d := 0) (by decide) rfl

end Tree

theorem child_eq {e : UInt64} (h : e &&& PTE_P ≠ 0) :
    format.child e = some (p2v (pteAddr e)) := if_pos h

theorem child_eq_none {e : UInt64} (h : ¬ e &&& PTE_P ≠ 0) : format.child e = none := if_neg h

theorem present_or (e f : UInt64) (hf : f &&& PTE_P = PTE_P) : (e ||| f) &&& PTE_P ≠ 0 := by
  intro h
  have hand : f.toNat &&& 1 = 1 := congrArg UInt64.toNat hf
  have hor : (e.toNat ||| f.toNat) &&& 1 = 0 := congrArg UInt64.toNat h
  have hbit := congrArg (Nat.testBit · 0) hor
  have hf0 := congrArg (Nat.testBit · 0) hand
  simp only [Nat.testBit_and, Nat.testBit_or] at hbit hf0
  simp_all

/-- The entry that `walkpgdir` makes leads to the new table. -/
theorem child_link {p : UInt64} (hp : Valid B p) :
    format.child (v2p p ||| PTE_P ||| PTE_W ||| PTE_U) = some p := by
  have hflags : v2p p ||| PTE_P ||| PTE_W ||| PTE_U = v2p p ||| 7 := by
    rw [UInt64.or_assoc, UInt64.or_assoc]
    rfl
  rw [hflags, child_eq (present_or _ _ (by decide)), pteAddr_or hp.v2p_mod (by decide), p2v_v2p]

/-! ## Walking -/

theorem descend_find {t i : UInt64} :
    descend t i false k = .ok (format.child (k.word t i.toNat), k) := by
  by_cases h : k.word t i.toNat &&& PTE_P ≠ 0
  · rw [descend, if_pos h, child_eq h]
  · rw [descend, if_neg h, child_eq_none h]
    rfl

/-- **One level down**, with a new table where there was none. -/
theorem Tree.descend (h : Tree B k l r S) {t i : UInt64} {d x : ℕ} (hd : d < 3)
    (ht : node k r d x = some t) (hi : i.toNat < 512) (hx : x * 512 + i.toNat < 256 * 512 ^ d) :
    Spends .outOfMemory (fun _ => False) 1 l.length (k.descend t i true) fun (c, k') n =>
      ∃ l' p, l'.length = n ∧ c = some p ∧ Tree B k' l' r S ∧ Grows S r k k' ∧
        node k' r (d + 1) (x * 512 + i.toNat) = some p ∧ ∀ v, pte k' r v = pte k r v := by
  have hchild : node k r (d + 1) (x * 512 + i.toNat) = format.child (k.word t i.toNat) :=
    Radix.node_child (F := format) hi hx ht
  by_cases hpres : k.word t i.toNat &&& PTE_P ≠ 0
  · rw [Kmem.descend, if_pos hpres]
    rw [child_eq hpres] at hchild
    exact ⟨l.length, by omega, l, _, rfl, rfl, h, .refl, hchild, fun _ => rfl⟩
  rw [Kmem.descend, if_neg hpres, if_neg (by decide)]
  rcases h.pool.kalloc with ⟨rfl, he⟩ | ⟨p, l', k₁, rfl, hok, hmem, hpool⟩
  · rw [he]
    exact .inl ⟨rfl, by simp⟩
  have hSp : S p := h.free (by simp)
  have hp : Valid B p := h.valid p hSp
  have hpl : p ∉ l' := (List.nodup_cons.1 h.pool.nodup).1
  have htp : t ≠ p := by
    rintro rfl
    exact h.not_free hd.le ht (by simp)
  rw [hok]
  change Spends _ _ _ _ (if p = 0 then _ else _) _
  rw [if_neg hp.ne_zero]
  generalize hk : (k₁.setPage p fun _ => 0).setWord t i.toNat
    (v2p p ||| PTE_P ||| PTE_W ||| PTE_U) = k'
  -- the only changes are the zeroed page and the entry
  have hother : ∀ q j, q ≠ p → (q = t → j ≠ i.toNat) → k'.word q j = k.word q j := by
    intro q j hqp hqt
    rw [← hk, word_setWord_of_ne _ _ hqt, word_congr (mem_setPage_of_ne _ _ hqp),
      word_congr (congrFun hmem q)]
  have hzero : ∀ j, k'.word p j = 0 := by
    intro j
    rw [← hk, word_setWord_of_ne _ _ fun he => absurd he htp.symm, word_setPage_zero]
  have hlink : format.child (k'.word t i.toNat) = some p := by
    rw [← hk, word_setWord _ _ hi, child_link hp]
  have hmem' : ∀ q, q ≠ p → q ≠ t → k'.mem q = k.mem q := by
    intro q hqp hqt
    rw [← hk, mem_setWord_of_ne _ _ _ hqt, mem_setPage_of_ne _ _ hqp, hmem]
  have hadds : Radix.Adds format k.word k'.word r t p 3 d x i.toNat :=
    { depth := hd, index := hi, bound := hx, table := ht, vacant := child_eq_none hpres,
      fresh := fun d' x' hd' hn => h.not_free hd' hn (by simp), link := hlink,
      empty := fun j => by rw [hzero]; rfl, other := hother }
  have hnode := Radix.node_add h.inj hadds
  have htree : Tree B k' l' r S := by
    refine ⟨hpool.congr (by rw [← hk]; rfl) fun q hq => ?_, h.valid, ?_⟩
    · have hqp : q ≠ p := by
        rintro rfl
        exact hpl hq
      have hqt : q ≠ t := by
        rintro rfl
        exact h.not_free hd.le ht (List.mem_cons_of_mem _ hq)
      rw [hmem' q hqp hqt, hmem]
    · -- the page passes from the free list to the tree
      refine h.owns.pass (k := .free p) (l := .table (d + 1) (x * 512 + i.toNat)) (v := p)
        (roles_free (by simp)) ?_ (roles_free_none hpl) ?_ fun m hm hm' => ?_
      · rw [roles_table (by omega), hchild, child_eq_none hpres]
      · rw [roles_table (by omega)]
        exact (hnode (d + 1) (by omega) _).trans (if_pos ⟨rfl, rfl⟩)
      · cases m with
        | free q => exact (roles_free_cons hm).symm
        | table d' x' =>
          by_cases hd' : d' ≤ 3
          · rw [roles_table hd', roles_table hd']
            refine (hnode d' hd' x').trans (if_neg ?_)
            rintro ⟨rfl, rfl⟩
            exact hm' rfl
          · rw [roles, roles, if_neg hd', if_neg hd']
  refine ⟨l'.length, by simp, l', p, rfl, rfl, htree, ⟨fun q hq => ?_, ?_, ?_⟩, ?_, ?_⟩
  · refine hmem' q ?_ ?_
    · rintro rfl
      exact hq hSp
    · rintro rfl
      exact hq (h.table hd.le ht)
  · intro d' x' q hd' hq
    exact Radix.Adds.keeps h.inj hadds hd' hq
  · intro j hj _
    have hrp : r ≠ p := by
      rintro rfl
      exact h.not_free (d := 0) (x := 0) (by decide) rfl (by simp)
    refine hother r j hrp ?_
    rintro rfl
    -- an entry of the root below which a table is entered is in the user half
    obtain ⟨rfl, rfl⟩ := h.inj (by omega) (by omega) ht (show node k r 0 0 = some r from rfl)
    omega
  · exact (hnode (d + 1) (by omega) _).trans (if_pos ⟨rfl, rfl⟩)
  · exact Radix.find_add h.inj hadds hzero

theorem node_succ {d x : ℕ} (hx : x < 256 * 512 ^ d) :
    node k r (d + 1) x = (node k r d (x / 512)).bind fun t => format.child (k.word t (x % 512)) :=
  if_pos hx

/-- Without `alloc`, walking finds the table of the address. -/
theorem walkpgdir_find {va : UInt64} (hva : va.toNat < 2 ^ 47) :
    k.walkpgdir r va false =
      .ok ((node k r 3 (va.toNat / 4096 / 512)).map (⟨·, va.toNat / 4096 % 512⟩), k) := by
  have h1 : node k r 1 (va.toNat / 2 ^ 39) = format.child (k.word r (pmx va).toNat) := by
    rw [node_succ (by omega), toNat_pmx, show va.toNat / 2 ^ 39 / 512 = 0 by omega]
    rfl
  have h2 : node k r 2 (va.toNat / 2 ^ 30) =
      (node k r 1 (va.toNat / 2 ^ 39)).bind fun t => format.child (k.word t (pdpx va).toNat) := by
    rw [node_succ (by omega), toNat_pdpx, show va.toNat / 2 ^ 30 / 512 = va.toNat / 2 ^ 39 by omega]
  have h3 : node k r 3 (va.toNat / 4096 / 512) =
      (node k r 2 (va.toNat / 2 ^ 30)).bind fun t => format.child (k.word t (pdx va).toNat) := by
    rw [node_succ (by omega), toNat_pdx,
      show va.toNat / 4096 / 512 / 512 = va.toNat / 2 ^ 30 by omega,
      show va.toNat / 4096 / 512 = va.toNat / 2 ^ 21 by omega]
  have hidx : (ptx va).toNat = va.toNat / 4096 % 512 := toNat_ptx va
  rw [h3, h2, h1, ← hidx]
  simp only [walkpgdir, descend_find, bind, Except.bind]
  cases format.child (k.word r (pmx va).toNat) with
  | none => rfl
  | some pdp =>
    simp only [Option.bind_some]
    cases format.child (k.word pdp (pdpx va).toNat) with
    | none => rfl
    | some pd =>
      simp only [Option.bind_some]
      cases format.child (k.word pd (pdx va).toNat) <;> rfl

/-- **Walking with `alloc`** yields the slot of the address and changes no entry. -/
theorem Tree.walkpgdir (h : Tree B k l r S) (va : UInt64) (hva : va.toNat < 2 ^ 47) :
    Spends .outOfMemory (fun _ => False) 3 l.length (k.walkpgdir r va true) fun (s, k') n =>
      ∃ l' t, l'.length = n ∧ s = some ⟨t, va.toNat / 4096 % 512⟩ ∧ Tree B k' l' r S ∧
        Grows S r k k' ∧ node k' r 3 (va.toNat / 4096 / 512) = some t ∧
        ∀ v, pte k' r v = pte k r v := by
  have hpmx := toNat_pmx va
  have hpdpx := toNat_pdpx va
  have hpdx := toNat_pdx va
  have hptx : (ptx va).toNat = va.toNat / 4096 % 512 := toNat_ptx va
  change Spends _ _ (1 + (1 + (1 + 0))) _ _ _
  refine Spends.bind (h.descend (d := 0) (x := 0) (by omega) rfl (by omega)
    (by omega)) ?_
  rintro ⟨c, k₁⟩ n ⟨l₁, pdp, rfl, rfl, ht₁, hg₁, hn₁, hp₁⟩
  refine Spends.bind (ht₁.descend (i := pdpx va) (by omega) hn₁ (by omega) (by omega)) ?_
  rintro ⟨c, k₂⟩ n ⟨l₂, pd, rfl, rfl, ht₂, hg₂, hn₂, hp₂⟩
  refine Spends.bind (ht₂.descend (i := pdx va) (by omega) hn₂ (by omega) (by omega)) ?_
  rintro ⟨c, k₃⟩ n ⟨l₃, pt, rfl, rfl, ht₃, hg₃, hn₃, hp₃⟩
  refine Spends.ok ⟨l₃, pt, rfl, ?_, ht₃, (hg₁.trans hg₂).trans hg₃, ?_, fun v => ?_⟩
  · rw [hptx]
  · rw [← hn₃]
    congr 1
    omega
  · rw [hp₃, hp₂, hp₁]

/-! ## Entering a page -/

/-- **Setting the entry** of one virtual page. -/
theorem Tree.setPte (h : Tree B k l r S) {t : UInt64} (ht : node k r 3 (v / 512) = some t)
    (e : UInt64) :
    Tree B (k.set ⟨t, v % 512⟩ e) l r S ∧ Grows S r k (k.set ⟨t, v % 512⟩ e) ∧
      (∀ d ≤ 3, ∀ x, node (k.set ⟨t, v % 512⟩ e) r d x = node k r d x) ∧
      ∀ w, pte (k.set ⟨t, v % 512⟩ e) r w = if w = v then e else pte k r w := by
  have hi : v % 512 < 512 := Nat.mod_lt _ (by decide)
  have hother : ∀ q j, (q = t → j ≠ v % 512) → (k.set ⟨t, v % 512⟩ e).word q j = k.word q j :=
    fun q j hq => word_setWord_of_ne _ _ hq
  have hmem : ∀ q, q ≠ t → (k.set ⟨t, v % 512⟩ e).mem q = k.mem q :=
    fun q hq => mem_setWord_of_ne _ _ _ hq
  have hnode : ∀ d ≤ 3, ∀ x, node (k.set ⟨t, v % 512⟩ e) r d x = node k r d x :=
    Radix.node_set h.inj ht fun q hq => funext fun j => word_congr (hmem q hq) j
  refine ⟨⟨?_, h.valid, ?_⟩, ⟨?_, ?_, ?_⟩, hnode, fun w => ?_⟩
  · refine h.pool.congr rfl fun q hq => hmem q ?_
    rintro rfl
    exact h.not_free (by decide) ht hq
  · refine h.owns.congr (fun ro => ?_) fun _ => Iff.rfl
    cases ro with
    | free q => rfl
    | table d x => exact roles_table_congr hnode d x
  · intro q hq
    refine hmem q ?_
    rintro rfl
    exact hq (h.table (by decide) ht)
  · intro d x q hd hq
    rw [hnode d hd, hq]
  · intro i hi hi'
    refine hother r i ?_
    rintro rfl
    -- the root is not at the bottom
    have := (h.inj le_rfl (by decide) ht (show node k r 0 0 = some r from rfl)).1
    omega
  · have hw := Radix.find_set (F := format) (k.set ⟨t, v % 512⟩ e).word 0 h.inj hi ht hother w
    rw [show v / 512 * format.width + v % 512 = v from Radix.digits_eq (F := format) v,
      show (k.set ⟨t, v % 512⟩ e).word t (v % 512) = e from word_setWord _ _ hi _] at hw
    exact hw

/-- The slot of a virtual page holds its entry. -/
theorem get_slot {t : UInt64} (ht : node k r 3 (v / 512) = some t) :
    k.get ⟨t, v % 512⟩ = pte k r v := by
  have ht' : Radix.node format k.word r 3 (v / format.width) = some t := ht
  rw [pte, Radix.find, ht']
  rfl

theorem pte_of_none (hn : node k r 3 (v / 512) = none) : pte k r v = 0 := by
  have hn' : Radix.node format k.word r 3 (v / format.width) = none := hn
  rw [pte, Radix.find, hn']
  rfl

/-- **One round of `mappages`** panics on an entry that is present and otherwise sets it. -/
theorem Tree.mapPage (h : Tree B k l r S) {a : UInt64} (pa : UInt64) (perm : Int32)
    (ha : a.toNat = 4096 * v) (hv : v < 2 ^ 35) :
    Spends .outOfMemory (fun e => e = .remap ∧ pte k r v &&& PTE_P ≠ 0) 3 l.length
      (k.mapPage r a pa perm) fun (res, k') n =>
        ∃ l', l'.length = n ∧ res = 0 ∧ Tree B k' l' r S ∧ Grows S r k k' ∧
          pte k r v &&& PTE_P = 0 ∧
          ∀ w, pte k' r w = if w = v then pa ||| perm.toInt64.toUInt64 ||| PTE_P else pte k r w := by
  change Spends _ _ (3 + 0) _ _ _
  refine Spends.bind ((h.walkpgdir a (by omega)).mono le_rfl
    (fun _ => False.elim) fun _ _ => id) ?_
  rintro ⟨s, k₁⟩ n ⟨l₁, t, rfl, rfl, ht₁, hg₁, hn₁, hp₁⟩
  have hva : a.toNat / 4096 = v := by omega
  rw [hva] at hn₁ ⊢
  have hget := get_slot hn₁
  rw [hp₁] at hget
  change Spends _ _ _ _ (if k₁.get ⟨t, v % 512⟩ &&& PTE_P ≠ 0 then _ else _) _
  rw [hget]
  by_cases hpres : pte k r v &&& PTE_P ≠ 0
  · rw [if_pos hpres]
    exact .inr ⟨rfl, hpres⟩
  · rw [if_neg hpres]
    obtain ⟨htree, hgrow, -, hpte⟩ := ht₁.setPte hn₁ (pa ||| perm.toInt64.toUInt64 ||| PTE_P)
    refine Spends.ok ⟨l₁, rfl, rfl, htree, hg₁.trans hgrow, not_not.1 hpres, fun w => ?_⟩
    rw [hpte, hp₁]

theorem add_page (pa : UInt64) (j : ℕ) :
    pa + UInt64.ofNat (j + 1) * PGSIZE = pa + PGSIZE + UInt64.ofNat j * PGSIZE := by
  rw [UInt64.ofNat_add, UInt64.add_mul, UInt64.add_assoc, UInt64.add_comm PGSIZE]
  rfl

/-- The entry of page `w` after `mappages` of `n + 1` pages from `v` on. -/
def mapped (v n : ℕ) (pa : UInt64) (perm : Int32) (w : ℕ) (old : UInt64) : UInt64 :=
  if v ≤ w ∧ w ≤ v + n then
    (pa + UInt64.ofNat (w - v) * PGSIZE) ||| perm.toInt64.toUInt64 ||| PTE_P
  else old

theorem Tree.mapLoop (perm : Int32) : ∀ (n : ℕ) (pa : UInt64) {k : Kmem} {l : List UInt64} {a : UInt64} {v : ℕ},
    Tree B k l r S → a.toNat = 4096 * v → v + n < 2 ^ 35 →
    Spends .outOfMemory
      (fun e => e = .remap ∧ ∃ w, v ≤ w ∧ w ≤ v + n ∧ pte k r w &&& PTE_P ≠ 0) (3 * (n + 1)) l.length
      (k.mapLoop r perm n a pa) fun (res, k') n' =>
        ∃ l', l'.length = n' ∧ res = 0 ∧ Tree B k' l' r S ∧ Grows S r k k' ∧
          (∀ w, v ≤ w → w ≤ v + n → pte k r w &&& PTE_P = 0) ∧
          ∀ w, pte k' r w = mapped v n pa perm w (pte k r w)
  | 0, pa, k, l, a, v, h, ha, hv => by
    refine (h.mapPage pa perm ha hv).mono le_rfl ?_ ?_
    · rintro e ⟨rfl, hpres⟩
      exact ⟨rfl, v, le_rfl, le_rfl, hpres⟩
    · rintro ⟨res, k'⟩ n' ⟨l', hl', rfl, ht, hg, hfree, hpte⟩
      refine ⟨l', hl', rfl, ht, hg, fun w h1 h2 => ?_, fun w => ?_⟩
      · rwa [show w = v by omega]
      · rw [hpte, mapped]
        by_cases hw : w = v
        · rw [if_pos hw, if_pos (by omega), hw, Nat.sub_self]
          simp
        · rw [if_neg hw, if_neg (by omega)]
  | n + 1, pa, k, l, a, v, h, ha, hv => by
    have ha' : (a + PGSIZE).toNat = 4096 * (v + 1) := by
      rw [UInt64.toNat_add, ha, show PGSIZE.toNat = 4096 from rfl]
      omega
    rw [show 3 * (n + 1 + 1) = 3 + 3 * (n + 1) by omega]
    refine Spends.bind ((h.mapPage pa perm ha (by omega)).mono le_rfl ?_
      fun _ _ => id) ?_
    · rintro e ⟨rfl, hpres⟩
      exact ⟨rfl, v, le_rfl, by omega, hpres⟩
    rintro ⟨res, k₁⟩ n₁ ⟨l₁, rfl, rfl, ht₁, hg₁, hfree, hpte⟩
    have hne : ∀ w, v + 1 ≤ w → pte k₁ r w = pte k r w := fun w hw => by
      rw [hpte, if_neg (by omega)]
    refine (Tree.mapLoop perm n (pa + PGSIZE) ht₁ ha' (by omega)).mono le_rfl ?_ ?_
    · rintro e ⟨rfl, w, h1, h2, hpres⟩
      exact ⟨rfl, w, by omega, by omega, hne w h1 ▸ hpres⟩
    · rintro ⟨res, k'⟩ n' ⟨l', hl', rfl, ht, hg, hfree', hpte'⟩
      refine ⟨l', hl', rfl, ht, hg₁.trans hg, fun w h1 h2 => ?_, fun w => ?_⟩
      · rcases Nat.eq_or_lt_of_le h1 with rfl | hlt
        · exact hfree
        · rw [← hne w hlt]
          exact hfree' w hlt (by omega)
      · rw [hpte', mapped, mapped]
        by_cases hlt : v + 1 ≤ w ∧ w ≤ v + 1 + n
        · rw [if_pos hlt, if_pos (by omega)]
          rw [show w - v = w - (v + 1) + 1 by omega, add_page]
        · rw [if_neg hlt, hpte]
          by_cases hw : w = v
          · rw [if_pos hw, if_pos (by omega), hw, Nat.sub_self]
            simp
          · rw [if_neg hw, if_neg (by omega)]

/-- **`mappages` on a user range** sets the entries of its pages, or panics on one of them that is
present. -/
theorem Tree.mappages (h : Tree B k l r S) (va size pa : UInt64) (perm : Int32) (hs : 1 ≤ size.toNat)
    (hr : va.toNat + size.toNat ≤ 2 ^ 47) :
    Spends .outOfMemory
      (fun e => e = .remap ∧ ∃ w, va.toNat / 4096 ≤ w ∧ w ≤ (va.toNat + size.toNat - 1) / 4096 ∧
        pte k r w &&& PTE_P ≠ 0)
      (3 * ((va.toNat + size.toNat - 1) / 4096 - va.toNat / 4096 + 1)) l.length
      (k.mappages r va size pa perm) fun (res, k') n =>
        ∃ l', l'.length = n ∧ res = 0 ∧ Tree B k' l' r S ∧ Grows S r k k' ∧
          (∀ w, va.toNat / 4096 ≤ w → w ≤ (va.toNat + size.toNat - 1) / 4096 →
            pte k r w &&& PTE_P = 0) ∧
          ∀ w, pte k' r w = mapped (va.toNat / 4096)
            ((va.toNat + size.toNat - 1) / 4096 - va.toNat / 4096) pa perm w (pte k r w) := by
  have hlast : (va + size - 1).toNat = va.toNat + size.toNat - 1 := by
    rw [UInt64.toNat_sub, UInt64.toNat_add, show (1 : UInt64).toNat = 1 from rfl]
    omega
  have hfirst := toNat_pgrounddown va
  have hend := toNat_pgrounddown (va + size - 1)
  rw [hlast] at hend
  have hn : ((pgrounddown (va + size - 1) - pgrounddown va) / PGSIZE).toNat =
      (va.toNat + size.toNat - 1) / 4096 - va.toNat / 4096 := by
    rw [UInt64.toNat_div, UInt64.toNat_sub, hend, hfirst, show PGSIZE.toNat = 4096 from rfl]
    omega
  have hle : va.toNat / 4096 ≤ (va.toNat + size.toNat - 1) / 4096 :=
    Nat.div_le_div_right (by omega)
  rw [Kmem.mappages, hn]
  have hloop := Tree.mapLoop perm ((va.toNat + size.toNat - 1) / 4096 - va.toNat / 4096) pa h (hfirst.trans (Nat.mul_comm _ _))
    (by omega)
  rwa [show va.toNat / 4096 + ((va.toNat + size.toNat - 1) / 4096 - va.toNat / 4096) =
    (va.toNat + size.toNat - 1) / 4096 by omega] at hloop

/-- `mappages` of one aligned page. -/
theorem Tree.mapOne (h : Tree B k l r S) {a : UInt64} (pa : UInt64) (perm : Int32)
    (ha : a.toNat = 4096 * v) (hv : v < 2 ^ 35) :
    Spends .outOfMemory (fun e => e = .remap ∧ pte k r v &&& PTE_P ≠ 0) 3 l.length
      (k.mappages r a PGSIZE pa perm) fun (res, k') n =>
        ∃ l', l'.length = n ∧ res = 0 ∧ Tree B k' l' r S ∧ Grows S r k k' ∧
          pte k r v &&& PTE_P = 0 ∧
          ∀ w, pte k' r w = if w = v then pa ||| perm.toInt64.toUInt64 ||| PTE_P else pte k r w := by
  have hdown : pgrounddown a = a := by
    rw [← UInt64.toNat_inj, toNat_pgrounddown, ha]
    omega
  have hlast : pgrounddown (a + PGSIZE - 1) = a := by
    rw [← UInt64.toNat_inj, toNat_pgrounddown, UInt64.toNat_sub, UInt64.toNat_add, ha,
      show PGSIZE.toNat = 4096 from rfl, show (1 : UInt64).toNat = 1 from rfl]
    omega
  rw [Kmem.mappages, hdown, hlast, UInt64.sub_self]
  exact h.mapPage pa perm ha hv

/-! ## New page tables -/

/-- **`setupkvm`** makes an empty page table out of a free page. -/
theorem Pool.setupkvm (h : Pool B k l) :
    Spends .outOfMemory (fun _ => False) 1 l.length (setupkvm B k) fun (r, k') n =>
      ∃ l', l'.length = n ∧ l = r :: l' ∧ Tree B k' l' r (· ∈ l) ∧ (∀ v, pte k' r v = 0) ∧
        (∀ d x, node k' r (d + 1) x = none) ∧ (∀ q, q ≠ r → k'.mem q = k.mem q) ∧
        ∀ i < 512, k'.word r i = if i = 256 then v2p B.kpdpt ||| PTE_P ||| PTE_W else 0 := by
  rw [Kmem.setupkvm]
  rcases h.kalloc with ⟨rfl, he⟩ | ⟨r, l', k₁, rfl, hok, hmem, hpool⟩
  · rw [he]
    exact .inl ⟨rfl, by simp⟩
  rw [hok]
  have hrl : r ∉ l' := (List.nodup_cons.1 h.nodup).1
  change Spends _ _ _ _ (.ok (r, (k₁.setPage r fun _ => 0).setWord r 256
    (v2p B.kpdpt ||| PTE_P ||| PTE_W))) _
  generalize hk : (k₁.setPage r fun _ => 0).setWord r 256 (v2p B.kpdpt ||| PTE_P ||| PTE_W) = k'
  have hword : ∀ i < 512, k'.word r i = if i = 256 then v2p B.kpdpt ||| PTE_P ||| PTE_W else 0 := by
    intro i hi
    rw [← hk]
    by_cases h256 : i = 256
    · rw [if_pos h256, h256, word_setWord _ _ (by decide)]
    · rw [if_neg h256, word_setWord_of_ne _ _ fun _ => h256, word_setPage_zero]
  have hother : ∀ q, q ≠ r → k'.mem q = k.mem q := by
    intro q hq
    rw [← hk, mem_setWord_of_ne _ _ _ hq, mem_setPage_of_ne _ _ hq, hmem]
  have hnode : ∀ d x, node k' r (d + 1) x = none :=
    Radix.node_empty (F := format) (by decide) fun i hi => by
      have hi : i < 256 := hi
      rw [hword i (by omega), if_neg (by omega)]
      rfl
  have hcase : ∀ {ro : Role} {p : UInt64}, roles k' l' r ro = some p →
      ro = .free p ∧ p ∈ l' ∨ ro = .table 0 0 ∧ p = r := by
    rintro (q | ⟨d, x⟩) p hro
    · by_cases hq : q ∈ l'
      · rw [roles_free hq, Option.some.injEq] at hro
        subst hro
        exact .inl ⟨rfl, hq⟩
      · rw [roles_free_none hq] at hro
        cases hro
    · cases d with
      | zero =>
        rw [roles_table (by decide), node, Radix.node] at hro
        split_ifs at hro with hx
        cases hro
        exact .inr ⟨by rw [hx], rfl⟩
      | succ d =>
        by_cases hd : d + 1 ≤ 3
        · rw [roles_table hd, hnode] at hro
          cases hro
        · rw [roles, if_neg hd] at hro
          cases hro
  refine ⟨l'.length, by simp, l', rfl, rfl, ⟨hpool.congr (by rw [← hk]; rfl) ?_, h.valid, ?_, ?_⟩,
    ?_, hnode, hother, hword⟩
  · intro q hq
    rw [hother q (by rintro rfl; exact hrl hq), hmem]
  · intro ro ro' p hro hro'
    rcases hcase hro with ⟨rfl, hp⟩ | ⟨rfl, rfl⟩ <;> rcases hcase hro' with ⟨rfl, hp'⟩ | ⟨rfl, hpr⟩
    · rfl
    · exact absurd (hpr ▸ hp) hrl
    · exact absurd hp' hrl
    · rfl
  · intro p
    constructor
    · intro hp
      rcases List.mem_cons.1 hp with rfl | hp
      · exact ⟨.table 0 0, rfl⟩
      · exact ⟨.free p, roles_free hp⟩
    · rintro ⟨ro, hro⟩
      rcases hcase hro with ⟨-, hp⟩ | ⟨-, rfl⟩
      · exact List.mem_cons_of_mem _ hp
      · simp
  · exact fun v => pte_of_none (hnode 2 _)

/-! ## Pages come and go -/

/-- The tables are in `S`. -/
theorem Tree.tables (h : Tree B k l r S) {k' : Kmem} (hmem : ∀ q, S q → k'.mem q = k.mem q) :
    (∀ d ≤ 3, ∀ x, node k' r d x = node k r d x) ∧ (∀ v, pte k' r v = pte k r v) ∧
      ∀ i, k'.word r i = k.word r i := by
  have hword : ∀ d x t, d ≤ 3 → node k r d x = some t → k'.word t = k.word t :=
    fun d x t hd ht => funext fun i => word_congr (hmem t (h.table hd ht)) i
  exact ⟨Radix.node_congr fun d x t hd => hword d x t hd.le, Radix.find_congr hword,
    fun i => word_congr (hmem r h.root) i⟩

/-- Only the pages of `S` matter. -/
theorem Tree.congr (h : Tree B k l r S) (k' : Kmem) (hfree : k'.freelist = k.freelist)
    (hmem : ∀ q, S q → k'.mem q = k.mem q) :
    Tree B k' l r S ∧ (∀ d ≤ 3, ∀ x, node k' r d x = node k r d x) ∧
      (∀ v, pte k' r v = pte k r v) ∧ ∀ i, k'.word r i = k.word r i := by
  have htab := h.tables hmem
  refine ⟨⟨h.pool.congr hfree fun q hq => hmem q (h.free hq), h.valid,
    h.owns.congr (fun ro => ?_) fun _ => Iff.rfl⟩, htab⟩
  cases ro with
  | free q => rfl
  | table d x => exact roles_table_congr htab.1 d x

/-- `kalloc` takes a page out of `S`. -/
theorem Tree.kalloc (h : Tree B k l r S) :
    (l = [] ∧ k.kalloc = .error .outOfMemory) ∨
    ∃ p l' k', l = p :: l' ∧ k.kalloc = .ok (p, k') ∧ k'.mem = k.mem ∧ S p ∧
      Tree B k' l' r fun q => q ≠ p ∧ S q := by
  rcases h.pool.kalloc with hnil | ⟨p, l', k', rfl, hok, hmem, hpool⟩
  · exact .inl hnil
  have hpl : p ∉ l' := (List.nodup_cons.1 h.pool.nodup).1
  refine .inr ⟨p, l', k', rfl, hok, hmem, h.free (by simp), hpool, fun q hq => h.valid q hq.2,
    h.owns.drop (k := .free p) (v := p) (roles_free (by simp)) (roles_free_none hpl)
      (fun ro hro => ?_) fun q => Iff.rfl⟩
  cases ro with
  | free q => exact (roles_free_cons hro).symm
  | table d x =>
    have hword : k'.word = k.word := by
      funext q i
      exact word_congr (congrFun hmem q) i
    simp only [roles, node, hword]

/-- `kfree` adds a page to `S`. -/
theorem Tree.kfree (h : Tree B k l r S) {p : UInt64} (hp : Valid B p) (hS : ¬ S p) :
    ∃ k', k.kfree B p = .ok k' ∧ (∀ q, q ≠ p → k'.mem q = k.mem q) ∧
      Tree B k' (p :: l) r (fun q => q = p ∨ S q) ∧ (∀ d ≤ 3, ∀ x, node k' r d x = node k r d x) ∧
      (∀ v, pte k' r v = pte k r v) ∧ ∀ i, k'.word r i = k.word r i := by
  have hpl : p ∉ l := fun hm => hS (h.free hm)
  obtain ⟨k', hok, hpool, hmem⟩ := h.pool.kfree hp hpl
  have htab := h.tables fun q hq => hmem q (by
    rintro rfl
    exact hS hq)
  refine ⟨k', hok, hmem, ⟨hpool, ?_, h.owns.take (k := .free p) (v := p) (roles_free_none hpl) hS
    (roles_free (by simp)) (fun ro hro => ?_) fun q => Iff.rfl⟩, htab⟩
  · rintro q (rfl | hq)
    · exact hp
    · exact h.valid q hq
  · cases ro with
    | free q => exact roles_free_cons hro
    | table d x => exact roles_table_congr htab.1 d x

/-! ## The map of a page table -/

/-- The entry that `walkpgdir` finds for `va`, 0 for the null pointer. -/
def lookup (k : Kmem) (r va : UInt64) : UInt64 :=
  match k.walkpgdir r va false with
  | .ok (some s, _) => k.get s
  | _ => 0

theorem lookup_eq {va : UInt64} (hva : va.toNat < 2 ^ 47) :
    k.lookup r va = pte k r (va.toNat / 4096) := by
  rw [lookup, walkpgdir_find hva]
  cases hn : node k r 3 (va.toNat / 4096 / 512) with
  | none => exact (pte_of_none hn).symm
  | some t => exact get_slot hn

/-- An entry that is not 0 is in a table. -/
theorem walkpgdir_of_pte (va : UInt64) (hva : va.toNat < 2 ^ 47)
    (h : pte k r (va.toNat / 4096) ≠ 0) :
    ∃ s, k.walkpgdir r va false = .ok (some s, k) ∧ k.get s = pte k r (va.toNat / 4096) := by
  rw [walkpgdir_find hva]
  cases hn : node k r 3 (va.toNat / 4096 / 512) with
  | none => exact absurd (pte_of_none hn) h
  | some t => exact ⟨_, rfl, get_slot hn⟩

/-- The arguments of a call of `mappages`. -/
structure MapCall where
  va : UInt64
  size : UInt64
  pa : UInt64
  perm : Int32

/-- A user range of at least one byte and an aligned physical address. -/
def MapCall.User (c : MapCall) : Prop :=
  1 ≤ c.size.toNat ∧ c.va.toNat + c.size.toNat ≤ 2 ^ 47 ∧ c.pa % PGSIZE = 0

instance (c : MapCall) : Decidable c.User := inferInstanceAs (Decidable (_ ∧ _))

def MapCall.run (c : MapCall) (r : UInt64) (k : Kmem) : Except Crash (Int32 × Kmem) :=
  k.mappages r c.va c.size c.pa c.perm

/-- One call after another. -/
def mapAll (r : UInt64) : List MapCall → Kmem → Except Crash Kmem
  | [], k => .ok k
  | c :: cs, k => do
    let (_, k) ← c.run r k
    mapAll r cs k

theorem Tree.mapAll : ∀ {cs : List MapCall} {k : Kmem} {l : List UInt64}, Tree B k l r S →
    (∀ c ∈ cs, c.User) → k.mapAll r cs = .ok k' → ∃ l', Tree B k' l' r S
  | [], k, l, h, _, hrun => by
    cases hrun
    exact ⟨l, h⟩
  | c :: cs, k, l, h, hc, hrun => by
    obtain ⟨⟨res, k₁⟩, hmap, hrun⟩ := bind_ok hrun
    obtain ⟨hs, hr, -⟩ := hc c (by simp)
    have hspec := h.mappages c.va c.size c.pa c.perm hs hr
    rw [show k.mappages r c.va c.size c.pa c.perm = .ok (res, k₁) from hmap] at hspec
    obtain ⟨n, -, l₁, -, -, ht₁, -⟩ := hspec
    exact ht₁.mapAll (fun c hc' => hc c (List.mem_cons_of_mem _ hc')) hrun

/-- **A page table is a finite map.**  On a page table made by `setupkvm` and calls of `mappages`
on user ranges, another such call that returns sets the entries of the pages of its range, and
changes neither the entry of another page below `2 ^ 47` nor the kernel's slot of the PML4. -/
theorem mappages_finite_map {k₀ k₁ : Kmem} (hpool : Pool B k₀ l)
    (hset : setupkvm B k₀ = .ok (r, k₁)) {cs : List MapCall} (hcs : ∀ c ∈ cs, c.User)
    (hrun : k₁.mapAll r cs = .ok k) {c : MapCall} (hc : c.User) {res : Int32}
    (hmap : k.mappages r c.va c.size c.pa c.perm = .ok (res, k')) :
    res = 0 ∧
    (∀ j : ℕ, (pgrounddown c.va).toNat + 4096 * j ≤ (pgrounddown (c.va + c.size - 1)).toNat →
      ∃ s, k'.walkpgdir r (pgrounddown c.va + UInt64.ofNat j * PGSIZE) false = .ok (some s, k') ∧
        k'.get s = (c.pa + UInt64.ofNat j * PGSIZE) ||| c.perm.toInt64.toUInt64 ||| PTE_P) ∧
    (∀ a : UInt64, a.toNat < 2 ^ 47 →
      pgrounddown a < pgrounddown c.va ∨ pgrounddown (c.va + c.size - 1) < pgrounddown a →
        k'.lookup r a = k.lookup r a) ∧
    k'.word r 256 = k.word r 256 := by
  have hsetup := hpool.setupkvm
  rw [hset] at hsetup
  obtain ⟨-, -, l₁, -, -, ht₁, -⟩ := hsetup
  obtain ⟨l₂, ht₂⟩ := ht₁.mapAll hcs hrun
  obtain ⟨hs, hr, -⟩ := hc
  have hspec := ht₂.mappages c.va c.size c.pa c.perm hs hr
  rw [hmap] at hspec
  obtain ⟨-, -, l₃, -, hres, ht₃, hg, -, hpte⟩ := hspec
  have hlast : (c.va + c.size - 1).toNat = c.va.toNat + c.size.toNat - 1 := by
    rw [UInt64.toNat_sub, UInt64.toNat_add, show (1 : UInt64).toNat = 1 from rfl]
    omega
  have hfirst := toNat_pgrounddown c.va
  have hend := toNat_pgrounddown (c.va + c.size - 1)
  rw [hlast] at hend
  refine ⟨hres, fun j hj => ?_, fun a ha hout => ?_, hg.high 256 le_rfl (by decide)⟩
  · have haddr : (pgrounddown c.va + UInt64.ofNat j * PGSIZE).toNat =
        4096 * (c.va.toNat / 4096 + j) := by
      rw [UInt64.toNat_add, UInt64.toNat_mul, UInt64.toNat_ofNat', hfirst,
        show PGSIZE.toNat = 4096 from rfl]
      omega
    have hpage : (pgrounddown c.va + UInt64.ofNat j * PGSIZE).toNat / 4096 =
        c.va.toNat / 4096 + j := by omega
    have hval := hpte (c.va.toNat / 4096 + j)
    rw [mapped, if_pos (by omega), Nat.add_sub_cancel_left] at hval
    have hne : pte k' r (c.va.toNat / 4096 + j) ≠ 0 := by
      rw [hval]
      intro h0
      exact present_or _ PTE_P (by decide) (by rw [h0]; rfl)
    rw [← hval, ← hpage]
    exact walkpgdir_of_pte _ (by omega) (by rwa [hpage])
  · rw [lookup_eq ha, lookup_eq ha, hpte, mapped, if_neg]
    rw [UInt64.lt_iff_toNat_lt, UInt64.lt_iff_toNat_lt, toNat_pgrounddown a, hfirst, hend] at hout
    omega

/-- A kernel of 1 MB, with its part of the page tables in the last page below `end`. -/
def smallBoot : Boot where
  kend := 0xFFFF800000200000
  kpdpt := 0xFFFF8000001FF000
  above := by decide
  below := by decide

theorem smallBoot_pool : ∃ k l, Pool smallBoot k l ∧ l.length = 56832 := by
  obtain ⟨k, l, -, hpool, -, hlen⟩ := kinit1_pool smallBoot ⟨fun _ _ => 0, 0⟩
  exact ⟨k, l, hpool, hlen.trans (by decide)⟩

/-- One page after another, the second one across the border of a page directory. -/
theorem mappages_finite_map_border :
    ∃ k₀ k₁ k k' l r, Pool smallBoot k₀ l ∧ setupkvm smallBoot k₀ = .ok (r, k₁) ∧
      k₁.mapAll r [⟨0x1000, 1, 0x5000, 6⟩] = .ok k ∧
      k.mappages r 0x3FFFFFFF 2 0x7000 6 = .ok (0, k') ∧
      (∃ s, k'.walkpgdir r 0x40000000 false = .ok (some s, k') ∧ k'.get s = 0x8007) ∧
      k'.lookup r 0x1000 = k.lookup r 0x1000 := by
  obtain ⟨k₀, l, hpool, hlen⟩ := smallBoot_pool
  obtain ⟨⟨r, k₁⟩, n₁, hset, hn₁, l₁, rfl, -, ht₁, hp₁, -⟩ := hpool.setupkvm.run (by omega)
  have hcost : 3 * (((0x1000 : UInt64).toNat + (1 : UInt64).toNat - 1) / 4096 -
      (0x1000 : UInt64).toNat / 4096 + 1) = 3 := by decide
  have hcost' : 3 * (((0x3FFFFFFF : UInt64).toNat + (2 : UInt64).toNat - 1) / 4096 -
      (0x3FFFFFFF : UInt64).toNat / 4096 + 1) = 6 := by decide
  obtain ⟨⟨res, k⟩, n, hmap, hn, l₂, rfl, rfl, ht₂, -, -, hp₂⟩ :=
    ((ht₁.mappages 0x1000 1 0x5000 6 (by decide)
      (by decide)).mono hcost.le (by
        rintro e ⟨-, w, -, -, hw⟩
        exact hw (by rw [hp₁]; rfl)) fun _ _ => id).run (by omega)
  obtain ⟨⟨res, k'⟩, n', hmap', hn', l₃, rfl, rfl, -⟩ :=
    ((ht₂.mappages 0x3FFFFFFF 2 0x7000 6 (by decide)
      (by decide)).mono hcost'.le (by
        rintro e ⟨-, w, hw, -, hpres⟩
        have hw : 0x3FFFF ≤ w := hw
        refine hpres ?_
        rw [hp₂, mapped, if_neg, hp₁]
        · rfl
        · rintro ⟨-, hw'⟩
          have hw' : w ≤ 1 := hw'
          omega) fun _ _ => id).run (by omega)
  have hrun : k₁.mapAll r [⟨0x1000, 1, 0x5000, 6⟩] = .ok k := by
    rw [mapAll, MapCall.run, hmap]
    rfl
  obtain ⟨-, hpages, hother, -⟩ := mappages_finite_map (c := ⟨0x3FFFFFFF, 2, 0x7000, 6⟩) hpool hset
    (by simpa using show MapCall.User ⟨0x1000, 1, 0x5000, 6⟩ by decide) hrun (by decide) hmap'
  exact ⟨k₀, k₁, k, k', l, r, hpool, hset, hrun, hmap', hpages 1 (by decide),
    hother 0x1000 (by decide) (by decide)⟩

end Kmem

end Xv6
