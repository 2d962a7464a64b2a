/-
  `freevm` of `vm.c`: giving back a page table with everything it maps.

  The four nested loops are one recursion over the height of a table.  A table
  is read after pages below it have been freed and overwritten; this is safe
  because a table is freed after its subtree and no page is in the tree twice.
  `Freed` is the state of affairs with some positions of the tree done.
-/
import Xv6.Vm.Uvm

namespace Xv6

open Fallible Radix

namespace Kmem

/-- Entry `i` of table `t`: if it is present, `free` what it leads to. -/
def freeEntry (free : UInt64 → Kmem → Except Crash Kmem) (t : UInt64) (k : Kmem) (i : ℕ) :
    Except Crash Kmem :=
  let e := k.word t i
  if e &&& PTE_P ≠ 0 then free (p2v (pteAddr e)) k else .ok k

/-- Free a user page (height 0), or what is below a table and then the table. -/
def freeBelow (B : Boot) : ℕ → UInt64 → Kmem → Except Crash Kmem
  | 0, v, k => k.kfree B v
  | h + 1, t, k => do
    let k ← (List.range NPDENTRIES).foldlM (freeEntry (freeBelow B h) t) k
    k.kfree B t

def freevm (B : Boot) (pml4 : UInt64) (k : Kmem) : Except Crash Kmem :=
  if pml4 = 0 then .error .freevm
  else do
    let k ← (List.range (NPDENTRIES / 2)).foldlM (freeEntry (freeBelow B 3) pml4) k
    k.kfree B pml4

/-! ## Trees of which a part is freed -/

/-- The tree of `r` in `k₀`, user pages included: no page twice, and none of them free. -/
structure Whole (B : Boot) (k₀ : Kmem) (l₀ : List UInt64) (r : UInt64) : Prop where
  inj : Inj format k₀.word r 4
  valid : ∀ {d x p}, d ≤ 4 → node k₀ r d x = some p → Valid B p
  held : ∀ {d x p}, d ≤ 4 → node k₀ r d x = some p → p ∉ l₀

/-- The pages at the positions `P` are free, and all others are as in `k₀`. -/
structure Freed (B : Boot) (k₀ : Kmem) (l₀ : List UInt64) (r : UInt64) (P : ℕ → ℕ → Prop)
    (k : Kmem) : Prop where
  pool : ∃ l, Pool B k l ∧ ∀ p, p ∈ l ↔ p ∈ l₀ ∨ ∃ d x, P d x ∧ node k₀ r d x = some p
  mem : ∀ q, (∀ d x, P d x → node k₀ r d x ≠ some q) → k.mem q = k₀.mem q

variable {B : Boot} {k₀ k : Kmem} {l₀ : List UInt64} {r p : UInt64} {P Q : ℕ → ℕ → Prop} {d x : ℕ}

/-- Only positions with a page matter. -/
theorem Freed.congr (h : Freed B k₀ l₀ r P k)
    (hPQ : ∀ d x p, node k₀ r d x = some p → (P d x ↔ Q d x)) : Freed B k₀ l₀ r Q k := by
  obtain ⟨l, hpool, hl⟩ := h.pool
  refine ⟨⟨l, hpool, fun p => (hl p).trans (or_congr_right ?_)⟩, fun q hq => h.mem q ?_⟩
  · exact exists_congr fun d => exists_congr fun x =>
      and_congr_left fun hn => hPQ d x p hn
  · intro d x hp hn
    exact hq d x ((hPQ d x q hn).1 hp) hn

/-- One more page. -/
theorem Freed.kfree (h : Freed B k₀ l₀ r P k) (hw : Whole B k₀ l₀ r) (hd : d ≤ 4)
    (hP : ∀ d x, P d x → d ≤ 4) (hnew : ¬ P d x) (hn : node k₀ r d x = some p) :
    ∃ k', k.kfree B p = .ok k' ∧ Freed B k₀ l₀ r (fun e y => P e y ∨ e = d ∧ y = x) k' := by
  obtain ⟨l, hpool, hl⟩ := h.pool
  have hpl : p ∉ l := by
    rw [hl]
    rintro (hp | ⟨e, y, hPe, hne⟩)
    · exact hw.held hd hn hp
    · obtain ⟨rfl, rfl⟩ := hw.inj (hP e y hPe) hd hne hn
      exact hnew hPe
  obtain ⟨k', hok, hpool', hmem⟩ := hpool.kfree (hw.valid hd hn) hpl
  refine ⟨k', hok, ⟨p :: l, hpool', fun q => ?_⟩, fun q hq => ?_⟩
  · rw [List.mem_cons, hl]
    constructor
    · rintro (rfl | hq | ⟨e, y, hPe, hne⟩)
      · exact .inr ⟨d, x, .inr ⟨rfl, rfl⟩, hn⟩
      · exact .inl hq
      · exact .inr ⟨e, y, .inl hPe, hne⟩
    · rintro (hq | ⟨e, y, hPe | ⟨rfl, rfl⟩, hne⟩)
      · exact .inr (.inl hq)
      · exact .inr (.inr ⟨e, y, hPe, hne⟩)
      · exact .inl (Option.some.inj (hne.symm.trans hn))
  · have hqp : q ≠ p := by
      rintro rfl
      exact hq d x (.inr ⟨rfl, rfl⟩) hn
    rw [hmem q hqp]
    exact h.mem q fun e y hPe => hq e y (.inl hPe)

/-- What `free` does to the subtree of a page at depth `d`. -/
def FreesAt (B : Boot) (k₀ : Kmem) (l₀ : List UInt64) (r : UInt64) (d : ℕ)
    (free : UInt64 → Kmem → Except Crash Kmem) : Prop :=
  ∀ {x p k P}, Freed B k₀ l₀ r P k → (∀ e y, P e y → e ≤ 4 ∧ ¬ Below format d x e y) →
    node k₀ r d x = some p →
    ∃ k', free p k = .ok k' ∧ Freed B k₀ l₀ r (fun e y => P e y ∨ e ≤ 4 ∧ Below format d x e y) k'

/-- **The loop over the entries of a table**, with the subtrees before `n` done. -/
theorem Freed.entries (hw : Whole B k₀ l₀ r) {free : UInt64 → Kmem → Except Crash Kmem}
    (hfree : FreesAt B k₀ l₀ r (d + 1) free) (hd : d < 4) (hn : node k₀ r d x = some p) {m : ℕ}
    (hm : m ≤ 512) (hbound : ∀ i < m, x * 512 + i < 256 * 512 ^ d) (hf : Freed B k₀ l₀ r P k)
    (hP : ∀ e y, P e y → e ≤ 4 ∧ ¬ Below format d x e y) :
    ∃ k', (List.range m).foldlM (freeEntry free p) k = .ok k' ∧ Freed B k₀ l₀ r
      (fun e y => P e y ∨ ∃ i < m, e ≤ 4 ∧ Below format (d + 1) (x * 512 + i) e y) k' := by
  refine foldlM_range_ok (I := fun n k => Freed B k₀ l₀ r
    (fun e y => P e y ∨ ∃ i < n, e ≤ 4 ∧ Below format (d + 1) (x * 512 + i) e y) k) m
    (hf.congr fun e y q _ => by simp) ?_
  intro n k hlt hI
  have hlt512 : n < 512 := by omega
  -- the table itself has not been freed
  have hword : k.word p n = k₀.word p n := word_congr (hI.mem p fun e y he hne => by
    rcases he with he | ⟨i, -, he, hb⟩
    · obtain ⟨rfl, rfl⟩ := hw.inj (hP e y he).1 hd.le hne hn
      exact (hP e y he).2 (.refl e y)
    · obtain ⟨rfl, rfl⟩ := hw.inj he hd.le hne hn
      exact absurd hb.1 (by omega)) n
  have hchild : node k₀ r (d + 1) (x * 512 + n) = format.child (k₀.word p n) :=
    node_child (F := format) hlt512 (hbound n hlt) hn
  rw [freeEntry, hword]
  by_cases hpres : k₀.word p n &&& PTE_P ≠ 0
  · rw [child_eq hpres] at hchild
    obtain ⟨k', hok, hf'⟩ := hfree hI (by
      rintro e y (he | ⟨i, hi, he4, hb⟩)
      · refine ⟨(hP e y he).1, fun hb => (hP e y he).2 ?_⟩
        exact (below_iff (F := format) (by have := hb.1; omega)).2 ⟨n, hlt512, hb⟩
      · refine ⟨he4, fun hb' => ?_⟩
        have heq : x * 512 + i = x * 512 + n := hb.2.symm.trans hb'.2
        omega) hchild
    refine ⟨k', by rw [if_pos hpres]; exact hok, hf'.congr fun e y q _ => ?_⟩
    constructor
    · rintro ((he | ⟨i, hi, hb⟩) | hb)
      · exact .inl he
      · exact .inr ⟨i, by omega, hb⟩
      · exact .inr ⟨n, by omega, hb⟩
    · rintro (he | ⟨i, hi, hb⟩)
      · exact .inl (.inl he)
      · rcases Nat.lt_succ_iff_lt_or_eq.1 hi with hi | rfl
        · exact .inl (.inr ⟨i, hi, hb⟩)
        · exact .inr hb
  · rw [child_eq_none hpres] at hchild
    refine ⟨k, by rw [if_neg hpres], hI.congr fun e y q hq => or_congr_right ?_⟩
    constructor
    · rintro ⟨i, hi, hb⟩
      exact ⟨i, by omega, hb⟩
    · rintro ⟨i, hi, hb⟩
      rcases Nat.lt_succ_iff_lt_or_eq.1 hi with hi | rfl
      · exact ⟨i, hi, hb⟩
      · rw [show node k₀ r e y = none from node_below_none hchild hb.2] at hq
        cases hq

/-- The table after its entries. -/
theorem Freed.table (hw : Whole B k₀ l₀ r) (hd : d < 4) (hn : node k₀ r d x = some p) {m : ℕ}
    (hP : ∀ e y, P e y → e ≤ 4 ∧ ¬ Below format d x e y)
    (hf : Freed B k₀ l₀ r
      (fun e y => P e y ∨ ∃ i < m, e ≤ 4 ∧ Below format (d + 1) (x * 512 + i) e y) k) :
    ∃ k', k.kfree B p = .ok k' ∧ Freed B k₀ l₀ r (fun e y => P e y ∨ e = d ∧ y = x ∨
      ∃ i < m, e ≤ 4 ∧ Below format (d + 1) (x * 512 + i) e y) k' := by
  obtain ⟨k', hok, hf'⟩ := hf.kfree hw (x := x) hd.le (by
    rintro e y (he | ⟨i, -, he, -⟩)
    · exact (hP e y he).1
    · exact he) (by
    rintro (he | ⟨i, -, -, hb⟩)
    · exact (hP d x he).2 (.refl d x)
    · exact absurd hb.1 (by omega)) hn
  refine ⟨k', hok, hf'.congr fun e y q _ => ?_⟩
  rw [or_assoc]
  exact or_congr_right or_comm

/-- **Freeing a subtree.** -/
theorem freesAt_freeBelow (hw : Whole B k₀ l₀ r) : ∀ (h : ℕ) {d : ℕ}, 1 ≤ d → d + h = 4 →
    FreesAt B k₀ l₀ r d (freeBelow B h)
  | 0, d, _, hdh, x, p, k, P, hf, hP, hn => by
    obtain rfl : d = 4 := by omega
    obtain ⟨k', hok, hf'⟩ := hf.kfree hw le_rfl (fun e y he => (hP e y he).1)
      (fun he => (hP 4 x he).2 (.refl 4 x)) hn
    refine ⟨k', hok, hf'.congr fun e y q _ => or_congr_right ?_⟩
    constructor
    · rintro ⟨rfl, rfl⟩
      exact ⟨le_rfl, .refl _ _⟩
    · rintro ⟨he, hb⟩
      obtain rfl : e = 4 := le_antisymm he hb.1
      exact ⟨rfl, below_self_iff.1 hb⟩
  | h + 1, d, hd, hdh, x, p, k, P, hf, hP, hn => by
    have hbound : ∀ i < 512, x * 512 + i < 256 * 512 ^ d := by
      intro i hi
      obtain ⟨d', rfl⟩ : ∃ d', d = d' + 1 := ⟨d - 1, by omega⟩
      have hx : x < 256 * 512 ^ d' := node_lt hn
      rw [pow_succ]
      omega
    obtain ⟨k₁, hok₁, hf₁⟩ := Freed.entries hw (freesAt_freeBelow hw h (by omega) (by omega))
      (by omega) hn le_rfl hbound hf hP
    obtain ⟨k₂, hok₂, hf₂⟩ := hf₁.table hw (by omega) hn hP
    refine ⟨k₂, ?_, hf₂.congr fun e y q _ => or_congr_right ⟨?_, ?_⟩⟩
    · rw [freeBelow, hok₁]
      exact hok₂
    · rintro (⟨rfl, rfl⟩ | ⟨i, hi, he, hb⟩)
      · exact ⟨by omega, .refl _ _⟩
      · exact ⟨he, (below_iff (F := format) (by have := hb.1; omega)).2 ⟨i, hi, hb⟩⟩
    · rintro ⟨he, hb⟩
      rcases Nat.eq_or_lt_of_le hb.1 with rfl | hlt
      · exact .inl ⟨rfl, below_self_iff.1 hb⟩
      · obtain ⟨i, hi, hb⟩ := (below_iff (F := format) hlt).1 hb
        exact .inr ⟨i, hi, he, hb⟩

/-! ## `freevm` -/

variable {l : List UInt64} {T : UInt64 → Prop}

/-- The user pages are the nodes one level below the page tables. -/
theorem node_four (v : ℕ) : node k r 4 v = userPage k r v := by
  cases hn : node k r 3 (v / 512) with
  | none =>
    have hup : node k r 4 v = none :=
      node_below_none (d := 3) hn ⟨by decide, by simp [format]⟩
    rw [hup, userPage, pte_of_none hn]
    rfl
  | some t =>
    have hv : v < 256 * 512 ^ 3 := by
      have : v / 512 < 256 * 512 ^ 2 := node_lt hn
      omega
    rw [node_succ hv, hn, Option.bind_some, userPage, ← get_slot hn]
    rfl

theorem Space.whole (h : Space B k l r T) : Whole B k l r := by
  have hcase : ∀ {d x p}, d ≤ 4 → node k r d x = some p →
      (d ≤ 3 ∧ (T p ∧ ∀ v, userPage k r v ≠ some p)) ∨ d = 4 ∧ userPage k r x = some p := by
    intro d x p hd hn
    by_cases h3 : d ≤ 3
    · exact .inl ⟨h3, h.tree.table h3 hn⟩
    · obtain rfl : d = 4 := by omega
      exact .inr ⟨rfl, (node_four x).symm.trans hn⟩
  refine ⟨?_, ?_, ?_⟩
  · intro d d' x x' p hd hd' hn hn'
    rcases hcase hd hn with ⟨h3, hS⟩ | ⟨rfl, hp⟩ <;> rcases hcase hd' hn' with ⟨h3', hS'⟩ | ⟨rfl, hp'⟩
    · exact h.tree.inj h3 h3' hn hn'
    · exact absurd hp' (hS.2 x')
    · exact absurd hp (hS'.2 x)
    · exact ⟨rfl, h.inj hp hp'⟩
  · intro d x p hd hn
    rcases hcase hd hn with ⟨-, hS⟩ | ⟨-, hp⟩
    · exact h.valid p hS.1
    · exact h.valid p (h.mem hp)
  · intro d x p hd hn hl
    rcases hcase hd hn with ⟨h3, -⟩ | ⟨-, hp⟩
    · exact h.tree.not_free h3 hn hl
    · exact (h.tree.free hl).2 x hp

/-- The pages of an address space are free, or nodes of its tree. -/
theorem Space.mem_iff (h : Space B k l r T) (p : UInt64) :
    T p ↔ p ∈ l ∨ ∃ d ≤ 4, ∃ x, node k r d x = some p := by
  constructor
  · intro hp
    by_cases hu : ∃ v, userPage k r v = some p
    · obtain ⟨v, hv⟩ := hu
      exact .inr ⟨4, le_rfl, v, (node_four v).trans hv⟩
    · obtain ⟨ro, hro⟩ := (h.tree.owns.used_iff p).1 ⟨hp, fun v hv => hu ⟨v, hv⟩⟩
      cases ro with
      | free q =>
        by_cases hq : q ∈ l
        · rw [roles_free hq, Option.some.injEq] at hro
          exact .inl (hro ▸ hq)
        · rw [roles_free_none hq] at hro
          cases hro
      | table d x =>
        by_cases hd : d ≤ 3
        · rw [roles_table hd] at hro
          exact .inr ⟨d, by omega, x, hro⟩
        · rw [roles, if_neg hd] at hro
          cases hro
  · rintro (hp | ⟨d, hd, x, hn⟩)
    · exact (h.tree.free hp).1
    · by_cases h3 : d ≤ 3
      · exact (h.tree.table h3 hn).1
      · obtain rfl : d = 4 := by omega
        exact h.mem ((node_four x).symm.trans hn)

/-- **`freevm`** puts every table and every user page on the free list, once. -/
theorem Space.freevm (h : Space B k l r T) :
    ∃ k' l', k.freevm B r = .ok k' ∧ Pool B k' l' ∧ (∀ p, p ∈ l' ↔ T p) ∧
      ∀ q, ¬ T q → k'.mem q = k.mem q := by
  have hw := h.whole
  have hroot : node k r 0 0 = some r := rfl
  have hstart : Freed B k l r (fun _ _ => False) k :=
    ⟨⟨l, h.tree.pool, fun p => by simp⟩, fun _ _ => rfl⟩
  obtain ⟨k₁, hok₁, hf₁⟩ := Freed.entries hw (freesAt_freeBelow hw 3 (d := 1) le_rfl rfl)
    (by decide) hroot (m := 256) (by decide) (by omega) hstart (fun _ _ => False.elim)
  obtain ⟨k₂, hok₂, hf₂⟩ := hf₁.table hw (by decide) hroot (fun _ _ => False.elim)
  have hall : Freed B k l r (fun e _ => e ≤ 4) k₂ := by
    refine hf₂.congr fun e y q hq => ⟨?_, fun he => .inr ?_⟩
    · rintro (hF | ⟨rfl, -⟩ | ⟨i, -, he, -⟩)
      · exact hF.elim
      · exact Nat.zero_le 4
      · exact he
    · cases e with
      | zero =>
        refine .inl ⟨rfl, ?_⟩
        by_contra hy
        rw [node, Radix.node, if_neg hy] at hq
        cases hq
      | succ e =>
        have hy : y < 256 * 512 ^ e := node_lt hq
        refine .inr ⟨y / 512 ^ e, Nat.div_lt_of_lt_mul (by rwa [Nat.mul_comm] at hy), he,
          by omega, ?_⟩
        change y / 512 ^ e = 0 * 512 + y / 512 ^ e
        omega
  obtain ⟨l', hpool, hl⟩ := hall.pool
  refine ⟨k₂, l', ?_, hpool, fun p => ?_, fun q hq => hall.mem q fun d x hd hn => hq ?_⟩
  · have hr0 : r ≠ 0 := (h.tree.valid r h.tree.root).ne_zero
    rw [Kmem.freevm, if_neg hr0, show NPDENTRIES / 2 = 256 from rfl, hok₁]
    exact hok₂
  · rw [hl, h.mem_iff]
    simp only [← exists_and_left]
  · exact (h.mem_iff q).2 (.inr ⟨d, hd, x, hn⟩)

end Kmem

end Xv6
