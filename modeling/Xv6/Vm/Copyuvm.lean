/-
  `copyuvm` of `vm.c`: the memory of a forked child.

  The child's address space is built out of pages that were free.  The pages
  of the parent are not among them, so that the parent is read as it was at
  the start while its copy grows.
-/
import Xv6.Vm.Free

namespace Xv6

open Fallible

namespace Kmem

/-- The code after the label `bad`. -/
def copyBad (B : Boot) (d : UInt64) (k : Kmem) : Except Crash (UInt64 × Kmem) := do
  let k ← k.freevm B d
  .ok (0, k)

/-- The loop of `copyuvm` with `n` pages to go. -/
def copyLoop (B : Boot) (pgdir d : UInt64) : ℕ → UInt64 → Kmem → Except Crash (UInt64 × Kmem)
  | 0, _, k => .ok (d, k)
  | n + 1, i, k => do
    match ← walkpgdir pgdir i false k with
    | (none, _) => .error .copyuvmExist
    | (some pte, k) =>
      if k.get pte &&& PTE_P = 0 then .error .copyuvmPresent
      else
        let pa := pteAddr (k.get pte)
        let flags := pteFlags (k.get pte)
        let (mem, k) ← k.kalloc
        if mem = 0 then copyBad B d k
        else do
          let (res, k) ← (k.setPage mem (k.mem (p2v pa))).mappages d i PGSIZE (v2p mem)
            flags.toUInt32.toInt32
          if res < 0 then copyBad B d k else copyLoop B pgdir d n (i + PGSIZE) k

def copyuvm (B : Boot) (pgdir : UInt64) (sz : UInt32) (k : Kmem) :
    Except Crash (UInt64 × Kmem) := do
  let (d, k) ← setupkvm B k
  if d = 0 then .ok (0, k)
  else copyLoop B pgdir d (rounds PGSIZE sz.toUInt64) PGSIZE k

variable {B : Boot} {k₀ k k' : Kmem} {l l₀ : List UInt64} {r d : UInt64} {T : UInt64 → Prop} {v : ℕ}

/-- The page table of `r` in `k₀` has no page in `F`. -/
def Apart (k₀ : Kmem) (r : UInt64) (F : UInt64 → Prop) : Prop :=
  ∀ e x p, e ≤ 4 → node k₀ r e x = some p → ¬ F p

/-- A page table apart from the pages that have changed is as it was. -/
theorem Apart.same {F : UInt64 → Prop} (h : Apart k₀ r F) (hmem : ∀ q, ¬ F q → k.mem q = k₀.mem q) :
    (∀ e ≤ 4, ∀ x, node k r e x = node k₀ r e x) ∧ (∀ v, pte k r v = pte k₀ r v) ∧
      ∀ v, image k r v = image k₀ r v := by
  have hword : ∀ e x t, e ≤ 4 → node k₀ r e x = some t → k.word t = k₀.word t :=
    fun e x t he ht => funext fun i => word_congr (hmem t (h e x t he ht)) i
  have hpte : ∀ v, pte k r v = pte k₀ r v :=
    Radix.find_congr fun e x t he => hword e x t (by omega)
  refine ⟨Radix.node_congr fun e x t he => hword e x t he.le, hpte, fun v => ?_⟩
  exact image_congr (hpte v) fun p hp => hmem p (h 4 v p le_rfl ((node_four v).trans hp))

/-- The flags of an entry survive the conversion to `int`. -/
theorem flags_int (e : UInt64) :
    (pteFlags e).toUInt32.toInt32.toInt64.toUInt64 = pteFlags e := by
  have hlt : (pteFlags e).toNat < 4096 := by
    rw [pteFlags, toNat_and_low]
    omega
  generalize pteFlags e = f at hlt
  have h32 : f.toUInt32.toNat = f.toNat := by
    rw [UInt64.toNat_toUInt32]
    exact Nat.mod_eq_of_lt (by omega)
  have hint : f.toUInt32.toInt32.toInt64.toInt = f.toNat := by
    rw [Int32.toInt_toInt64]
    change f.toUInt32.toBitVec.toInt = _
    rw [BitVec.toInt_eq_toNat_of_lt]
    · exact congrArg Nat.cast h32
    · change 2 * f.toUInt32.toNat < _
      omega
  have hto : f.toUInt32.toInt32.toInt64.toInt = _ :=
    BitVec.toInt_eq_toNat_cond f.toUInt32.toInt32.toInt64.toBitVec
  rw [← UInt64.toNat_inj]
  change f.toUInt32.toInt32.toInt64.toBitVec.toNat = _
  split at hto <;> omega

/-- **The loop of `copyuvm`.** -/
theorem Space.copyLoop {F : UInt64 → Prop} (hpar : Apart k₀ r F) : ∀ (n : ℕ) {k : Kmem}
    {l : List UInt64} {a : UInt64} {v : ℕ}, Space B k l d F → (∀ q, ¬ F q → k.mem q = k₀.mem q) →
    a.toNat = 4096 * v → v + n ≤ 2 ^ 35 →
    (∀ w, v ≤ w → w < v + n → (userPage k₀ r w).isSome ∧ userPage k d w = none) →
    Spends .outOfMemory (fun _ => False) (4 * n) l.length (k.copyLoop B r d n a) fun (res, k') n' =>
      ∃ l', l'.length = n' ∧ res = d ∧ Space B k' l' d F ∧ (∀ q, ¬ F q → k'.mem q = k₀.mem q) ∧
        Keeps F d k k' ∧
        ∀ w, image k' d w = if v ≤ w ∧ w < v + n then image k₀ r w else image k d w
  | 0, k, l, a, v, h, hmem, _, _, _ => by
    refine Spends.ok ⟨l, rfl, rfl, h, hmem, .refl, fun w => ?_⟩
    rw [if_neg (by omega)]
  | n + 1, k, l, a, v, h, hmem, ha, hv, hrange => by
    obtain ⟨hsome, hnone⟩ := hrange v le_rfl (by omega)
    obtain ⟨hnode, hpte, himg⟩ := hpar.same hmem
    have hav : a.toNat / 4096 = v := by omega
    -- the parent's entry
    have hpres : pte k r v &&& PTE_P ≠ 0 := by
      intro h0
      rw [hpte] at h0
      rw [userPage_eq_none.2 h0] at hsome
      cases hsome
    have hpage : userPage k r v = some (p2v (pteAddr (pte k r v))) := child_eq hpres
    obtain ⟨s, hwalk, hget⟩ := walkpgdir_of_pte (k := k) (r := r) a (by omega) (by
      rw [hav]
      rintro h0
      exact hpres (by rw [h0]; rfl))
    rw [hav] at hget
    rw [Kmem.copyLoop, hwalk]
    change Spends _ _ _ _ (if k.get s &&& PTE_P = 0 then _ else _) _
    rw [hget, if_neg hpres]
    rcases h.mapNew (pteFlags (pte k r v)).toUInt32.toInt32 ha (by omega) (by
      rw [flags_int, pteFlags, toNat_and_low]
      omega) with ⟨rfl, he⟩ | ⟨mem, l₁, k₁, rfl, hok, h0, hmem₁, hmap⟩
    · rw [he]
      exact .inl ⟨rfl, by simp⟩
    rw [hok]
    change Spends _ _ _ _ (if mem = 0 then _ else _) _
    rw [if_neg h0, show 4 * (n + 1) = 1 + (3 + 4 * n) by omega, List.length_cons,
      Nat.add_comm l₁.length]
    refine (((hmap _).mono le_rfl ?_ fun _ _ => id).bind ?_).drawn 1
    · rintro e ⟨-, hw⟩
      rw [hnone] at hw
      cases hw
    rintro ⟨res, k₃⟩ n₃ ⟨l₃, rfl, rfl, hs₃, hk₃, -, -, hi₃⟩
    have hcopy : some ((pteFlags (pte k r v)).toUInt32.toInt32.toInt64.toUInt64 ||| PTE_P,
        k₁.mem (p2v (pteAddr (pte k r v)))) = image k₀ r v := by
      rw [← himg, image, hpage, flags_int, pteFlags_or_present hpres, hmem₁]
      rfl
    rw [hcopy] at hi₃
    have hmem₃ : ∀ q, ¬ F q → k₃.mem q = k₀.mem q := fun q hq => (hk₃.mem q hq).trans (hmem q hq)
    refine (hs₃.copyLoop hpar n hmem₃ (toNat_next ha (by omega)) (by omega) fun w h1 h2 => ?_).mono
      le_rfl (fun _ => id) ?_
    · obtain ⟨hw, hw'⟩ := hrange w (by omega) (by omega)
      refine ⟨hw, image_eq_none.1 ?_⟩
      rw [hi₃, if_neg (by omega), image_eq_none.2 hw']
    · rintro ⟨res, k'⟩ n' ⟨l', rfl, rfl, hs, hm, hk, hi⟩
      refine ⟨l', rfl, rfl, hs, hm, hk₃.trans hk, fun w => ?_⟩
      rw [hi, hi₃]
      by_cases hw : w = v
      · subst hw
        rw [if_neg (by omega), if_pos rfl, if_pos (by omega)]
      · rw [if_neg hw]
        simp only [show (v + 1 ≤ w ∧ w < v + 1 + n) ↔ (v ≤ w ∧ w < v + (n + 1)) by omega]

theorem Space.apart (h : Space B k l r T) : Apart k r (· ∈ l) := by
  intro e x p he hn
  exact h.whole.held he hn

/-- `copyuvm` builds the child out of free pages. -/
theorem Space.copyuvm (h : Space B k l r T) {sz : UInt64} (hm : Spans k r sz)
    (hsz : sz.toNat < 2 ^ 32) :
    Spends .outOfMemory (fun _ => False) (1 + 4 * (npages sz - 1)) l.length
      (k.copyuvm B r sz.toUInt32) fun (d, k') n =>
        ∃ l', l'.length = n ∧ d ∈ l ∧ d ≠ 0 ∧ Space B k' l' d (· ∈ l) ∧
          (∀ q, q ∉ l → k'.mem q = k.mem q) ∧ (∀ v, image k' d v = image k r v) ∧
          ∀ i, 256 ≤ i → i < 512 → k'.word d i =
            if i = 256 then v2p B.kpdpt ||| PTE_P ||| PTE_W else 0 := by
  refine h.tree.pool.newSpace.bind ?_
  rintro ⟨d, k₁⟩ n ⟨l₁, rfl, hcons, hs₁, hnone, hmem₁, hword, -⟩
  have hd : d ∈ l := by simp [hcons]
  have hd0 : d ≠ 0 := (h.tree.pool.valid d hd).ne_zero
  have hsz32 : sz.toUInt32.toUInt64 = sz := by
    rw [← UInt64.toNat_inj, UInt32.toNat_toUInt64, UInt64.toNat_toUInt32]
    exact Nat.mod_eq_of_lt hsz
  have hrounds : rounds PGSIZE sz = npages sz - 1 := by
    rw [rounds, npages, show PGSIZE.toNat = 4096 from rfl]
    omega
  have hmem : ∀ q, q ∉ l → k₁.mem q = k.mem q := fun q hq => hmem₁ q (by
    rintro rfl
    exact hq hd)
  have hnp := hm.npages_le h
  change Spends _ _ _ _ (if d = 0 then _ else _) _
  rw [if_neg hd0, hsz32, hrounds]
  refine (hs₁.copyLoop h.apart (npages sz - 1) hmem (v := 1) rfl (by omega) fun w h1 h2 =>
    ⟨(hm w).2 ⟨h1, by omega⟩, hnone w⟩).mono le_rfl (fun _ => id) ?_
  rintro ⟨res, k'⟩ n' ⟨l', rfl, rfl, hs, hmem', hk, himg⟩
  refine ⟨l', rfl, hd, hd0, hs, hmem', fun v => ?_, fun i hi hi' => ?_⟩
  · rw [himg]
    split_ifs with hv
    · rfl
    · rw [image_eq_none.2 (hnone v)]
      refine (image_eq_none.2 ?_).symm
      rw [← Option.not_isSome_iff_eq_none, hm v]
      omega
  · rw [hk.high i hi hi', hword i hi']

/-- **Another free list.**  A page table keeps its pages while other code allocates and frees; the
new free list `l'` has none of them. -/
theorem Space.relist {l' : List UInt64} (h : Space B k l r T) (hpool : Pool B k' l')
    (hmem : ∀ q, T q → q ∉ l → k'.mem q = k.mem q) (hl : ∀ p ∈ l', p ∈ l ∨ ¬ T p) :
    Space B k' l' r (fun q => q ∈ l' ∨ T q ∧ q ∉ l) ∧
      (∀ e ≤ 4, ∀ x, node k' r e x = node k r e x) ∧ (∀ v, pte k' r v = pte k r v) ∧
      ∀ v, image k' r v = image k r v := by
  have hown : ∀ {e x p}, e ≤ 4 → node k r e x = some p → T p ∧ p ∉ l := fun {e x p} he hn =>
    ⟨(h.mem_iff p).2 (.inr ⟨e, he, x, hn⟩), h.apart e x p he hn⟩
  have hout : ∀ {p}, p ∈ l' → ¬ (T p ∧ p ∉ l) := fun hp ⟨hT, hpl⟩ =>
    (hl _ hp).elim hpl fun hnT => hnT hT
  have hapart : Apart k r fun q => ¬ (T q ∧ q ∉ l) := fun e x p he hn hF => hF (hown he hn)
  obtain ⟨hnode, hpte, himg⟩ := hapart.same (k := k') fun q hq =>
    hmem q (not_not.1 hq).1 (not_not.1 hq).2
  have huser : ∀ v, userPage k' r v = userPage k r v := fun v => userPage_congr (hpte v)
  have hpage : ∀ {v p}, userPage k r v = some p → T p ∧ p ∉ l := fun {v p} hv =>
    hown le_rfl ((node_four v).trans hv)
  have hvalid : ∀ q, q ∈ l' ∨ T q ∧ q ∉ l → Valid B q := by
    rintro q (hq | hq)
    · exact hpool.valid q hq
    · exact h.valid q hq.1
  have hcase : ∀ {ro p}, roles k' l' r ro = some p → ro = .free p ∧ p ∈ l' ∨
      ∃ d x, ro = .table d x ∧ d ≤ 3 ∧ node k r d x = some p := by
    rintro (q | ⟨d, x⟩) p hro
    · by_cases hq : q ∈ l'
      · rw [roles_free hq, Option.some.injEq] at hro
        subst hro
        exact .inl ⟨rfl, hq⟩
      · rw [roles_free_none hq] at hro
        cases hro
    · by_cases hd : d ≤ 3
      · rw [roles_table hd, hnode d (by omega)] at hro
        exact .inr ⟨d, x, rfl, hd, hro⟩
      · rw [roles, if_neg hd] at hro
        cases hro
  refine ⟨⟨⟨hpool, fun q hq => hvalid q hq.1, ?_, ?_⟩, ?_, ?_, hvalid⟩, hnode, hpte, himg⟩
  · intro ro ro' p hro hro'
    rcases hcase hro with ⟨rfl, hp⟩ | ⟨d, x, rfl, hd, hn⟩ <;>
      rcases hcase hro' with ⟨rfl, hp'⟩ | ⟨d', x', rfl, hd', hn'⟩
    · rfl
    · exact absurd (hown (by omega) hn') (hout hp)
    · exact absurd (hown (by omega) hn) (hout hp')
    · obtain ⟨rfl, rfl⟩ := h.tree.inj hd hd' hn hn'
      rfl
  · intro p
    simp only [huser]
    constructor
    · rintro ⟨hp | ⟨hT, hpl⟩, hno⟩
      · exact ⟨.free p, roles_free hp⟩
      · obtain ⟨ro, hro⟩ := (h.tree.owns.used_iff p).1 ⟨hT, hno⟩
        rcases ro with q | ⟨d, x⟩
        · by_cases hq : q ∈ l
          · rw [roles_free hq, Option.some.injEq] at hro
            exact absurd (hro ▸ hq) hpl
          · rw [roles_free_none hq] at hro
            cases hro
        · by_cases hd : d ≤ 3
          · rw [roles_table hd] at hro
            exact ⟨.table d x, by rw [roles_table hd, hnode d (by omega), hro]⟩
          · rw [roles, if_neg hd] at hro
            cases hro
    · rintro ⟨ro, hro⟩
      rcases hcase hro with ⟨-, hp⟩ | ⟨d, x, -, hd, hn⟩
      · exact ⟨.inl hp, fun v hv => hout hp (hpage hv)⟩
      · exact ⟨.inr (hown (by omega) hn), (h.tree.table hd hn).2⟩
  · intro v w p hv hw
    rw [huser] at hv hw
    exact h.inj hv hw
  · intro v p hv
    rw [huser] at hv
    exact .inr (hpage hv)

/-- **A new page table takes the place of an old one**: it was built from free pages, and now
`freevm` gives the pages of the old one back. -/
theorem Space.replace {l' : List UInt64} {r₀ : UInt64} (h : Space B k₀ l r₀ T)
    (hnew : Space B k l' r (· ∈ l)) (hmem : ∀ q, T q → q ∉ l → k.mem q = k₀.mem q) :
    ∃ k' l'', k.freevm B r₀ = .ok k' ∧ Space B k' l'' r T ∧
      (∀ q, ¬ T q → k'.mem q = k.mem q) ∧
      (∀ e ≤ 4, ∀ x, node k' r e x = node k r e x) ∧ (∀ v, pte k' r v = pte k r v) ∧
      ∀ v, image k' r v = image k r v := by
  have hsub : ∀ p ∈ l', p ∈ l := fun p hp => (hnew.mem_iff p).2 (.inl hp)
  have hlT : ∀ p ∈ l, T p := fun p hp => (h.mem_iff p).2 (.inl hp)
  obtain ⟨hold, -⟩ := h.relist hnew.tree.pool hmem fun p hp => .inl (hsub p hp)
  obtain ⟨k', l'', hfree, hpool, hl'', hmem'⟩ := hold.freevm
  have hkept : ∀ q, q ∈ l → q ∉ l' → k'.mem q = k.mem q := by
    intro q hq hql
    refine hmem' q ?_
    rintro (hq' | hq')
    · exact hql hq'
    · exact hq'.2 hq
  obtain ⟨hs, hnode, hpte, himg⟩ := hnew.relist hpool hkept fun p hp => by
    rcases (hl'' p).1 hp with hp | hp
    · exact .inl hp
    · exact .inr hp.2
  have hset : (fun q => q ∈ l'' ∨ q ∈ l ∧ q ∉ l') = T := by
    funext q
    refine propext ⟨?_, fun hT => ?_⟩
    · rintro (hq | hq)
      · rcases (hl'' q).1 hq with hq | hq
        · exact hlT q (hsub q hq)
        · exact hq.1
      · exact hlT q hq.1
    · by_cases hq : q ∈ l
      · by_cases hq' : q ∈ l'
        · exact .inl ((hl'' q).2 (.inl hq'))
        · exact .inr ⟨hq, hq'⟩
      · exact .inl ((hl'' q).2 (.inr ⟨hT, hq⟩))
  refine ⟨k', l'', hfree, hset ▸ hs, fun q hq => hmem' q ?_, hnode, hpte, himg⟩
  rintro (hq' | hq')
  · exact hq (hlT q (hsub q hq'))
  · exact hq hq'.1

/-- **`fork` duplicates memory exactly and privately.**  Unless it runs out of pages, of which it
needs at most one for the new PML4 and four for each user page, `copyuvm` returns a page table with
the same user pages, flags and contents as the parent's; the two page tables have no page in common,
and those of the parent are unchanged. -/
theorem copyuvm_exact (h : Space B k l r T) {sz : UInt64} (hm : Spans k r sz)
    (hsz : sz.toNat < 2 ^ 32) :
    (k.copyuvm B r sz.toUInt32 = .error .outOfMemory ∧ l.length < 1 + 4 * (npages sz - 1)) ∨
    ∃ d k', k.copyuvm B r sz.toUInt32 = .ok (d, k') ∧ d ≠ 0 ∧
      (∀ v, 1 ≤ v → v < npages sz → (image k' d v).isSome ∧ image k' d v = image k r v) ∧
      (∀ v, ¬ (1 ≤ v ∧ v < npages sz) → image k' d v = none) ∧
      (∀ e e' x x' p, e ≤ 4 → e' ≤ 4 → node k' d e x = some p → node k' r e' x' ≠ some p) ∧
      (∀ e ≤ 4, ∀ x, node k' r e x = node k r e x) ∧
      (∀ e ≤ 4, ∀ x p, node k r e x = some p → k'.mem p = k.mem p) ∧
      ∀ q, q ∉ l → k'.mem q = k.mem q := by
  have hspec := h.copyuvm hm hsz
  cases hres : k.copyuvm B r sz.toUInt32 with
  | error e =>
    rw [hres] at hspec
    rcases hspec with ⟨rfl, hlen⟩ | hF
    · exact .inl ⟨rfl, hlen⟩
    · exact hF.elim
  | ok out =>
    obtain ⟨d, k'⟩ := out
    rw [hres] at hspec
    obtain ⟨n, -, l', -, hd, hd0, hs, hmem, himg, -⟩ := hspec
    obtain ⟨hnode, -, -⟩ := h.apart.same hmem
    refine .inr ⟨d, k', rfl, hd0, fun v h1 h2 => ⟨?_, himg v⟩, fun v hv => ?_,
      fun e e' x x' p he he' hn hn' => ?_, hnode, fun e he x p hn => hmem p (h.apart e x p he hn), hmem⟩
    · rw [himg, image_isSome]
      exact (hm v).2 ⟨h1, h2⟩
    · rw [himg, image_eq_none, ← Option.not_isSome_iff_eq_none, hm v]
      exact hv
    · -- a page of the child was free
      rw [hnode e' he'] at hn'
      exact h.apart e' x' p he' hn' ((hs.mem_iff p).2 (.inr ⟨e, he, x, hn⟩))

theorem copyuvm_exact_two : ∃ k l r T, Space smallBoot k l r T ∧ Spans k r 0x3000 ∧
    ∃ d k', k.copyuvm smallBoot r 0x3000 = .ok (d, k') ∧ d ≠ 0 ∧ image k' d 2 = image k r 2 := by
  obtain ⟨k, l, r, T, hs, hm, hlen⟩ := smallBoot_space
  refine ⟨k, l, r, T, hs, hm, ?_⟩
  rcases copyuvm_exact hs hm (by decide) with ⟨-, hlt⟩ | ⟨d, k', hok, hd, himg, -⟩
  · rw [show npages 0x3000 = 3 from rfl] at hlt
    omega
  · exact ⟨d, k', hok, hd, (himg 2 (by decide) (by decide)).2⟩

end Kmem

end Xv6
