/-
  User memory: `allocuvm`, `deallocuvm` and `clearpteu` of `vm.c`, and
  `growproc` of `proc.c`.

  What a page table gives to a process is its `image`, a finite map from
  virtual pages to flags and contents.  `Space` says that the free pages, the
  tables and the user pages of a page table are different pages and make up a
  set `T`.  Under this invariant each function is an update of the image that
  touches no page outside `T`.

  The loops `for(; a < end; a += PGSIZE)` run over a count of `rounds`; their
  ends are below `2 ^ 64 - PGSIZE`, so that the address does not wrap.
-/
import Xv6.Vm.Walk

namespace Xv6

open Own Fallible

/-- `PGROUNDUP(sz) / PGSIZE`. -/
def npages (sz : UInt64) : ℕ := (sz.toNat + 4095) / 4096

theorem npages_mono {a b : UInt64} (h : a ≤ b) : npages a ≤ npages b :=
  Nat.div_le_div_right (Nat.add_le_add_right (UInt64.le_iff_toNat_le.1 h) _)

/-- The rounds of a loop from the page address `a` to `stop`. -/
def rounds (a stop : UInt64) : ℕ := (stop.toNat - a.toNat + 4095) / 4096

namespace Kmem

/-- One round of the loop of `deallocuvm`. -/
def deallocPage (B : Boot) (pgdir a : UInt64) (k : Kmem) : Except Crash Kmem := do
  match ← walkpgdir pgdir a false k with
  | (none, k) => .ok k
  | (some pte, k) =>
    if k.get pte &&& PTE_P ≠ 0 then
      let pa := pteAddr (k.get pte)
      if pa = 0 then .error .kfree
      else do
        let k ← k.kfree B (p2v pa)
        .ok (k.set pte 0)
    else .ok k

def deallocLoop (B : Boot) (pgdir : UInt64) : ℕ → UInt64 → Kmem → Except Crash Kmem
  | 0, _, k => .ok k
  | n + 1, a, k => do
    let k ← deallocPage B pgdir a k
    deallocLoop B pgdir n (a + PGSIZE) k

def deallocuvm (B : Boot) (pgdir oldsz newsz : UInt64) (k : Kmem) :
    Except Crash (UInt64 × Kmem) :=
  if oldsz ≤ newsz then .ok (oldsz, k)
  else do
    let a := pgroundup newsz
    let k ← deallocLoop B pgdir (rounds a oldsz) a k
    .ok (newsz, k)

/-- The loop of `allocuvm`.  `kalloc` never returns 0 and `mappages` never -1 (they panic), but the
code provides for it. -/
def allocLoop (B : Boot) (pgdir oldsz newsz : UInt64) : ℕ → UInt64 → Kmem →
    Except Crash (UInt64 × Kmem)
  | 0, _, k => .ok (newsz, k)
  | n + 1, a, k => do
    let (mem, k) ← k.kalloc
    if mem = 0 then do
      let (_, k) ← deallocuvm B pgdir newsz oldsz k
      .ok (0, k)
    else do
      let (res, k) ← (k.setPage mem fun _ => 0).mappages pgdir a PGSIZE (v2p mem) 6
      if res < 0 then do
        let (_, k) ← deallocuvm B pgdir newsz oldsz k
        let k ← k.kfree B mem
        .ok (0, k)
      else allocLoop B pgdir oldsz newsz n (a + PGSIZE) k

def allocuvm (B : Boot) (pgdir oldsz newsz : UInt64) (k : Kmem) : Except Crash (UInt64 × Kmem) :=
  if KERNBASE ≤ newsz then .ok (0, k)
  else if newsz < oldsz then .ok (oldsz, k)
  else
    let a := pgroundup oldsz
    allocLoop B pgdir oldsz newsz (rounds a newsz) a k

def clearpteu (pgdir uva : UInt64) (k : Kmem) : Except Crash Kmem := do
  match ← walkpgdir pgdir uva false k with
  | (none, _) => .error .clearpteu
  | (some pte, k) => .ok (k.set pte (k.get pte &&& ~~~ PTE_U))

/-- `growproc` for a process with page table `pgdir` and size `sz`: the result, the new size and
the memory. -/
def growproc (B : Boot) (pgdir sz : UInt64) (n : Int64) (k : Kmem) :
    Except Crash (Int32 × UInt64 × Kmem) :=
  if 0 < n then do
    let (sz', k) ← allocuvm B pgdir sz (sz + n.toUInt64) k
    if sz' = 0 then .ok (-1, sz, k) else .ok (0, sz', k)
  else if n < 0 then do
    let (sz', k) ← deallocuvm B pgdir sz (sz + n.toUInt64) k
    if sz' = 0 then .ok (-1, sz, k) else .ok (0, sz', k)
  else .ok (0, sz, k)

/-! ## Address spaces -/

/-- The page mapped at virtual page `v`. -/
def userPage (k : Kmem) (r : UInt64) (v : ℕ) : Option UInt64 := format.child (pte k r v)

/-- Flags and contents of the virtual pages. -/
def image (k : Kmem) (r : UInt64) (v : ℕ) : Option (UInt64 × Page) :=
  (userPage k r v).map fun p => (pteFlags (pte k r v), k.mem p)

/-- The free pages `l`, the tables of `r` and its user pages are different pages, those of `T`. -/
structure Space (B : Boot) (k : Kmem) (l : List UInt64) (r : UInt64) (T : UInt64 → Prop) :
    Prop where
  tree : Tree B k l r fun p => T p ∧ ∀ v, userPage k r v ≠ some p
  inj : ∀ {v w p}, userPage k r v = some p → userPage k r w = some p → v = w
  mem : ∀ {v p}, userPage k r v = some p → T p
  valid : ∀ p, T p → Valid B p

/-- What an operation with pages in `T` keeps: other pages and the kernel's half of the root. -/
structure Keeps (T : UInt64 → Prop) (r : UInt64) (k k' : Kmem) : Prop where
  mem : ∀ q, ¬ T q → k'.mem q = k.mem q
  high : ∀ i, 256 ≤ i → i < 512 → k'.word r i = k.word r i

variable {B : Boot} {k k' k'' : Kmem} {l l' : List UInt64} {r p : UInt64} {T : UInt64 → Prop} {v : ℕ}

theorem Keeps.refl : Keeps T r k k := ⟨fun _ _ => rfl, fun _ _ _ => rfl⟩

theorem Keeps.trans (h : Keeps T r k k') (h' : Keeps T r k' k'') : Keeps T r k k'' where
  mem q hq := (h'.mem q hq).trans (h.mem q hq)
  high i hi hi' := (h'.high i hi hi').trans (h.high i hi hi')

theorem userPage_congr {w : ℕ} (h : pte k' r w = pte k r v) : userPage k' r w = userPage k r v := by
  rw [userPage, userPage, h]

theorem image_congr {w : ℕ} (h : pte k' r w = pte k r v)
    (hmem : ∀ p, userPage k r v = some p → k'.mem p = k.mem p) : image k' r w = image k r v := by
  rw [image, image, userPage_congr h, h]
  cases hp : userPage k r v with
  | none => rfl
  | some p => rw [Option.map_some, Option.map_some, hmem p hp]

theorem userPage_eq_none : userPage k r v = none ↔ pte k r v &&& PTE_P = 0 := by
  by_cases h : pte k r v &&& PTE_P = 0
  · exact iff_of_true (child_eq_none (not_not.2 h)) h
  · refine iff_of_false (fun hc => ?_) h
    rw [userPage, child_eq h] at hc
    cases hc

theorem image_eq_none : image k r v = none ↔ userPage k r v = none := Option.map_eq_none_iff

theorem image_isSome : (image k r v).isSome ↔ (userPage k r v).isSome := by
  rw [image, Option.isSome_map]

/-- An entry made of a page and flags. -/
theorem child_flags {f : UInt64} (hp : Valid B p) (hf : f &&& PTE_P = PTE_P) (hlt : f.toNat < 4096) :
    format.child (v2p p ||| f) = some p := by
  rw [child_eq (present_or _ _ hf), pteAddr_or hp.v2p_mod hlt, p2v_v2p]

theorem userPage_valid (h : Space B k l r T) (hp : userPage k r v = some p) :
    pte k r v &&& PTE_P ≠ 0 ∧ p2v (pteAddr (pte k r v)) = p ∧ Valid B p := by
  have hpres : pte k r v &&& PTE_P ≠ 0 := by
    intro h0
    rw [userPage_eq_none.2 h0] at hp
    cases hp
  have hchild := hp
  rw [userPage, child_eq hpres, Option.some.injEq] at hchild
  exact ⟨hpres, hchild, h.valid p (h.mem hp)⟩

/-- Virtual pages in a row, all of them mapped, are not more than there are pages. -/
theorem Space.run_le (h : Space B k l r T) {a b : ℕ}
    (hrun : ∀ w, a ≤ w → w < b → (userPage k r w).isSome) : b - a ≤ 57344 := by
  have hsome : ∀ i ∈ List.range (b - a),
      userPage k r (a + i) = some ((userPage k r (a + i)).getD 0) := by
    intro i hi
    have := List.mem_range.1 hi
    obtain ⟨p, hp⟩ := Option.isSome_iff_exists.1 (hrun (a + i) (by omega) (by omega))
    rw [hp]
    rfl
  have hn : ((List.range (b - a)).map fun i => (userPage k r (a + i)).getD 0).Nodup := by
    refine List.Nodup.map_on (fun i hi j hj heq => ?_) List.nodup_range
    have h1 := hsome i hi
    have h2 := hsome j hj
    rw [← heq] at h2
    have := h.inj h1 h2
    omega
  have hlen := length_le_of_valid (B := B) hn fun p hp => by
    obtain ⟨i, hi, rfl⟩ := List.mem_map.1 hp
    exact h.valid _ (h.mem (hsome i hi))
  simpa using hlen

/-- The same pages are mapped. -/
theorem Space.of_pages (h : Space B k l r T) (hsame : ∀ v, userPage k' r v = userPage k r v)
    (htree : Tree B k' l r fun q => T q ∧ ∀ v, userPage k r v ≠ some q) : Space B k' l r T :=
  ⟨by simpa only [hsame] using htree,
    fun hv hw => h.inj ((hsame _).symm.trans hv) ((hsame _).symm.trans hw),
    fun hv => h.mem ((hsame _).symm.trans hv), h.valid⟩

/-- Only the pages of `T` matter. -/
theorem Space.congr (h : Space B k l r T) (hfree : k'.freelist = k.freelist)
    (hmem : ∀ q, T q → k'.mem q = k.mem q) : Space B k' l r T := by
  obtain ⟨htree, -, hpte, -⟩ := h.tree.congr k' hfree fun q hq => hmem q hq.1
  exact h.of_pages (fun v => userPage_congr (hpte v)) htree

/-! ## One page more, one page less -/

/-- **A page taken from the free list is mapped** at a virtual page that had none. -/
theorem Space.enter (h : Space B k l r T) {e : UInt64} (hold : userPage k r v = none)
    (hfree : p ∈ l) (htree : Tree B k' l' r fun q =>
      q ≠ p ∧ T q ∧ ∀ w, userPage k r w ≠ some q)
    (hpte : ∀ w, pte k' r w = if w = v then e else pte k r w) (he : format.child e = some p)
    (hmem : ∀ q, q ≠ p → ¬ (T q ∧ ∀ w, userPage k r w ≠ some q) → k'.mem q = k.mem q) :
    Space B k' l' r T ∧
      ∀ w, image k' r w = if w = v then some (pteFlags e, k'.mem p) else image k r w := by
  have hSp := h.tree.free hfree
  have hnew : userPage k' r v = some p := by rw [userPage, hpte, if_pos rfl, he]
  have hsame : ∀ w, w ≠ v → userPage k' r w = userPage k r w := fun w hw =>
    userPage_congr (by rw [hpte, if_neg hw])
  have hcase : ∀ {w q}, userPage k' r w = some q →
      w = v ∧ q = p ∨ w ≠ v ∧ q ≠ p ∧ userPage k r w = some q := by
    intro w q hq
    by_cases hw : w = v
    · subst hw
      rw [hnew] at hq
      exact .inl ⟨rfl, (Option.some.inj hq).symm⟩
    · rw [hsame w hw] at hq
      refine .inr ⟨hw, ?_, hq⟩
      rintro rfl
      exact hSp.2 w hq
  refine ⟨⟨?_, ?_, ?_, h.valid⟩, fun w => ?_⟩
  · have hset : (fun q => q ≠ p ∧ T q ∧ ∀ w, userPage k r w ≠ some q) =
        fun q => T q ∧ ∀ w, userPage k' r w ≠ some q := by
      funext q
      refine propext ⟨?_, ?_⟩
      · rintro ⟨hqp, hT, hq⟩
        refine ⟨hT, fun w hw => ?_⟩
        rcases hcase hw with ⟨-, rfl⟩ | ⟨-, -, hw⟩
        · exact hqp rfl
        · exact hq w hw
      · rintro ⟨hT, hq⟩
        refine ⟨?_, hT, fun w hw => ?_⟩
        · rintro rfl
          exact hq v hnew
        · refine hq w ?_
          rw [hsame w, hw]
          rintro rfl
          rw [hold] at hw
          cases hw
    exact hset ▸ htree
  · intro w w' q hw hw'
    rcases hcase hw with ⟨rfl, rfl⟩ | ⟨-, hqp, hw⟩ <;> rcases hcase hw' with ⟨rfl, hq⟩ | ⟨-, hqp', hw'⟩
    · rfl
    · exact absurd rfl hqp'
    · exact absurd hq hqp
    · exact h.inj hw hw'
  · intro w q hw
    rcases hcase hw with ⟨-, rfl⟩ | ⟨-, -, hw⟩
    · exact hSp.1
    · exact h.mem hw
  · by_cases hw : w = v
    · subst hw
      rw [if_pos rfl, image, hnew, hpte, if_pos rfl]
      rfl
    · rw [if_neg hw]
      refine image_congr (by rw [hpte, if_neg hw]) fun q hq => hmem q ?_ fun hS => hS.2 w hq
      rintro rfl
      exact hSp.2 w hq

/-- **Setting an entry** so that the page stays the same. -/
theorem Space.setFlags (h : Space B k l r T) {t e : UInt64} (ht : node k r 3 (v / 512) = some t)
    (he : format.child e = userPage k r v) :
    Space B (k.set ⟨t, v % 512⟩ e) l r T ∧ Keeps T r k (k.set ⟨t, v % 512⟩ e) ∧
      ∀ w, image (k.set ⟨t, v % 512⟩ e) r w =
        if w = v then (image k r v).map fun i => (pteFlags e, i.2) else image k r w := by
  obtain ⟨htree, hgrow, -, hpte⟩ := h.tree.setPte ht e
  have hsame : ∀ w, userPage (k.set ⟨t, v % 512⟩ e) r w = userPage k r w := by
    intro w
    by_cases hw : w = v
    · rw [userPage, hpte, if_pos hw, he, hw]
    · exact userPage_congr (by rw [hpte, if_neg hw])
  have hmem : ∀ w q, userPage k r w = some q → (k.set ⟨t, v % 512⟩ e).mem q = k.mem q :=
    fun w q hq => hgrow.mem q fun hS => hS.2 w hq
  refine ⟨h.of_pages hsame htree, ⟨fun q hq => hgrow.mem q fun hS => hq hS.1, hgrow.high⟩,
    fun w => ?_⟩
  by_cases hw : w = v
  · subst hw
    rw [if_pos rfl, image, image, hsame, hpte, if_pos rfl, Option.map_map]
    cases hq : userPage k r w with
    | none => rfl
    | some q =>
      rw [Option.map_some, Option.map_some, hmem w q hq]
      rfl
  · rw [if_neg hw]
    exact image_congr (by rw [hpte, if_neg hw]) (hmem w)

theorem clearpteu_flags (e : UInt64) : format.child (e &&& ~~~ PTE_U) = format.child e ∧
    pteFlags (e &&& ~~~ PTE_U) = pteFlags e &&& ~~~ PTE_U := by
  have hp : e &&& ~~~ PTE_U &&& PTE_P = e &&& PTE_P := by
    rw [UInt64.and_assoc]
    rfl
  have ha : pteAddr (e &&& ~~~ PTE_U) = pteAddr e := by
    rw [pteAddr, UInt64.and_assoc]
    rfl
  refine ⟨?_, ?_⟩
  · simp only [format, hp, ha]
  · rw [pteFlags, pteFlags, UInt64.and_assoc, UInt64.and_assoc, UInt64.and_comm (~~~ PTE_U)]

/-- `clearpteu` takes the user flag away. -/
theorem Space.clearpteu (h : Space B k l r T) {uva t : UInt64} (ha : uva.toNat / 4096 = v)
    (hva : uva.toNat < 2 ^ 47) (ht : node k r 3 (v / 512) = some t) :
    ∃ k', k.clearpteu r uva = .ok k' ∧ Space B k' l r T ∧ Keeps T r k k' ∧
      ∀ w, image k' r w =
        if w = v then (image k r v).map fun i => (i.1 &&& ~~~ PTE_U, i.2) else image k r w := by
  have hok : k.clearpteu r uva = .ok (k.set ⟨t, v % 512⟩ (pte k r v &&& ~~~ PTE_U)) := by
    rw [Kmem.clearpteu, walkpgdir_find hva, ha, ht]
    change Except.ok (k.set ⟨t, v % 512⟩ (k.get ⟨t, v % 512⟩ &&& ~~~ PTE_U)) = _
    rw [get_slot ht]
  obtain ⟨hchild, hflags⟩ := clearpteu_flags (pte k r v)
  obtain ⟨hsp, hkeep, himg⟩ := h.setFlags ht hchild
  refine ⟨_, hok, hsp, hkeep, fun w => ?_⟩
  rw [himg, hflags]
  by_cases hw : w = v
  · rw [if_pos hw, if_pos hw, image, Option.map_map, Option.map_map]
    rfl
  · rw [if_neg hw, if_neg hw]

/-- A mapped page has an entry. -/
theorem table_of_mapped (h : (userPage k r v).isSome) : ∃ t, node k r 3 (v / 512) = some t := by
  cases hn : node k r 3 (v / 512) with
  | none =>
    rw [userPage, pte_of_none hn] at h
    cases h
  | some t => exact ⟨t, rfl⟩

variable {a : UInt64}

/-- **A round of `deallocuvm`** unmaps and frees the page, if there is one. -/
theorem Space.deallocPage (h : Space B k l r T) (ha : a.toNat = 4096 * v) (hv : v < 2 ^ 35) :
    ∃ k' l', k.deallocPage B r a = .ok k' ∧ Space B k' l' r T ∧ Keeps T r k k' ∧
      l.length ≤ l'.length ∧ (∀ w, image k' r w = if w = v then none else image k r w) ∧
      ∀ w, pte k' r w = if w = v ∧ (userPage k r w).isSome then 0 else pte k r w := by
  have hav : a.toNat / 4096 = v := by omega
  rw [Kmem.deallocPage, walkpgdir_find (by omega), hav]
  have hskip : userPage k r v = none →
      (∀ w, image k r w = if w = v then none else image k r w) ∧
      ∀ w, pte k r w = if w = v ∧ (userPage k r w).isSome then 0 else pte k r w := by
    intro hnone
    refine ⟨fun w => ?_, fun w => (if_neg ?_).symm⟩
    · by_cases hw : w = v
      · rw [if_pos hw, hw, image_eq_none.2 hnone]
      · rw [if_neg hw]
    · rintro ⟨rfl, hw⟩
      rw [hnone] at hw
      cases hw
  cases hn : node k r 3 (v / 512) with
  | none =>
    refine ⟨k, l, rfl, h, .refl, le_rfl, hskip ?_⟩
    rw [userPage, pte_of_none hn]
    rfl
  | some t =>
    change ∃ k' l', (if k.get ⟨t, v % 512⟩ &&& PTE_P ≠ 0 then _ else _) = _ ∧ _
    rw [get_slot hn]
    by_cases hpres : pte k r v &&& PTE_P ≠ 0
    · have hp : userPage k r v = some (p2v (pteAddr (pte k r v))) := child_eq hpres
      generalize hpe : p2v (pteAddr (pte k r v)) = p at hp
      have hvalid := h.valid p (h.mem hp)
      have hpa : pteAddr (pte k r v) ≠ 0 := by
        rw [← v2p_p2v (pteAddr (pte k r v)), hpe]
        exact hvalid.v2p_ne_zero
      obtain ⟨k₁, hok, hmem₁, ht₁, hn₁, hp₁, hw₁⟩ := h.tree.kfree hvalid fun hS => hS.2 v hp
      have hn₁t : node k₁ r 3 (v / 512) = some t := (hn₁ 3 le_rfl _).trans hn
      obtain ⟨ht₂, hg₂, -, hp₂⟩ := ht₁.setPte hn₁t 0
      generalize hk : k₁.set ⟨t, v % 512⟩ 0 = k₂ at ht₂ hg₂ hp₂
      have hgone : userPage k₂ r v = none := by
        rw [userPage, hp₂, if_pos rfl]
        rfl
      have hsame : ∀ w, w ≠ v → pte k₂ r w = pte k r w := fun w hw => by
        rw [hp₂, if_neg hw, hp₁]
      have hcase : ∀ {w q}, userPage k₂ r w = some q → w ≠ v ∧ userPage k r w = some q := by
        intro w q hq
        have hw : w ≠ v := by
          rintro rfl
          rw [hgone] at hq
          cases hq
        exact ⟨hw, (userPage_congr (hsame w hw)).symm.trans hq⟩
      have hmem₂ : ∀ q, q ≠ p → ¬ (T q ∧ ∀ w, userPage k r w ≠ some q) → k₂.mem q = k.mem q := by
        intro q hqp hq
        rw [hg₂.mem q, hmem₁ q hqp]
        rintro (hq' | hS)
        · exact hqp hq'
        · exact hq hS
      refine ⟨k₂, p :: l, ?_, ⟨?_, ?_, ?_, h.valid⟩, ⟨fun q hq => ?_, fun i hi hi' => ?_⟩, by simp,
        fun w => ?_, fun w => ?_⟩
      · rw [if_pos hpres, if_neg hpa, hok, ← hk]
        rfl
      · have hset : (fun q => q = p ∨ T q ∧ ∀ w, userPage k r w ≠ some q) =
            fun q => T q ∧ ∀ w, userPage k₂ r w ≠ some q := by
          funext q
          refine propext ⟨?_, ?_⟩
          · rintro (rfl | ⟨hT, hq⟩)
            · refine ⟨h.mem hp, fun w hw => ?_⟩
              obtain ⟨hwv, hw⟩ := hcase hw
              exact hwv (h.inj hw hp)
            · exact ⟨hT, fun w hw => hq w (hcase hw).2⟩
          · rintro ⟨hT, hq⟩
            by_cases hqp : q = p
            · exact .inl hqp
            · refine .inr ⟨hT, fun w hw => ?_⟩
              have hwv : w ≠ v := by
                rintro rfl
                exact hqp (Option.some.inj (hw.symm.trans hp))
              exact hq w ((userPage_congr (hsame w hwv)).trans hw)
        exact hset ▸ ht₂
      · intro w w' q hw hw'
        exact h.inj (hcase hw).2 (hcase hw').2
      · intro w q hw
        exact h.mem (hcase hw).2
      · refine hmem₂ q ?_ fun hS => hq hS.1
        rintro rfl
        exact hq (h.mem hp)
      · rw [hg₂.high i hi hi', hw₁]
      · by_cases hw : w = v
        · rw [if_pos hw, hw, image_eq_none.2 hgone]
        · rw [if_neg hw]
          refine image_congr (hsame w hw) fun q hq => hmem₂ q ?_ fun hS => hS.2 w hq
          rintro rfl
          exact hw (h.inj hq hp)
      · by_cases hw : w = v
        · subst hw
          rw [if_pos ⟨rfl, by rw [hp]; rfl⟩, hp₂, if_pos rfl]
        · rw [if_neg fun hc => hw hc.1, hsame w hw]
    · rw [if_neg hpres]
      exact ⟨k, l, rfl, h, .refl, le_rfl, hskip (userPage_eq_none.2 (not_not.1 hpres))⟩

/-! ## Ranges of pages -/

theorem toNat_next (ha : a.toNat = 4096 * v) (hv : v < 2 ^ 51) :
    (a + PGSIZE).toNat = 4096 * (v + 1) := by
  rw [UInt64.toNat_add, ha, show PGSIZE.toNat = 4096 from rfl]
  omega

theorem Space.deallocLoop : ∀ (n : ℕ) {k : Kmem} {l : List UInt64} {a : UInt64} {v : ℕ},
    Space B k l r T → a.toNat = 4096 * v → v + n ≤ 2 ^ 35 →
    ∃ k' l', k.deallocLoop B r n a = .ok k' ∧ Space B k' l' r T ∧ Keeps T r k k' ∧
      l.length ≤ l'.length ∧
      (∀ w, image k' r w = if v ≤ w ∧ w < v + n then none else image k r w) ∧
      ∀ w, pte k' r w = if (v ≤ w ∧ w < v + n) ∧ (userPage k r w).isSome then 0 else pte k r w
  | 0, k, l, a, v, h, _, _ => by
    refine ⟨k, l, rfl, h, .refl, le_rfl, fun w => ?_, fun w => ?_⟩
    · rw [if_neg (by omega)]
    · rw [if_neg (by omega)]
  | n + 1, k, l, a, v, h, ha, hv => by
    obtain ⟨k₁, l₁, hok₁, hs₁, hk₁, hl₁, hi₁, hp₁⟩ := h.deallocPage ha (by omega)
    obtain ⟨k₂, l₂, hok₂, hs₂, hk₂, hl₂, hi₂, hp₂⟩ :=
      hs₁.deallocLoop n (toNat_next ha (by omega)) (by omega)
    refine ⟨k₂, l₂, ?_, hs₂, hk₁.trans hk₂, hl₁.trans hl₂, fun w => ?_, fun w => ?_⟩
    · rw [Kmem.deallocLoop, hok₁]
      exact hok₂
    · rw [hi₂, hi₁]
      split_ifs <;> first | rfl | omega
    · rw [hp₂]
      by_cases hw : w = v
      · rw [if_neg (by omega), hp₁]
        simp only [hw, le_refl, true_and, show v < v + (n + 1) by omega]
      · have hp : pte k₁ r w = pte k r w := by rw [hp₁, if_neg fun hc => hw hc.1]
        rw [hp, userPage_congr hp]
        simp only [show (v + 1 ≤ w ∧ w < v + 1 + n) ↔ (v ≤ w ∧ w < v + (n + 1)) by omega]

theorem rounds_eq {a b : UInt64} (hle : a.toNat ≤ b.toNat) (h : b.toNat + 4095 < 2 ^ 64) :
    (pgroundup a).toNat = 4096 * npages a ∧ rounds (pgroundup a) b = npages b - npages a := by
  have hup := toNat_pgroundup (a := a) (by omega)
  refine ⟨by rw [hup, npages, Nat.mul_comm], ?_⟩
  rw [rounds, hup, npages, npages]
  omega

/-- **`deallocuvm`** unmaps the pages between the two sizes. -/
theorem Space.deallocuvm (h : Space B k l r T) (oldsz newsz : UInt64) (hlt : newsz < oldsz)
    (hold : oldsz.toNat ≤ 2 ^ 47) :
    ∃ k' l', k.deallocuvm B r oldsz newsz = .ok (newsz, k') ∧ Space B k' l' r T ∧
      Keeps T r k k' ∧ l.length ≤ l'.length ∧
      (∀ w, image k' r w = if npages newsz ≤ w ∧ w < npages oldsz then none else image k r w) ∧
      ∀ w, pte k' r w = if (npages newsz ≤ w ∧ w < npages oldsz) ∧ (userPage k r w).isSome then 0
        else pte k r w := by
  have hltn := UInt64.lt_iff_toNat_lt.1 hlt
  obtain ⟨hup, hrounds⟩ := rounds_eq hltn.le (b := oldsz) (by omega)
  have hle : npages newsz ≤ npages oldsz := Nat.div_le_div_right (by omega)
  have hmax : npages oldsz ≤ 2 ^ 35 := by
    rw [npages]
    omega
  obtain ⟨k', l', hok, hs, hk, hl, hi, hp⟩ :=
    h.deallocLoop (npages oldsz - npages newsz) hup (by omega)
  rw [Nat.add_sub_cancel' hle] at hi hp
  refine ⟨k', l', ?_, hs, hk, hl, hi, hp⟩
  · rw [Kmem.deallocuvm, if_neg (UInt64.not_le.2 hlt)]
    change (k.deallocLoop B r (rounds (pgroundup newsz) oldsz) (pgroundup newsz) >>= _) = _
    rw [hrounds, hok]
    rfl

/-- There is room for `n` pages from `v` on: they are user pages, or `v` ends a run of mapped pages
and there are not enough pages to get that far. -/
def Room (k : Kmem) (r : UInt64) (v n : ℕ) : Prop :=
  v + n ≤ 2 ^ 35 ∨
    ∃ v₀, v₀ + 57344 < 2 ^ 35 ∧ v₀ ≤ v ∧ ∀ w, v₀ ≤ w → w < v → (userPage k r w).isSome

/-- **A page from `kalloc`**, filled with `pg`, is entered by `mappages`, which panics if there is
one at `v` already. -/
theorem Space.mapNew (h : Space B k l r T) (perm : Int32) (ha : a.toNat = 4096 * v)
    (hv : v < 2 ^ 35) (hperm : perm.toInt64.toUInt64.toNat < 4096) :
    (l = [] ∧ k.kalloc = .error .outOfMemory) ∨
    ∃ mem l₁ k₁, l = mem :: l₁ ∧ k.kalloc = .ok (mem, k₁) ∧ mem ≠ 0 ∧ k₁.mem = k.mem ∧
      ∀ pg, Spends .outOfMemory (fun e => e = .remap ∧ (userPage k r v).isSome) 3 l₁.length
        ((k₁.setPage mem pg).mappages r a PGSIZE (v2p mem) perm) fun (res, k') n =>
          ∃ l', l'.length = n ∧ res = 0 ∧ Space B k' l' r T ∧ Keeps T r k k' ∧
            userPage k r v = none ∧ (∀ w, w ≠ v → pte k' r w = pte k r w) ∧ ∀ w, image k' r w =
              if w = v then some (perm.toInt64.toUInt64 ||| PTE_P, pg) else image k r w := by
  rcases h.tree.kalloc with hnil | ⟨mem, l₁, k₁, rfl, hok, hmem, hS, ht₁⟩
  · exact .inl hnil
  have hvalid : Valid B mem := h.valid mem hS.1
  refine .inr ⟨mem, l₁, k₁, rfl, hok, hvalid.ne_zero, hmem, fun pg => ?_⟩
  -- filling the page touches nothing of the tree
  obtain ⟨ht₂, -, hp₂, hw₂⟩ := ht₁.congr (k₁.setPage mem pg) rfl fun q hq =>
    mem_setPage_of_ne _ _ hq.1
  have hp₁ : ∀ w, pte k₁ r w = pte k r w := fun w => by
    rw [pte, pte, show k₁.word = k.word from funext fun q => funext fun i =>
      word_congr (congrFun hmem q) i]
  have hmap := ht₂.mapOne (v2p mem) perm ha hv
  rw [hp₂, hp₁] at hmap
  refine hmap.mono le_rfl ?_ ?_
  · rintro e ⟨rfl, hpres⟩
    refine ⟨rfl, ?_⟩
    rw [userPage, child_eq hpres]
    rfl
  rintro ⟨res, k'⟩ n' ⟨l', rfl, rfl, ht₃, hg₃, hfree, hp₃⟩
  have hold : userPage k r v = none := userPage_eq_none.2 hfree
  have hflags : (perm.toInt64.toUInt64 ||| PTE_P).toNat < 4096 := by
    rw [UInt64.toNat_or]
    exact Nat.or_lt_two_pow (n := 12) hperm (by decide)
  have hpbit : (perm.toInt64.toUInt64 ||| PTE_P) &&& PTE_P = PTE_P := by
    rw [← UInt64.toNat_inj, UInt64.toNat_and, UInt64.toNat_or]
    change (_ ||| 1) &&& 1 = 1
    rw [Nat.and_one_is_mod]
    simp
  have hpte : ∀ w, pte k' r w =
      if w = v then v2p mem ||| (perm.toInt64.toUInt64 ||| PTE_P) else pte k r w := fun w => by
    rw [hp₃, hp₂, hp₁, UInt64.or_assoc]
  have hmem₃ : ∀ q, q ≠ mem → ¬ (T q ∧ ∀ w, userPage k r w ≠ some q) → k'.mem q = k.mem q := by
    intro q hq hn
    rw [hg₃.mem q fun hS => hn hS.2, mem_setPage_of_ne _ _ hq, hmem]
  have hfill : k'.mem mem = pg := by
    rw [hg₃.mem mem fun hS => hS.1 rfl, mem_setPage]
  obtain ⟨hs, himg⟩ := h.enter hold (p := mem) (by simp) ht₃ hpte
    (child_flags hvalid hpbit hflags) hmem₃
  refine ⟨l', rfl, rfl, hs, ⟨fun q hq => ?_, fun i hi hi' => ?_⟩, hold, fun w hw => ?_, fun w => ?_⟩
  · refine hmem₃ q ?_ fun hS => hq hS.1
    rintro rfl
    exact hq hS.1
  · rw [hg₃.high i hi hi', hw₂, word_congr (congrFun hmem r)]
  · rw [hpte, if_neg hw]
  · rw [himg, hfill, pteFlags_or hvalid.v2p_mod hflags]

/-- **The loop of `allocuvm`** maps zeroed pages, or panics on a page that is mapped. -/
theorem Space.allocLoop (oldsz newsz : UInt64) : ∀ (n : ℕ) {k : Kmem} {l : List UInt64} {a : UInt64}
    {v : ℕ}, Space B k l r T → a.toNat = 4096 * v → Room k r v n →
    Spends .outOfMemory
      (fun e => e = .remap ∧ ∃ w, v ≤ w ∧ w < v + n ∧ (userPage k r w).isSome) (4 * n) l.length
      (k.allocLoop B r oldsz newsz n a) fun (res, k') n' =>
        ∃ l', l'.length = n' ∧ res = newsz ∧ Space B k' l' r T ∧ Keeps T r k k' ∧
          (∀ w, ¬ (v ≤ w ∧ w < v + n) → pte k' r w = pte k r w) ∧
          ∀ w, image k' r w = if v ≤ w ∧ w < v + n then some (7, fun _ => 0) else image k r w
  | 0, k, l, a, v, h, _, _ => by
    refine Spends.ok ⟨l, rfl, rfl, h, .refl, fun _ _ => rfl, fun w => ?_⟩
    rw [if_neg (by omega)]
  | n + 1, k, l, a, v, h, ha, hroom => by
    have hv : v < 2 ^ 35 := by
      rcases hroom with hn | ⟨v₀, hv₀, hle, hrun⟩
      · omega
      · have := h.run_le hrun
        omega
    rw [Kmem.allocLoop]
    rcases h.mapNew 6 ha hv (by decide) with ⟨rfl, he⟩ | ⟨mem, l₁, k₁, rfl, hok, h0, -, hmap⟩
    · rw [he]
      exact .inl ⟨rfl, by simp⟩
    rw [hok]
    change Spends _ _ _ _ (if mem = 0 then _ else _) _
    rw [if_neg h0, show 4 * (n + 1) = 1 + (3 + 4 * n) by omega, List.length_cons,
      Nat.add_comm l₁.length]
    refine (((hmap fun _ => 0).mono le_rfl ?_ fun _ _ => id).bind ?_).drawn 1
    · rintro e ⟨rfl, hw⟩
      exact ⟨rfl, v, le_rfl, by omega, hw⟩
    rintro ⟨res, k₃⟩ n₃ ⟨l₃, rfl, rfl, hs₃, hk₃, hold, hp₃, hi₃⟩
    rw [show (6 : Int32).toInt64.toUInt64 ||| PTE_P = 7 from rfl] at hi₃
    have hmapped : ∀ w, (userPage k₃ r w).isSome ↔ w = v ∨ (userPage k r w).isSome := by
      intro w
      rw [← image_isSome, hi₃, ← image_isSome]
      by_cases hw : w = v
      · simp [hw]
      · simp [hw]
    have hroom₃ : Room k₃ r (v + 1) n := by
      rcases hroom with hn | ⟨v₀, hv₀, hle, hrun⟩
      · exact .inl (by omega)
      · refine .inr ⟨v₀, hv₀, by omega, fun w h1 h2 => (hmapped w).2 ?_⟩
        by_cases hw : w = v
        · exact .inl hw
        · exact .inr (hrun w h1 (by omega))
    refine (hs₃.allocLoop oldsz newsz n (toNat_next ha (by omega)) hroom₃).mono le_rfl ?_ ?_
    · rintro e ⟨rfl, w, h1, h2, hw⟩
      rcases (hmapped w).1 hw with rfl | hw
      · omega
      · exact ⟨rfl, w, by omega, by omega, hw⟩
    · rintro ⟨res, k'⟩ n' ⟨l', rfl, rfl, hs, hk, hp, hi⟩
      refine ⟨l', rfl, rfl, hs, hk₃.trans hk, fun w hw => ?_, fun w => ?_⟩
      · rw [hp w (by omega), hp₃ w (by omega)]
      rw [hi, hi₃]
      split_ifs <;> first | rfl | omega

/-- **`allocuvm`** maps zeroed pages between the two sizes. -/
theorem Space.allocuvm (h : Space B k l r T) (oldsz newsz : UInt64) (hle : oldsz ≤ newsz)
    (hlt : newsz < KERNBASE) (hroom : Room k r (npages oldsz) (npages newsz - npages oldsz)) :
    Spends .outOfMemory
      (fun e => e = .remap ∧ ∃ w, npages oldsz ≤ w ∧ w < npages newsz ∧ (userPage k r w).isSome)
      (4 * (npages newsz - npages oldsz)) l.length (k.allocuvm B r oldsz newsz) fun (res, k') n =>
        ∃ l', l'.length = n ∧ res = newsz ∧ Space B k' l' r T ∧ Keeps T r k k' ∧
          (∀ w, ¬ (npages oldsz ≤ w ∧ w < npages newsz) → pte k' r w = pte k r w) ∧
          ∀ w, image k' r w =
            if npages oldsz ≤ w ∧ w < npages newsz then some (7, fun _ => 0) else image k r w := by
  have hltn := UInt64.lt_iff_toNat_lt.1 hlt
  have hlen := UInt64.le_iff_toNat_le.1 hle
  rw [show KERNBASE.toNat = 0xFFFF800000000000 from rfl] at hltn
  obtain ⟨hup, hrounds⟩ := rounds_eq hlen (by omega)
  have hnp : npages oldsz ≤ npages newsz := Nat.div_le_div_right (by omega)
  rw [Kmem.allocuvm, if_neg (UInt64.not_le.2 hlt), if_neg (UInt64.not_lt.2 hle)]
  change Spends _ _ _ _ (k.allocLoop B r oldsz newsz (rounds (pgroundup oldsz) newsz)
    (pgroundup oldsz)) _
  rw [hrounds]
  have hloop := h.allocLoop oldsz newsz _ hup hroom
  rwa [Nat.add_sub_cancel' hnp] at hloop

/-- **`setupkvm`** makes an address space without pages. -/
theorem Pool.newSpace (h : Pool B k l) :
    Spends .outOfMemory (fun _ => False) 1 l.length (Kmem.setupkvm B k) fun (r, k') n =>
      ∃ l', l'.length = n ∧ l = r :: l' ∧ Space B k' l' r (· ∈ l) ∧ (∀ v, userPage k' r v = none) ∧
        (∀ q, q ≠ r → k'.mem q = k.mem q) ∧
        (∀ i < 512, k'.word r i = if i = 256 then v2p B.kpdpt ||| PTE_P ||| PTE_W else 0) ∧
        (∀ v, pte k' r v = 0) ∧ ∀ d x, node k' r (d + 1) x = none := by
  refine h.setupkvm.mono le_rfl (fun _ => id) ?_
  rintro ⟨r, k'⟩ n ⟨l', hl, hcons, htree, hpte, hnode, hmem, hword⟩
  have hnone : ∀ v, userPage k' r v = none := fun v => by
    rw [userPage, hpte]
    rfl
  refine ⟨l', hl, hcons, ⟨?_, ?_, ?_, h.valid⟩, hnone, hmem, hword, hpte, hnode⟩
  · simpa only [hnone, ne_eq, reduceCtorEq, not_false_eq_true, implies_true, and_true] using htree
  · intro v w p hv
    rw [hnone] at hv
    cases hv
  · intro v p hv
    rw [hnone] at hv
    cases hv

/-! ## `growproc` -/

/-- The mapped user pages are those of `[PGSIZE, PGROUNDUP(sz))`. -/
def Spans (k : Kmem) (r sz : UInt64) : Prop :=
  ∀ v, (userPage k r v).isSome ↔ 1 ≤ v ∧ v < npages sz

theorem Spans.npages_le (hm : Spans k r p) (h : Space B k l r T) : npages p ≤ 57345 := by
  have := h.run_le (a := 1) (b := npages p) fun w h1 h2 => (hm w).2 ⟨h1, h2⟩
  omega

theorem Spans.room (hm : Spans k r p) (n : ℕ) : Room k r (npages p) n := by
  by_cases h : npages p = 0
  · refine .inr ⟨0, by omega, by omega, fun w h1 h2 => by omega⟩
  · exact .inr ⟨1, by omega, by omega, fun w h1 h2 => (hm w).2 ⟨h1, h2⟩⟩

theorem toNat_add_pos (sz : UInt64) {n : Int64} (hsz : sz.toNat ≤ 2 ^ 62) (hn : 0 < n) :
    ((sz + n.toUInt64).toNat : ℤ) = sz.toNat + n.toInt := by
  have hpos := Int64.lt_iff_toInt_lt.1 hn
  have hlt := n.toInt_lt
  have hto : n.toInt = _ := BitVec.toInt_eq_toNat_cond n.toBitVec
  have hnat : n.toUInt64.toNat = n.toBitVec.toNat := rfl
  rw [show (0 : Int64).toInt = 0 from rfl] at hpos
  rw [UInt64.toNat_add, hnat]
  split at hto <;> omega

theorem toNat_add_neg (sz : UInt64) {n : Int64} (hn : n < 0) :
    ((sz + n.toUInt64).toNat : ℤ) =
      if 0 ≤ sz.toNat + n.toInt then sz.toNat + n.toInt else sz.toNat + n.toInt + 2 ^ 64 := by
  have hneg := Int64.lt_iff_toInt_lt.1 hn
  have hle := n.le_toInt
  have hto : n.toInt = _ := BitVec.toInt_eq_toNat_cond n.toBitVec
  have hnat : n.toUInt64.toNat = n.toBitVec.toNat := rfl
  have hlt := n.toBitVec.isLt
  have hszlt := sz.toNat_lt
  rw [show (0 : Int64).toInt = 0 from rfl] at hneg
  rw [UInt64.toNat_add, hnat]
  split at hto <;> split <;> omega

/-- What is expected of `growproc`: the size changes by `n` and the mapped pages with it, or
nothing changes. -/
def GrowExact (r : UInt64) (sz : UInt64) (n : Int64) (k : Kmem) (res : Int32) (sz' : UInt64)
    (k' : Kmem) : Prop :=
  (res = 0 → (sz'.toNat : ℤ) = sz.toNat + n.toInt ∧ Spans k' r sz') ∧
  (res = -1 → sz' = sz ∧ ∀ v, pte k' r v = pte k r v)

/-- **When `growproc` is exact.**  If it does not run out of pages, of which it needs at most four
for each page of user memory, it is exact in these cases: growing from a size other than 0, and
shrinking to a positive size, or from size 0, or to 0 from at most a page.  Shrinking to exactly 0
unmaps everything and reports a failure, shrinking to less than 0 reports success and does nothing,
and growing from 0 maps page 0. -/
theorem growproc_exact_iff {sz : UInt64} (h : Space B k l r T) (hm : Spans k r sz) (n : Int64) :
    (k.growproc B r sz n = .error .outOfMemory ∧ 0 < n ∧
      (l.length : ℤ) < 4 * ((sz.toNat + n.toInt + 4095) / 4096 - npages sz)) ∨
    ∃ res sz' k', k.growproc B r sz n = .ok (res, sz', k') ∧ (res = 0 ∨ res = -1) ∧
      (GrowExact r sz n k res sz' k' ↔
        (0 < n → sz ≠ 0) ∧
        (n < 0 → 0 < sz.toNat + n.toInt ∨ sz = 0 ∨ sz.toNat + n.toInt = 0 ∧ sz ≤ PGSIZE)) := by
  have hnp := hm.npages_le h
  have hszle : sz.toNat ≤ 57345 * 4096 := by
    rw [npages] at hnp
    omega
  have hzero : sz = 0 ↔ sz.toNat = 0 := by
    rw [← UInt64.toNat_inj]
    rfl
  by_cases hpos : 0 < n
  · have hneg : ¬ n < 0 := fun hlt => Int64.lt_irrefl (Int64.lt_trans hpos hlt)
    have hadd := toNat_add_pos sz (by omega) hpos
    have hposi := Int64.lt_iff_toInt_lt.1 hpos
    have hltn := n.toInt_lt
    rw [show (0 : Int64).toInt = 0 from rfl] at hposi
    generalize hnew : sz + n.toUInt64 = newsz at hadd
    have hle : sz ≤ newsz := UInt64.le_iff_toNat_le.2 (by omega)
    have hlt : newsz < KERNBASE := by
      rw [UInt64.lt_iff_toNat_lt, show KERNBASE.toNat = 0xFFFF800000000000 from rfl]
      omega
    have hnpn : (npages newsz : ℤ) = (sz.toNat + n.toInt + 4095) / 4096 := by
      rw [npages, ← hadd]
      omega
    have halloc := h.allocuvm sz newsz hle hlt (hm.room _)
    rw [growproc, if_pos hpos, hnew]
    cases hres : k.allocuvm B r sz newsz with
    | error e =>
      rw [hres] at halloc
      rcases halloc with ⟨rfl, hlen⟩ | ⟨-, w, h1, h2, hw⟩
      · exact .inl ⟨rfl, hpos, by omega⟩
      · have := ((hm w).1 hw).2
        omega
    | ok out =>
      obtain ⟨sz', k'⟩ := out
      rw [hres] at halloc
      obtain ⟨n', -, l', -, rfl, hs, -, -, himg⟩ := halloc
      have hne : sz' ≠ 0 := by
        intro h0
        rw [h0] at hadd
        simp at hadd
        omega
      have hspans : ∀ v, (userPage k' r v).isSome ↔
          npages sz ≤ v ∧ v < npages sz' ∨ 1 ≤ v ∧ v < npages sz := by
        intro v
        rw [← hm v, ← image_isSome, ← image_isSome, himg]
        split_ifs with hv <;> simp [hv]
      have hle' : npages sz ≤ npages sz' := Nat.div_le_div_right (by omega)
      have hbig : 1 ≤ npages sz' := by
        rw [npages]
        omega
      refine .inr ⟨0, sz', k', ?_, .inl rfl, ?_⟩
      · change (if sz' = 0 then _ else _) = _
        rw [if_neg hne]
      · simp only [GrowExact, hadd, forall_const, true_and, hpos, hneg, false_implies, and_true]
        rw [and_iff_left fun hres => absurd hres (by decide), Ne, hzero]
        constructor
        · intro hsp h0
          have := (hsp 0).1 ((hspans 0).2 (.inl ⟨by simp [npages, h0], by omega⟩))
          omega
        · intro h0 v
          rw [hspans]
          have : 1 ≤ npages sz := by
            rw [npages]
            omega
          omega
  by_cases hneg : n < 0
  · have hadd := toNat_add_neg sz hneg
    have hnegi := Int64.lt_iff_toInt_lt.1 hneg
    have hlen := n.le_toInt
    rw [show (0 : Int64).toInt = 0 from rfl] at hnegi
    right
    rw [growproc, if_neg hpos, if_pos hneg]
    generalize hnew : sz + n.toUInt64 = newsz at hadd
    by_cases hlow : (0 : ℤ) ≤ sz.toNat + n.toInt
    · rw [if_pos hlow] at hadd
      have hlt : newsz < sz := UInt64.lt_iff_toNat_lt.2 (by omega)
      obtain ⟨k', l', hok, hs, -, -, himg, hpte⟩ := h.deallocuvm sz newsz hlt (by omega)
      have hspans : ∀ v, (userPage k' r v).isSome ↔ 1 ≤ v ∧ v < npages newsz := by
        intro v
        rw [← image_isSome, himg]
        have hmv := hm v
        rw [← image_isSome] at hmv
        have : npages newsz ≤ npages sz := Nat.div_le_div_right (by omega)
        split_ifs with hv
        · simp
          omega
        · rw [hmv]
          omega
      by_cases h0 : newsz = 0
      · -- the result 0 of `deallocuvm` is taken for a failure
        subst h0
        refine ⟨-1, sz, k', ?_, .inr rfl, ?_⟩
        · rw [hok]
          rfl
        have hsum : (sz.toNat : ℤ) + n.toInt = 0 := by simpa using hadd.symm
        simp only [GrowExact, hpos, hneg, forall_const, false_implies, true_and, hsum, lt_irrefl,
          false_or, UInt64.le_iff_toNat_le, show PGSIZE.toNat = 4096 from rfl]
        rw [and_iff_right fun hres => absurd hres (by decide), hzero]
        constructor
        · intro hsame
          by_contra hbig
          have h1 := (hm 1).2 ⟨le_rfl, by rw [npages]; omega⟩
          rw [← userPage_congr (hsame 1)] at h1
          have := ((hspans 1).1 h1).2
          simp [npages] at this
        · intro hsmall v
          rw [hpte, if_neg]
          rintro ⟨⟨-, hv⟩, hv'⟩
          have hv1 := ((hm v).1 hv').1
          rw [npages] at hv
          omega
      · refine ⟨0, newsz, k', ?_, .inl rfl, ?_⟩
        · rw [hok]
          change (if newsz = 0 then _ else _) = _
          rw [if_neg h0]
        have hpos' : (0 : ℤ) < sz.toNat + n.toInt := by
          have : newsz.toNat ≠ 0 := fun hz => h0 (UInt64.toNat_inj.1 hz)
          omega
        simp only [GrowExact, hadd, forall_const, true_and, hpos, hneg, false_implies, hpos',
          true_or, and_true, iff_true]
        exact ⟨hspans, fun hres => absurd hres (by decide)⟩
    · rw [if_neg hlow] at hadd
      have hge : sz ≤ newsz := UInt64.le_iff_toNat_le.2 (by omega)
      have hok : k.deallocuvm B r sz newsz = .ok (sz, k) := if_pos hge
      rw [hok]
      by_cases h0 : sz = 0
      · refine ⟨-1, sz, k, ?_, .inr rfl, ?_⟩
        · change (if sz = 0 then _ else _) = _
          rw [if_pos h0]
        · simp only [GrowExact, hpos, hneg, h0, forall_const, false_implies, true_or, or_true,
            and_true, iff_true]
          exact fun hres => absurd hres (by decide)
      · refine ⟨0, sz, k, ?_, .inl rfl, ?_⟩
        · change (if sz = 0 then _ else _) = _
          rw [if_neg h0]
        · simp only [GrowExact, hpos, hneg, h0, forall_const, false_implies, true_and, false_or]
          constructor
          · rintro ⟨⟨hsum, -⟩, -⟩
            omega
          · intro hcond
            omega
  · have hn0 : n.toInt = 0 := by
      have h1 := mt Int64.lt_iff_toInt_lt.2 hpos
      have h2 := mt Int64.lt_iff_toInt_lt.2 hneg
      rw [show (0 : Int64).toInt = 0 from rfl] at h1 h2
      omega
    refine .inr ⟨0, sz, k, ?_, .inl rfl, ?_⟩
    · rw [growproc, if_neg hpos, if_neg hneg]
    · simp only [GrowExact, hpos, hneg, hn0, false_implies, and_true, iff_true]
      exact ⟨fun _ => ⟨by simp, hm⟩, fun hres => absurd hres (by decide)⟩

/-- A process with two pages of memory, from the boot on. -/
theorem smallBoot_run : ∃ k₀ l₀ k₁ k l r T, Pool smallBoot k₀ l₀ ∧
    k₀.setupkvm smallBoot = .ok (r, k₁) ∧
    k₁.allocuvm smallBoot r 0x1000 0x3000 = .ok (0x3000, k) ∧ Space smallBoot k l r T ∧
    Spans k r 0x3000 ∧ 50000 ≤ l.length ∧
    ∀ v, image k r v = if 1 ≤ v ∧ v < 3 then some (7, fun _ => 0) else none := by
  obtain ⟨k₀, l₀, hpool, hlen⟩ := smallBoot_pool
  obtain ⟨⟨r, k₁⟩, n₁, hset, hn₁, l₁, rfl, -, hs₁, hnone, -⟩ := hpool.newSpace.run (by omega)
  have hspans : Spans k₁ r 0x1000 := by
    intro v
    rw [hnone, show npages 0x1000 = 1 from rfl]
    simp
    omega
  have hcost : 4 * (npages 0x3000 - npages 0x1000) = 8 := by decide
  obtain ⟨⟨res, k⟩, n, hok, hn, l, rfl, rfl, hs, -, -, himg⟩ :=
    ((hs₁.allocuvm 0x1000 0x3000 (by decide) (by decide)
      (hspans.room _)).mono hcost.le (by
        rintro e ⟨-, w, -, -, hw⟩
        rw [hnone] at hw
        cases hw) fun _ _ => id).run (by omega)
  have himg : ∀ v, image k r v = if 1 ≤ v ∧ v < 3 then some (7, fun _ => 0) else none := fun v => by
    rw [himg, image_eq_none.2 (hnone v)]
    rfl
  refine ⟨k₀, l₀, k₁, k, l, r, _, hpool, hset, hok, hs, fun v => ?_, by omega, himg⟩
  rw [← image_isSome, himg, show npages 0x3000 = 3 from rfl]
  split_ifs with hv <;> simp [hv]

theorem smallBoot_space : ∃ k l r T, Space smallBoot k l r T ∧ Spans k r 0x3000 ∧
    50000 ≤ l.length := by
  obtain ⟨-, -, -, k, l, r, T, -, -, -, hs, hm, hlen, -⟩ := smallBoot_run
  exact ⟨k, l, r, T, hs, hm, hlen⟩

theorem growproc_exact_iff_one : ∃ k l r T, Space smallBoot k l r T ∧ Spans k r 0x3000 ∧
    ∃ res sz' k', k.growproc smallBoot r 0x3000 0x1000 = .ok (res, sz', k') ∧
      GrowExact r 0x3000 0x1000 k res sz' k' := by
  obtain ⟨k, l, r, T, hs, hm, hlen⟩ := smallBoot_space
  refine ⟨k, l, r, T, hs, hm, ?_⟩
  rcases growproc_exact_iff hs hm 0x1000 with ⟨-, -, hlt⟩ | ⟨res, sz', k', hok, -, hiff⟩
  · rw [show ((0x3000 : UInt64).toNat + (0x1000 : Int64).toInt + 4095) / 4096 -
      (npages 0x3000 : ℤ) = 1 by decide] at hlt
    omega
  · exact ⟨res, sz', k', hok, hiff.2 (by decide)⟩

/-- Giving back all memory fails and unmaps it; giving back more succeeds and does nothing. -/
theorem growproc_not_exact : ∃ k l r T, Space smallBoot k l r T ∧ Spans k r 0x3000 ∧
    50000 ≤ l.length ∧
    (∃ k', k.growproc smallBoot r 0x3000 (-0x3000) = .ok (-1, 0x3000, k') ∧
      ¬ GrowExact r 0x3000 (-0x3000) k (-1) 0x3000 k') ∧
    k.growproc smallBoot r 0x3000 (-0x4000) = .ok (0, 0x3000, k) ∧
    ¬ GrowExact r 0x3000 (-0x4000) k 0 0x3000 k := by
  obtain ⟨k, l, r, T, hs, hm, hlen⟩ := smallBoot_space
  refine ⟨k, l, r, T, hs, hm, hlen, ?_, rfl, fun h => absurd (h.1 rfl).1 (by decide)⟩
  obtain ⟨k', l', hok, -, -, -, himg, -⟩ :=
    hs.deallocuvm 0x3000 0 (by decide) (by decide)
  refine ⟨k', ?_, fun h => ?_⟩
  · change (k.deallocuvm smallBoot r 0x3000 0 >>= _) = _
    rw [hok]
    rfl
  · have hgone : image k' r 1 = none := by rw [himg, if_pos (by decide)]
    have hsome := (hm 1).2 (by decide)
    rw [← userPage_congr ((h.2 rfl).2 1), image_eq_none.1 hgone] at hsome
    cases hsome

end Kmem

end Xv6
