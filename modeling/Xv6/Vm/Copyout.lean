/-
  `uva2ka` and `copyout` of `vm.c`: writing to another address space.

  `uva2ka` follows the pointer that `walkpgdir` returns without a test for
  null.  So `copyout` is right as long as the pages up to the first one that
  is not accessible have page table entries, and otherwise it looks at an
  entry that does not exist.  User addresses are those below `2 ^ 47`: the
  kernel's slot of the PML4 has no user flag and leads to pages of 1 GB, which
  have no entries in page tables, and the other addresses are not canonical.
-/
import Xv6.Vm.Free

namespace Xv6

open Bytes Fallible

namespace Kmem

def uva2ka (pgdir uva : UInt64) (k : Kmem) : Except Crash UInt64 := do
  match ← walkpgdir pgdir uva false k with
  | (none, _) => .error .nullPte
  | (some pte, k) =>
    if k.get pte &&& PTE_P = 0 then .ok 0
    else if k.get pte &&& PTE_U = 0 then .ok 0
    else .ok (p2v (pteAddr (k.get pte)))

/-- The bytes of `buf` that go to the page of `va`. -/
def chunk (va : UInt64) (buf : List UInt8) : ℕ := min (4096 - (va - pgrounddown va).toNat) buf.length

/-- `memmove` of a chunk to the page at `pa0`. -/
def putChunk (pa0 va : UInt64) (buf : List UInt8) (k : Kmem) : Kmem :=
  k.setPage pa0 (setBytes (k.mem pa0) (va - pgrounddown va).toNat (buf.take (chunk va buf)))

/-- The loop of `copyout`; a round copies at least one byte. -/
def copyoutLoop (pgdir : UInt64) : ℕ → UInt64 → List UInt8 → Kmem → Except Crash (Int32 × Kmem)
  | 0, _, _, k => .ok (0, k)
  | n + 1, va, buf, k =>
    if buf = [] then .ok (0, k)
    else do
      let va0 := pgrounddown va
      let pa0 ← uva2ka pgdir va0 k
      if pa0 = 0 then .ok (-1, k)
      else
        copyoutLoop pgdir n (va0 + PGSIZE) (buf.drop (chunk va buf)) (putChunk pa0 va buf k)

def copyout (pgdir va : UInt64) (buf : List UInt8) (k : Kmem) : Except Crash (Int32 × Kmem) :=
  copyoutLoop pgdir buf.length va buf k

/-! ## What is expected -/

/-- The page of `a` is present and user-accessible. -/
def Accessible (k : Kmem) (r a : UInt64) : Prop :=
  a.toNat < 2 ^ 47 ∧ pte k r (a.toNat / 4096) &&& PTE_P ≠ 0 ∧ pte k r (a.toNat / 4096) &&& PTE_U ≠ 0

instance (k : Kmem) (r a : UInt64) : Decidable (Accessible k r a) :=
  inferInstanceAs (Decidable (_ ∧ _))

/-- There is a page table entry for `a`. -/
def HasPte (k : Kmem) (r a : UInt64) : Prop :=
  a.toNat < 2 ^ 47 ∧ (node k r 3 (a.toNat / 4096 / 512)).isSome

/-- The `j`-th page from that of `va` on, modulo `2 ^ 64`. -/
def pageAt (va : UInt64) (j : ℕ) : UInt64 := pgrounddown va + UInt64.ofNat j * PGSIZE

/-- The number of pages touched by `[va, va + len)`. -/
def touched (va : UInt64) (len : ℕ) : ℕ :=
  if len = 0 then 0 else (va.toNat % 4096 + len - 1) / 4096 + 1

/-- A byte of the user's address space, read through the page table. -/
def readByte (k : Kmem) (r a : UInt64) : Option UInt8 :=
  if a.toNat < 2 ^ 47 then (image k r (a.toNat / 4096)).map fun i => byte i.2 (a.toNat % 4096)
  else none

/-- Every page that the loop of `copyout` looks up has an entry. -/
def LooksUp (pgdir : UInt64) : ℕ → UInt64 → List UInt8 → Kmem → Prop
  | 0, _, _, _ => True
  | n + 1, va, buf, k =>
    buf = [] ∨ HasPte k pgdir (pgrounddown va) ∧
      match uva2ka pgdir (pgrounddown va) k with
      | .error _ => False
      | .ok pa0 => pa0 = 0 ∨ LooksUp pgdir n (pgrounddown va + PGSIZE) (buf.drop (chunk va buf))
          (putChunk pa0 va buf k)

/-- What is expected of `copyout`: it only looks at entries that exist, it returns 0 exactly if all
pages are accessible, and then the bytes are there and nothing else has changed. -/
structure CopyoutExact (r va : UInt64) (buf : List UInt8) (k : Kmem) : Prop where
  exist : LooksUp r buf.length va buf k
  zero_iff : (∃ k', k.copyout r va buf = .ok (0, k')) ↔
    ∀ j < touched va buf.length, Accessible k r (pageAt va j)
  bytes : ∀ k', k.copyout r va buf = .ok (0, k') →
    (∀ i < buf.length, readByte k' r (va + UInt64.ofNat i) = buf[i]?) ∧
    (∀ a, (∀ i < buf.length, a ≠ va + UInt64.ofNat i) → readByte k' r a = readByte k r a) ∧
    ∀ q, (∀ v, userPage k r v ≠ some q) → k'.mem q = k.mem q

variable {B : Boot} {k k' : Kmem} {l : List UInt64} {r p va : UInt64} {T : UInt64 → Prop} {v : ℕ}
  {buf : List UInt8}

/-! ## One page -/

/-- **Writing to a user page.** -/
theorem Space.write (h : Space B k l r T) (hp : userPage k r v = some p) (pg : Page) :
    Space B (k.setPage p pg) l r T ∧ Keeps T r k (k.setPage p pg) ∧
      (∀ d ≤ 3, ∀ x, node (k.setPage p pg) r d x = node k r d x) ∧
      (∀ w, pte (k.setPage p pg) r w = pte k r w) ∧
      ∀ w, image (k.setPage p pg) r w =
        if w = v then some (pteFlags (pte k r v), pg) else image k r w := by
  have hne : ∀ q, q ≠ p → (k.setPage p pg).mem q = k.mem q := fun q hq => mem_setPage_of_ne _ _ hq
  obtain ⟨htree, hnode, hpte, hword⟩ := h.tree.congr (k.setPage p pg) rfl fun q hq => hne q (by
    rintro rfl
    exact hq.2 v hp)
  have hsame : ∀ w, userPage (k.setPage p pg) r w = userPage k r w := fun w => userPage_congr (hpte w)
  refine ⟨h.of_pages hsame htree, ⟨fun q hq => hne q ?_, fun i _ _ => hword i⟩, hnode, hpte,
    fun w => ?_⟩
  · rintro rfl
    exact hq (h.mem hp)
  · by_cases hw : w = v
    · subst hw
      rw [if_pos rfl, image, hsame, hp, hpte, Option.map_some, mem_setPage]
    · rw [if_neg hw]
      refine image_congr (hpte w) fun q hq => hne q ?_
      rintro rfl
      exact hw (h.inj hq hp)

variable {a : UInt64}

theorem uva2ka_missing (ha : a.toNat < 2 ^ 47) (hn : ¬ HasPte k r a) :
    k.uva2ka r a = .error .nullPte := by
  have hnone : node k r 3 (a.toNat / 4096 / 512) = none :=
    Option.not_isSome_iff_eq_none.1 fun hs => hn ⟨ha, hs⟩
  rw [uva2ka, walkpgdir_find ha, hnone]
  rfl

theorem uva2ka_eq (hn : HasPte k r a) :
    k.uva2ka r a = .ok (if Accessible k r a then p2v (pteAddr (pte k r (a.toNat / 4096))) else 0) := by
  obtain ⟨ha, hs⟩ := hn
  obtain ⟨t, ht⟩ := Option.isSome_iff_exists.1 hs
  have hget := get_slot ht
  rw [uva2ka, walkpgdir_find ha, ht]
  change (if k.get ⟨t, a.toNat / 4096 % 512⟩ &&& PTE_P = 0 then _ else
    if k.get ⟨t, a.toNat / 4096 % 512⟩ &&& PTE_U = 0 then _ else
      Except.ok (p2v (pteAddr (k.get ⟨t, a.toNat / 4096 % 512⟩)))) = _
  rw [hget]
  by_cases hp : pte k r (a.toNat / 4096) &&& PTE_P = 0
  · rw [if_pos hp, if_neg fun hacc => hacc.2.1 hp]
  · rw [if_neg hp]
    by_cases hu : pte k r (a.toNat / 4096) &&& PTE_U = 0
    · rw [if_pos hu, if_neg fun hacc => hacc.2.2 hu]
    · rw [if_neg hu, if_pos ⟨ha, hp, hu⟩]

theorem Accessible.hasPte (h : Accessible k r a) : HasPte k r a := by
  refine ⟨h.1, Option.isSome_iff_ne_none.2 fun hn => h.2.1 ?_⟩
  rw [pte_of_none hn]
  rfl

theorem Accessible.userPage (h : Accessible k r a) :
    userPage k r (a.toNat / 4096) = some (p2v (pteAddr (pte k r (a.toNat / 4096)))) :=
  child_eq h.2.1

/-! ## The pages of a range -/

theorem toNat_sub_pgrounddown (va : UInt64) : (va - pgrounddown va).toNat = va.toNat % 4096 := by
  have hd := toNat_pgrounddown va
  rw [UInt64.toNat_sub_of_le _ _ (UInt64.le_iff_toNat_le.2 (by omega)), hd]
  omega

theorem pageAt_zero (va : UInt64) : pageAt va 0 = pgrounddown va := by simp [pageAt]

theorem pgrounddown_next (va : UInt64) : pgrounddown (pgrounddown va + PGSIZE) =
    pgrounddown va + PGSIZE := by
  have hd := toNat_pgrounddown va
  have hlt := va.toNat_lt
  rw [← UInt64.toNat_inj, toNat_pgrounddown, UInt64.toNat_add, hd, show PGSIZE.toNat = 4096 from rfl]
  omega

theorem pageAt_next (va : UInt64) (j : ℕ) :
    pageAt (pgrounddown va + PGSIZE) j = pageAt va (j + 1) := by
  rw [pageAt, pageAt, pgrounddown_next, add_page]

theorem length_drop_chunk (va : UInt64) (hb : buf ≠ []) :
    touched va buf.length = touched (pgrounddown va + PGSIZE) (buf.drop (chunk va buf)).length + 1 := by
  have hlen : 0 < buf.length := List.length_pos_iff.2 hb
  have hd := toNat_pgrounddown va
  have hnext : (pgrounddown va + PGSIZE).toNat % 4096 = 0 := by
    rw [UInt64.toNat_add, hd, show PGSIZE.toNat = 4096 from rfl]
    omega
  rw [List.length_drop, chunk, toNat_sub_pgrounddown, touched, touched, if_neg (by omega), hnext]
  split_ifs with h0 <;> omega

theorem chunk_pos (va : UInt64) (hb : buf ≠ []) : 0 < chunk va buf := by
  have hlen : 0 < buf.length := List.length_pos_iff.2 hb
  rw [chunk, toNat_sub_pgrounddown]
  omega

/-- A round on an accessible page. -/
theorem Space.round (h : Space B k l r T) (buf : List UInt8) (hacc : Accessible k r (pgrounddown va)) :
    ∃ pa0, k.uva2ka r (pgrounddown va) = .ok pa0 ∧ pa0 ≠ 0 ∧
      userPage k r (va.toNat / 4096) = some pa0 ∧ Space B (putChunk pa0 va buf k) l r T ∧
      Keeps T r k (putChunk pa0 va buf k) ∧
      (∀ d ≤ 3, ∀ x, node (putChunk pa0 va buf k) r d x = node k r d x) ∧
      (∀ w, pte (putChunk pa0 va buf k) r w = pte k r w) ∧
      ∀ w, image (putChunk pa0 va buf k) r w = if w = va.toNat / 4096 then
        (image k r w).map fun i => (i.1, setBytes i.2 (va.toNat % 4096) (buf.take (chunk va buf)))
        else image k r w := by
  have hd := toNat_pgrounddown va
  have hv : (pgrounddown va).toNat / 4096 = va.toNat / 4096 := by omega
  have hpage := hacc.userPage
  have hka := uva2ka_eq hacc.hasPte
  rw [if_pos hacc] at hka
  rw [hv] at hpage hka
  obtain ⟨hs, hk, hn, hp, hi⟩ := h.write hpage (setBytes (k.mem _) (va.toNat % 4096)
    (buf.take (chunk va buf)))
  refine ⟨_, hka, (h.valid _ (h.mem hpage)).ne_zero, hpage, ?_⟩
  rw [putChunk, toNat_sub_pgrounddown]
  refine ⟨hs, hk, hn, hp, fun w => ?_⟩
  rw [hi]
  by_cases hw : w = va.toNat / 4096
  · subst hw
    rw [if_pos rfl, if_pos rfl, image, hpage]
    rfl
  · rw [if_neg hw, if_neg hw]

theorem accessible_congr (h : ∀ w, pte k' r w = pte k r w) :
    Accessible k' r a ↔ Accessible k r a := by rw [Accessible, Accessible, h]

theorem hasPte_congr (h : ∀ d ≤ 3, ∀ x, node k' r d x = node k r d x) :
    HasPte k' r a ↔ HasPte k r a := by rw [HasPte, HasPte, h 3 le_rfl]

theorem copyoutLoop_succ {n : ℕ} {pa0 : UInt64} (hb : buf ≠ [])
    (hka : k.uva2ka r (pgrounddown va) = .ok pa0) :
    k.copyoutLoop r (n + 1) va buf = if pa0 = 0 then .ok (-1, k)
      else (putChunk pa0 va buf k).copyoutLoop r n (pgrounddown va + PGSIZE)
        (buf.drop (chunk va buf)) := by
  rw [copyoutLoop, if_neg hb]
  change (k.uva2ka r (pgrounddown va) >>= _) = _
  rw [hka]
  rfl

/-- The user byte at a natural address. -/
def ubyte (k : Kmem) (r : UInt64) (a : ℕ) : Option UInt8 :=
  (image k r (a / 4096)).map fun i => byte i.2 (a % 4096)

/-- The bytes after a round. -/
theorem ubyte_round {f : ℕ} {a : ℕ} (hf : f ≤ 4096 - va.toNat % 4096) (hbuf : f ≤ buf.length)
    (hmap : (image k r (va.toNat / 4096)).isSome)
    (hi : ∀ w, image k' r w = if w = va.toNat / 4096 then
      (image k r w).map fun i => (i.1, setBytes i.2 (va.toNat % 4096) (buf.take f))
      else image k r w) :
    ubyte k' r a = if va.toNat ≤ a ∧ a < va.toNat + f then buf[a - va.toNat]? else ubyte k r a := by
  rw [ubyte, ubyte, hi]
  by_cases hw : a / 4096 = va.toNat / 4096
  · obtain ⟨⟨fl, pg⟩, hpg⟩ := Option.isSome_iff_exists.1 hmap
    have hlt : a % 4096 < 4096 := Nat.mod_lt _ (by decide)
    rw [if_pos hw, hw, hpg]
    simp only [Option.map_some]
    rw [byte_setBytes _ _ _ hlt]
    by_cases hle : va.toNat % 4096 ≤ a % 4096
    · have hoff : a % 4096 - va.toNat % 4096 = a - va.toNat := by omega
      rw [if_pos hle, hoff, List.getD_eq_getElem?_getD, List.getElem?_take]
      by_cases hf' : a - va.toNat < f
      · rw [if_pos hf', if_pos (by omega), List.getElem?_eq_getElem (by omega)]
        rfl
      · rw [if_neg hf', if_neg (by omega)]
        rfl
    · rw [if_neg hle, if_neg (by omega)]
  · rw [if_neg hw, if_neg (by omega)]

/-- **All pages accessible**: the bytes are copied. -/
theorem Space.copyoutLoop_zero : ∀ (n : ℕ) (va : UInt64) {buf : List UInt8} {k : Kmem},
    Space B k l r T → buf.length ≤ n →
    (∀ j < touched va buf.length, Accessible k r (pageAt va j)) →
    ∃ k', k.copyoutLoop r n va buf = .ok (0, k') ∧ LooksUp r n va buf k ∧ Space B k' l r T ∧
      Keeps T r k k' ∧ (∀ w, pte k' r w = pte k r w) ∧
      (∀ q, (∀ v, userPage k r v ≠ some q) → k'.mem q = k.mem q) ∧
      (buf ≠ [] → va.toNat + buf.length ≤ 2 ^ 47) ∧
      ∀ a, ubyte k' r a =
        if va.toNat ≤ a ∧ a < va.toNat + buf.length then buf[a - va.toNat]? else ubyte k r a
  | 0, va, buf, k, h, hlen, _ => by
    obtain rfl : buf = [] := List.eq_nil_of_length_eq_zero (by omega)
    refine ⟨k, rfl, trivial, h, .refl, fun _ => rfl, fun _ _ => rfl, fun hb => absurd rfl hb,
      fun a => ?_⟩
    rw [if_neg (by simp)]
  | n + 1, va, buf, k, h, hlen, hacc => by
    by_cases hb : buf = []
    · subst hb
      refine ⟨k, if_pos rfl, .inl rfl, h, .refl, fun _ => rfl, fun _ _ => rfl,
        fun hb => absurd rfl hb, fun a => ?_⟩
      rw [if_neg (by simp)]
    have hcount := length_drop_chunk va hb
    have hpos := chunk_pos va hb
    have h0 := hacc 0 (by omega)
    rw [pageAt_zero] at h0
    obtain ⟨pa0, hka, hpa, hpage, hs₁, hk₁, hn₁, hp₁, hi₁⟩ := h.round buf h0
    have hu₁ : ∀ w, userPage (putChunk pa0 va buf k) r w = userPage k r w := fun w =>
      userPage_congr (hp₁ w)
    have hlen₁ : (buf.drop (chunk va buf)).length ≤ n := by
      rw [List.length_drop]
      omega
    obtain ⟨k', hok, hlook, hs, hk, hp, hm, hend, hbytes⟩ := Space.copyoutLoop_zero n
      (pgrounddown va + PGSIZE) hs₁ hlen₁ fun j hj => by
        rw [pageAt_next, accessible_congr hp₁]
        exact hacc (j + 1) (by omega)
    have hd := toNat_pgrounddown va
    have hlow := h0.1
    have hnext : (pgrounddown va + PGSIZE).toNat = va.toNat / 4096 * 4096 + 4096 := by
      rw [UInt64.toNat_add, hd, show PGSIZE.toNat = 4096 from rfl]
      omega
    have hchunk : chunk va buf = min (4096 - va.toNat % 4096) buf.length := by
      rw [chunk, toNat_sub_pgrounddown]
    rw [List.length_drop, hnext] at hend
    refine ⟨k', ?_, .inr ⟨h0.hasPte, ?_⟩, hs, hk₁.trans hk, fun w => (hp w).trans (hp₁ w), ?_, ?_, ?_⟩
    · rw [copyoutLoop_succ hb hka, if_neg hpa, hok]
    · rw [hka]
      exact .inr hlook
    · intro q hq
      rw [hm q fun v => by rw [hu₁]; exact hq v, putChunk, mem_setPage_of_ne]
      rintro rfl
      exact hq _ hpage
    · intro _
      by_cases hrest : buf.drop (chunk va buf) = []
      · have : buf.length ≤ chunk va buf := List.drop_eq_nil_iff.1 hrest
        omega
      · have := hend hrest
        have : chunk va buf < buf.length := by
          by_contra hge
          exact hrest (List.drop_eq_nil_iff.2 (by omega))
        omega
    · intro a
      have hmap : (image k r (va.toNat / 4096)).isSome := by
        rw [image_isSome, hpage]
        rfl
      rw [hbytes, ubyte_round (by omega) (by omega) hmap hi₁, hnext, List.length_drop,
        List.getElem?_drop]
      by_cases h1 : va.toNat / 4096 * 4096 + 4096 ≤ a ∧
          a < va.toNat / 4096 * 4096 + 4096 + (buf.length - chunk va buf)
      · rw [if_pos h1, if_pos (by omega), show chunk va buf +
          (a - (va.toNat / 4096 * 4096 + 4096)) = a - va.toNat by omega]
      · rw [if_neg h1]
        by_cases h2 : va.toNat ≤ a ∧ a < va.toNat + chunk va buf
        · rw [if_pos h2, if_pos (by omega)]
        · rw [if_neg h2, if_neg (by omega)]

/-- **The first page that is not accessible** ends the copy: with -1 if it has an entry, and if not
then the entry is looked at all the same. -/
theorem Space.copyoutLoop_stop : ∀ (j n : ℕ) (va : UInt64) {buf : List UInt8} {k : Kmem},
    Space B k l r T → buf.length ≤ n → j < touched va buf.length →
    (∀ i < j, Accessible k r (pageAt va i)) → ¬ Accessible k r (pageAt va j) →
    (HasPte k r (pageAt va j) → ∃ k', k.copyoutLoop r n va buf = .ok (-1, k') ∧
      LooksUp r n va buf k ∧ Space B k' l r T ∧ Keeps T r k k') ∧
    (¬ HasPte k r (pageAt va j) → ¬ LooksUp r n va buf k)
  | j, 0, va, buf, k, _, hlen, hj, _, _ => by
    obtain rfl : buf = [] := List.eq_nil_of_length_eq_zero (by omega)
    simp [touched] at hj
  | 0, n + 1, va, buf, k, h, hlen, hj, _, hacc => by
    have hb : buf ≠ [] := by
      rintro rfl
      simp [touched] at hj
    rw [pageAt_zero] at hacc ⊢
    refine ⟨fun hpte => ?_, fun hpte hlook => ?_⟩
    · have hka := uva2ka_eq hpte
      rw [if_neg hacc] at hka
      refine ⟨k, ?_, .inr ⟨hpte, ?_⟩, h, .refl⟩
      · rw [copyoutLoop_succ hb hka, if_pos rfl]
      · rw [hka]
        exact .inl rfl
    · rcases hlook with hnil | ⟨hpte', -⟩
      · exact hb hnil
      · exact hpte hpte'
  | j + 1, n + 1, va, buf, k, h, hlen, hj, hbefore, hacc => by
    have hb : buf ≠ [] := by
      rintro rfl
      simp [touched] at hj
    have hcount := length_drop_chunk va hb
    have hpos := chunk_pos va hb
    have h0 := hbefore 0 (by omega)
    rw [pageAt_zero] at h0
    obtain ⟨pa0, hka, hpa, hpage, hs₁, hk₁, hn₁, hp₁, -⟩ := h.round buf h0
    have hlen₁ : (buf.drop (chunk va buf)).length ≤ n := by
      rw [List.length_drop]
      omega
    obtain ⟨hyes, hno⟩ := Space.copyoutLoop_stop j n (pgrounddown va + PGSIZE) hs₁ hlen₁
      (by omega) (fun i hi => by
        rw [pageAt_next, accessible_congr hp₁]
        exact hbefore (i + 1) (by omega)) (by rwa [pageAt_next, accessible_congr hp₁])
    rw [pageAt_next, hasPte_congr hn₁] at hyes hno
    refine ⟨fun hpte => ?_, fun hpte hlook => ?_⟩
    · obtain ⟨k', hok, hlook, hs, hk⟩ := hyes hpte
      refine ⟨k', ?_, .inr ⟨h0.hasPte, ?_⟩, hs, hk₁.trans hk⟩
      · rw [copyoutLoop_succ hb hka, if_neg hpa, hok]
      · rw [hka]
        exact .inr hlook
    · rcases hlook with hnil | ⟨-, hlook⟩
      · exact hb hnil
      · rw [hka] at hlook
        rcases hlook with h00 | hlook
        · exact hpa h00
        · exact hno hpte hlook

/-! ## Page tables in use -/

/-- The last page of a range, counted from its first. -/
def extra (va size : UInt64) : ℕ := (va.toNat + size.toNat - 1) / 4096 - va.toNat / 4096

/-- The page tables that `setupkvm` and calls on user addresses lead to.  `H` are the pages that the
caller holds: obtained from `kalloc`, and not yet mapped.  Only such pages are passed to `mappages`,
and only flags as its permissions. -/
inductive Builds (B : Boot) (r : UInt64) : Kmem → (UInt64 → Prop) → Prop
  | setupkvm {k₀ k : Kmem} {l : List UInt64} : Pool B k₀ l → k₀.setupkvm B = .ok (r, k) →
      Builds B r k fun _ => False
  | kalloc {k k' : Kmem} {H : UInt64 → Prop} {p : UInt64} : Builds B r k H →
      k.kalloc = .ok (p, k') → Builds B r k' fun q => q = p ∨ H q
  | fill {k : Kmem} {H : UInt64 → Prop} {p : UInt64} (pg : Page) : Builds B r k H → H p →
      Builds B r (k.setPage p pg) H
  | mappages {k k' : Kmem} {H : UInt64 → Prop} {va size pa : UInt64} {perm res : Int32} :
      Builds B r k H → 1 ≤ size.toNat → va.toNat + size.toNat ≤ 2 ^ 47 →
      perm.toInt64.toUInt64.toNat < 4096 →
      (∀ j ≤ extra va size, H (p2v (pa + UInt64.ofNat j * PGSIZE))) →
      k.mappages r va size pa perm = .ok (res, k') →
      Builds B r k' fun q => H q ∧ ∀ j ≤ extra va size, q ≠ p2v (pa + UInt64.ofNat j * PGSIZE)
  | allocuvm {k k' : Kmem} {H : UInt64 → Prop} {oldsz newsz sz : UInt64} : Builds B r k H →
      newsz.toNat ≤ 2 ^ 47 → k.allocuvm B r oldsz newsz = .ok (sz, k') → Builds B r k' H
  | deallocuvm {k k' : Kmem} {H : UInt64 → Prop} {oldsz newsz sz : UInt64} : Builds B r k H →
      oldsz.toNat ≤ 2 ^ 47 → k.deallocuvm B r oldsz newsz = .ok (sz, k') → Builds B r k' H
  | clearpteu {k k' : Kmem} {H : UInt64 → Prop} {uva : UInt64} : Builds B r k H →
      uva.toNat < 2 ^ 47 → k.clearpteu r uva = .ok k' → Builds B r k' H

theorem Space.kalloc (h : Space B k l r T) (hok : k.kalloc = .ok (p, k')) :
    ∃ l', Space B k' l' r (fun q => q ≠ p ∧ T q) ∧ T p := by
  rcases h.tree.kalloc with ⟨-, he⟩ | ⟨p', l', k₁, rfl, hok', hmem, hS, htree⟩
  · rw [he] at hok
    cases hok
  rw [hok'] at hok
  cases hok
  have hsame : ∀ v, userPage k' r v = userPage k r v := fun v => userPage_congr (by
    rw [pte, pte, show k'.word = k.word from funext fun q => funext fun i =>
      word_congr (congrFun hmem q) i])
  refine ⟨l', ⟨?_, ?_, ?_, fun q hq => h.valid q hq.2⟩, hS.1⟩
  · simpa only [hsame, and_assoc] using htree
  · intro v w q hv hw
    exact h.inj ((hsame v).symm.trans hv) ((hsame w).symm.trans hw)
  · intro v q hv
    rw [hsame] at hv
    refine ⟨?_, h.mem hv⟩
    rintro rfl
    exact hS.2 v hv

theorem page_inj {pa : UInt64} {i j : ℕ} (hi : i < 2 ^ 52) (hj : j < 2 ^ 52)
    (h : p2v (pa + UInt64.ofNat i * PGSIZE) = p2v (pa + UInt64.ofNat j * PGSIZE)) : i = j := by
  have hsum := congrArg (fun x => (v2p x - pa).toNat) h
  simp only [v2p_p2v, UInt64.add_comm pa, UInt64.add_sub_cancel, UInt64.toNat_mul,
    UInt64.toNat_ofNat', show PGSIZE.toNat = 4096 from rfl] at hsum
  omega

/-- `mappages` of held pages. -/
theorem Space.mapHeld (h : Space B k l r T) {size pa : UInt64} {perm res : Int32}
    (hs : 1 ≤ size.toNat) (hr : va.toNat + size.toNat ≤ 2 ^ 47)
    (hperm : perm.toInt64.toUInt64.toNat < 4096)
    (hheld : ∀ j ≤ extra va size, Valid B (p2v (pa + UInt64.ofNat j * PGSIZE)) ∧
      ¬ T (p2v (pa + UInt64.ofNat j * PGSIZE)))
    (hok : k.mappages r va size pa perm = .ok (res, k')) :
    ∃ l', Space B k' l' r
      fun q => T q ∨ ∃ j ≤ extra va size, q = p2v (pa + UInt64.ofNat j * PGSIZE) := by
  have hspec := h.tree.mappages va size pa perm hs hr
  rw [hok] at hspec
  obtain ⟨-, -, l', -, -, htree, -, hfree, hpte⟩ := hspec
  have hext : extra va size = (va.toNat + size.toNat - 1) / 4096 - va.toNat / 4096 := rfl
  have hle : va.toNat / 4096 ≤ (va.toNat + size.toNat - 1) / 4096 := Nat.div_le_div_right (by omega)
  have hsmall : extra va size < 2 ^ 35 := by omega
  rw [← hext] at hpte
  have hflags : (perm.toInt64.toUInt64 ||| PTE_P).toNat < 4096 := by
    rw [UInt64.toNat_or]
    exact Nat.or_lt_two_pow (n := 12) hperm (by decide)
  -- the new pages
  have hnew : ∀ j ≤ extra va size,
      userPage k' r (va.toNat / 4096 + j) = some (p2v (pa + UInt64.ofNat j * PGSIZE)) := by
    intro j hj
    have halign := (hheld j hj).1.v2p_mod
    rw [v2p_p2v] at halign
    rw [userPage, hpte, mapped, if_pos (by omega), Nat.add_sub_cancel_left,
      child_eq (present_or _ _ (by decide)), UInt64.or_assoc, pteAddr_or halign hflags]
  have hold : ∀ w, ¬ (va.toNat / 4096 ≤ w ∧ w ≤ va.toNat / 4096 + extra va size) →
      userPage k' r w = userPage k r w := fun w hw => userPage_congr (by
    rw [hpte, mapped, if_neg hw])
  have hnone : ∀ w, va.toNat / 4096 ≤ w → w ≤ va.toNat / 4096 + extra va size →
      userPage k r w = none := fun w h1 h2 => userPage_eq_none.2 (hfree w h1 (by omega))
  have hcase : ∀ {w q}, userPage k' r w = some q →
      (∃ j ≤ extra va size, w = va.toNat / 4096 + j ∧ q = p2v (pa + UInt64.ofNat j * PGSIZE)) ∨
      ¬ (va.toNat / 4096 ≤ w ∧ w ≤ va.toNat / 4096 + extra va size) ∧
        userPage k r w = some q := by
    intro w q hq
    by_cases hw : va.toNat / 4096 ≤ w ∧ w ≤ va.toNat / 4096 + extra va size
    · obtain ⟨j, rfl⟩ := Nat.exists_eq_add_of_le hw.1
      rw [hnew j (by omega)] at hq
      exact .inl ⟨j, by omega, rfl, (Option.some.inj hq).symm⟩
    · exact .inr ⟨hw, (hold w hw).symm.trans hq⟩
  refine ⟨l', ⟨?_, ?_, ?_, ?_⟩⟩
  · have hset : (fun q => T q ∧ ∀ w, userPage k r w ≠ some q) = fun q =>
        (T q ∨ ∃ j ≤ extra va size, q = p2v (pa + UInt64.ofNat j * PGSIZE)) ∧
          ∀ w, userPage k' r w ≠ some q := by
      funext q
      refine propext ⟨?_, ?_⟩
      · rintro ⟨hT, hq⟩
        refine ⟨.inl hT, fun w hw => ?_⟩
        rcases hcase hw with ⟨j, hj, -, rfl⟩ | ⟨-, hw⟩
        · exact (hheld j hj).2 hT
        · exact hq w hw
      · rintro ⟨hT | ⟨j, hj, rfl⟩, hq⟩
        · refine ⟨hT, fun w hw => hq w ?_⟩
          rw [hold w, hw]
          rintro ⟨h1, h2⟩
          rw [hnone w h1 h2] at hw
          cases hw
        · exact absurd (hnew j hj) (hq _)
    exact hset ▸ htree
  · intro w w' q hw hw'
    rcases hcase hw with ⟨j, hj, rfl, rfl⟩ | ⟨-, hw⟩ <;>
      rcases hcase hw' with ⟨j', hj', rfl, hq⟩ | ⟨-, hw'⟩
    · rw [page_inj (by omega) (by omega) hq]
    · exact absurd (h.mem hw') (hheld j hj).2
    · exact absurd (h.mem hw) (hq ▸ (hheld j' hj').2)
    · exact h.inj hw hw'
  · intro w q hw
    rcases hcase hw with ⟨j, hj, -, rfl⟩ | ⟨-, hw⟩
    · exact .inr ⟨j, hj, rfl⟩
    · exact .inl (h.mem hw)
  · rintro q (hq | ⟨j, hj, rfl⟩)
    · exact h.valid q hq
    · exact (hheld j hj).1

/-- **The invariant of page tables in use.** -/
theorem Builds.space {H : UInt64 → Prop} (h : Builds B r k H) :
    ∃ l T, Space B k l r T ∧ ∀ q, H q → Valid B q ∧ ¬ T q := by
  induction h with
  | setupkvm hpool hset =>
    have hspec := hpool.newSpace
    rw [hset] at hspec
    obtain ⟨-, -, l', -, -, hs, -⟩ := hspec
    exact ⟨l', _, hs, fun _ => False.elim⟩
  | kalloc _ hok ih =>
    obtain ⟨l, T, hs, hH⟩ := ih
    obtain ⟨l', hs', hT⟩ := hs.kalloc hok
    refine ⟨l', _, hs', ?_⟩
    rintro q (rfl | hq)
    · exact ⟨hs.valid q hT, fun hc => hc.1 rfl⟩
    · exact ⟨(hH q hq).1, fun hc => (hH q hq).2 hc.2⟩
  | fill pg _ hp ih =>
    obtain ⟨l, T, hs, hH⟩ := ih
    refine ⟨l, T, hs.congr rfl fun q hq => mem_setPage_of_ne _ _ ?_, hH⟩
    rintro rfl
    exact (hH q hp).2 hq
  | mappages _ hsize hr hperm hheld hok ih =>
    obtain ⟨l, T, hs, hH⟩ := ih
    obtain ⟨l', hs'⟩ := hs.mapHeld hsize hr hperm (fun j hj => hH _ (hheld j hj)) hok
    refine ⟨l', _, hs', ?_⟩
    rintro q ⟨hq, hne⟩
    refine ⟨(hH q hq).1, ?_⟩
    rintro (hT | ⟨j, hj, rfl⟩)
    · exact (hH q hq).2 hT
    · exact hne j hj rfl
  | @allocuvm k k' H oldsz newsz sz _ hle hok ih =>
    obtain ⟨l, T, hs, hH⟩ := ih
    have hlt : newsz < KERNBASE := by
      rw [UInt64.lt_iff_toNat_lt, show KERNBASE.toNat = 0xFFFF800000000000 from rfl]
      omega
    by_cases hord : oldsz ≤ newsz
    · have hnp : npages oldsz ≤ npages newsz :=
        Nat.div_le_div_right (Nat.add_le_add_right (UInt64.le_iff_toNat_le.1 hord) _)
      have hmax : npages newsz ≤ 2 ^ 35 := by
        rw [npages]
        omega
      have hspec := hs.allocuvm oldsz newsz hord hlt (.inl (by omega))
      rw [hok] at hspec
      obtain ⟨-, -, l', -, -, hs', -⟩ := hspec
      exact ⟨l', T, hs', hH⟩
    · rw [Kmem.allocuvm, if_neg (UInt64.not_le.2 hlt), if_pos (UInt64.not_le.1 hord)] at hok
      cases hok
      exact ⟨l, T, hs, hH⟩
  | @deallocuvm k k' H oldsz newsz sz _ hle hok ih =>
    obtain ⟨l, T, hs, hH⟩ := ih
    by_cases hord : oldsz ≤ newsz
    · rw [Kmem.deallocuvm, if_pos hord] at hok
      cases hok
      exact ⟨l, T, hs, hH⟩
    · obtain ⟨k₁, l', hok', hs', -⟩ := hs.deallocuvm oldsz newsz (UInt64.not_le.1 hord) hle
      rw [hok'] at hok
      cases hok
      exact ⟨l', T, hs', hH⟩
  | @clearpteu k k' H uva _ hva hok ih =>
    obtain ⟨l, T, hs, hH⟩ := ih
    cases hn : node k r 3 (uva.toNat / 4096 / 512) with
    | none =>
      rw [Kmem.clearpteu, walkpgdir_find hva, hn] at hok
      cases hok
    | some t =>
      obtain ⟨k₁, hok', hs', -⟩ := hs.clearpteu rfl hva hn
      rw [hok'] at hok
      cases hok
      exact ⟨l, T, hs', hH⟩

theorem readByte_eq (a : UInt64) :
    readByte k r a = if a.toNat < 2 ^ 47 then ubyte k r a.toNat else none := rfl

/-- **When `copyout` is exact**: if every page of `[va, va + len)` up to the first one that is not
accessible has a page table entry. -/
theorem copyout_exact_iff {H : UInt64 → Prop} (h : Builds B r k H) (va : UInt64)
    (buf : List UInt8) :
    CopyoutExact r va buf k ↔ ∀ j < touched va buf.length,
      (∀ i < j, Accessible k r (pageAt va i)) → HasPte k r (pageAt va j) := by
  obtain ⟨l, T, hs, -⟩ := h.space
  by_cases hall : ∀ j < touched va buf.length, Accessible k r (pageAt va j)
  · refine iff_of_true ?_ fun j hj _ => (hall j hj).hasPte
    obtain ⟨k', hok, hlook, -, -, hpte, hmem, hend, hbytes⟩ := hs.copyoutLoop_zero _ va le_rfl hall
    refine ⟨hlook, iff_of_true ⟨k', hok⟩ hall, fun k'' hok' => ?_⟩
    obtain rfl : k'' = k' := by
      rw [copyout, hok] at hok'
      cases hok'
      rfl
    refine ⟨fun i hi => ?_, fun a ha => ?_, hmem⟩
    · have hle := hend (List.ne_nil_of_length_pos (by omega))
      have hadd : (va + UInt64.ofNat i).toNat = va.toNat + i := by
        rw [UInt64.toNat_add, UInt64.toNat_ofNat']
        omega
      rw [readByte_eq, if_pos (by omega), hbytes, if_pos (by omega), hadd, Nat.add_sub_cancel_left]
    · have hout : ¬ (va.toNat ≤ a.toNat ∧ a.toNat < va.toNat + buf.length) := by
        rintro ⟨h1, h2⟩
        refine ha (a.toNat - va.toNat) (by omega) (UInt64.toNat_inj.1 ?_)
        have := a.toNat_lt
        rw [UInt64.toNat_add, UInt64.toNat_ofNat']
        omega
      rw [readByte_eq, readByte_eq, hbytes, if_neg hout]
  · -- the first page that is not accessible
    push Not at hall
    classical
    obtain ⟨hj, hacc⟩ := Nat.find_spec hall
    have hbefore : ∀ i < Nat.find hall, Accessible k r (pageAt va i) := fun i hi => by
      by_contra hn
      exact Nat.find_min hall hi ⟨by omega, hn⟩
    generalize Nat.find hall = j at hj hacc hbefore
    obtain ⟨hyes, hno⟩ := hs.copyoutLoop_stop j _ va le_rfl hj hbefore hacc
    constructor
    · intro hex i hi hacc'
      rcases Nat.lt_trichotomy i j with hlt | rfl | hgt
      · exact (hbefore i hlt).hasPte
      · by_contra hn
        exact hno hn hex.exist
      · exact absurd (hacc' j hgt) hacc
    · intro hcond
      obtain ⟨k', hok, hlook, -⟩ := hyes (hcond j hj hbefore)
      have hne : ∀ k'', k.copyout r va buf ≠ .ok (0, k'') := by
        intro k'' hok'
        rw [copyout, hok] at hok'
        cases hok'
      refine ⟨hlook, iff_of_false (fun hc => hc.elim hne) fun hacc' => hacc (hacc' j hj),
        fun k'' hk'' => absurd hk'' (hne k'')⟩

/-- Four bytes across the border of two pages. -/
theorem copyout_exact_iff_border : ∃ k r, Builds smallBoot r k (fun _ => False) ∧
    CopyoutExact r 0x1FFE [1, 2, 3, 4] k := by
  obtain ⟨k₀, l₀, k₁, k, l, r, T, hpool, hset, hok, -, -, -, himg⟩ := smallBoot_run
  have hb : Builds smallBoot r k fun _ => False :=
    .allocuvm (.setupkvm hpool hset) (by decide) hok
  refine ⟨k, r, hb, (copyout_exact_iff hb 0x1FFE [1, 2, 3, 4]).2 fun j hj _ => ?_⟩
  have hj : j < 2 := hj
  have haddr : (pageAt 0x1FFE j).toNat = 4096 * (1 + j) := by
    rw [pageAt, UInt64.toNat_add, UInt64.toNat_mul, UInt64.toNat_ofNat',
      show (pgrounddown 0x1FFE).toNat = 4096 by decide, show PGSIZE.toNat = 4096 from rfl]
    omega
  have hmap : (userPage k r (1 + j)).isSome := by
    rw [← image_isSome, himg, if_pos (by omega)]
    rfl
  obtain ⟨t, ht⟩ := table_of_mapped hmap
  refine ⟨by omega, ?_⟩
  rw [show (pageAt 0x1FFE j).toNat / 4096 = 1 + j by omega, ht]
  rfl

/-- On a new page table `copyout` reads an entry through a null pointer. -/
theorem copyout_null : ∃ k r, Builds smallBoot r k (fun _ => False) ∧
    k.copyout r 0x1000 [0] = .error .nullPte ∧ ¬ CopyoutExact r 0x1000 [0] k := by
  obtain ⟨k₀, l₀, hpool, hlen⟩ := smallBoot_pool
  obtain ⟨⟨r, k⟩, n, hset, -, l, -, -, -, -, hnode, -⟩ := hpool.setupkvm.run (by omega)
  have hmiss : ¬ HasPte k r (pgrounddown 0x1000) := by
    rintro ⟨-, hs⟩
    rw [hnode 2] at hs
    cases hs
  have hka : k.uva2ka r (pgrounddown 0x1000) = .error .nullPte := uva2ka_missing (by decide) hmiss
  refine ⟨k, r, .setupkvm hpool hset, ?_, fun h => ?_⟩
  · change (k.uva2ka r (pgrounddown 0x1000) >>= _) = _
    rw [hka]
    rfl
  · rcases h.exist with hnil | ⟨hpte, -⟩
    · cases hnil
    · exact hmiss hpte

end Kmem

end Xv6
