/-
  `allocuvm` and `deallocuvm` of `vm.c` against each other.

  Growing maps fresh pages and may add tables; shrinking gives the pages back
  and leaves the tables.  So the free pages after a growth and the shrinking
  that undoes it are those before, without the tables that have been added.
  This needs, beyond what the two functions do to the image, that a table stays
  where it is.
-/
import Xv6.Vm.Free

namespace Xv6

open Fallible

namespace Kmem

/-- `p` is a table of `r`. -/
def Table (k : Kmem) (r p : UInt64) : Prop := ∃ d ≤ 3, ∃ x, node k r d x = some p

variable {B : Boot} {k k₁ k' : Kmem} {l : List UInt64} {r p : UInt64} {T : UInt64 → Prop} {v : ℕ}

/-- The free pages are those of the space that are neither tables nor mapped. -/
theorem Space.free_iff (h : Space B k l r T) (p : UInt64) :
    p ∈ l ↔ T p ∧ ¬ Table k r p ∧ ∀ v, userPage k r v ≠ some p := by
  constructor
  · intro hp
    refine ⟨(h.tree.free hp).1, ?_, (h.tree.free hp).2⟩
    rintro ⟨d, hd, x, hn⟩
    exact h.tree.not_free hd hn hp
  · rintro ⟨hT, htable, huser⟩
    rcases (h.mem_iff p).1 hT with hp | ⟨d, hd, x, hn⟩
    · exact hp
    · by_cases h3 : d ≤ 3
      · exact absurd ⟨d, h3, x, hn⟩ htable
      · obtain rfl : d = 4 := by omega
        exact absurd ((node_four x).symm.trans hn) (huser x)

/-! ## Tables stay -/

theorem Space.deallocPage_node (h : Space B k l r T) {a : UInt64} (ha : a.toNat = 4096 * v)
    (hv : v < 2 ^ 35) (hok : k.deallocPage B r a = .ok k') :
    ∀ d ≤ 3, ∀ x, node k' r d x = node k r d x := by
  have hav : a.toNat / 4096 = v := by omega
  rw [Kmem.deallocPage, walkpgdir_find (by omega), hav] at hok
  cases hn : node k r 3 (v / 512) with
  | none =>
    rw [hn] at hok
    cases hok
    exact fun _ _ _ => rfl
  | some t =>
    rw [hn] at hok
    change (if k.get ⟨t, v % 512⟩ &&& PTE_P ≠ 0 then _ else _) = _ at hok
    rw [get_slot hn] at hok
    by_cases hpres : pte k r v &&& PTE_P ≠ 0
    · have hp : userPage k r v = some (p2v (pteAddr (pte k r v))) := child_eq hpres
      have hvalid := h.valid _ (h.mem hp)
      have hpa : pteAddr (pte k r v) ≠ 0 := by
        rw [← v2p_p2v (pteAddr (pte k r v))]
        exact hvalid.v2p_ne_zero
      obtain ⟨k₁, hok₁, -, ht₁, hn₁, -, -⟩ := h.tree.kfree hvalid fun hS => hS.2 v hp
      obtain ⟨-, -, hn₂, -⟩ := ht₁.setPte ((hn₁ 3 le_rfl _).trans hn) 0
      rw [if_pos hpres, if_neg hpa, hok₁] at hok
      cases hok
      exact fun d hd x => (hn₂ d hd x).trans (hn₁ d hd x)
    · rw [if_neg hpres] at hok
      cases hok
      exact fun _ _ _ => rfl

/-- Shrinking leaves every table, also the empty ones. -/
theorem Space.deallocLoop_node : ∀ (n : ℕ) {k : Kmem} {l : List UInt64} {a : UInt64} {v : ℕ},
    Space B k l r T → a.toNat = 4096 * v → v + n ≤ 2 ^ 35 → k.deallocLoop B r n a = .ok k' →
    ∀ d ≤ 3, ∀ x, node k' r d x = node k r d x
  | 0, _, _, _, _, _, _, _, hok => by
    cases hok
    exact fun _ _ _ => rfl
  | n + 1, k, l, a, v, h, ha, hv, hok => by
    obtain ⟨k₁, l₁, hok₁, hs₁, -⟩ := h.deallocPage ha (by omega)
    rw [Kmem.deallocLoop, hok₁] at hok
    have hfirst := h.deallocPage_node ha (by omega) hok₁
    have hrest := hs₁.deallocLoop_node n (toNat_next ha (by omega)) (by omega) hok
    exact fun d hd x => (hrest d hd x).trans (hfirst d hd x)

theorem Space.mapNew_node (h : Space B k l r T) {a mem : UInt64} {pg : Page} {perm res : Int32}
    (ha : a.toNat = 4096 * v) (hv : v < 2 ^ 35) (hmem : k.kalloc = .ok (mem, k₁))
    (hok : (k₁.setPage mem pg).mappages r a PGSIZE (v2p mem) perm = .ok (res, k')) {d x : ℕ}
    (hd : d ≤ 3) (hn : node k r d x = some p) : node k' r d x = some p := by
  rcases h.tree.kalloc with ⟨-, he⟩ | ⟨mem', l₁, k₁', rfl, hok', hsame, -, ht₁⟩
  · rw [hmem] at he
    cases he
  cases hmem.symm.trans hok'
  obtain ⟨ht₂, hn₂, -, -⟩ := ht₁.congr (k₁.setPage mem pg) rfl fun q hq =>
    mem_setPage_of_ne _ _ hq.1
  have hmap := ht₂.mapOne (v2p mem) perm ha hv
  rw [hok] at hmap
  obtain ⟨-, -, l', -, -, -, hg, -⟩ := hmap
  have hword : k₁.word = k.word := funext fun q => funext fun i => word_congr (congrFun hsame q) i
  refine hg.node hd ((hn₂ d hd x).trans ?_)
  rwa [node, hword]

/-- Growing keeps every table. -/
theorem Space.allocLoop_node (oldsz newsz : UInt64) : ∀ (n : ℕ) {k : Kmem} {l : List UInt64}
    {a res : UInt64} {v : ℕ}, Space B k l r T → a.toNat = 4096 * v → v + n ≤ 2 ^ 35 →
    k.allocLoop B r oldsz newsz n a = .ok (res, k') →
    ∀ d ≤ 3, ∀ x p, node k r d x = some p → node k' r d x = some p
  | 0, _, _, _, _, _, _, _, _, hok => by
    cases hok
    exact fun _ _ _ _ hn => hn
  | n + 1, k, l, a, res, v, h, ha, hv, hok => by
    rw [Kmem.allocLoop] at hok
    rcases h.mapNew 6 ha (by omega) (by decide) with ⟨-, he⟩ | ⟨mem, l₁, k₁, -, hmem, h0, -, hmap⟩
    · rw [he] at hok
      cases hok
    rw [hmem] at hok
    change (if mem = 0 then _ else _) = _ at hok
    rw [if_neg h0] at hok
    obtain ⟨⟨res₂, k₂⟩, hok₂, hok⟩ := bind_ok hok
    have hpost := hmap fun _ => 0
    rw [hok₂] at hpost
    obtain ⟨-, -, l₂, -, rfl, hs₂, -⟩ := hpost
    intro d hd x p hn
    exact hs₂.allocLoop_node oldsz newsz n (toNat_next ha (by omega)) (by omega) hok d hd x p
      (h.mapNew_node ha (by omega) hmem hok₂ hd hn)

/-! ## Growing and shrinking -/

/-- The pages between two sizes. -/
def Between (oldsz newsz : UInt64) (v : ℕ) : Prop := npages oldsz ≤ v ∧ v < npages newsz

instance (oldsz newsz : UInt64) (v : ℕ) : Decidable (Between oldsz newsz v) :=
  inferInstanceAs (Decidable (_ ∧ _))

/-- A growth from `k`, with the free pages `l`, to `k'`: the pages between the sizes are mapped, to
different pages that were free, filled with zeros, and all else is kept. -/
structure Grown (k : Kmem) (l : List UInt64) (r oldsz newsz : UInt64) (k' : Kmem) : Prop where
  image : ∀ v, image k' r v = if Between oldsz newsz v then some (7, fun _ => 0) else image k r v
  kept : ∀ v, ¬ Between oldsz newsz v → pte k' r v = pte k r v
  fresh : ∀ v p, Between oldsz newsz v → userPage k' r v = some p → p ∈ l
  inj : ∀ v w p, userPage k' r v = some p → userPage k' r w = some p → v = w

/-- A shrinking from `k` to `k'`: the pages between the sizes are unmapped and they are what the
free pages get, and all else is kept. -/
structure Shrunk (k : Kmem) (l : List UInt64) (r oldsz newsz : UInt64) (k' : Kmem)
    (l' : List UInt64) : Prop where
  image : ∀ v, Kmem.image k' r v = if Between oldsz newsz v then none else Kmem.image k r v
  kept : ∀ v, ¬ Between oldsz newsz v → pte k' r v = pte k r v
  freed : ∀ p, p ∈ l' ↔ p ∈ l ∨ ∃ v, Between oldsz newsz v ∧ userPage k r v = some p

variable {oldsz newsz : UInt64}

theorem npages_le (hnew : newsz.toNat < 2 ^ 47) : npages newsz ≤ 2 ^ 35 := by
  rw [npages]
  omega

/-- **`allocuvm`** with enough free pages. -/
theorem Space.allocuvm_grown (h : Space B k l r T) (hm : Spans k r oldsz) (hle : oldsz ≤ newsz)
    (hnew : newsz.toNat < 2 ^ 47) (hfree : 4 * (npages newsz - npages oldsz) ≤ l.length) :
    ∃ k' l', k.allocuvm B r oldsz newsz = .ok (newsz, k') ∧ Space B k' l' r T ∧
      l.length ≤ l'.length + 4 * (npages newsz - npages oldsz) ∧ Grown k l r oldsz newsz k' ∧
      ∀ p, Table k r p → Table k' r p := by
  have hlen := UInt64.le_iff_toNat_le.1 hle
  have hlt : newsz < KERNBASE := by
    rw [UInt64.lt_iff_toNat_lt, show KERNBASE.toNat = 0xFFFF800000000000 from rfl]
    omega
  have hnoremap : ∀ e, (e = Crash.remap ∧
      ∃ w, npages oldsz ≤ w ∧ w < npages newsz ∧ (userPage k r w).isSome) → False := by
    rintro e ⟨-, w, h1, h2, hw⟩
    have := ((hm w).1 hw).2
    omega
  have halloc := h.allocuvm oldsz newsz hle hlt (hm.room _)
  obtain ⟨⟨res, k'⟩, n, hok, hn, l', rfl, rfl, hs, -, hpte, himg⟩ :=
    (halloc.mono le_rfl hnoremap fun _ _ => id).run hfree
  have htable : ∀ p, Table k r p → Table k' r p := by
    rintro p ⟨d, hd, x, hx⟩
    obtain ⟨hup, hrounds⟩ := rounds_eq hlen (b := res) (by omega)
    rw [Kmem.allocuvm, if_neg (UInt64.not_le.2 hlt), if_neg (UInt64.not_lt.2 hle)] at hok
    have hmax := npages_le hnew
    have hnp : npages oldsz ≤ npages res := Nat.div_le_div_right (by omega)
    exact ⟨d, hd, x, h.allocLoop_node oldsz res _ hup (by omega) hok d hd x p hx⟩
  refine ⟨k', l', hok, hs, hn, ⟨himg, hpte, fun v p hv hp => ?_, fun v w p => hs.inj⟩, htable⟩
  -- a page that is mapped now was no table, as tables stay, and not mapped elsewhere
  refine (h.free_iff p).2 ⟨hs.mem hp, fun ht => ?_, fun w hw => ?_⟩
  · obtain ⟨d, hd, x, hx⟩ := htable p ht
    exact (hs.tree.table hd hx).2 v hp
  · have hout : ¬ Between oldsz res w := by
      rintro ⟨h1, -⟩
      have hsome : (userPage k r w).isSome := by rw [hw]; rfl
      have := ((hm w).1 hsome).2
      omega
    rw [← userPage_congr (hpte w hout)] at hw
    exact hout (hs.inj hp hw ▸ hv)

/-- **`deallocuvm`**. -/
theorem Space.deallocuvm_shrunk (h : Space B k l r T) (hle : oldsz ≤ newsz)
    (hnew : newsz.toNat < 2 ^ 47) :
    ∃ k' l', k.deallocuvm B r newsz oldsz = .ok (oldsz, k') ∧ Space B k' l' r T ∧
      Shrunk k l r oldsz newsz k' l' ∧ ∀ p, Table k' r p ↔ Table k r p := by
  rcases UInt64.lt_or_eq_of_le hle with hlt | rfl
  · obtain ⟨k', l', hok, hs, -, -, himg, hpte⟩ := h.deallocuvm newsz oldsz hlt hnew.le
    have hkept : ∀ v, ¬ Between oldsz newsz v → pte k' r v = pte k r v := fun v hv => by
      rw [hpte, if_neg fun hc => hv hc.1]
    have hltn := UInt64.lt_iff_toNat_lt.1 hlt
    obtain ⟨hup, hrounds⟩ := rounds_eq hltn.le (b := newsz) (by omega)
    have hnode : ∀ d ≤ 3, ∀ x, node k' r d x = node k r d x := by
      have hmax := npages_le hnew
      have hnp : npages oldsz ≤ npages newsz := Nat.div_le_div_right (by omega)
      have hloop := hok
      rw [Kmem.deallocuvm, if_neg (UInt64.not_le.2 hlt)] at hloop
      obtain ⟨k₁, hok₁, heq⟩ := bind_ok hloop
      cases heq
      exact h.deallocLoop_node _ hup (by omega) hok₁
    have htable : ∀ p, Table k' r p ↔ Table k r p := fun p =>
      exists_congr fun d => and_congr_right fun hd => exists_congr fun x => by rw [hnode d hd x]
    refine ⟨k', l', hok, hs, ⟨himg, hkept, fun p => ?_⟩, htable⟩
    have huser : ∀ v, userPage k' r v = if Between oldsz newsz v then none else userPage k r v := by
      intro v
      by_cases hv : Between oldsz newsz v
      · rw [if_pos hv, ← image_eq_none, himg]
        exact if_pos hv
      · rw [if_neg hv, userPage_congr (hkept v hv)]
    rw [hs.free_iff, h.free_iff, htable]
    constructor
    · rintro ⟨hT, ht, hu⟩
      by_cases hv : ∃ v, Between oldsz newsz v ∧ userPage k r v = some p
      · exact .inr hv
      · refine .inl ⟨hT, ht, fun v hp => hu v ?_⟩
        rw [huser, if_neg fun hb => hv ⟨v, hb, hp⟩, hp]
    · rintro (⟨hT, ht, hu⟩ | ⟨v, hv, hp⟩)
      · refine ⟨hT, ht, fun v => ?_⟩
        rw [huser]
        split_ifs
        · exact (by rintro ⟨⟩)
        · exact hu v
      · refine ⟨h.mem hp, ?_, fun w hw => ?_⟩
        · rintro ⟨d, hd, x, hx⟩
          exact (h.tree.table hd hx).2 v hp
        · rw [huser] at hw
          split_ifs at hw with hb
          exact hb (h.inj hp hw ▸ hv)
  · have hnone : ∀ v, ¬ Between oldsz oldsz v := fun v hv => absurd hv.1 (by have := hv.2; omega)
    refine ⟨k, l, if_pos hle, h, ⟨fun v => (if_neg (hnone v)).symm, fun _ _ => rfl, fun p => ?_⟩,
      fun _ => Iff.rfl⟩
    refine ⟨.inl, ?_⟩
    rintro (hp | ⟨v, hv, -⟩)
    · exact hp
    · exact absurd hv (hnone v)

theorem Grown.spans (hg : Grown k l r oldsz newsz k') (hm : Spans k r oldsz) (hold : PGSIZE ≤ oldsz)
    (hle : oldsz ≤ newsz) : Spans k' r newsz := by
  intro v
  have hpos := UInt64.le_iff_toNat_le.1 hold
  have hlen := UInt64.le_iff_toNat_le.1 hle
  rw [show PGSIZE.toNat = 4096 from rfl] at hpos
  have h1 : 1 ≤ npages oldsz := by
    rw [npages]
    omega
  have h2 : npages oldsz ≤ npages newsz := Nat.div_le_div_right (by omega)
  rw [← image_isSome, hg.image]
  split_ifs with hv
  · exact iff_of_true rfl ⟨h1.trans hv.1, hv.2⟩
  · rw [image_isSome, hm v]
    rw [Between] at hv
    omega

end Kmem

end Xv6
