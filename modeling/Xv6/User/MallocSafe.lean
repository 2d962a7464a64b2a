/-
  The allocator of user programs is safe.

  `malloc` moves a block from the free list to the outstanding ones: the search
  runs once through the circle, and if no block is large enough, a second time
  after `morecore` has freed new memory into it (`Heap.Ok.search`).  A program
  that allocates, frees and writes into what it was given keeps the invariant.
-/
import Xv6.User.FreeList

namespace Xv6

namespace Umalloc

open Extent Mem

/-! ## What `malloc` takes -/

namespace Heap.Ok
variable {base prevp p : ℕ} {h : Heap} {fl os : List Extent} {n : UInt32}

/-- The node found by the search is a free block. -/
theorem exists_block (hk : h.Ok base fl os) (hp : p ∈ base :: fl.map start) (hn : 0 < n.toNat)
    (hle : n.toNat ≤ (h.mem.size p).toNat) : ∃ A c B, fl = A ++ c :: B ∧ c.start = p := by
  rcases List.mem_cons.1 hp with rfl | hp
  · rw [hk.zero] at hle
    exact absurd (hn.trans_le hle) (by simp)
  · obtain ⟨c, hc, rfl⟩ := List.mem_map.1 hp
    obtain ⟨A, B, rfl⟩ := List.append_of_mem hc
    exact ⟨A, c, B, rfl, rfl⟩

/-- A block of the right size leaves the list. -/
theorem take_whole (hk : h.Ok base fl os) (hprev : prevp ∈ base :: fl.map start)
    (hp : h.mem.ptr prevp = p) (hn : 0 < n.toNat) (heq : h.mem.size p = n) :
    ∃ fl' b, p = b.start ∧ b.len = HDR * n.toNat ∧
      Heap.Ok base ⟨h.mem.setPtr prevp (h.mem.ptr p), prevp, h.core⟩ fl' (b :: os) := by
  obtain ⟨A, c, B, rfl, rfl⟩ := hk.exists_block (hp ▸ hk.links.next_mem hprev) hn (heq ▸ le_rfl)
  have hnd : (base :: (A ++ c :: B).map start).Nodup :=
    (sorted_starts hk.gaps fun c hc => hk.base_lt (List.mem_append_left _ hc)).imp Nat.ne_of_lt
  have hlinks := hk.links
  rw [List.map_append, List.map_cons] at hlinks
  have hsub : (A ++ B).Sublist (A ++ c :: B) := (List.sublist_cons_self c B).append_left A
  have hperm : (A ++ B ++ c :: os).Perm (A ++ c :: B ++ os) := by
    simpa using List.perm_middle.append_left A
  -- `prevp` is the node before the block
  have hlast : (base :: A.map start).getLast? = some prevp := by
    obtain ⟨q, hq⟩ := exists_last base (A.map start)
    have hqm : q ∈ base :: (A ++ c :: B).map start := by
      rw [List.map_append, ← List.cons_append]
      exact List.mem_append_left _ (List.mem_of_getLast? hq)
    have hqc := (hlinks.split_last hq).2.1
    rw [hq, hk.links.next_inj hnd hqm hprev (hqc.trans hp.symm)]
  refine ⟨A ++ B, c, rfl, by rw [(hk.header c (by simp)).1, heq], ?_, ?_, ?_, ?_, ?_, ?_, ?_,
    hk.once, hk.above, hk.bound⟩
  · rw [List.map_append]
    refine hlinks.unlink ?_ hlast (by simp) fun x _ hx => by simp [hx]
    rw [← List.map_append]
    exact hnd.sublist ((hsub.map start).cons_cons base)
  · rw [List.map_append, ← List.cons_append]
    exact List.mem_append_left _ (List.mem_of_getLast? hlast)
  · rw [size_setPtr, hk.zero]
  · intro b hb
    rw [size_setPtr]
    exact hk.header b (hperm.mem_iff.1 hb)
  · exact hk.gaps.sublist hsub
  · intro x
    rw [cover_perm hperm, hk.cover]
  · rw [total_perm hperm, hk.total]

/-- A larger block is cut in two, and its upper part is taken. -/
theorem take_part (hk : h.Ok base fl os) (hprev : prevp ∈ base :: fl.map start)
    (hp : h.mem.ptr prevp = p) (hn : 0 < n.toNat) (hlt : n.toNat < (h.mem.size p).toNat) :
    ∃ fl' b, plus p (h.mem.size p - n) = b.start ∧ b.len = HDR * n.toNat ∧
      Heap.Ok base ⟨(h.mem.setSize p (h.mem.size p - n)).setSize b.start n, prevp, h.core⟩
        fl' (b :: os) := by
  obtain ⟨A, c, B, rfl, rfl⟩ := hk.exists_block (hp ▸ hk.links.next_mem hprev) hn hlt.le
  have hsub : (h.mem.size c.start - n).toNat = (h.mem.size c.start).toNat - n.toNat :=
    UInt32.toNat_sub_of_le _ _ (UInt32.le_iff_toNat_le.2 hlt.le)
  obtain ⟨hclen, hcpos⟩ := hk.header c (by simp)
  -- the lower and the upper part
  let a : Extent := ⟨c.start, HDR * (h.mem.size c.start - n).toNat⟩
  let b : Extent := ⟨plus c.start (h.mem.size c.start - n), HDR * n.toNat⟩
  have hab : a.len + b.len = c.len := by
    simp only [a, b, hsub, hclen, HDR]
    omega
  have hcov : ∀ x, Extent.cover [c] x = Extent.cover [a] x + Extent.cover [b] x := fun x => by
    rw [← @cover_join a b rfl, hab]
  have hpos : 0 < a.len := by
    simp only [a, hsub, HDR]
    omega
  have hbc : c.Has b.start := ⟨Nat.le_add_right .., by
    have : b.start = c.start + a.len := rfl
    simp only [stop, ← hab]
    simp only [b, HDR] at this ⊢
    omega⟩
  have hbase : base < c.start := hk.base_lt (by simp)
  have hperm : (A ++ c :: B ++ os).Perm (c :: (A ++ B ++ os)) := by
    simp
  have hother : ∀ x ∈ A ++ B ++ os, x.start ≠ c.start ∧ x.start ≠ b.start ∧ 0 < x.len ∧
      x.len = HDR * (h.mem.size x.start).toNat := by
    intro x hx
    have hxm : x ∈ A ++ c :: B ++ os := by
      simp only [List.mem_append, List.mem_cons] at hx ⊢
      tauto
    obtain ⟨hxlen, hxpos⟩ := hk.header x hxm
    have hap : Apart c x := (List.pairwise_cons.1 (hperm.pairwise hk.apart symm)).1 x hx
    refine ⟨(hap.start_ne hcpos hxpos).symm, fun heq => hap b.start hbc ?_, hxpos, hxlen⟩
    exact heq ▸ ⟨le_rfl, Nat.lt_add_of_pos_right hxpos⟩
  have hstarts : (A ++ a :: B).map start = (A ++ c :: B).map start := by simp [a]
  refine ⟨A ++ a :: B, b, rfl, rfl, ?_, ?_, ?_, ?_, ?_, fun x => ?_, ?_, hk.once, hk.above,
    hk.bound⟩
  · rw [hstarts]
    exact hk.links.congr fun x _ => by simp
  · rw [hstarts]
    exact hprev
  · simp only [size_setSize]
    rw [if_neg (hbase.trans_le hbc.1).ne, if_neg hbase.ne, hk.zero]
  · intro x hx
    simp only [size_setSize]
    have hcases : x = a ∨ x = b ∨ x ∈ A ++ B ++ os := by
      simp only [List.mem_append, List.mem_cons] at hx ⊢
      tauto
    rcases hcases with rfl | rfl | hx
    · have hne : c.start ≠ b.start := (Nat.lt_add_of_pos_right hpos).ne
      rw [if_neg hne, if_pos rfl]
      exact ⟨rfl, hpos⟩
    · rw [if_pos rfl]
      exact ⟨rfl, Nat.mul_pos (by decide) hn⟩
    · obtain ⟨hxc, hxb, hxpos, hxlen⟩ := hother x hx
      rw [if_neg hxb, if_neg hxc]
      exact ⟨hxlen, hxpos⟩
  · have hstop : a.stop ≤ c.stop := by
      simp only [stop, ← hab]
      exact Nat.add_le_add_left (Nat.le_add_right ..) _
    obtain ⟨hA, hB, hAB⟩ := List.pairwise_append.1 hk.gaps
    obtain ⟨hcB, hB⟩ := List.pairwise_cons.1 hB
    refine List.pairwise_append.2 ⟨hA, List.pairwise_cons.2 ⟨fun x hx => ?_, hB⟩, ?_⟩
    · exact hstop.trans_lt (hcB x hx)
    · intro x hx y hy
      rcases List.mem_cons.1 hy with rfl | hy
      · exact hAB x hx c (by simp)
      · exact hAB x hx y (by simp [hy])
  · have h1 := hk.cover x
    have h2 := hcov x
    simp only [cover_append, cover_cons, cover_nil] at h1 h2 ⊢
    omega
  · have h1 := hk.total
    simp only [total_append, total_cons] at h1 ⊢
    omega

/-- **What `malloc` takes** is a block of the right size. -/
theorem take (hk : h.Ok base fl os) (hprev : prevp ∈ base :: fl.map start)
    (hp : h.mem.ptr prevp = p) (hn : 0 < n.toNat) (hle : n.toNat ≤ (h.mem.size p).toNat) :
    ∃ fl' b, (Umalloc.take h n prevp p).2 = b.start + HDR ∧ b.len = HDR * n.toNat ∧
      (Umalloc.take h n prevp p).1.Ok base fl' (b :: os) := by
  unfold Umalloc.take
  by_cases heq : h.mem.size p = n
  · obtain ⟨fl', b, rfl, hlen, hk'⟩ := hk.take_whole hprev hp hn heq
    rw [if_pos heq]
    exact ⟨fl', b, rfl, hlen, hk'⟩
  · have hlt : n.toNat < (h.mem.size p).toNat :=
      lt_of_le_of_ne hle fun h' => heq (UInt32.toNat_inj.1 h'.symm)
    obtain ⟨fl', b, hb, hlen, hk'⟩ := hk.take_part hprev hp hn hlt
    rw [if_neg heq]
    simp only [size_setSize, if_pos, hb]
    exact ⟨fl', b, rfl, hlen, hk'⟩

end Heap.Ok

/-! ## The search of `malloc` -/

section
variable {sbrk : Sbrk} {n : UInt32} {h : Heap} {prevp q : ℕ} {l : List ℕ}

/-- Blocks that are too small are passed. -/
theorem search_skip (k : ℕ) {z : ℕ} (hp : Ring.Path h.mem.ptr prevp l z)
    (hq : (prevp :: l).getLast? = some q)
    (hl : ∀ x ∈ l, (h.mem.size x).toNat < n.toNat ∧ x ≠ h.freep) :
    search sbrk n (k + l.length) h prevp (h.mem.ptr prevp) = search sbrk n k h q (h.mem.ptr q) := by
  induction l generalizing prevp with
  | nil =>
    obtain rfl : prevp = q := by simpa using hq
    rfl
  | cons p l ih =>
    rw [List.getLast?_cons_cons] at hq
    obtain ⟨hsmall, hne⟩ := hl p (by simp)
    have hle : ¬ n ≤ h.mem.size p := fun hle => by
      have := UInt32.le_iff_toNat_le.1 hle
      omega
    rw [List.length_cons, ← Nat.add_assoc, search, hp.1, if_neg hle, if_neg hne]
    exact ih hp.2 hq fun x hx => hl x (by simp [hx])

/-- If there is a block that is large enough, the search finds one. -/
theorem search_found (sbrk : Sbrk) (hr : Ring.Path h.mem.ptr h.freep l h.freep) (hl : (h.freep :: l).Nodup)
    (hx : ∃ x ∈ h.freep :: l, n.toNat ≤ (h.mem.size x).toNat) :
    ∃ prevp p, prevp ∈ h.freep :: l ∧ h.mem.ptr prevp = p ∧ n.toNat ≤ (h.mem.size p).toNat ∧
      ∀ fuel, l.length < fuel →
        search sbrk n fuel h h.freep (h.mem.ptr h.freep) = some (take h n prevp p) := by
  -- the blocks in the order of the search, up to the first that fits
  obtain ⟨as, x, bs, heq, hfit, has⟩ : ∃ as x bs, l ++ [h.freep] = as ++ x :: bs ∧
      n.toNat ≤ (h.mem.size x).toNat ∧ ∀ y ∈ as, (h.mem.size y).toNat < n.toNat := by
    obtain ⟨x, hx⟩ : ∃ x, (l ++ [h.freep]).find? (fun y => n.toNat ≤ (h.mem.size y).toNat) = some x := by
      refine Option.isSome_iff_exists.1 (List.find?_isSome.2 ?_)
      obtain ⟨x, hx, hle⟩ := hx
      exact ⟨x, by simp at hx ⊢; tauto, by simpa using hle⟩
    obtain ⟨hfit, as, bs, heq, has⟩ := List.find?_eq_some_iff_append.1 hx
    exact ⟨as, x, bs, heq, by simpa using hfit, by simpa using has⟩
  obtain ⟨hpath, hsub⟩ : Ring.Path h.mem.ptr h.freep as x ∧ as.Sublist l := by
    rcases List.eq_nil_or_concat bs with rfl | ⟨bs, y, rfl⟩
    · obtain ⟨rfl, hy⟩ := List.append_inj' heq rfl
      obtain rfl : h.freep = x := by simpa using hy
      exact ⟨hr, .refl l⟩
    · rw [List.concat_eq_append, ← List.cons_append, ← List.append_assoc] at heq
      obtain ⟨rfl, -⟩ := List.append_inj' heq rfl
      exact ⟨(Ring.path_append.1 hr).1, List.sublist_append_left ..⟩
  obtain ⟨q, hq⟩ := exists_last h.freep as
  have hqx : h.mem.ptr q = x := by
    rw [← List.append_nil as] at hpath
    exact (hpath.split_last hq).2
  refine ⟨q, x, (hsub.cons_cons _).mem (List.mem_of_getLast? hq), hqx, hfit, fun fuel hfuel => ?_⟩
  obtain ⟨k, rfl⟩ : ∃ k, fuel = k + 1 + as.length := ⟨fuel - 1 - as.length, by
    have := hsub.length_le
    omega⟩
  rw [search_skip (k + 1) hpath hq, search, hqx, if_pos (UInt32.le_iff_toNat_le.2 hfit)]
  intro y hy
  exact ⟨has y hy, fun heq => (List.nodup_cons.1 hl).1 (heq ▸ hsub.mem hy)⟩

/-- If no block is large enough, the search asks for more memory. -/
theorem search_morecore (k : ℕ) (hr : Ring.Path h.mem.ptr h.freep l h.freep)
    (hl : (h.freep :: l).Nodup) (hsmall : ∀ x ∈ h.freep :: l, (h.mem.size x).toNat < n.toNat) :
    search sbrk n (k + 1 + l.length) h h.freep (h.mem.ptr h.freep) =
      (morecore sbrk k h n).bind fun r =>
        if r.2 = 0 then some (r.1, 0) else search sbrk n k r.1 r.2 (r.1.mem.ptr r.2) := by
  obtain ⟨q, hq⟩ := exists_last h.freep l
  have hqf : h.mem.ptr q = h.freep := by
    rw [← List.append_nil l] at hr
    exact (hr.split_last hq).2
  have hle : ¬ n ≤ h.mem.size h.freep := fun hle => by
    have h1 := UInt32.le_iff_toNat_le.1 hle
    have h2 := hsmall h.freep (by simp)
    omega
  rw [search_skip (k + 1) hr hq, search, hqf, if_neg hle, if_pos rfl]
  · rfl
  · intro y hy
    exact ⟨hsmall y (by simp [hy]), fun heq => (List.nodup_cons.1 hl).1 (heq ▸ hy)⟩

end

/-! ## `malloc` -/

namespace Heap.Ok
variable {base : ℕ} {h : Heap} {fl os : List Extent} {n : UInt32} {sbrk : Sbrk}

theorem nodes_pos (hk : h.Ok base fl os) (h0 : 0 < base) {x : ℕ} (hx : x ∈ base :: fl.map start) :
    x ≠ 0 := by
  rcases List.mem_cons.1 hx with rfl | hx
  · exact h0.ne'
  · obtain ⟨c, hc, rfl⟩ := List.mem_map.1 hx
    exact (h0.trans (hk.base_lt (List.mem_append_left _ hc))).ne'

/-- The circle, seen from `freep`. -/
theorem ring (hk : h.Ok base fl os) : ∃ l, Ring.Path h.mem.ptr h.freep l h.freep ∧
    (h.freep :: l).Perm (base :: fl.map start) ∧ (h.freep :: l).Nodup ∧ l.length = fl.length := by
  obtain ⟨l, hr, hperm⟩ := hk.links.from_mem hk.freep
  have hnd : (base :: fl.map start).Nodup :=
    (sorted_starts hk.gaps fun c hc => hk.base_lt (List.mem_append_left _ hc)).imp Nat.ne_of_lt
  exact ⟨l, hr, hperm, hperm.nodup_iff.2 hnd, by simpa using hperm.length_eq⟩

/-- If a free block is large enough, `malloc` finds one. -/
theorem search_of_fit (sbrk : Sbrk) (hk : h.Ok base fl os) (hn : 0 < n.toNat)
    (hx : ∃ b ∈ fl, HDR * n.toNat ≤ b.len) :
    ∃ h' fl' b, (∀ fuel, fl.length < fuel →
        search sbrk n fuel h h.freep (h.mem.ptr h.freep) = some (h', b.start + HDR)) ∧
      b.len = HDR * n.toNat ∧ h'.Ok base fl' (b :: os) := by
  obtain ⟨l, hr, hperm, hnd, hlen⟩ := hk.ring
  obtain ⟨b, hb, hle⟩ := hx
  rw [(hk.header b (List.mem_append_left _ hb)).1] at hle
  have hx : ∃ x ∈ h.freep :: l, n.toNat ≤ (h.mem.size x).toNat :=
    ⟨b.start, hperm.mem_iff.2 (List.mem_cons_of_mem _ (List.mem_map_of_mem hb)),
      Nat.le_of_mul_le_mul_left hle (by decide)⟩
  obtain ⟨prevp, p, hprev, hp, hfit, hsearch⟩ := search_found sbrk hr hnd hx
  obtain ⟨fl', b', hres, hlen', hk'⟩ := hk.take (hperm.mem_iff.1 hprev) hp hn hfit
  refine ⟨_, fl', b', fun fuel hf => ?_, hlen', hk'⟩
  rw [hsearch fuel (by omega), ← hres]

/-- Memory from `sbrk` enters as an outstanding block. -/
theorem grow (hk : h.Ok base fl os) (hf : Fresh base sbrk) {hp : ℕ} {nu : UInt32}
    (hnu : 0 < nu.toNat) (hs : sbrk h.core (nu.toNat * HDR) = some hp) :
    Heap.Ok base ⟨h.mem.setSize hp nu, h.freep, ⟨hp, nu.toNat * HDR⟩ :: h.core⟩ fl
      (⟨hp, nu.toNat * HDR⟩ :: os) := by
  obtain ⟨-, hbase, habove, hbound⟩ := hf _ _ _ hs
  have hne : ∀ b ∈ fl ++ os, b.start ≠ hp := fun b hb => by
    obtain ⟨c, hc, hcx⟩ := hk.exists_core hb
    exact (hcx.2.trans_le (habove c hc)).ne
  have hcore : ∀ x, hp ≤ x → Extent.cover h.core x = 0 := by
    intro x hx
    refine List.countP_eq_zero.2 fun c hc hcx => ?_
    have hcx : c.Has x := by simpa using hcx
    exact absurd (hcx.2.trans_le (habove c hc)) (not_lt.2 hx)
  refine ⟨hk.links.congr fun x _ => by simp, hk.freep, ?_, ?_, hk.gaps, fun x => ?_, ?_, fun x => ?_,
    ?_, by rw [total_cons, Nat.add_comm]; exact hbound⟩
  · rw [size_setSize, if_neg (by simp only [HDR] at hbase; omega), hk.zero]
  · intro b hb
    rw [size_setSize]
    rcases List.mem_append.1 hb with hb | hb
    · rw [if_neg (hne b (by simp [hb]))]
      exact hk.header b (by simp [hb])
    · rcases List.mem_cons.1 hb with rfl | hb
      · rw [if_pos rfl]
        exact ⟨Nat.mul_comm .., Nat.mul_pos hnu (by decide)⟩
      · rw [if_neg (hne b (by simp [hb]))]
        exact hk.header b (by simp [hb])
  · have := hk.cover x
    simp only [cover_append, cover_cons] at this ⊢
    omega
  · have := hk.total
    simp only [total_append, total_cons] at this ⊢
    omega
  · rw [cover_cons]
    split_ifs with hx
    · rw [hcore x hx.1]
    · have := hk.once x
      omega
  · intro b hb
    rcases List.mem_cons.1 hb with rfl | hb
    · exact hbase
    · exact hk.above b hb

/-- **`malloc` returns**: a block of the right size, or null if `sbrk` fails. -/
theorem search (hk : h.Ok base fl os) (hf : Fresh base sbrk) (h0 : 0 < base) (hn : 0 < n.toNat) :
    ∃ r N, (∀ fuel, N ≤ fuel → Umalloc.search sbrk n fuel h h.freep (h.mem.ptr h.freep) = some r) ∧
      (r = (h, 0) ∨ ∃ fl' b, r.2 = b.start + HDR ∧ b.len = HDR * n.toNat ∧
        r.1.Ok base fl' (b :: os)) := by
  by_cases hx : ∃ b ∈ fl, HDR * n.toNat ≤ b.len
  · obtain ⟨h', fl', b, hsearch, hlen, hk'⟩ := hk.search_of_fit sbrk hn hx
    exact ⟨_, fl.length + 1, hsearch, .inr ⟨fl', b, rfl, hlen, hk'⟩⟩
  obtain ⟨l, hr, hperm, hnd, hlen⟩ := hk.ring
  have hsmall : ∀ x ∈ h.freep :: l, (h.mem.size x).toNat < n.toNat := by
    intro x hxm
    rcases List.mem_cons.1 (hperm.mem_iff.1 hxm) with rfl | hxm
    · rw [hk.zero]
      exact hn
    · obtain ⟨c, hc, rfl⟩ := List.mem_map.1 hxm
      refine not_le.1 fun hle => hx ⟨c, hc, ?_⟩
      rw [(hk.header c (List.mem_append_left _ hc)).1]
      exact Nat.mul_le_mul_left _ hle
  obtain ⟨nu, hnu⟩ : ∃ nu : UInt32, nu = if n < 4096 then 4096 else n := ⟨_, rfl⟩
  have hle : n.toNat ≤ nu.toNat := by
    rw [hnu]
    split_ifs with hlt
    · exact (UInt32.lt_iff_toNat_lt.1 hlt).le
    · exact le_rfl
  rcases hs : sbrk h.core (nu.toNat * HDR) with _ | hp
  · refine ⟨(h, 0), l.length + 1, fun fuel hfuel => ?_, .inl rfl⟩
    obtain ⟨k, rfl⟩ : ∃ k, fuel = k + 1 + l.length := ⟨fuel - 1 - l.length, by omega⟩
    simp [search_morecore k hr hnd hsmall, morecore, ← hnu, hs]
  · -- the new block is freed, and the second search finds it
    obtain ⟨h₂, fl₂, hfree, hk₂, -, b, hb, hbl⟩ := (hk.grow hf (hn.trans_le hle) hs).free
    have hfit : ∃ b ∈ fl₂, HDR * n.toNat ≤ b.len :=
      ⟨b, hb, (Nat.mul_comm HDR _ ▸ Nat.mul_le_mul_right HDR hle).trans hbl⟩
    obtain ⟨h₃, fl₃, b₃, hsearch, hlen₃, hk₃⟩ := hk₂.search_of_fit sbrk hn hfit
    refine ⟨(h₃, b₃.start + HDR), l.length + fl.length + fl₂.length + 2, fun fuel hfuel => ?_,
      .inr ⟨fl₃, b₃, rfl, hlen₃, hk₃⟩⟩
    obtain ⟨k, rfl⟩ : ∃ k, fuel = k + 1 + l.length := ⟨fuel - 1 - l.length, by omega⟩
    rw [search_morecore k hr hnd hsmall]
    simp only [morecore, ← hnu, hs, hfree k (by omega)]
    simp [hk₂.nodes_pos h0 hk₂.freep, hsearch k (by omega)]

end Heap.Ok

/-! ## Programs -/

/-- The outstanding blocks. -/
def State.blocks (s : State) : List Extent := s.live.map fun a => blockAt s.heap.mem a.1

/-- The bytes that were asked for. -/
def State.results (s : State) : List Extent := s.live.map fun a => ⟨a.1, a.2.toNat⟩

/-- The headers of the free list and of the outstanding blocks. -/
def State.headers (base : ℕ) (s : State) (fl : List Extent) : List Extent :=
  (base :: (fl ++ s.blocks).map start).map fun p => ⟨p, HDR⟩

/-- The states between the calls: before the first one, or with a heap that is sound. -/
inductive State.Ok (base : ℕ) (s : State) : Prop
  | empty : Init s → State.Ok base s
  | heap (fl : List Extent) : s.heap.Ok base fl s.blocks →
      (∀ a ∈ s.live, HDR ≤ a.1 ∧ HDR + a.2.toNat ≤ (blockAt s.heap.mem a.1).len) → State.Ok base s

namespace Heap.Ok
variable {base : ℕ} {h h' : Heap} {fl os : List Extent}

theorem perm {os' : List Extent} (hk : h.Ok base fl os) (hp : os'.Perm os) : h.Ok base fl os' where
  links := hk.links
  freep := hk.freep
  zero := hk.zero
  header b hb := hk.header b ((hp.append_left fl).mem_iff.1 hb)
  gaps := hk.gaps
  cover x := (cover_perm (hp.append_left fl)).trans (hk.cover x)
  total := (total_perm (hp.append_left fl)).trans hk.total
  once := hk.once
  above := hk.above
  bound := hk.bound

/-- An outstanding block is read off from its header. -/
theorem blockAt_eq (hk : h.Ok base fl os) {b : Extent} (hb : b ∈ os) :
    blockAt h.mem (b.start + HDR) = b := by
  ext
  · exact Nat.add_sub_cancel ..
  · rw [blockAt, Nat.add_sub_cancel, ← (hk.header b (List.mem_append_right _ hb)).1]

/-- The blocks that stay outstanding are the same in another heap. -/
theorem blocks_eq {live : List (ℕ × UInt32)} (hl : ∀ a ∈ live, HDR ≤ a.1)
    (hk : h'.Ok base fl os) (hos : ∀ a ∈ live, blockAt h.mem a.1 ∈ os) :
    (live.map fun a => blockAt h'.mem a.1) = live.map fun a => blockAt h.mem a.1 := by
  refine List.map_congr_left fun a ha => ?_
  have hb := hk.blockAt_eq (hos a ha)
  rwa [show (blockAt h.mem a.1).start + HDR = a.1 from Nat.sub_add_cancel (hl a ha)] at hb

/-- The program may write everywhere but into the headers. -/
theorem write (hk : h.Ok base fl os) {m : Mem}
    (hm : ∀ x ∈ base :: (fl ++ os).map start, m x = h.mem x) :
    Heap.Ok base { h with mem := m } fl os := by
  have hsize : ∀ x ∈ base :: (fl ++ os).map start, m.size x = h.mem.size x := fun x hx =>
    congrArg Header.size (hm x hx)
  refine ⟨hk.links.congr fun x hx => congrArg Header.ptr (hm x ?_), hk.freep, ?_, fun b hb => ?_,
    hk.gaps, hk.cover, hk.total, hk.once, hk.above, hk.bound⟩
  · simp only [List.mem_cons, List.map_append, List.mem_append] at hx ⊢
    tauto
  · exact (hsize base (by simp)).trans hk.zero
  · rw [show m.size b.start = _ from hsize _ (List.mem_cons_of_mem _ (List.mem_map_of_mem hb))]
    exact hk.header b hb

end Heap.Ok

/-! ## Results do not depend on the number of rounds -/

variable {m n : ℕ}

theorem free_mono (hmn : m ≤ n) {h h' : Heap} {ap : ℕ} (hf : free m h ap = some h') :
    free n h ap = some h' := by
  simp only [free, Option.bind_eq_bind, Option.bind_eq_some_iff] at hf ⊢
  obtain ⟨p, hp, hf⟩ := hf
  exact ⟨p, Ring.seek_mono hmn hp, hf⟩

theorem morecore_mono {sbrk : Sbrk} (hmn : m ≤ n) {h : Heap} {nu : UInt32} {r : Heap × ℕ}
    (hr : morecore sbrk m h nu = some r) : morecore sbrk n h nu = some r := by
  unfold morecore at hr ⊢
  dsimp only at hr ⊢
  split at hr
  · exact hr
  · simp only [Option.bind_eq_bind, Option.bind_eq_some_iff] at hr ⊢
    obtain ⟨h', hf, hr⟩ := hr
    exact ⟨h', free_mono hmn hf, hr⟩

theorem search_mono {sbrk : Sbrk} (hmn : m ≤ n) {nu : UInt32} {h : Heap} {prevp p : ℕ}
    {r : Heap × ℕ} (hr : search sbrk nu m h prevp p = some r) :
    search sbrk nu n h prevp p = some r := by
  induction m generalizing n h prevp p with
  | zero => cases hr
  | succ m ih =>
    obtain ⟨n, rfl⟩ : ∃ k, n = k + 1 := ⟨n - 1, by omega⟩
    rw [search] at hr ⊢
    split_ifs at hr ⊢ with h1 h2
    · exact hr
    · simp only [Option.bind_eq_bind, Option.bind_eq_some_iff] at hr ⊢
      obtain ⟨⟨h', q⟩, hm, hr⟩ := hr
      refine ⟨⟨h', q⟩, morecore_mono (by omega) hm, ?_⟩
      dsimp only at hr ⊢
      split_ifs at hr ⊢
      · exact hr
      · exact ih (by omega) hr
    · exact ih (by omega) hr

/-- A call has one result. -/
theorem eq_of_fuel {α : Type*} {f : ℕ → Option α} {m N : ℕ} {a b : α}
    (hmono : ∀ n, m ≤ n → f n = some a) (hN : ∀ n, N ≤ n → f n = some b) : a = b :=
  Option.some.inj ((hmono (max m N) (le_max_left ..)).symm.trans (hN _ (le_max_right ..)))

/-! ## The invariant is kept -/

theorem toNat_nunits (n : UInt32) : (nunits n).toNat = (n.toNat + HDR - 1) / HDR + 1 := by
  have := n.toNat_lt
  exact UInt32.toNat_ofNat_of_lt' (by simp only [HDR, UInt32.size]; omega)

theorem le_nunits (n : UInt32) : HDR + n.toNat ≤ HDR * (nunits n).toNat := by
  rw [toNat_nunits]
  simp only [HDR]
  omega

namespace State.Ok
variable {base : ℕ} {s : State} {sbrk : Sbrk}

/-- The list is set up. -/
theorem setup (hs : s.Ok base) (h0 : 0 < base) : ∃ fl, (setup base s.heap).Ok base fl s.blocks ∧
    ∀ a ∈ s.live, HDR ≤ a.1 ∧ HDR + a.2.toNat ≤ (blockAt s.heap.mem a.1).len := by
  rcases hs with ⟨hf, hc, hl⟩ | ⟨fl, hk, hl⟩
  · refine ⟨[], ?_, by simp [hl]⟩
    rw [Umalloc.setup, if_pos hf, blocks, hl]
    refine ⟨?_, ?_, ?_, ?_, .nil, ?_, ?_, ?_, ?_, ?_⟩
    all_goals simp [hc, Ring.Path]
  · refine ⟨fl, ?_, hl⟩
    rwa [Umalloc.setup, if_neg (hk.nodes_pos h0 hk.freep)]

theorem malloc (hs : s.Ok base) (hf : Fresh base sbrk) (h0 : 0 < base) (n : UInt32) :
    ∃ r N, (∀ fuel, N ≤ fuel → Umalloc.malloc base sbrk fuel s.heap n = some r) ∧
      State.Ok base ⟨r.1, if r.2 = 0 then s.live else (r.2, n) :: s.live⟩ := by
  obtain ⟨fl, hk, hl⟩ := hs.setup h0
  have hmem : ∀ a ∈ s.live, blockAt s.heap.mem a.1 ∈ s.blocks := fun a ha =>
    List.mem_map.2 ⟨a, ha, rfl⟩
  have hpos : 0 < (nunits n).toNat := by
    rw [toNat_nunits]
    exact Nat.succ_pos _
  obtain ⟨r, N, hr, rfl | ⟨fl', b, hb, hlen, hk'⟩⟩ := hk.search hf h0 hpos
  · refine ⟨_, N, hr, ?_⟩
    have heq := hk.blocks_eq (fun a ha => (hl a ha).1) hmem
    refine .heap fl ?_ fun a ha => ?_
    · rw [blocks, if_pos rfl, heq]
      exact hk
    · rw [if_pos rfl] at ha
      rw [List.map_inj_left.1 heq a ha]
      exact hl a ha
  · refine ⟨r, N, hr, ?_⟩
    have hne : r.2 ≠ 0 := by rw [hb]; simp
    have heq := hk'.blocks_eq (fun a ha => (hl a ha).1) fun a ha => List.mem_cons_of_mem b (hmem a ha)
    have hbl : blockAt r.1.mem r.2 = b := by
      rw [hb]
      exact hk'.blockAt_eq (by simp)
    rw [if_neg hne]
    refine .heap fl' ?_ fun a ha => ?_
    · rw [blocks, List.map_cons, hbl, heq]
      exact hk'
    · rcases List.mem_cons.1 ha with rfl | ha
      · rw [hbl, hlen, hb]
        exact ⟨Nat.le_add_left .., le_nunits n⟩
      · rw [List.map_inj_left.1 heq a ha]
        exact hl a ha

theorem free (hs : s.Ok base) {p : ℕ} {n : UInt32} (hp : (p, n) ∈ s.live) :
    ∃ h N, (∀ fuel, N ≤ fuel → Umalloc.free fuel s.heap p = some h) ∧
      State.Ok base ⟨h, s.live.erase (p, n)⟩ := by
  rcases hs with ⟨-, -, hl⟩ | ⟨fl, hk, hl⟩
  · rw [hl] at hp
    cases hp
  have hpp : p - HDR + HDR = p := Nat.sub_add_cancel (hl _ hp).1
  have hperm := (List.perm_cons_erase hp).map fun a => blockAt s.heap.mem a.1
  rw [List.map_cons] at hperm
  have hk₁ : s.heap.Ok base fl (⟨p - HDR, (blockAt s.heap.mem p).len⟩ ::
      (s.live.erase (p, n)).map fun a => blockAt s.heap.mem a.1) := hk.perm hperm.symm
  obtain ⟨h, fl', hfree, hk', -⟩ := hk₁.free
  rw [hpp] at hfree
  have hsub : ∀ a ∈ s.live.erase (p, n), a ∈ s.live := fun a ha => List.mem_of_mem_erase ha
  have heq := hk'.blocks_eq (fun a ha => (hl a (hsub a ha)).1) fun a ha => List.mem_map.2 ⟨a, ha, rfl⟩
  refine ⟨h, fl.length + 1, hfree, .heap fl' ?_ fun a ha => ?_⟩
  · rw [blocks, heq]
    exact hk'
  · rw [List.map_inj_left.1 heq a ha]
    exact hl a (hsub a ha)

theorem write (hs : s.Ok base) {m : Mem} (hm : ∀ x, m x ≠ s.heap.mem x →
    ∃ a ∈ s.live, a.1 - HDR < x ∧ (blockAt s.heap.mem a.1).Has x) :
    State.Ok base ⟨{ s.heap with mem := m }, s.live⟩ := by
  rcases hs with hi | ⟨fl, hk, hl⟩
  · exact .empty hi
  -- no header lies inside of an outstanding block
  have hsame : ∀ x ∈ base :: (fl ++ s.blocks).map start, m x = s.heap.mem x := by
    intro x hx
    by_contra hne
    obtain ⟨a, ha, hlt, hin⟩ := hm x hne
    have hb : blockAt s.heap.mem a.1 ∈ fl ++ s.blocks :=
      List.mem_append_right _ (List.mem_map.2 ⟨a, ha, rfl⟩)
    rcases List.mem_cons.1 hx with rfl | hx
    · exact absurd (hk.base_lt hb) (not_lt.2 hin.1)
    · obtain ⟨c, hc, rfl⟩ := List.mem_map.1 hx
      by_cases hcb : c = blockAt s.heap.mem a.1
      · exact absurd (hcb ▸ rfl : c.start = a.1 - HDR) hlt.ne'
      · exact hk.apart.forall hc hb hcb c.start
          ⟨le_rfl, Nat.lt_add_of_pos_right (hk.header c hc).2⟩ hin
  have hk' := hk.write hsame
  have heq := hk'.blocks_eq (fun a ha => (hl a ha).1) fun a ha => List.mem_map.2 ⟨a, ha, rfl⟩
  refine .heap fl ?_ fun a ha => ?_
  · rw [blocks, heq]
    exact hk'
  · rw [List.map_inj_left.1 heq a ha]
    exact hl a ha

end State.Ok

theorem Runs.ok {base : ℕ} (h0 : 0 < base) {s : State} (hs : Runs base s) : s.Ok base := by
  refine Transition.Reach.inv (fun s hs => .empty hs) (fun s x s' ih hstep => ?_) hs
  cases hstep with
  | malloc sbrk fuel n h p hf hr =>
    obtain ⟨r, N, hN, hok⟩ := ih.malloc hf h0 n
    obtain rfl : (h, p) = r := eq_of_fuel (fun _ hm => search_mono hm hr) hN
    exact hok
  | free fuel p n h hp hr =>
    obtain ⟨h', N, hN, hok⟩ := ih.free hp
    obtain rfl : h = h' := eq_of_fuel (fun _ hm => free_mono hm hr) hN
    exact hok
  | write m hm => exact ih.write hm

/-! ## The main result -/

/-- The free list `fl` and the outstanding blocks of a state are sound. -/
structure Sound (base : ℕ) (s : State) (fl : List Extent) : Prop where
  /-- the list is not set up, or circular -/
  circle : s.heap.freep = 0 ∧ fl = [] ∨
    s.heap.freep ∈ base :: fl.map start ∧ Ring.Path s.heap.mem.ptr base (fl.map start) base
  sizes : ∀ b ∈ fl, b.len = HDR * (s.heap.mem.size b.start).toNat
  /-- the addresses increase up to the wrap at `base` -/
  order : (base :: fl.map start).Pairwise (· < ·)
  /-- no two free blocks are adjacent -/
  coalesced : ∀ a ∈ fl, ∀ b ∈ fl, a.stop ≠ b.start
  /-- free and outstanding blocks do not overlap -/
  disjoint : (fl ++ s.blocks).Pairwise Apart
  /-- they make up what `sbrk` returned -/
  exact : ∀ x, (∃ b ∈ fl ++ s.blocks, b.Has x) ↔ ∃ c ∈ s.heap.core, c.Has x
  /-- the bytes asked for lie in the block -/
  fits : ∀ a ∈ s.live, (blockAt s.heap.mem a.1).start + HDR = a.1 ∧
    a.1 + a.2.toNat ≤ (blockAt s.heap.mem a.1).stop
  /-- they overlap no other ones -/
  results : s.results.Pairwise Apart
  /-- and no header -/
  headers : ∀ r ∈ s.results, ∀ b ∈ s.headers base fl, Apart r b

theorem State.Ok.sound {base : ℕ} {s : State} (hs : s.Ok base) : ∃ fl, Sound base s fl := by
  rcases hs with ⟨hf, hc, hl⟩ | ⟨fl, hk, hl⟩
  · refine ⟨[], .inl ⟨hf, rfl⟩, ?_, ?_, ?_, ?_, ?_, ?_, ?_, ?_⟩
    all_goals simp [blocks, results, hc, hl]
  · have hfits : ∀ a ∈ s.live, (blockAt s.heap.mem a.1).start + HDR = a.1 ∧
        a.1 + a.2.toNat ≤ (blockAt s.heap.mem a.1).stop := by
      intro a ha
      obtain ⟨h1, h2⟩ := hl a ha
      have h3 : (blockAt s.heap.mem a.1).start + HDR = a.1 := Nat.sub_add_cancel h1
      refine ⟨h3, ?_⟩
      rw [stop]
      omega
    have hsub : ∀ a ∈ s.live, ∀ x, Has ⟨a.1, a.2.toNat⟩ x → (blockAt s.heap.mem a.1).Has x := by
      rintro a ha x ⟨h1, h2⟩
      obtain ⟨h3, h4⟩ := hfits a ha
      exact ⟨by dsimp only at h1; omega, h2.trans_le h4⟩
    refine ⟨fl, .inr ⟨hk.freep, hk.links⟩, fun b hb => (hk.header b (by simp [hb])).1,
      sorted_starts hk.gaps fun c hc => hk.base_lt (by simp [hc]), ?_, hk.apart, fun x => ?_, hfits,
      ?_, ?_⟩
    · -- the gap is on one side or the other
      have hgap : fl.Pairwise fun a b => a.stop ≠ b.start ∧ b.stop ≠ a.start :=
        hk.gaps.imp fun h => ⟨h.ne, by simp only [stop] at h ⊢; omega⟩
      have : Std.Symm fun a b : Extent => a.stop ≠ b.start ∧ b.stop ≠ a.start :=
        ⟨fun _ _ h => h.symm⟩
      intro a ha b hb
      by_cases hab : a = b
      · rw [hab]
        exact (Nat.lt_add_of_pos_right (hk.header b (by simp [hb])).2).ne'
      · exact (hgap.forall ha hb hab).1
    · rw [← cover_pos_iff, ← cover_pos_iff, hk.cover]
    · have hblocks := (List.pairwise_append.1 hk.apart).2.1
      refine List.pairwise_map.2 ((List.pairwise_map.1 hblocks).imp_of_mem fun ha hb h => ?_)
      exact h.mono (hsub _ ha) (hsub _ hb)
    · intro r hr b hb
      obtain ⟨a, ha, rfl⟩ := List.mem_map.1 hr
      obtain ⟨p, hp, rfl⟩ := List.mem_map.1 hb
      obtain ⟨h1, h2⟩ := hfits a ha
      have hmem : blockAt s.heap.mem a.1 ∈ fl ++ s.blocks :=
        List.mem_append_right _ (List.mem_map.2 ⟨a, ha, rfl⟩)
      rcases List.mem_cons.1 hp with rfl | hp
      · rintro x ⟨hx, -⟩ ⟨-, hx'⟩
        have := hk.base_le hmem
        simp only [stop] at hx hx'
        omega
      · obtain ⟨c, hc, rfl⟩ := List.mem_map.1 hp
        by_cases hca : blockAt s.heap.mem a.1 = c
        · rintro x ⟨hx, -⟩ ⟨-, hx'⟩
          rw [hca] at h1
          simp only [stop] at hx hx'
          omega
        · refine (hk.apart.forall hmem hc hca).mono (hsub a ha) fun x hx => ?_
          obtain ⟨hlen, hpos⟩ := hk.header c hc
          refine ⟨hx.1, hx.2.trans_le (Nat.add_le_add_left ?_ _)⟩
          simp only [HDR] at hlen ⊢
          omega

/-- **The allocator is safe**, and its calls return. -/
theorem malloc_free_safe {base : ℕ} (h0 : 0 < base) {s : State} (hs : Runs base s) :
    (∃ fl, Sound base s fl) ∧
    (∀ sbrk n, Fresh base sbrk →
      ∃ r N, ∀ fuel, N ≤ fuel → malloc base sbrk fuel s.heap n = some r) ∧
    ∀ a ∈ s.live, ∃ h N, ∀ fuel, N ≤ fuel → free fuel s.heap a.1 = some h := by
  have hok := hs.ok h0
  refine ⟨hok.sound, fun sbrk n hf => ?_, fun a ha => ?_⟩
  · obtain ⟨r, N, hr, -⟩ := hok.malloc hf h0 n
    exact ⟨r, N, hr⟩
  · obtain ⟨h, N, hr, -⟩ := hok.free ha
    exact ⟨h, N, hr⟩

/-- `sbrk` succeeds once. -/
def sbrkOnce : Sbrk := fun core n => if core = [] ∧ n < 2 ^ 36 then some 8192 else none

theorem fresh_sbrkOnce : Fresh 4096 sbrkOnce := by
  intro core n a h
  unfold sbrkOnce at h
  split_ifs at h with hc
  obtain ⟨rfl, hn⟩ := hc
  cases h
  exact ⟨by decide, by decide, by simp, by simpa using hn⟩

/-- A program has allocated 100 and 50 bytes and freed the 100. -/
theorem runs_malloc_free : ∃ s, Runs 4096 s ∧ s.live = [(73536, 50)] := by
  have h : (malloc 4096 sbrkOnce 9 ⟨fun _ => ⟨0, 0⟩, 0, []⟩ 100).any fun r => r.2 = 73616 ∧
      (malloc 4096 sbrkOnce 9 r.1 50).any fun r => r.2 = 73536 ∧ (free 9 r.1 73616).isSome := by
    decide +kernel
  simp only [Option.any_eq_true, decide_eq_true_eq] at h
  obtain ⟨⟨h₁, p⟩, hm₁, rfl, ⟨h₂, q⟩, hm₂, rfl, hf⟩ := h
  obtain ⟨h₃, hf⟩ := Option.isSome_iff_exists.1 hf
  have hr₁ : Runs 4096 ⟨h₁, [(73616, 100)]⟩ :=
    .step (s := ⟨_, []⟩) (.init ⟨rfl, rfl, rfl⟩) (.malloc _ 9 100 h₁ 73616 fresh_sbrkOnce hm₁)
  have hr₂ : Runs 4096 ⟨h₂, [(73536, 50), (73616, 100)]⟩ :=
    .step hr₁ (.malloc _ 9 50 h₂ 73536 fresh_sbrkOnce hm₂)
  exact ⟨_, .step hr₂ (.free 9 73616 100 h₃ (by simp) hf), rfl⟩

theorem malloc_free_safe_run : ∃ s, Runs 4096 s ∧ s.live = [(73536, 50)] ∧
    ∃ fl, Sound 4096 s fl := by
  obtain ⟨s, hs, hl⟩ := runs_malloc_free
  exact ⟨s, hs, hl, (malloc_free_safe (by decide) hs).1⟩

end Umalloc

end Xv6
