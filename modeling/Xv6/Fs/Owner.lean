/-
  Every disk block in use is referred to from one place.

  `owner` lists the places that refer to blocks: the entries of `addrs` of the
  allocated inodes and of their indirect blocks.  `Refs` says that they own the
  data blocks whose bit is set (`Own.Owns`).  The inodes are given by a table
  `tab` and not read off the disk, because in the middle of an operation the
  in-memory inode is ahead of the disk.
-/
import Xv6.Fs.Inode
import Xv6.Lib.Own
import Xv6.Lib.Fallible

namespace Xv6

open Own Fallible Function

/-- A place in an inode that can refer to a block: an entry of `addrs` or of the indirect
    block. -/
inductive Slot where
  | addr (k : Fin (NDIRECT + 1))
  | ind (j : Fin NINDIRECT)
  deriving DecidableEq

/-- The entry of the indirect block in `addrs`. -/
abbrev iaddr : Fin (NDIRECT + 1) := Fin.last NDIRECT

/-- The block a place refers to, or 0. -/
def Dinode.slot (di : Dinode) (d : Disk) : Slot → BlockNo
  | .addr k => di.addrs k
  | .ind j => if di.addrs iaddr = 0 then 0 else indirect (d (di.addrs iaddr)) j

/-- The block that inode `k.1` of the table refers to at `k.2`, if it is allocated. -/
def owner (sb : Superblock) (tab : ℕ → Dinode) (d : Disk) (k : ℕ × Slot) : Option BlockNo :=
  if k.1 < sb.ninodes ∧ (tab k.1).type ≠ 0 ∧ (tab k.1).slot d k.2 ≠ 0 then
    some ((tab k.1).slot d k.2)
  else none

/-- The data blocks marked in the bit map. -/
def Used (sb : Superblock) (d : Disk) (b : BlockNo) : Prop :=
  sb.IsData b ∧ bitAt sb d b.toNat = true

structure Refs (sb : Superblock) (tab : ℕ → Dinode) (d : Disk) : Prop where
  ok : sb.Ok
  super : readsb d = sb
  nmeta : ∀ c < sb.nmeta, bitAt sb d c = true
  owns : Owns (owner sb tab d) (Used sb d)

section
variable {sb : Superblock} {tab tab' : ℕ → Dinode} {d d' : Disk} {i j : ℕ} {s t : Slot}
  {b : BlockNo}

theorem owner_some (hi : i < sb.ninodes) (ht : (tab i).type ≠ 0) (hs : (tab i).slot d s ≠ 0) :
    owner sb tab d (i, s) = some ((tab i).slot d s) := if_pos ⟨hi, ht, hs⟩

theorem owner_none (hs : (tab i).slot d s = 0) : owner sb tab d (i, s) = none :=
  if_neg fun h => h.2.2 hs

/-- Two inodes with the same entries. -/
theorem owner_congr (ht : (tab' i).type = 0 ↔ (tab i).type = 0)
    (hs : (tab i).type ≠ 0 → (tab' i).slot d' s = (tab i).slot d s) :
    owner sb tab' d' (i, s) = owner sb tab d (i, s) := by
  by_cases h0 : (tab i).type = 0
  · rw [owner, owner, if_neg fun h => h.2.1 (ht.2 h0), if_neg fun h => h.2.1 h0]
  · simp only [owner, hs h0, Ne, ht]

variable {di : Dinode} {k : ℕ} {bn : ℕ}

/-- An inode keeps its entries when its indirect block keeps its contents. -/
theorem slot_congr (h : di.addrs iaddr ≠ 0 → d' (di.addrs iaddr) = d (di.addrs iaddr)) (s : Slot) :
    di.slot d' s = di.slot d s := by
  cases s with
  | addr k => rfl
  | ind j =>
    simp only [Dinode.slot]
    split_ifs with h0
    · rfl
    · rw [h h0]

namespace Refs

theorem used_slot (h : Refs sb tab d) (hi : i < sb.ninodes) (ht : (tab i).type ≠ 0)
    (hs : (tab i).slot d s ≠ 0) : Used sb d ((tab i).slot d s) :=
  h.owns.mem (owner_some hi ht hs)

/-- Different places refer to different blocks. -/
theorem slot_ne (h : Refs sb tab d) (hi : i < sb.ninodes) (hj : j < sb.ninodes)
    (hti : (tab i).type ≠ 0) (htj : (tab j).type ≠ 0) (hs : (tab i).slot d s ≠ 0)
    (hne : (i, s) ≠ (j, t)) : (tab i).slot d s ≠ (tab j).slot d t := by
  intro heq
  refine hne (h.owns.inj (owner_some hi hti hs) ?_)
  rw [owner_some hj htj (heq ▸ hs), heq]

/-- A place of inode `i` takes a block that `balloc` returned. -/
theorem take (h : Refs sb tab d) {d₁ : Disk} {di : Dinode} (hi : i < sb.ninodes)
    (ht : (tab i).type ≠ 0) (hs : (tab i).slot d s = 0) (hb : Balloced sb d b d₁)
    (hbit : ∀ c < sb.size, bitAt sb d' c = bitAt sb d₁ c) (hsup : readsb d' = readsb d₁)
    (hdi : di.type ≠ 0)
    (hslot : ∀ t, di.slot d' t = if t = s then b else (tab i).slot d t)
    (hother : ∀ j < sb.ninodes, j ≠ i → (tab j).type ≠ 0 → ∀ t, (tab j).slot d' t = (tab j).slot d t) :
    Refs sb (update tab i di) d' := by
  have hfree : ¬ Used sb d b := fun hu => by rw [Used, hb.free] at hu; cases hu.2
  have hb0 := h.ok.data_ne_zero hb.data
  have hbits : ∀ c < sb.size, bitAt sb d' c = if b.toNat = c then true else bitAt sb d c :=
    fun c hc => (hbit c hc).trans (hb.bit hc)
  refine ⟨h.ok, hsup.trans (hb.super.trans h.super), fun c hc => ?_, ?_⟩
  · rw [hbits c (hc.trans_le h.ok.data), if_neg (by have := hb.data.1; omega)]
    exact h.nmeta c hc
  · refine h.owns.take (k := (i, s)) (v := b) (owner_none hs) hfree ?_ (fun l hl => ?_) fun w => ?_
    · rw [owner_some hi] <;> rw [update_self]
      · rw [hslot, if_pos rfl]
      · exact hdi
      · rw [hslot, if_pos rfl]; exact hb0
    · obtain ⟨j, t⟩ := l
      by_cases hji : j = i
      · subst hji
        have hts : t ≠ s := fun hts => hl (by rw [hts])
        refine owner_congr ?_ fun _ => ?_ <;> rw [update_self]
        · exact iff_of_false hdi ht
        · rw [hslot, if_neg hts]
      · by_cases hj : j < sb.ninodes
        · refine owner_congr ?_ fun htj => ?_ <;> rw [update_of_ne hji]
          exact hother j hj hji htj t
        · rw [owner, owner, if_neg fun h => hj h.1, if_neg fun h => hj h.1]
    · constructor
      · rintro ⟨hw, hbw⟩
        rw [hbits _ hw.2] at hbw
        split_ifs at hbw with heq
        · exact .inl (UInt32.toNat_inj.1 heq.symm)
        · exact .inr ⟨hw, hbw⟩
      · rintro (rfl | ⟨hw, hbw⟩)
        · exact ⟨hb.data, by rw [hbits _ hb.data.2, if_pos rfl]⟩
        · refine ⟨hw, ?_⟩
          rw [hbits _ hw.2]
          split_ifs
          · rfl
          · exact hbw

/-- A used block is not the one that `balloc` returned. -/
theorem ne_balloced (hb : Balloced sb d b d') {c : BlockNo} (hc : Used sb d c) : c ≠ b := by
  rintro rfl
  rw [Used, hb.free] at hc
  cases hc.2

/-- The indirect block of an allocated inode. -/
theorem used_iaddr (h : Refs sb tab d) (hi : i < sb.ninodes) (ht : (tab i).type ≠ 0)
    (h0 : (tab i).addrs iaddr ≠ 0) : Used sb d ((tab i).addrs iaddr) :=
  h.used_slot (s := .addr iaddr) hi ht h0

end Refs

/-! ## `bmap` -/

/-- Inode `i` of the table has become `di` and the disk `d'`: it may refer to more blocks, and
    the other inodes are as before. -/
structure Grown (sb : Superblock) (tab : ℕ → Dinode) (d : Disk) (i : ℕ) (di : Dinode) (d' : Disk) :
    Prop where
  refs : Refs sb (update tab i di) d'
  fields : di = { tab i with addrs := di.addrs }
  keep : ∀ {t}, (tab i).slot d t ≠ 0 → di.slot d' t = (tab i).slot d t
  other : ∀ {j}, j < sb.ninodes → j ≠ i → (tab j).type ≠ 0 → ∀ t, (tab j).slot d' t = (tab j).slot d t
  dinode : ∀ {j}, j < sb.ninodes → dinodeAt sb d' j = dinodeAt sb d j

namespace Grown

theorem refl (h : Refs sb tab d) (i : ℕ) : Grown sb tab d i (tab i) d where
  refs := by rwa [update_eq_self]
  fields := rfl
  keep _ := rfl
  other _ _ _ _ := rfl
  dinode _ := rfl

theorem type_eq {di : Dinode} (h : Grown sb tab d i di d') : di.type = (tab i).type := by
  rw [h.fields]

theorem trans {di di' : Dinode} {d'' : Disk} (h : Grown sb tab d i di d')
    (h' : Grown sb (update tab i di) d' i di' d'') : Grown sb tab d i di' d'' := by
  have hself : update tab i di i = di := update_self ..
  obtain ⟨hr, hf, hk, ho, hd⟩ := h'
  rw [hself] at hf
  simp only [hself] at hk
  refine ⟨by rwa [update_idem] at hr, ?_, fun hs => ?_, fun hj hji htj t => ?_, fun hj => ?_⟩
  · rw [hf, h.fields]
  · have h1 := h.keep hs
    rw [hk (h1 ▸ hs), h1]
  · have := ho hj hji (by rwa [update_of_ne hji]) t
    rw [update_of_ne hji] at this
    rw [this, h.other hj hji htj t]
  · rw [hd hj, h.dinode hj]

end Grown

/-- An entry of `addrs` gets a new block. -/
theorem Refs.fillAddr (h : Refs sb tab d) (hi : i < sb.ninodes) (ht : (tab i).type ≠ 0)
    {k : Fin (NDIRECT + 1)} (h0 : (tab i).addrs k = 0) (hb : Balloced sb d b d') :
    Grown sb tab d i { tab i with addrs := update (tab i).addrs k b } d' ∧
      ∀ t, Dinode.slot { tab i with addrs := update (tab i).addrs k b } d' t =
        if t = .addr k then b else (tab i).slot d t := by
  have hslot : ∀ t, Dinode.slot { tab i with addrs := update (tab i).addrs k b } d' t =
      if t = .addr k then b else (tab i).slot d t := by
    intro t
    cases t with
    | addr l => simp only [Dinode.slot, update_apply, Slot.addr.injEq]
    | ind j =>
      rw [if_neg (by rintro ⟨⟩)]
      simp only [Dinode.slot, update_apply]
      by_cases hk : iaddr = k
      · -- a new indirect block is empty
        subst hk
        rw [if_pos rfl, if_pos h0, hb.block hb.data, if_pos rfl]
        split_ifs
        · rfl
        · exact indirect_zero j
      · rw [if_neg hk]
        split_ifs with hia
        · rfl
        · have hu := h.used_iaddr hi ht hia
          rw [hb.block hu.1, if_neg (ne_balloced hb hu)]
  have hother : ∀ j < sb.ninodes, j ≠ i → (tab j).type ≠ 0 → ∀ t,
      (tab j).slot d' t = (tab j).slot d t := by
    intro j hj _ htj t
    refine slot_congr (fun hia => ?_) t
    have hu := h.used_iaddr hj htj hia
    rw [hb.block hu.1, if_neg (ne_balloced hb hu)]
  refine ⟨⟨h.take (s := .addr k) hi ht h0 hb (fun _ _ => rfl) rfl ht hslot hother, rfl, fun hs => ?_,
    fun hj hji htj => hother _ hj hji htj, hb.dinode⟩, hslot⟩
  rw [hslot, if_neg]
  rintro rfl
  exact hs h0

/-- An entry of the indirect block gets a new block. -/
theorem Refs.fillInd (h : Refs sb tab d) (hi : i < sb.ninodes) (ht : (tab i).type ≠ 0)
    {j : Fin NINDIRECT} (hia : (tab i).addrs iaddr ≠ 0)
    (h0 : indirect (d ((tab i).addrs iaddr)) j = 0) (hb : Balloced sb d b d') :
    Grown sb tab d i (tab i) (update d' ((tab i).addrs iaddr)
        (setIndirect (d' ((tab i).addrs iaddr)) j b)) ∧
      ∀ t, (tab i).slot (update d' ((tab i).addrs iaddr)
          (setIndirect (d' ((tab i).addrs iaddr)) j b)) t =
        if t = .ind j then b else (tab i).slot d t := by
  set ind := (tab i).addrs iaddr with hind
  have hu : Used sb d ind := h.used_iaddr hi ht hia
  have hkeep : d' ind = d ind := by rw [hb.block hu.1, if_neg (ne_balloced hb hu)]
  have hslot : ∀ t, (tab i).slot (update d' ind (setIndirect (d' ind) j b)) t =
      if t = .ind j then b else (tab i).slot d t := by
    intro t
    cases t with
    | addr l => rw [if_neg (by rintro ⟨⟩)]; rfl
    | ind l =>
      simp only [Dinode.slot, ← hind, if_neg hia, update_self, hkeep, Slot.ind.injEq,
        indirect_setIndirect _ _ j.isLt, Fin.ext_iff]
  have hother : ∀ l < sb.ninodes, l ≠ i → (tab l).type ≠ 0 → ∀ t,
      (tab l).slot (update d' ind (setIndirect (d' ind) j b)) t = (tab l).slot d t := by
    intro l hl hli htl t
    refine slot_congr (fun hla => ?_) t
    have hul := h.used_iaddr hl htl hla
    -- two inodes do not share their indirect block
    have hne : (tab l).addrs iaddr ≠ ind :=
      h.slot_ne (s := .addr iaddr) (t := .addr iaddr) hl hi htl ht hla fun heq => hli (by
        simpa using heq)
    rw [update_of_ne hne, hb.block hul.1, if_neg (ne_balloced hb hul)]
  have hs0 : (tab i).slot d (.ind j) = 0 := by simp only [Dinode.slot, ← hind, if_neg hia, h0]
  have hrefs := h.take (s := .ind j) hi ht hs0 hb
    (fun c hc => bitAt_update h.ok hc hu.1 _) (readsb_update (h.ok.one_lt_data hu.1) _) ht hslot hother
  refine ⟨⟨hrefs, rfl, fun hs => ?_, fun hl hli htl => hother _ hl hli htl, fun hl => ?_⟩, hslot⟩
  · rw [hslot, if_neg]
    rintro rfl
    exact hs hs0
  · rw [dinodeAt_update h.ok hl hu.1, hb.dinode hl]

/-- The place of the `k`th block of a file. -/
def fileSlot (k : ℕ) : Slot :=
  if h : k < NDIRECT then .addr ⟨k, lt_naddrs h⟩
  else .ind ⟨(k - NDIRECT) % NINDIRECT, Nat.mod_lt _ (by decide)⟩

theorem fileSlot_direct (h : k < NDIRECT) :
    fileSlot k = .addr ⟨k, h.trans (Nat.lt_succ_self _)⟩ := dif_pos h

theorem fileSlot_indirect (h : NDIRECT ≤ k) (hn : k - NDIRECT < NINDIRECT) :
    fileSlot k = .ind ⟨k - NDIRECT, hn⟩ := by
  simp only [fileSlot, dif_neg h.not_gt, Nat.mod_eq_of_lt hn]

theorem fileSlot_inj {k l : ℕ} (hk : k < MAXFILE) (hl : l < MAXFILE) (h : fileSlot k = fileSlot l) :
    k = l := by
  unfold fileSlot at h
  simp only [MAXFILE, NDIRECT, NINDIRECT, BSIZE] at hk hl h
  split_ifs at h with h1 h2 h2
  · simpa using h
  · simp only [Slot.ind.injEq, Fin.mk.injEq] at h
    omega

theorem fileSlot_ne (k : ℕ) : fileSlot k ≠ .addr iaddr := by
  unfold fileSlot
  split_ifs with h
  · rw [Ne, Slot.addr.injEq, Fin.ext_iff]
    exact h.ne
  · rintro ⟨⟩

/-- What `bmap` does for the block `bn` of inode `i`. -/
structure Bmapped (sb : Superblock) (tab : ℕ → Dinode) (d : Disk) (i bn : ℕ) (b : BlockNo)
    (di : Dinode) (d' : Disk) : Prop extends Grown sb tab d i di d' where
  range : bn < MAXFILE
  addr : di.slot d' (fileSlot bn) = b
  pos : b ≠ 0
  iaddr : NDIRECT ≤ bn → di.addrs iaddr ≠ 0
  only : ∀ {t}, di.slot d' t ≠ 0 → (tab i).slot d t ≠ 0 ∨ t = fileSlot bn ∨
    t = .addr Xv6.iaddr ∧ NDIRECT ≤ bn
  noAlloc : (tab i).slot d (fileSlot bn) ≠ 0 → di = tab i ∧ d' = d

theorem bmap_direct (h : Refs sb tab d) (hi : i < sb.ninodes) (ht : (tab i).type ≠ 0)
    (hbn : bn < NDIRECT) (hok : bmap sb d (tab i) bn = .ok (b, di, d')) :
    Bmapped sb tab d i bn b di d' := by
  have hfile := fileSlot_direct hbn
  have hrange : bn < MAXFILE := hbn.trans_le (Nat.le_add_right _ _)
  simp only [bmap, dif_pos hbn] at hok
  split_ifs at hok with h0
  · obtain ⟨⟨b₁, d₁⟩, hb, hok⟩ := bind_ok hok
    cases hok
    have hb := balloc_spec h.ok h.nmeta hb
    obtain ⟨hg, hslot⟩ := h.fillAddr hi ht h0 hb
    refine ⟨hg, hrange, by rw [hslot, hfile, if_pos rfl], h.ok.data_ne_zero hb.data,
      fun hle => absurd hbn hle.not_gt, fun {t} hs => ?_, fun hs => absurd h0 (by rwa [hfile] at hs)⟩
    rw [hslot] at hs
    split_ifs at hs with hte
    · exact .inr (.inl (hte.trans hfile.symm))
    · exact .inl hs
  · cases hok
    exact ⟨.refl h i, hrange, by rw [hfile]; rfl, h0, fun hle => absurd hbn hle.not_gt,
      .inl, fun _ => ⟨rfl, rfl⟩⟩

theorem bmap_indirect (h : Refs sb tab d) (hi : i < sb.ninodes) (ht : (tab i).type ≠ 0)
    (hbn : NDIRECT ≤ bn) (hok : bmap sb d (tab i) bn = .ok (b, di, d')) :
    Bmapped sb tab d i bn b di d' := by
  simp only [bmap, dif_neg hbn.not_gt] at hok
  split_ifs at hok with hn
  have hrange : bn < MAXFILE := by simp only [MAXFILE, NDIRECT] at hn hbn ⊢; omega
  have hfile := fileSlot_indirect hbn hn
  obtain ⟨⟨ind, di₁, d₁⟩, hload, hok⟩ := bind_ok hok
  -- after this the indirect block is there
  obtain ⟨hg, hind, hne, honly, hsame⟩ : Grown sb tab d i di₁ d₁ ∧ di₁.addrs iaddr = ind ∧ ind ≠ 0 ∧
      (∀ t, di₁.slot d₁ t ≠ 0 → (tab i).slot d t ≠ 0 ∨ t = .addr iaddr) ∧
      ((tab i).addrs iaddr ≠ 0 → di₁ = tab i ∧ d₁ = d) := by
    unfold loadIndirect at hload
    split_ifs at hload with h0
    · obtain ⟨⟨b₁, d₂⟩, hb, hload⟩ := bind_ok hload
      cases hload
      have hb := balloc_spec h.ok h.nmeta hb
      obtain ⟨hg, hslot⟩ := h.fillAddr hi ht h0 hb
      refine ⟨hg, by simp, h.ok.data_ne_zero hb.data, fun t hs => ?_, fun h1 => absurd h0 h1⟩
      rw [hslot] at hs
      split_ifs at hs with hte
      · exact .inr hte
      · exact .inl hs
    · cases hload
      exact ⟨.refl h i, rfl, h0, fun t hs => .inl hs, fun _ => ⟨rfl, rfl⟩⟩
  subst hind
  have hself : update tab i di₁ i = di₁ := update_self ..
  have honly' : ∀ {t}, di₁.slot d₁ t ≠ 0 → (tab i).slot d t ≠ 0 ∨ t = fileSlot bn ∨
      t = .addr iaddr ∧ NDIRECT ≤ bn := fun {t} hs =>
    (honly t hs).imp_right fun h1 => .inr ⟨h1, hbn⟩
  -- an entry that was there is still there
  have hkeep : (tab i).slot d (fileSlot bn) ≠ 0 →
      indirect (d₁ (di₁.addrs iaddr)) (bn - NDIRECT) ≠ 0 := fun hs => by
    have h1 := hg.keep hs
    rw [← h1, hfile] at hs
    simpa only [Dinode.slot, if_neg hne] using hs
  simp only at hok
  split_ifs at hok with h0
  · obtain ⟨⟨b₁, d₂⟩, hb, hok⟩ := bind_ok hok
    cases hok
    have hb := balloc_spec hg.refs.ok hg.refs.nmeta hb
    obtain ⟨hg', hslot⟩ := hg.refs.fillInd hi (by rwa [hself, hg.type_eq])
      (j := ⟨bn - NDIRECT, hn⟩) (by rwa [hself]) (by rw [hself]; exact h0) hb
    rw [hself] at hg' hslot
    refine ⟨hg.trans hg', hrange, by rw [hslot, hfile, if_pos rfl], h.ok.data_ne_zero hb.data,
      fun _ => hne, fun {t} hs => ?_, fun hs => absurd h0 (hkeep hs)⟩
    rw [hslot] at hs
    split_ifs at hs with hte
    · exact .inr (.inl (hte.trans hfile.symm))
    · exact honly' hs
  · cases hok
    refine ⟨hg, hrange, by rw [hfile]; simp only [Dinode.slot, if_neg hne], h0, fun _ => hne, honly',
      fun hs => hsame fun h1 => hs ?_⟩
    rw [hfile]
    simp only [Dinode.slot, if_pos h1]

/-- **`bmap`.** -/
theorem bmap_spec (h : Refs sb tab d) (hi : i < sb.ninodes) (ht : (tab i).type ≠ 0)
    (hok : bmap sb d (tab i) bn = .ok (b, di, d')) : Bmapped sb tab d i bn b di d' := by
  rcases Nat.lt_or_ge bn NDIRECT with hbn | hbn
  · exact bmap_direct h hi ht hbn hok
  · exact bmap_indirect h hi ht hbn hok

/-! ## The blocks of a file -/

/-- The inode has its first `n` blocks and no others. -/
structure Filled (di : Dinode) (d : Disk) (n : ℕ) : Prop where
  blocks : ∀ {k}, k < MAXFILE → (di.slot d (fileSlot k) ≠ 0 ↔ k < n)
  iaddr : di.addrs iaddr ≠ 0 ↔ NDIRECT < n

theorem Filled.congr {di di' : Dinode} {n : ℕ} (h : Filled di d n)
    (hs : ∀ t, di'.slot d' t = di.slot d t) : Filled di' d' n where
  blocks hk := by rw [hs]; exact h.blocks hk
  iaddr := by
    have : di'.addrs Xv6.iaddr = di.addrs Xv6.iaddr := hs (.addr Xv6.iaddr)
    rw [this]
    exact h.iaddr

theorem Bmapped.filled {bn n : ℕ} (h : Bmapped sb tab d i bn b di d') (hf : Filled (tab i) d n)
    (hn : bn ≤ n) : Filled di d' (max n (bn + 1)) where
  blocks {k} hk := by
    constructor
    · intro hs
      rcases h.only hs with h1 | h1 | ⟨h1, -⟩
      · exact lt_max_of_lt_left ((hf.blocks hk).1 h1)
      · exact lt_max_of_lt_right (by rw [fileSlot_inj hk h.range h1]; exact Nat.lt_succ_self _)
      · exact absurd h1 (fileSlot_ne k)
    · intro hlt
      by_cases hkn : k < n
      · have := (hf.blocks hk).2 hkn
        rw [h.keep this]
        exact this
      · have hkb : k = bn := by rcases lt_max_iff.1 hlt with h1 | h1 <;> omega
        rw [hkb, h.addr]
        exact h.pos
  iaddr := by
    constructor
    · intro hs
      rcases h.only (t := .addr Xv6.iaddr) hs with h1 | h1 | ⟨-, h1⟩
      · exact lt_max_of_lt_left (hf.iaddr.1 h1)
      · exact absurd h1.symm (fileSlot_ne bn)
      · exact lt_max_of_lt_right (Nat.lt_succ_of_le h1)
    · intro hlt
      by_cases hkn : NDIRECT < n
      · have := h.keep (t := .addr Xv6.iaddr) (hf.iaddr.2 hkn)
        exact fun h0 => hf.iaddr.2 hkn (this.symm.trans h0)
      · exact h.iaddr (by rcases lt_max_iff.1 hlt with h1 | h1 <;> omega)

theorem Refs.congr (h : Refs sb tab d) (hbit : ∀ c < sb.size, bitAt sb d' c = bitAt sb d c)
    (hsup : readsb d' = readsb d)
    (hown : ∀ k, owner sb tab' d' k = owner sb tab d k) : Refs sb tab' d' where
  ok := h.ok
  super := hsup.trans h.super
  nmeta c hc := (hbit c (hc.trans_le h.ok.data)).trans (h.nmeta c hc)
  owns := h.owns.congr hown fun v => and_congr_right fun hv => by rw [hbit _ hv.2]

/-- Inode `i` is replaced by one with the same blocks. -/
theorem Refs.replace (h : Refs sb tab d)
    (hs : ∀ s, owner sb (update tab i di) d (i, s) = owner sb tab d (i, s)) :
    Refs sb (update tab i di) d := by
  refine h.congr (fun _ _ => rfl) rfl fun k => ?_
  obtain ⟨j, s⟩ := k
  by_cases hji : j = i
  · rw [hji]
    exact hs s
  · exact owner_congr (by rw [update_of_ne hji]) fun _ => by rw [update_of_ne hji]

/-- Only the other fields of inode `i` change. -/
theorem Refs.setFields {di di' : Dinode} (h : Refs sb (update tab i di) d)
    (ht : di'.type = di.type) (ha : di'.addrs = di.addrs) :
    Refs sb (update tab i di') d := by
  have hr : Refs sb (update (update tab i di) i di') d := by
    refine h.replace fun s => owner_congr ?_ fun _ => ?_
    · rw [update_self, update_self, ht]
    · rw [update_self, update_self]
      cases s <;> simp only [Dinode.slot, ha]
  rwa [update_idem] at hr

/-- The inodes of the table are read off the disk. -/
theorem Refs.table (h : Refs sb tab d) (ht : ∀ i < sb.ninodes, tab' i = tab i) :
    Refs sb tab' d := by
  refine h.congr (fun _ _ => rfl) rfl fun k => ?_
  obtain ⟨i, s⟩ := k
  by_cases hi : i < sb.ninodes
  · exact owner_congr (by rw [ht i hi]) fun _ => by rw [ht i hi]
  · rw [owner, owner, if_neg fun h => hi h.1, if_neg fun h => hi h.1]

/-- A store to a data block of a file. -/
theorem Refs.write (h : Refs sb tab d) (hi : i < sb.ninodes) (ht : (tab i).type ≠ 0)
    (hb : (tab i).slot d (fileSlot k) = b) (hb0 : b ≠ 0) (v : Block) :
    Grown sb tab d i (tab i) (update d b v) ∧
      ∀ t, (tab i).slot (update d b v) t = (tab i).slot d t := by
  have hu : Used sb d b := hb ▸ h.used_slot hi ht (hb ▸ hb0)
  have hslot : ∀ {j}, j < sb.ninodes → (tab j).type ≠ 0 → ∀ t,
      (tab j).slot (update d b v) t = (tab j).slot d t := by
    intro j hj htj
    refine slot_congr fun hia => update_of_ne ?_ _ _
    -- the block is not an indirect block
    rw [← hb]
    exact h.slot_ne (s := .addr iaddr) hj hi htj ht hia fun heq => fileSlot_ne k
      (Prod.mk.inj heq).2.symm
  refine ⟨⟨?_, rfl, fun _ => hslot hi ht _, fun hj _ htj => hslot hj htj,
    fun hj => dinodeAt_update h.ok hj hu.1 v⟩, hslot hi ht⟩
  rw [update_eq_self]
  refine h.congr (fun c hc => bitAt_update h.ok hc hu.1 v) (readsb_update (h.ok.one_lt_data hu.1) v)
    fun k => ?_
  obtain ⟨j, t⟩ := k
  by_cases hj : j < sb.ninodes
  · exact owner_congr Iff.rfl fun htj => hslot hj htj t
  · rw [owner, owner, if_neg fun h => hj h.1, if_neg fun h => hj h.1]

end

end Xv6
