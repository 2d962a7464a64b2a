/-
  The blocks that a write takes.

  `balloc` returns the first free block.  A file of `n` blocks occupies
  `need n` of them, one more for the indirect block once there is one, and a
  write takes exactly those that are missing.
-/
import Xv6.Fs.ReadWrite

namespace Xv6

open Fallible

section
variable {sb : Superblock} {tab : ℕ → Dinode} {d d' : Disk} {i : ℕ} {b : BlockNo}

/-! ## The first free block -/

theorem ballocScan_first {bp : Block} {k bi c : ℕ} (h : ballocScan sb bp k = some bi) (hc : c < bi) :
    Bytes.bit bp c = true := by
  have hspec := ballocScan_some h
  rw [ballocScan, List.find?_range_eq_some] at h
  have hnot := h.2.2 c hc
  simp only [Bool.not_eq_true', decide_eq_false_iff_not] at hnot
  by_contra hbit
  exact hnot ⟨by omega, Bool.eq_false_iff.2 hbit⟩

theorem ballocScan_none {bp : Block} {k c : ℕ} (h : ballocScan sb bp k = none) (hc : c < BPB)
    (hsize : k + c < sb.size) : Bytes.bit bp c = true := by
  by_contra hbit
  exact List.find?_eq_none.1 h c (List.mem_range.2 hc)
    (decide_eq_true ⟨hsize, Bool.eq_false_iff.2 hbit⟩)

/-- The scan of the bit map blocks stops at the first one with a free block. -/
theorem findSome?_range_first {α : Type*} {f : ℕ → Option α} {n : ℕ} {a : α}
    (h : (List.range n).findSome? f = some a) : ∃ k < n, f k = some a ∧ ∀ l < k, f l = none := by
  obtain ⟨l₁, k, l₂, hl, hk, hnone⟩ := List.findSome?_eq_some_iff.1 h
  have hlen : n = l₁.length + (l₂.length + 1) := by
    have := congrArg List.length hl
    simpa using this
  have hget : ∀ m < n, (l₁ ++ k :: l₂)[m]? = some m := fun m hm => by
    rw [← hl, List.getElem?_range hm]
  have hlast : k = l₁.length := by
    have := hget l₁.length (by omega)
    simpa using this
  refine ⟨k, by omega, hk, fun l hlk => hnone l ?_⟩
  have hmem := hget l (by omega)
  rw [List.getElem?_append_left (by omega)] at hmem
  exact List.mem_of_getElem? hmem

/-- **`balloc` takes the first free block.** -/
theorem balloc_first (hok : sb.Ok) (h : balloc sb d = .ok (b, d')) {c : ℕ} (hc : c < b.toNat) :
    bitAt sb d c = true := by
  unfold balloc at h
  split at h
  next n hn =>
    cases h
    obtain ⟨k, -, hk, hbefore⟩ := findSome?_range_first hn
    obtain ⟨bi, hbi, rfl⟩ := Option.map_eq_some_iff.1 hk
    obtain ⟨hlt, hsize, -⟩ := ballocScan_some hbi
    have hfits := hok.fits
    have hpos : 0 < BPB := by decide
    rw [UInt32.toNat_ofNat', Nat.mod_eq_of_lt (hsize.trans (hfits.trans (by decide)))] at hc
    have hmod : c % BPB < BPB := Nat.mod_lt _ hpos
    have hdiv : c / BPB * BPB + c % BPB = c := Nat.div_add_mod' c BPB
    -- the bit lies in an earlier bit map block, or in this one before the free bit
    rcases Nat.lt_or_ge (c / BPB) k with hck | hck
    · have hscan := Option.map_eq_none_iff.1 (hbefore _ hck)
      have hbit := ballocScan_none hscan hmod (by rw [hdiv]; exact hc.trans hsize)
      rwa [bblock_mul sb hmod, hdiv, ← bitAt] at hbit
    · obtain rfl : c / BPB = k := by
        refine le_antisymm ?_ hck
        simp only [BPB, BSIZE] at hc hlt ⊢
        omega
      have hbit := ballocScan_first hbi (c := c % BPB) (by omega)
      rwa [bblock_mul sb hmod, hdiv, ← bitAt] at hbit
  next => cases h

/-! ## The blocks of a file -/

/-- The blocks of a file of `n` blocks, with its indirect block. -/
def need (n : ℕ) : ℕ := n + if NDIRECT < n then 1 else 0

theorem need_mono {m n : ℕ} (h : m ≤ n) : need m ≤ need n := by
  simp only [need]
  split_ifs <;> omega

theorem nblocks_mono {m n : ℕ} (h : m ≤ n) : nblocks m ≤ nblocks n := by
  simp only [nblocks, BSIZE]
  omega

/-- `balloc` succeeds while there is a free block. -/
theorem balloc_run (h : Refs sb tab d) (hfree : freeBlocks sb d ≠ 0) :
    ∃ b d', balloc sb d = .ok (b, d') ∧ Balloced sb d b d' := by
  obtain ⟨⟨b, d'⟩, -, hb, -, hspec, -⟩ := (balloc_spends h).run (Nat.one_le_iff_ne_zero.2 hfree)
  exact ⟨b, d', hb, hspec⟩

variable {n bn : ℕ}

theorem bmap_need_direct (h : Refs sb tab d) (hf : Filled (tab i) d n) (hbn : bn ≤ n)
    (hdir : bn < NDIRECT)
    (hroom : need (max n (bn + 1)) ≤ freeBlocks sb d + need n) :
    ∃ b di d', bmap sb d (tab i) bn = .ok (b, di, d') ∧
      freeBlocks sb d' + need (max n (bn + 1)) = freeBlocks sb d + need n := by
  have hiff := hf.blocks (hdir.trans_le (Nat.le_add_right NDIRECT NINDIRECT))
  rw [fileSlot_direct hdir] at hiff
  simp only [Dinode.slot] at hiff
  simp only [bmap, dif_pos hdir]
  by_cases hlt : bn < n
  · rw [if_neg (hiff.2 hlt)]
    exact ⟨_, _, _, rfl, by rw [max_eq_left (by omega)]⟩
  · obtain rfl : bn = n := by omega
    have hneed : need (bn + 1) = need bn + 1 := by
      simp only [need, NDIRECT] at hdir ⊢
      rw [if_neg (by omega), if_neg (by omega)]
    rw [max_eq_right (by omega), hneed] at hroom ⊢
    obtain ⟨b, d', hb, hspec⟩ := balloc_run h (by omega)
    rw [if_pos (not_not.1 fun h0 => hlt (hiff.1 h0)), hb]
    have hfree := hspec.freeBlocks
    refine ⟨_, _, _, rfl, ?_⟩
    dsimp only
    omega

theorem loadIndirect_need (h : Refs sb tab d) (hi : i < sb.ninodes) (ht : (tab i).type ≠ 0)
    (hf : Filled (tab i) d n) (hroom : n ≤ NDIRECT → freeBlocks sb d ≠ 0) :
    ∃ ind di d', loadIndirect sb d (tab i) = .ok (ind, di, d') ∧
      freeBlocks sb d' + (if n ≤ NDIRECT then 1 else 0) = freeBlocks sb d ∧
      (∃ tab', Refs sb tab' d') ∧ sb.IsData ind ∧ (n ≤ NDIRECT → d' ind = fun _ => 0) ∧
      (NDIRECT < n → ind = (tab i).addrs iaddr ∧ d' = d) := by
  rw [loadIndirect]
  by_cases h0 : (tab i).addrs iaddr = 0
  · have hn : n ≤ NDIRECT := Nat.not_lt.1 fun hlt => hf.iaddr.2 hlt h0
    obtain ⟨b, d', hb, hspec⟩ := balloc_run h (hroom hn)
    obtain ⟨hg, -⟩ := h.fillAddr hi ht h0 hspec
    rw [if_pos h0, hb, if_pos hn]
    refine ⟨_, _, _, rfl, hspec.freeBlocks.symm, ⟨_, hg.refs⟩, hspec.data, fun _ => ?_, fun hlt => by omega⟩
    rw [hspec.block hspec.data, if_pos rfl]
  · have hn : NDIRECT < n := hf.iaddr.1 h0
    rw [if_neg h0, if_neg (by omega)]
    exact ⟨_, _, _, rfl, rfl, ⟨tab, h⟩, (h.used_iaddr hi ht h0).1, fun hle => by omega, fun _ => ⟨rfl, rfl⟩⟩

theorem bmap_need_indirect (h : Refs sb tab d) (hi : i < sb.ninodes) (ht : (tab i).type ≠ 0)
    (hf : Filled (tab i) d n) (hbn : bn ≤ n) (hmax : bn < MAXFILE) (hind : NDIRECT ≤ bn)
    (hroom : need (max n (bn + 1)) ≤ freeBlocks sb d + need n) :
    ∃ b di d', bmap sb d (tab i) bn = .ok (b, di, d') ∧
      freeBlocks sb d' + need (max n (bn + 1)) = freeBlocks sb d + need n := by
  have hj : bn - NDIRECT < NINDIRECT := by
    simp only [MAXFILE] at hmax
    omega
  -- the indirect block is missing exactly when this is its first entry
  have hfirst : n ≤ NDIRECT → bn = NDIRECT ∧ n = NDIRECT := fun hn => by omega
  have hcost : need (max n (bn + 1)) =
      need n + (if n ≤ NDIRECT then 1 else 0) + if bn < n then 0 else 1 := by
    simp only [need]
    split_ifs <;> omega
  have hload := loadIndirect_need h hi ht hf fun hn => by
    rw [hcost, if_pos hn] at hroom
    omega
  obtain ⟨ind, di, d₁, hload, hfree, ⟨tab', hr⟩, hdata, hnew, hold⟩ := hload
  have haddr : indirect (d₁ ind) (bn - NDIRECT) = 0 ↔ ¬ bn < n := by
    rcases Nat.lt_or_ge NDIRECT n with hn | hn
    · obtain ⟨rfl, rfl⟩ := hold hn
      have hiff := hf.blocks hmax
      rw [fileSlot_indirect hind hj] at hiff
      simp only [Dinode.slot, if_neg (hf.iaddr.2 hn)] at hiff
      exact not_iff_not.1 (hiff.trans not_not.symm)
    · rw [hnew hn]
      exact iff_of_true (indirect_zero _) (by omega)
  simp only [bmap, dif_neg (Nat.not_lt.2 hind), if_pos hj, hload, bind, Except.bind, haddr]
  by_cases hlt : bn < n
  · rw [if_neg (not_not.2 hlt)]
    refine ⟨_, _, _, rfl, ?_⟩
    rw [hcost, if_pos hlt]
    omega
  · rw [hcost, if_neg hlt] at hroom
    obtain ⟨b, d', hb, hspec⟩ := balloc_run hr (by omega)
    have hfree' := hspec.freeBlocks
    rw [if_pos hlt, hb]
    refine ⟨_, _, _, rfl, ?_⟩
    rw [hcost, if_neg hlt, freeBlocks_update h.ok hdata]
    dsimp only
    omega

/-- **`bmap` takes the blocks that are missing.** -/
theorem bmap_need (h : Refs sb tab d) (hi : i < sb.ninodes) (ht : (tab i).type ≠ 0)
    (hf : Filled (tab i) d n) (hbn : bn ≤ n) (hmax : bn < MAXFILE)
    (hroom : need (max n (bn + 1)) ≤ freeBlocks sb d + need n) :
    ∃ b di d', bmap sb d (tab i) bn = .ok (b, di, d') ∧
      freeBlocks sb d' + need (max n (bn + 1)) = freeBlocks sb d + need n := by
  rcases Nat.lt_or_ge bn NDIRECT with hdir | hind
  · exact bmap_need_direct h hf hbn hdir hroom
  · exact bmap_need_indirect h hi ht hf hbn hmax hind hroom

end

/-! ## The loop of `writei` -/

theorem writeiLoop_need {sb : Superblock} {i : ℕ} (hi : i < sb.ninodes) (fuel : ℕ) :
    ∀ {tab : ℕ → Dinode} {d : Disk} {n off : ℕ} {src : List UInt8}, Refs sb tab d →
    (tab i).type ≠ 0 → Filled (tab i) d n → off ≤ n * BSIZE → src.length ≤ fuel →
    off + src.length ≤ MAXFILE * BSIZE →
    need (max n (nblocks (off + src.length))) ≤ freeBlocks sb d + need n →
    ∃ di d', writeiLoop sb fuel d (tab i) off src = .ok (di, d') ∧
      freeBlocks sb d' + need (max n (nblocks (off + src.length))) = freeBlocks sb d + need n := by
  have hstop : ∀ {n off : ℕ}, off ≤ n * BSIZE → max n (nblocks (off + 0)) = n := fun hoff =>
    max_eq_left (nblocks_le hoff)
  induction fuel with
  | zero =>
    intro tab d n off src h ht hf hoff hfuel hmax hroom
    obtain rfl : src = [] := List.eq_nil_of_length_eq_zero (Nat.le_zero.1 hfuel)
    exact ⟨_, _, rfl, by rw [List.length_nil, hstop hoff]⟩
  | succ fuel ih =>
    intro tab d n off src h ht hf hoff hfuel hmax hroom
    rw [writeiLoop]
    by_cases hnil : src = []
    · subst hnil
      rw [if_pos rfl]
      exact ⟨_, _, rfl, by rw [List.length_nil, hstop hoff]⟩
    · obtain ⟨hpos, hm⟩ := round_le n off hnil
      have hbn : off / BSIZE ≤ n := by simp only [BSIZE] at hoff ⊢; omega
      have hlen : 0 < src.length := List.length_pos_iff.2 hnil
      have hlast : off / BSIZE + 1 ≤ nblocks (off + src.length) := by
        simp only [nblocks, BSIZE]
        omega
      have hrange : off / BSIZE < MAXFILE := by
        simp only [MAXFILE, NDIRECT, NINDIRECT, BSIZE] at hmax ⊢
        omega
      have hmono : need (max n (off / BSIZE + 1)) ≤ need (max n (nblocks (off + src.length))) :=
        need_mono (max_le_max le_rfl hlast)
      obtain ⟨b, di, d₁, hb, hfree⟩ := bmap_need h hi ht hf hbn hrange (hmono.trans hroom)
      set m := min src.length (BSIZE - off % BSIZE) with hmdef
      obtain ⟨hg, ht₁, hf₁⟩ := writeiRound h hi ht hf hoff hb
        (Bytes.setBytes (d₁ b) (off % BSIZE) (src.take m))
      have hself : Function.update tab i di i = di := Function.update_self ..
      have hrest : max (max n (off / BSIZE + 1)) (nblocks (off + m + (src.drop m).length)) =
          max n (nblocks (off + src.length)) := by
        rw [List.length_drop, show off + m + (src.length - m) = off + src.length by omega]
        omega
      have hsame := freeBlocks_update (d := d₁) h.ok ((bmap_spec h hi ht hb).data hi ht)
        (Bytes.setBytes (d₁ b) (off % BSIZE) (src.take m))
      have hdrop : (src.drop m).length ≤ fuel := by
        rw [List.length_drop]
        omega
      obtain ⟨di', d', hloop, hend⟩ := ih hg.refs ht₁ hf₁ hm hdrop (by rw [List.length_drop]; omega)
        (by rw [hrest, hsame]; omega)
      rw [hrest, hsame] at hend
      rw [hself] at hloop
      simp only [if_neg hnil, hb, bind, Except.bind]
      exact ⟨di', d', hloop, by omega⟩

/-- A `writei` past the end of a file, after its loop. -/
theorem writei_grows {sb : Superblock} {dev : Devsw} {d d' : Disk} {ip : Inode} {src : List UInt8}
    {off : ℕ} {di : Dinode} (hdev : ip.di.type ≠ T_DEV) (hoff : off ≤ ip.di.size.toNat)
    (hgrow : ip.di.size.toNat < off + src.length) (hmax : off + src.length ≤ MAXFILE * BSIZE)
    (hloop : writeiLoop sb src.length d ip.di off src = .ok (di, d')) :
    writei sb dev d ip src off = .ok (some src.length,
      { ip with di := { di with size := .ofNat (off + src.length) } },
      setDinode sb d' ip.inum { di with size := .ofNat (off + src.length) }) := by
  have hmod : (off + src.length) % 2 ^ 32 = off + src.length := Nat.mod_eq_of_lt (by
    simp only [MAXFILE, NDIRECT, NINDIRECT, BSIZE] at hmax
    omega)
  rw [writei]
  dsimp only
  rw [if_neg hdev, hmod, if_neg (by omega), if_neg (by omega), hloop]
  simp only [bind, Except.bind]
  rw [if_pos ⟨by omega, hgrow⟩]
  rfl

end Xv6
