/-
  Reading, writing and truncating files keeps the ownership of disk blocks.

  `writei` goes through the blocks of a file in order, so that a file with its
  first `n` blocks still has a run of blocks from 0 on, without a hole.
  `readi` stays below the size and finds every block.  `itrunc` gives back one
  block after the other.
-/
import Xv6.Fs.Owner

namespace Xv6

open Own Fallible Bytes Function

section
variable {sb : Superblock} {tab : ℕ → Dinode} {d d' : Disk} {i : ℕ} {b : BlockNo} {n : ℕ}

/-! ## `writei` -/

/-- The number of blocks of a file of `size` bytes. -/
def nblocks (size : ℕ) : ℕ := (size + BSIZE - 1) / BSIZE

theorem le_nblocks (size : ℕ) : size ≤ nblocks size * BSIZE := by
  simp only [nblocks, BSIZE]
  omega

theorem nblocks_le {off : ℕ} (h : off ≤ n * BSIZE) : nblocks off ≤ n := by
  simp only [nblocks, BSIZE] at h ⊢
  omega

variable {di : Dinode}

/-- One round of the loop of `writei`: `bmap`, and a store to the block. -/
theorem writeiRound (h : Refs sb tab d) (hi : i < sb.ninodes) (ht : (tab i).type ≠ 0)
    (hf : Filled (tab i) d n) {off : ℕ} (hoff : off ≤ n * BSIZE)
    (hb : bmap sb d (tab i) (off / BSIZE) = .ok (b, di, d')) (v : Block) :
    Grown sb tab d i di (update d' b v) ∧ (update tab i di i).type ≠ 0 ∧
    Filled (update tab i di i) (update d' b v) (max n (off / BSIZE + 1)) := by
  have hbn : off / BSIZE ≤ n := by simp only [BSIZE] at hoff ⊢; omega
  have hb := bmap_spec h hi ht hb
  have hself : update tab i di i = di := update_self ..
  have ht' : (update tab i di i).type ≠ 0 := by rw [hself, hb.type_eq]; exact ht
  obtain ⟨hg, hslot⟩ := hb.refs.write hi ht' (k := off / BSIZE) (by rw [hself]; exact hb.addr) hb.pos v
  rw [hself] at hg hslot ⊢
  exact ⟨hb.toGrown.trans hg, hself ▸ ht', (hb.filled hf hbn).congr hslot⟩

/-- A round writes at least one byte, and not beyond the block. -/
theorem round_le (n off : ℕ) {src : List UInt8} (hnil : src ≠ []) :
    0 < min src.length (BSIZE - off % BSIZE) ∧
      off + min src.length (BSIZE - off % BSIZE) ≤ max n (off / BSIZE + 1) * BSIZE := by
  have hpos : 0 < src.length := List.length_pos_iff.2 hnil
  have hmax := le_max_right n (off / BSIZE + 1)
  simp only [BSIZE] at hmax ⊢
  omega

theorem Bmapped.data {bn : ℕ} (h : Bmapped sb tab d i bn b di d') (hi : i < sb.ninodes)
    (ht : (tab i).type ≠ 0) : sb.IsData b := by
  have hself : update tab i di i = di := update_self ..
  have hu := h.refs.used_slot hi (s := fileSlot bn) (by rw [hself, h.type_eq]; exact ht)
    (by rw [hself, h.addr]; exact h.pos)
  rw [hself, h.addr] at hu
  exact hu.1

theorem writeiLoop_spec (hi : i < sb.ninodes) (fuel : ℕ) : ∀ {tab : ℕ → Dinode} {d : Disk} {n off : ℕ}
    {src : List UInt8} {di : Dinode}, Refs sb tab d → (tab i).type ≠ 0 → Filled (tab i) d n →
    off ≤ n * BSIZE → src.length ≤ fuel → writeiLoop sb fuel d (tab i) off src = .ok (di, d') →
    Grown sb tab d i di d' ∧ Filled di d' (max n (nblocks (off + src.length))) ∧
      (off + src.length ≤ n * BSIZE → di = tab i) := by
  induction fuel with
  | zero =>
    intro tab d n off src di h ht hf hoff hfuel hok
    obtain rfl : src = [] := List.eq_nil_of_length_eq_zero (Nat.le_zero.1 hfuel)
    cases hok
    rw [List.length_nil, Nat.add_zero, max_eq_left (nblocks_le hoff)]
    exact ⟨.refl h i, hf, fun _ => rfl⟩
  | succ fuel ih =>
    intro tab d n off src di h ht hf hoff hfuel hok
    rw [writeiLoop] at hok
    split_ifs at hok with hnil
    · cases hok
      rw [hnil, List.length_nil, Nat.add_zero, max_eq_left (nblocks_le hoff)]
      exact ⟨.refl h i, hf, fun _ => rfl⟩
    · obtain ⟨⟨b, di₁, d₁⟩, hb, hok⟩ := bind_ok hok
      obtain ⟨hpos, hm⟩ := round_le n off hnil
      set m := min src.length (BSIZE - off % BSIZE)
      obtain ⟨hg₁, ht₁, hf₁⟩ := writeiRound h hi ht hf hoff hb
        (setBytes (d₁ b) (off % BSIZE) (src.take m))
      have hself : update tab i di₁ i = di₁ := update_self ..
      have hlen : (off + m) + (src.drop m).length = off + src.length := by
        rw [List.length_drop]
        have : m ≤ src.length := min_le_left _ _
        omega
      rw [← hself] at hok
      obtain ⟨hg, hf', hsame⟩ := ih hg₁.refs ht₁ hf₁ hm (by rw [List.length_drop]; omega) hok
      rw [hlen] at hf' hsame
      refine ⟨hg₁.trans hg, ?_, fun hle => ?_⟩
      · have hge : off / BSIZE + 1 ≤ nblocks (off + src.length) := by
          have := List.length_pos_iff.2 hnil
          simp only [nblocks, BSIZE]
          omega
        rwa [max_assoc, max_eq_right hge] at hf'
      · -- the block was there
        have hlt : off / BSIZE < n := by
          have := List.length_pos_iff.2 hnil
          simp only [BSIZE] at hle ⊢
          omega
        have hb := bmap_spec h hi ht hb
        have hsame₁ := hb.noAlloc ((hf.blocks hb.range).2 hlt)
        rw [hsame (hle.trans (Nat.mul_le_mul_right _ (le_max_left _ _))), hself, hsame₁.1]

/-! ## No block is freed twice here -/

theorem balloc_safe : Safe .freeingFree (fun _ => True) (balloc sb d) := by
  unfold balloc
  split
  · exact .ok trivial
  · exact .error (by rintro ⟨⟩)

theorem loadIndirect_safe (di : Dinode) : Safe .freeingFree (fun _ => True) (loadIndirect sb d di) := by
  unfold loadIndirect
  split
  · exact balloc_safe.bind fun _ _ => .ok trivial
  · exact .ok trivial

theorem bmap_safe (di : Dinode) (bn : ℕ) : Safe .freeingFree (fun _ => True) (bmap sb d di bn) := by
  unfold bmap
  split
  · dsimp only
    split
    · exact balloc_safe.bind fun _ _ => .ok trivial
    · exact .ok trivial
  split
  · refine (loadIndirect_safe di).bind fun _ _ => ?_
    dsimp only
    split
    · exact balloc_safe.bind fun _ _ => .ok trivial
    · exact .ok trivial
  · exact .error (by rintro ⟨⟩)

theorem writeiLoop_safe (fuel : ℕ) : ∀ (d : Disk) (di : Dinode) (off : ℕ) (src : List UInt8),
    Safe .freeingFree (fun _ => True) (writeiLoop sb fuel d di off src) := by
  induction fuel with
  | zero => exact fun _ _ _ _ => .ok trivial
  | succ fuel ih =>
    intro d di off src
    rw [writeiLoop]
    split
    · exact .ok trivial
    · exact (bmap_safe di _).bind fun _ _ => ih _ _ _ _

/-! ## `readi` -/

/-- A block that is there is found without allocating. -/
theorem bmap_found {bn : ℕ} (hbn : bn < MAXFILE) (h : di.slot d (fileSlot bn) ≠ 0) :
    bmap sb d di bn = .ok (di.slot d (fileSlot bn), di, d) := by
  rcases Nat.lt_or_ge bn NDIRECT with h1 | h1
  · rw [fileSlot_direct h1] at h ⊢
    simp only [bmap, dif_pos h1]
    exact if_neg h
  · have hn : bn - NDIRECT < NINDIRECT := by simp only [MAXFILE, NDIRECT] at hbn h1 ⊢; omega
    rw [fileSlot_indirect h1 hn] at h ⊢
    have hia : di.addrs iaddr ≠ 0 := fun h0 => h (by simp only [Dinode.slot, if_pos h0])
    simp only [Dinode.slot, if_neg hia] at h ⊢
    simp only [bmap, dif_neg h1.not_gt, if_pos hn, loadIndirect, if_neg hia, bind, Except.bind, if_neg h]

/-- The byte at offset `k` of a file. -/
def Dinode.byteAt (di : Dinode) (d : Disk) (k : ℕ) : UInt8 :=
  byte (d (di.slot d (fileSlot (k / BSIZE)))) (k % BSIZE)

/-- A part of a block. -/
theorem getBytes_eq (di : Dinode) (d : Disk) {off m : ℕ} (hm : m ≤ BSIZE - off % BSIZE) :
    getBytes (d (di.slot d (fileSlot (off / BSIZE)))) (off % BSIZE) m =
      (List.range m).map fun k => di.byteAt d (off + k) := by
  refine List.map_congr_left fun k hk => ?_
  have hk := List.mem_range.1 hk
  have hdiv : (off + k) / BSIZE = off / BSIZE := by simp only [BSIZE] at hm ⊢; omega
  have hmod : (off + k) % BSIZE = off % BSIZE + k := by simp only [BSIZE] at hm ⊢; omega
  rw [Dinode.byteAt, hdiv, hmod]

/-- **Reading below the size finds every block.** -/
theorem readiLoop_spec (hf : Filled di d n) (hn : n ≤ MAXFILE) (fuel : ℕ) :
    ∀ {off cnt : ℕ}, off + cnt ≤ n * BSIZE → cnt ≤ fuel → readiLoop sb fuel d di off cnt =
      .ok ((List.range cnt).map fun k => di.byteAt d (off + k), di, d) := by
  induction fuel with
  | zero =>
    intro off cnt _ hfuel
    rw [Nat.le_zero.1 hfuel]
    rfl
  | succ fuel ih =>
    intro off cnt hle hfuel
    rw [readiLoop]
    split_ifs with h0
    · rw [h0]
      rfl
    · have hlt : off / BSIZE < n := by simp only [BSIZE] at hle ⊢; omega
      have hs := (hf.blocks (hlt.trans_le hn)).2 hlt
      have hm0 : 0 < min cnt (BSIZE - off % BSIZE) :=
        lt_min (Nat.pos_of_ne_zero h0) (by simp only [BSIZE]; omega)
      have hbytes := getBytes_eq di d (min_le_right cnt (BSIZE - off % BSIZE))
      obtain ⟨l, hl⟩ : ∃ l, cnt = min cnt (BSIZE - off % BSIZE) + l :=
        ⟨cnt - min cnt (BSIZE - off % BSIZE), by omega⟩
      generalize min cnt (BSIZE - off % BSIZE) = m at *
      subst hl
      have hrest := @ih (off + m) l (by omega) (by omega)
      rw [bmap_found (hlt.trans_le hn) hs]
      simp only [bind, Except.bind, Nat.add_sub_cancel_left, hrest, hbytes]
      rw [List.range_add, List.map_append, List.map_map]
      simp only [Function.comp_def, Nat.add_assoc]

/-! ## `itrunc` -/

/-- Some blocks have been freed since the disk was `d`; those that remain are owned by `σ`. -/
structure Freed (sb : Superblock) (σ : ℕ × Slot → Option BlockNo) (d d' : Disk) : Prop where
  super : readsb d' = readsb d
  nmeta : ∀ c < sb.nmeta, bitAt sb d' c = true
  owns : Owns σ (Used sb d')
  dinode : ∀ {j}, j < sb.ninodes → dinodeAt sb d' j = dinodeAt sb d j
  block : ∀ {c}, sb.IsData c → d' c = d c

/-- The owner `k` gives back its block, if it has one. -/
theorem Freed.drop {σ τ : ℕ × Slot → Option BlockNo} (h : Freed sb σ d d') (hok : sb.Ok)
    (hsb : readsb d = sb) {k : ℕ × Slot} (hk : σ k = if b = 0 then none else some b)
    (hτ : τ k = none) (hσ : ∀ l, l ≠ k → τ l = σ l) :
    ∃ d'', itruncBlock d' b = .ok d'' ∧ Freed sb τ d d'' := by
  unfold itruncBlock
  split_ifs at hk ⊢ with hb
  · refine ⟨d', rfl, { h with owns := h.owns.congr (fun l => ?_) fun _ => Iff.rfl }⟩
    by_cases hl : l = k
    · rw [hl, hτ, hk]
    · exact hσ l hl
  · have hu := h.owns.mem hk
    obtain ⟨d'', hd, hf⟩ := bfree_spec hok (h.super.trans hsb) hu.1.2 hu.2
    refine ⟨d'', hd, hf.super.trans h.super, fun c hc => ?_, ?_, fun hj => ?_, fun hc => ?_⟩
    · rw [hf.bit (hc.trans_le hok.data), if_neg (by have := hu.1.1; omega)]
      exact h.nmeta c hc
    · refine h.owns.drop hk hτ hσ fun w => ?_
      constructor
      · rintro ⟨hw, hbw⟩
        rw [hf.bit hw.2] at hbw
        split_ifs at hbw with heq
        exact ⟨fun hwb => heq (by rw [hwb]), hw, hbw⟩
      · rintro ⟨hne, hw, hbw⟩
        refine ⟨hw, ?_⟩
        rw [hf.bit hw.2, if_neg fun heq => hne (UInt32.toNat_inj.1 heq.symm)]
        exact hbw
    · rw [hf.dinode hj, h.dinode hj]
    · rw [hf.block hc, h.block hc]

theorem owner_eq (hi : i < sb.ninodes) (ht : (tab i).type ≠ 0) (s : Slot) :
    owner sb tab d (i, s) =
      if (tab i).slot d s = 0 then none else some ((tab i).slot d s) := by
  split_ifs with h
  · exact owner_none h
  · exact owner_some hi ht h

/-- The entry `k` of `addrs` of inode `i` is cleared. -/
theorem owner_clear {f : Fin (NDIRECT + 1) → BlockNo} {k : Fin (NDIRECT + 1)} (hk : k ≠ iaddr)
    {l : ℕ × Slot} (hl : l ≠ (i, .addr k)) :
    owner sb (update tab i { tab i with addrs := update f k 0 }) d l =
      owner sb (update tab i { tab i with addrs := f }) d l := by
  obtain ⟨j, t⟩ := l
  by_cases hji : j = i
  · subst hji
    refine owner_congr (by simp only [update_self]) fun _ => ?_
    simp only [update_self]
    cases t with
    | addr m =>
      have hm : m ≠ k := fun hm => hl (by rw [hm])
      simp only [Dinode.slot, update_of_ne hm]
    | ind m => simp only [Dinode.slot, update_of_ne hk.symm]
  · exact owner_congr (by simp only [update_of_ne hji])
      fun _ => by simp only [update_of_ne hji]

/-- The loop over the direct blocks. -/
theorem itruncDirect_spec (h : Refs sb tab d) (hi : i < sb.ninodes) (ht : (tab i).type ≠ 0) :
    ∃ f d', (List.finRange NDIRECT).foldlM (fun s k => itruncAddr s k.castSucc) (tab i, d) =
        .ok ({ tab i with addrs := f }, d') ∧
      Freed sb (owner sb (update tab i { tab i with addrs := f }) d) d d' ∧
      (∀ k : Fin NDIRECT, f k.castSucc = 0) ∧ f iaddr = (tab i).addrs iaddr := by
  set I : List (Fin NDIRECT) → Dinode × Disk → Prop := fun l s =>
    ∃ f, s.1 = { tab i with addrs := f } ∧
      Freed sb (owner sb (update tab i { tab i with addrs := f }) d) d s.2 ∧
      (∀ k, k ∉ l → f k.castSucc = 0) ∧ f iaddr = (tab i).addrs iaddr with hI
  have hstep : ∀ k l s, I (k :: l) s → ∃ s', itruncAddr s k.castSucc = .ok s' ∧ I l s' := by
    rintro k l ⟨_, d'⟩ ⟨f, rfl, hf, hz, hia⟩
    have hki : k.castSucc ≠ iaddr := (Fin.castSucc_lt_last k).ne
    have hk : owner sb (update tab i { tab i with addrs := f }) d (i, .addr k.castSucc) =
        if f k.castSucc = 0 then none else some (f k.castSucc) := by
      rw [owner_eq hi (by rwa [update_self]), update_self]
      rfl
    obtain ⟨d'', hd, hf'⟩ := hf.drop h.ok h.super hk (owner_none (by
      simp only [update_self, Dinode.slot])) fun m hm => owner_clear hki hm
    refine ⟨({ tab i with addrs := update f k.castSucc 0 }, d''),
      by simp only [itruncAddr, hd]; rfl, _, rfl, hf', fun m hm => ?_, ?_⟩
    · by_cases hmk : m = k
      · rw [hmk, update_self]
      · have : m.castSucc ≠ k.castSucc := fun heq => hmk (Fin.castSucc_injective _ heq)
        rw [update_of_ne this]
        exact hz m (by simp [hmk, hm])
    · rw [update_of_ne hki.symm]
      exact hia
  have hinit : I (List.finRange NDIRECT) (tab i, d) := by
    refine ⟨(tab i).addrs, rfl, ⟨rfl, h.nmeta, ?_, fun _ => rfl, fun _ => rfl⟩,
      fun k hk => absurd (List.mem_finRange k) hk, rfl⟩
    rw [update_eq_self]
    exact h.owns
  obtain ⟨⟨_, d'⟩, hok, f, rfl, hf, hz, hia⟩ := foldlM_ok hstep _ _ hinit
  exact ⟨f, d', hok, hf, fun k => hz k List.not_mem_nil, hia⟩

/-- `σ` without the entries of the indirect block of inode `i` that are not in `l`. -/
def without (σ : ℕ × Slot → Option BlockNo) (i : ℕ) (l : List (Fin NINDIRECT)) :
    ℕ × Slot → Option BlockNo
  | (j, .ind k) => if j = i ∧ k ∉ l then none else σ (j, .ind k)
  | x => σ x

/-- The loop over the entries of the indirect block. -/
theorem itruncIndirect_spec (hok : sb.Ok) (hsb : readsb d = sb) (hi : i < sb.ninodes)
    (ht : (tab i).type ≠ 0) (h : Freed sb (owner sb tab d) d d')
    (hu : (tab i).addrs iaddr ≠ 0 → sb.IsData ((tab i).addrs iaddr)) :
    ∃ d'', itruncIndirect (tab i) d' = .ok d'' ∧ Freed sb (without (owner sb tab d) i []) d d'' := by
  unfold itruncIndirect
  split_ifs with hia
  · refine ⟨d', rfl, { h with owns := h.owns.congr (fun x => ?_) fun _ => Iff.rfl }⟩
    rcases x with ⟨j, k | k⟩
    · rfl
    · by_cases hji : j = i
      · subst hji
        have h0 : owner sb tab d (j, .ind k) = none :=
          owner_none (by simp only [Dinode.slot, if_pos hia])
        simp only [without, h0, ite_self]
      · simp only [without, if_neg fun hc : j = i ∧ k ∉ [] => hji hc.1]
  · have ha : d' ((tab i).addrs iaddr) = d ((tab i).addrs iaddr) := h.block (hu hia)
    set a := d' ((tab i).addrs iaddr)
    have hstep : ∀ k l d₁, (k :: l).Nodup ∧ Freed sb (without (owner sb tab d) i (k :: l)) d d₁ →
        ∃ d₂, itruncBlock d₁ (indirect a k) = .ok d₂ ∧ l.Nodup ∧
          Freed sb (without (owner sb tab d) i l) d d₂ := by
      rintro k l d₁ ⟨hnd, hf⟩
      rw [List.nodup_cons] at hnd
      have hk : without (owner sb tab d) i (k :: l) (i, .ind k) =
          if indirect a k = 0 then none else some (indirect a k) := by
        simp only [without, List.mem_cons, true_or, not_true_eq_false, and_false, if_false]
        rw [owner_eq hi ht]
        simp only [Dinode.slot, if_neg hia, ha]
      have hσ : ∀ x, x ≠ (i, .ind k) →
          without (owner sb tab d) i l x = without (owner sb tab d) i (k :: l) x := by
        rintro ⟨j, m | m⟩ hx
        · rfl
        · have hm : j = i → m ≠ k := by rintro rfl rfl; exact hx rfl
          have : (j = i ∧ m ∉ l) = (j = i ∧ m ∉ k :: l) := propext (and_congr_right fun hj => by
            simp [hm hj])
          simp only [without, this]
      obtain ⟨d₂, hd, hf'⟩ := hf.drop hok hsb hk (if_pos ⟨rfl, hnd.1⟩) hσ
      exact ⟨d₂, hd, hnd.2, hf'⟩
    have hinit : (List.finRange NINDIRECT).Nodup ∧
        Freed sb (without (owner sb tab d) i (List.finRange NINDIRECT)) d d' := by
      refine ⟨List.nodup_finRange _, { h with owns := h.owns.congr (fun x => ?_) fun _ => Iff.rfl }⟩
      rcases x with ⟨j, k | k⟩
      · rfl
      · exact if_neg fun hc => hc.2 (List.mem_finRange k)
    obtain ⟨d'', hd, -, hf⟩ := foldlM_ok (I := fun l d₁ => l.Nodup ∧
      Freed sb (without (owner sb tab d) i l) d d₁) hstep (List.finRange NINDIRECT) d' hinit
    exact ⟨d'', hd, hf⟩

/-- An inode without contents. -/
def Dinode.empty (di : Dinode) : Dinode := { di with addrs := fun _ => 0, size := 0 }

theorem slot_zero (h : ∀ k, di.addrs k = 0) (s : Slot) : di.slot d s = 0 := by
  cases s with
  | addr k => exact h k
  | ind j => exact if_pos (h iaddr)

theorem slot_empty (di : Dinode) (s : Slot) : di.empty.slot d s = 0 := slot_zero (fun _ => rfl) s

/-- **`itrunc`** frees every block of the inode, and does not panic. -/
theorem itrunc_spec (h : Refs sb tab d) {ip : Inode} (hi : ip.inum < sb.ninodes)
    (ht : ip.di.type ≠ 0) (hdi : tab ip.inum = ip.di) :
    ∃ d', itrunc sb d ip =
        .ok ({ ip with di := ip.di.empty }, setDinode sb d' ip.inum ip.di.empty) ∧
      Refs sb (update tab ip.inum ip.di.empty) d' ∧
      (∀ {j}, j < sb.ninodes → dinodeAt sb d' j = dinodeAt sb d j) ∧
      ∀ {c}, sb.IsData c → d' c = d c := by
  rw [← hdi] at ht ⊢
  set i := ip.inum
  obtain ⟨f, d₁, hd₁, hf₁, hz, hia⟩ := itruncDirect_spec h hi ht
  set tab₁ := update tab i { tab i with addrs := f } with htab₁
  have hself : tab₁ i = { tab i with addrs := f } := update_self ..
  have ht₁ : (tab₁ i).type ≠ 0 := by rw [hself]; exact ht
  obtain ⟨d₂, hd₂, hf₂⟩ := itruncIndirect_spec h.ok h.super hi ht₁ hf₁ fun h0 => by
    rw [hself] at h0 ⊢
    simp only [hia] at h0 ⊢
    exact (h.used_iaddr hi ht h0).1
  have hk : without (owner sb tab₁ d) i [] (i, .addr iaddr) =
      if f iaddr = 0 then none else some (f iaddr) := by
    change owner sb tab₁ d (i, .addr iaddr) = _
    rw [owner_eq hi ht₁, hself]
    rfl
  have hempty : update tab i (tab i).empty i = (tab i).empty := update_self ..
  -- nothing is left of inode `i`
  have hnone : ∀ s, owner sb (update tab i (tab i).empty) d (i, s) = none := fun s =>
    owner_none (by rw [hempty]; exact slot_empty _ s)
  have hσ : ∀ x, x ≠ (i, .addr iaddr) → owner sb (update tab i (tab i).empty) d x =
      without (owner sb tab₁ d) i [] x := by
    rintro ⟨j, s⟩ hx
    by_cases hji : j = i
    · subst hji
      rw [hnone]
      cases s with
      | addr k =>
        have hki : k ≠ iaddr := by rintro rfl; exact hx rfl
        have h0 : f k = 0 := by
          rw [← Fin.castSucc_castPred k hki]
          exact hz _
        exact (owner_none (by rw [hself]; exact h0)).symm
      | ind k => exact (if_pos ⟨rfl, List.not_mem_nil⟩).symm
    · have heq : owner sb (update tab i (tab i).empty) d (j, s) = owner sb tab₁ d (j, s) :=
        owner_congr (by rw [htab₁, update_of_ne hji, update_of_ne hji]) fun _ => by
          rw [htab₁, update_of_ne hji, update_of_ne hji]
      rw [heq]
      cases s with
      | addr k => rfl
      | ind k => exact (if_neg fun hc => hji hc.1).symm
  obtain ⟨d₃, hd₃, hf₃⟩ := hf₂.drop h.ok h.super hk (hnone _) hσ
  have hf0 : update f iaddr 0 = fun _ => 0 := by
    funext k
    rw [update_apply]
    split_ifs with hki
    · rfl
    · rw [← Fin.castSucc_castPred k hki]
      exact hz _
  refine ⟨d₃, ?_, ⟨h.ok, hf₃.super.trans h.super, hf₃.nmeta, hf₃.owns.congr (fun x => ?_)
    fun _ => Iff.rfl⟩, hf₃.dinode, hf₃.block⟩
  · rw [hself] at hd₂
    have hd₄ : itruncAddr ({ tab i with addrs := f }, d₂) iaddr =
        .ok ({ tab i with addrs := fun _ => 0 }, d₃) := by
      simp only [itruncAddr, hd₃, hf0]
      rfl
    simp only [itrunc, ← hdi, bind, Except.bind, hd₁, hd₂, hd₄]
    rfl
  · obtain ⟨j, s⟩ := x
    by_cases hji : j = i
    · subst hji
      rw [hnone]
      exact owner_none (by rw [hempty]; exact slot_empty _ s)
    · by_cases hj : j < sb.ninodes
      · refine owner_congr Iff.rfl fun htj => slot_congr (fun h0 => hf₃.block ?_) s
        rw [update_of_ne hji] at htj h0 ⊢
        exact (h.used_iaddr hj htj h0).1
      · rw [owner, owner, if_neg fun h => hj h.1, if_neg fun h => hj h.1]

end

end Xv6
