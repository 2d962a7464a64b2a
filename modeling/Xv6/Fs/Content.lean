/-
  The contents of files.

  `contents` are the bytes of a file, read block by block through its inode.
  `readi` returns a part of them, and `writei` puts its bytes in their place
  (`writei_contents`); the contents of all other files stay as they are.
-/
import Mathlib.Data.List.GetD
import Xv6.Fs.Runs

namespace Xv6

open Own Fallible Bytes Refs Consistent Function

def contents (di : Dinode) (d : Disk) : List UInt8 :=
  (List.range di.size.toNat).map (di.byteAt d)

theorem length_contents (di : Dinode) (d : Disk) : (contents di d).length = di.size.toNat := by
  rw [contents, List.length_map, List.length_range]

section
variable {sb : Superblock} {tab : ℕ → Dinode} {d d' : Disk} {i j : ℕ} {b : BlockNo} {n : ℕ}

/-! ## `bmap` changes no file -/

theorem Balloced.keeps (hb : Balloced sb d b d') {c : BlockNo} (hc : Used sb d c) :
    d' c = d c ∧ Used sb d' c := by
  refine ⟨by rw [hb.block hc.1, if_neg (ne_balloced hb hc)], hc.1, ?_⟩
  rw [hb.bit hc.1.2]
  split_ifs
  · rfl
  · exact hc.2

variable {bn : ℕ} {di : Dinode} {k : ℕ} {off : ℕ} {xs : List UInt8}

theorem bmap_block (h : Refs sb tab d) (hok : bmap sb d (tab i) bn = .ok (b, di, d')) {c : BlockNo}
    (hc : Used sb d c) (hne : c ≠ (tab i).addrs iaddr) : d' c = d c := by
  unfold bmap at hok
  split at hok
  · dsimp only at hok
    split at hok
    · obtain ⟨⟨b₁, d₁⟩, hb, hok⟩ := bind_ok hok
      cases hok
      exact ((balloc_spec h.ok h.nmeta hb).keeps hc).1
    · cases hok
      rfl
  split at hok
  · obtain ⟨⟨ind, di₁, d₁⟩, hload, hok⟩ := bind_ok hok
    -- the indirect block is another one, also if it is new
    obtain ⟨hc₁, hu₁, hind, hmeta⟩ : d₁ c = d c ∧ Used sb d₁ c ∧ c ≠ ind ∧
        ∀ x < sb.nmeta, bitAt sb d₁ x = true := by
      unfold loadIndirect at hload
      split at hload
      · obtain ⟨⟨b₁, d₂⟩, hb, hload⟩ := bind_ok hload
        cases hload
        have hb := balloc_spec h.ok h.nmeta hb
        refine ⟨(hb.keeps hc).1, (hb.keeps hc).2, ne_balloced hb hc, fun x hx => ?_⟩
        rw [hb.bit (hx.trans_le h.ok.data)]
        split_ifs
        · rfl
        · exact h.nmeta x hx
      · cases hload
        exact ⟨rfl, hc, hne, h.nmeta⟩
    dsimp only at hok
    split at hok
    · obtain ⟨⟨b₂, d₂⟩, hb, hok⟩ := bind_ok hok
      cases hok
      rw [update_of_ne hind]
      exact ((balloc_spec h.ok hmeta hb).keeps hu₁).1.trans hc₁
    · cases hok
      exact hc₁
  · cases hok

/-- The blocks of a file are not indirect blocks. -/
theorem Refs.fileSlot_ne_iaddr (h : Refs sb tab d) (hi : i < sb.ninodes) (hj : j < sb.ninodes)
    (hti : (tab i).type ≠ 0) (htj : (tab j).type ≠ 0) (hs : (tab j).slot d (fileSlot k) ≠ 0) :
    (tab j).slot d (fileSlot k) ≠ (tab i).addrs iaddr :=
  h.slot_ne (t := .addr iaddr) hj hi htj hti hs fun heq => fileSlot_ne k (Prod.mk.inj heq).2

theorem bmap_bytes (h : Refs sb tab d) (hi : i < sb.ninodes) (ht : (tab i).type ≠ 0)
    (hok : bmap sb d (tab i) bn = .ok (b, di, d')) (hj : j < sb.ninodes) (htj : (tab j).type ≠ 0)
    (hs : (tab j).slot d (fileSlot (k / BSIZE)) ≠ 0) :
    (update tab i di j).byteAt d' k = (tab j).byteAt d k := by
  have hb := bmap_spec h hi ht hok
  have hslot : (update tab i di j).slot d' (fileSlot (k / BSIZE)) =
      (tab j).slot d (fileSlot (k / BSIZE)) := by
    by_cases hji : j = i
    · subst hji
      rw [update_self]
      exact hb.keep hs
    · rw [update_of_ne hji]
      exact hb.other hj hji htj _
  rw [Dinode.byteAt, Dinode.byteAt, hslot,
    bmap_block h hok (h.used_slot hj htj hs) (h.fileSlot_ne_iaddr hi hj ht htj hs)]

/-- A store to block `bn` of file `i`. -/
theorem write_bytes (h : Refs sb tab d) (hi : i < sb.ninodes) (ht : (tab i).type ≠ 0)
    (hbn : bn < MAXFILE) (hb : (tab i).slot d (fileSlot bn) = b) (hb0 : b ≠ 0) (v : Block)
    (hj : j < sb.ninodes) (htj : (tab j).type ≠ 0) (hk : k / BSIZE < MAXFILE)
    (hs : (tab j).slot d (fileSlot (k / BSIZE)) ≠ 0) :
    (tab j).byteAt (update d b v) k =
      if j = i ∧ k / BSIZE = bn then byte v (k % BSIZE) else (tab j).byteAt d k := by
  obtain ⟨hg, hslot⟩ := h.write hi ht hb hb0 v
  have hslotj : (tab j).slot (update d b v) (fileSlot (k / BSIZE)) =
      (tab j).slot d (fileSlot (k / BSIZE)) := by
    by_cases hji : j = i
    · subst hji
      exact hslot _
    · exact hg.other hj hji htj _
  rw [Dinode.byteAt, hslotj]
  split_ifs with hc
  · obtain ⟨rfl, rfl⟩ := hc
    rw [hb, update_self]
  · rw [update_of_ne, Dinode.byteAt]
    rw [← hb]
    refine h.slot_ne hj hi htj ht hs fun heq => hc ?_
    obtain ⟨rfl, hf⟩ := Prod.mk.inj heq
    exact ⟨rfl, fileSlot_inj hk hbn hf⟩

/-! ## `writei` -/

/-- The bytes `xs` are stored at offset `off`; `f` are the bytes before. -/
def overlay (f : ℕ → UInt8) (off : ℕ) (xs : List UInt8) (k : ℕ) : UInt8 :=
  if off ≤ k then xs.getD (k - off) (f k) else f k

/-- Storing a part and then the rest. -/
theorem overlay_split (f : ℕ → UInt8) (off m : ℕ) (xs : List UInt8) (k : ℕ) :
    overlay (overlay f off (xs.take m)) (off + m) (xs.drop m) k = overlay f off xs k := by
  unfold overlay
  split_ifs with h1 h2 h2
  · simp only [List.getD_eq_getElem?_getD, List.getElem?_drop, List.getElem?_take]
    rw [if_neg (by omega), show m + (k - (off + m)) = k - off by omega]
    rfl
  · omega
  · simp only [List.getD_eq_getElem?_getD, List.getElem?_take]
    rw [if_pos (by omega)]
  · rfl

/-- Inside the bytes stored, or where the bytes before agree. -/
theorem overlay_congr {f g : ℕ → UInt8} (h : f k = g k ∨ off ≤ k ∧ k < off + xs.length) :
    overlay f off xs k = overlay g off xs k := by
  unfold overlay
  rcases h with h | ⟨h1, h2⟩
  · rw [h]
  · have hlt : k - off < xs.length := by omega
    rw [if_pos h1, if_pos h1, List.getD_eq_getElem _ _ hlt, List.getD_eq_getElem _ _ hlt]

/-- Outside the bytes stored. -/
theorem overlay_out {f : ℕ → UInt8} (h : k < off ∨ off + xs.length ≤ k) :
    overlay f off xs k = f k := by
  unfold overlay
  split_ifs with h1
  · exact List.getD_eq_default _ _ (by omega)
  · rfl

/-- What the loop of `writei` does to the bytes of the file and of other files. -/
structure Written (sb : Superblock) (tab : ℕ → Dinode) (d : Disk) (i n off : ℕ) (src : List UInt8)
    (di : Dinode) (d' : Disk) : Prop where
  self : ∀ {k}, k / BSIZE < MAXFILE → k / BSIZE < n ∨ k < off + src.length →
    di.byteAt d' k = overlay ((tab i).byteAt d) off src k
  other : ∀ {j}, j < sb.ninodes → j ≠ i → (tab j).type ≠ 0 → ∀ {k}, k / BSIZE < MAXFILE →
    (tab j).slot d (fileSlot (k / BSIZE)) ≠ 0 → (tab j).byteAt d' k = (tab j).byteAt d k

/-- The block after one round of the loop. -/
theorem byte_round {off m : ℕ} {src : List UInt8} {v : Block} {f : ℕ → UInt8}
    (hk : k / BSIZE = off / BSIZE)
    (hf : byte v (k % BSIZE) = f k ∨ off ≤ k ∧ k < off + (src.take m).length) :
    byte (setBytes v (off % BSIZE) (src.take m)) (k % BSIZE) = overlay f off (src.take m) k := by
  have hlt : k % BSIZE < BSIZE := Nat.mod_lt _ (by decide)
  have hiff : off % BSIZE ≤ k % BSIZE ↔ off ≤ k := by simp only [BSIZE] at hk ⊢; omega
  have hsub : k % BSIZE - off % BSIZE = k - off := by simp only [BSIZE] at hk ⊢; omega
  rw [byte_setBytes _ _ _ hlt, hsub]
  simp only [hiff]
  exact overlay_congr (f := fun _ => byte v (k % BSIZE)) (k := k) hf

theorem writeiRound_bytes (h : Refs sb tab d) (hi : i < sb.ninodes) (ht : (tab i).type ≠ 0)
    (hf : Filled (tab i) d n) (hoff : off ≤ n * BSIZE)
    (hb : bmap sb d (tab i) (off / BSIZE) = .ok (b, di, d')) (src : List UInt8) :
    Written sb tab d i n off (src.take (min src.length (BSIZE - off % BSIZE))) di
      (update d' b (setBytes (d' b) (off % BSIZE)
        (src.take (min src.length (BSIZE - off % BSIZE))))) := by
  have hbn : off / BSIZE ≤ n := by simp only [BSIZE] at hoff ⊢; omega
  have hmap := bmap_spec h hi ht hb
  have hself : update tab i di i = di := update_self ..
  have ht₁ : (update tab i di i).type ≠ 0 := by rw [hself, hmap.type_eq]; exact ht
  have hf₁ := hmap.filled hf hbn
  set m := min src.length (BSIZE - off % BSIZE) with hm
  have hlen : (src.take m).length = m := by
    rw [List.length_take]
    exact min_eq_left (min_le_left _ _)
  have hwrite := fun {j k} => write_bytes (j := j) (k := k) hmap.refs hi ht₁ hmap.range
    (by rw [hself]; exact hmap.addr) hmap.pos (setBytes (d' b) (off % BSIZE) (src.take m))
  refine ⟨fun {k} hk hkn => ?_, fun {j} hj hji htj k hk hs => ?_⟩
  · rw [hlen] at hkn
    have hlt : k / BSIZE < max n (off / BSIZE + 1) := by
      rcases hkn with hkn | hkn
      · exact lt_max_of_lt_left hkn
      · refine lt_max_of_lt_right ?_
        simp only [BSIZE] at hm ⊢
        omega
    have hw := hwrite hi ht₁ hk (by rw [hself]; exact (hf₁.blocks hk).2 hlt)
    rw [hself] at hw
    rw [hw]
    split_ifs with hc
    · refine byte_round hc.2 ?_
      rcases Nat.lt_or_ge (off / BSIZE) n with hlt | hge
      · -- the block was there
        obtain ⟨rfl, rfl⟩ := hmap.noAlloc ((hf.blocks hmap.range).2 hlt)
        left
        rw [Dinode.byteAt, hc.2, hmap.addr]
      · right
        have := hc.2
        rw [hlen]
        simp only [BSIZE] at hoff hge this hkn hbn ⊢
        omega
    · have hne : k / BSIZE ≠ off / BSIZE := fun he => hc ⟨rfl, he⟩
      have hkn' : k / BSIZE < n := by
        rcases hkn with hkn | hkn
        · exact hkn
        · simp only [BSIZE] at hm hne hbn ⊢
          omega
      have hbytes := bmap_bytes h hi ht hb hi ht ((hf.blocks hk).2 hkn')
      rw [hself] at hbytes
      rw [hbytes, overlay_out]
      rw [hlen]
      simp only [BSIZE] at hm hne ⊢
      omega
  · have htab : update tab i di j = tab j := update_of_ne hji ..
    have hs' : (tab j).slot d' (fileSlot (k / BSIZE)) ≠ 0 := by rwa [hmap.other hj hji htj]
    have hw := hwrite hj (by rwa [htab]) hk (by rwa [htab])
    rw [htab, if_neg fun hc => hji hc.1] at hw
    have hbytes := bmap_bytes h hi ht hb hj htj hs
    rw [htab] at hbytes
    rw [hw, hbytes]

/-- **The loop of `writei`** stores the bytes of `src` at `off`. -/
theorem writeiLoop_bytes (hi : i < sb.ninodes) (fuel : ℕ) : ∀ {tab : ℕ → Dinode} {d : Disk}
    {n off : ℕ} {src : List UInt8} {di : Dinode}, Refs sb tab d → (tab i).type ≠ 0 →
    Filled (tab i) d n → off ≤ n * BSIZE → src.length ≤ fuel →
    writeiLoop sb fuel d (tab i) off src = .ok (di, d') → Written sb tab d i n off src di d' := by
  induction fuel with
  | zero =>
    intro tab d n off src di h ht hf hoff hfuel hok
    obtain rfl : src = [] := List.eq_nil_of_length_eq_zero (Nat.le_zero.1 hfuel)
    cases hok
    refine ⟨fun _ _ => ?_, fun _ _ _ _ _ _ => rfl⟩
    simp [overlay]
  | succ fuel ih =>
    intro tab d n off src di h ht hf hoff hfuel hok
    rw [writeiLoop] at hok
    split_ifs at hok with hnil
    · cases hok
      subst hnil
      refine ⟨fun _ _ => ?_, fun _ _ _ _ _ _ => rfl⟩
      simp [overlay]
    · obtain ⟨⟨b, di₁, d₁⟩, hb, hok⟩ := bind_ok hok
      obtain ⟨hpos, hm⟩ := round_le n off hnil
      have hw₁ := writeiRound_bytes h hi ht hf hoff hb src
      set m := min src.length (BSIZE - off % BSIZE) with hmdef
      obtain ⟨hg₁, ht₁, hf₁⟩ := writeiRound h hi ht hf hoff hb
        (setBytes (d₁ b) (off % BSIZE) (src.take m))
      have hself : update tab i di₁ i = di₁ := update_self ..
      have hle : m ≤ src.length := min_le_left _ _
      rw [← hself] at hok
      have hw := ih hg₁.refs ht₁ hf₁ hm (by rw [List.length_drop]; omega) hok
      refine ⟨fun {k} hk hkn => ?_, fun {j} hj hji htj k hk hs => ?_⟩
      · rw [hw.self hk, hself, ← overlay_split _ off m src k]
        · refine overlay_congr ?_
          rw [List.length_drop]
          by_cases hc : k / BSIZE < n ∨ k < off + m
          · left
            refine hw₁.self hk ?_
            rwa [List.length_take, min_eq_left hle]
          · right
            omega
        · rw [List.length_drop]
          rcases hkn with hkn | hkn
          · exact .inl (lt_max_of_lt_left hkn)
          · right
            omega
      · have htab : update tab i di₁ j = tab j := update_of_ne hji ..
        have hsj := hg₁.other hj hji htj (fileSlot (k / BSIZE))
        have hw' := hw.other hj hji (by rwa [htab]) hk (by rwa [htab, hsj])
        rw [htab] at hw'
        rw [hw', hw₁.other hj hji htj hk hs]

/-- The bytes `xs` in the place of those at `off`. -/
def overwrite (l : List UInt8) (off : ℕ) (xs : List UInt8) : List UInt8 :=
  l.take off ++ (xs ++ l.drop (off + xs.length))

theorem length_overwrite (l : List UInt8) (off : ℕ) (xs : List UInt8) :
    (overwrite l off xs).length = min off l.length + (xs.length + (l.length - (off + xs.length))) := by
  simp only [overwrite, List.length_append, List.length_take, List.length_drop]

/-- Bytes written after others. -/
theorem overwrite_append {l : List UInt8} (h : off + xs.length ≤ (overwrite l off xs).length)
    (ys : List UInt8) :
    overwrite (overwrite l off xs) (off + xs.length) ys = overwrite l off (xs ++ ys) := by
  rw [length_overwrite] at h
  have hoff : off ≤ l.length := by omega
  have htake : (l.take off ++ xs).length = off + xs.length := by
    rw [List.length_append, List.length_take, min_eq_left hoff]
  have hdrop : (l.take off ++ (xs ++ l.drop (off + xs.length))).drop (off + xs.length + ys.length) =
      l.drop (off + (xs ++ ys).length) := by
    rw [← List.append_assoc, List.drop_append, List.drop_eq_nil_of_le (by omega), List.nil_append,
      List.drop_drop, htake, List.length_append]
    congr 1
    omega
  simp only [overwrite]
  rw [hdrop, ← List.append_assoc (l.take off), ← htake, List.take_left, List.append_assoc,
    List.append_assoc]

theorem map_overlay (f : ℕ → UInt8) {off size : ℕ} (hoff : off ≤ size) (xs : List UInt8) :
    (List.range (max size (off + xs.length))).map (overlay f off xs) =
      overwrite ((List.range size).map f) off xs := by
  rw [overwrite]
  refine List.ext_getElem ?_ fun k hk _ => ?_
  · simp only [List.length_append, List.length_take, List.length_drop, List.length_map,
      List.length_range]
    omega
  rw [List.length_map, List.length_range] at hk
  rw [List.getElem_map, List.getElem_range, overlay, List.getElem_append]
  simp only [List.length_take, List.length_map, List.length_range, min_eq_left hoff]
  by_cases h1 : k < off
  · rw [dif_pos h1, if_neg (Nat.not_le.2 h1)]
    simp
  · rw [dif_neg h1, if_pos (Nat.not_lt.1 h1), List.getElem_append]
    by_cases h2 : k - off < xs.length
    · rw [dif_pos h2]
      exact List.getD_eq_getElem _ _ h2
    · rw [dif_neg h2, List.getD_eq_default _ _ (Nat.not_lt.1 h2)]
      simp only [List.getElem_drop, List.getElem_map, List.getElem_range]
      congr 1
      omega

theorem contents_congr {di di' : Dinode} (hs : di'.size = di.size)
    (h : ∀ k < di.size.toNat, di'.byteAt d' k = di.byteAt d k) : contents di' d' = contents di d := by
  rw [contents, contents, hs]
  exact List.map_congr_left fun k hk => h k (List.mem_range.1 hk)

/-- A file keeps its bytes when the data blocks do. -/
theorem byteAt_data (h : Refs sb tab d) (hi : i < sb.ninodes) (ht : (tab i).type ≠ 0)
    (hd : ∀ {c}, sb.IsData c → d' c = d c) (hs : (tab i).slot d (fileSlot (k / BSIZE)) ≠ 0) :
    (tab i).byteAt d' k = (tab i).byteAt d k := by
  have hslot : (tab i).slot d' (fileSlot (k / BSIZE)) = (tab i).slot d (fileSlot (k / BSIZE)) :=
    slot_congr (fun h0 => hd (h.used_iaddr hi ht h0).1) _
  rw [Dinode.byteAt, Dinode.byteAt, hslot, hd (h.used_slot hi ht hs).1]

end

section
variable {F : Prop} {sb : Superblock} {d d' : Disk} {ip ip' : Inode} {dev : Devsw} {i j : ℕ}

/-- The blocks of the bytes of a file are there. -/
theorem Owned.slot_ne_zero (h : Owned F sb d) (hi : i < sb.ninodes)
    (ht : (dinodeAt sb d i).type ≠ 0) {k : ℕ} (hk : k < (dinodeAt sb d i).size.toNat) :
    k / BSIZE < MAXFILE ∧ (dinodeAt sb d i).slot d (fileSlot (k / BSIZE)) ≠ 0 := by
  have hsize := h.size hi ht
  have hlt : k / BSIZE < MAXFILE := Nat.div_lt_of_lt_mul (by rw [Nat.mul_comm]; omega)
  refine ⟨hlt, ((h.filled hi ht).blocks hlt).2 ?_⟩
  simp only [nblocks, BSIZE]
  omega

/-- What a call does to the files: inode `i` may change, the others and their contents stay. -/
def KeepsFiles (sb : Superblock) (d : Disk) (i : ℕ) (d' : Disk) : Prop :=
  ∀ j < sb.ninodes, j ≠ i → (dinodeAt sb d j).type ≠ 0 →
    dinodeAt sb d' j = dinodeAt sb d j ∧ contents (dinodeAt sb d j) d' = contents (dinodeAt sb d j) d

theorem KeepsFiles.refl (sb : Superblock) (d : Disk) (i : ℕ) : KeepsFiles sb d i d :=
  fun _ _ _ _ => ⟨rfl, rfl⟩

/-- The data blocks stay, and of the inodes only `i` changes. -/
theorem Owned.keepsFiles (h : Owned F sb d)
    (hdin : ∀ {j}, j < sb.ninodes → j ≠ i → dinodeAt sb d' j = dinodeAt sb d j)
    (hd : ∀ {c}, sb.IsData c → d' c = d c) : KeepsFiles sb d i d' := fun _ hj hji htj =>
  ⟨hdin hj hji, contents_congr rfl fun _ hk =>
    byteAt_data h.refs hj htj hd (h.slot_ne_zero hj htj hk).2⟩

/-- From the loop of `writei` to the disk at its end. -/
theorem Written.contents (h : Owned F sb d) (hi : ip.inum < sb.ninodes)
    (hdi : dinodeAt sb d ip.inum = ip.di) {src : List UInt8} {off : ℕ}
    (hk : Kept F sb d ip ip' d') {di : Dinode} {d₂ : Disk}
    (hw : Written sb (dinodeAt sb d) d ip.inum (nblocks ip.di.size.toNat) off src di d₂)
    (hd : ∀ {c}, sb.IsData c → d₂ c = d' c) (ha : ip'.di.addrs = di.addrs)
    (hs : ip'.di.size.toNat = max ip.di.size.toNat (off + src.length))
    (hoff : off ≤ ip.di.size.toNat) : KeepsFiles sb d ip.inum d' ∧
      Xv6.contents ip'.di d' = overwrite (Xv6.contents ip.di d) off src := by
  have h' := hk.owned
  -- the bytes of a file on the final disk are those after the loop
  have hbyte : ∀ {j}, j < sb.ninodes → (dinodeAt sb d' j).type ≠ 0 → ∀ {k},
      k < (dinodeAt sb d' j).size.toNat →
      (dinodeAt sb d' j).byteAt d' k = (dinodeAt sb d' j).byteAt d₂ k := fun hj htj k hk =>
    (byteAt_data h'.refs hj htj hd (h'.slot_ne_zero hj htj hk).2).symm
  constructor
  · intro j hj hji htj
    have hsame := hk.other hj hji
    refine ⟨hsame, contents_congr rfl fun k hk => ?_⟩
    obtain ⟨hlt, hslot⟩ := h.slot_ne_zero hj htj hk
    have hb := hbyte hj (by rwa [hsame]) (k := k) (by rwa [hsame])
    rw [hsame] at hb
    rw [hb]
    exact hw.other hj hji htj hlt hslot
  · have hself : dinodeAt sb d' ip.inum = ip'.di := hk.self
    have hslot : ∀ t, ip'.di.slot d₂ t = di.slot d₂ t := by
      intro t
      cases t <;> simp only [Dinode.slot, ha]
    rw [Xv6.contents, Xv6.contents, hs, ← map_overlay _ hoff]
    refine List.map_congr_left fun k hk' => ?_
    have hk' := List.mem_range.1 hk'
    have hkd : k < (dinodeAt sb d' ip.inum).size.toNat := by rwa [hself, hs]
    obtain ⟨hlt, -⟩ := h'.slot_ne_zero hi (by rw [hself]; exact hk.type) hkd
    have hb := hbyte hi (by rw [hself]; exact hk.type) hkd
    rw [hself] at hb
    rw [hb, Dinode.byteAt, hslot, ← hdi]
    refine hw.self hlt ?_
    rcases lt_max_iff.1 hk' with hk' | hk'
    · left
      simp only [nblocks, BSIZE]
      omega
    · exact .inr hk'

/-- What `writei` does to the files. -/
structure Stored (sb : Superblock) (d : Disk) (ip : Inode) (src : List UInt8) (off : ℕ)
    (r : Option ℕ) (ip' : Inode) (d' : Disk) : Prop where
  others : KeepsFiles sb d ip.inum d'
  fields : ip'.di = { ip.di with addrs := ip'.di.addrs, size := ip'.di.size }
  bytes : ip.di.type ≠ T_DEV → ∀ m, r = some m → m = src.length ∧ off ≤ ip.di.size.toNat ∧
    off + src.length ≤ MAXFILE * BSIZE ∧ contents ip'.di d' = overwrite (contents ip.di d) off src

/-- **`writei`** stores its bytes, and changes no other file. -/
theorem writei_contents (h : Owned F sb d) (hi : ip.inum < sb.ninodes) (ht : ip.di.type ≠ 0)
    (hdi : dinodeAt sb d ip.inum = ip.di) {src : List UInt8} {off : ℕ} (hsrc : src.length < 2 ^ 32)
    {r : Option ℕ} (hok : writei sb dev d ip src off = .ok (r, ip', d')) :
    Stored sb d ip src off r ip' d' := by
  have hkept := writei_kept h hi ht hdi hsrc hok
  have hfill := h.filled hi (hdi ▸ ht)
  simp only [writei] at hok
  split_ifs at hok with hdev hmaj hbad hmax hgrow
  iterate 2
    cases hok
    exact ⟨.refl _ _ _, rfl, fun hd => absurd hdev hd⟩
  iterate 2
    cases hok
    exact ⟨.refl _ _ _, rfl, fun _ _ hm => by cases hm⟩
  all_goals
    obtain ⟨⟨di, d₂⟩, hloop, hok⟩ := bind_ok hok
    cases hok
    simp only [not_or, Nat.not_lt] at hbad hmax
    have hsize := ip.di.size.toNat_lt
    have hsum : off + src.length ≤ MAXFILE * BSIZE := by
      have := hbad.1
      have := hbad.2
      omega
    rw [← hdi] at hloop
    have hoff : off ≤ nblocks (dinodeAt sb d ip.inum).size.toNat * BSIZE := by
      rw [hdi]
      exact hbad.1.trans (le_nblocks _)
    have hw := writeiLoop_bytes hi src.length h.refs (hdi ▸ ht) hfill hoff le_rfl hloop
    obtain ⟨hg, -, -⟩ := writeiLoop_spec hi src.length h.refs (hdi ▸ ht) hfill hoff le_rfl hloop
    have hfields := hg.fields
    rw [hdi] at hw hfields
  · have hnat : (UInt32.ofNat (off + src.length)).toNat = off + src.length := by
      rw [UInt32.toNat_ofNat', Nat.mod_eq_of_lt]
      simp only [MAXFILE, NDIRECT, NINDIRECT, BSIZE] at hsum
      omega
    obtain ⟨hfiles, hc⟩ := hw.contents h hi hdi hkept
      (fun hc => (setDinode_data h.refs.ok hi hc _).symm) rfl
      (hnat.trans (max_eq_right hgrow.2.le).symm) hbad.1
    exact ⟨hfiles, by rw [hfields], fun _ m hm => ⟨(Option.some.inj hm).symm, hbad.1, hsum, hc⟩⟩
  · have hmax : di.size.toNat = max ip.di.size.toNat (off + src.length) := by
      rw [hfields]
      have := hbad.1
      show ip.di.size.toNat = _
      omega
    obtain ⟨hfiles, hc⟩ := hw.contents h hi hdi hkept (fun _ => rfl) rfl hmax hbad.1
    refine ⟨hfiles, ?_, fun _ m hm => ⟨(Option.some.inj hm).symm, hbad.1, hsum, hc⟩⟩
    show di = _
    rw [hfields]

/-- `readi` when the blocks of the part it reads are there. -/
theorem readi_filled (dev : Devsw) {m : ℕ} (hf : Filled ip.di d m) (hm : m ≤ MAXFILE)
    (hdev : ip.di.type ≠ T_DEV) {off n : ℕ} (hoff : off ≤ ip.di.size.toNat) (hn : off + n < 2 ^ 32)
    (hend : min (off + n) ip.di.size.toNat ≤ m * BSIZE) :
    readi sb dev d ip off n = .ok (some (((contents ip.di d).drop off).take n), ip, d) := by
  rw [readi, if_neg hdev, if_neg (by omega)]
  set c := if ip.di.size.toNat < off + n then ip.di.size.toNat - off else n with hc
  have hle : off + c ≤ m * BSIZE := by
    refine le_trans ?_ hend
    rw [hc]
    split_ifs <;> omega
  have hloop : readiLoop sb c d ip.di off c = _ := readiLoop_spec hf hm c hle le_rfl
  have hbytes : (List.range c).map (fun k => ip.di.byteAt d (off + k)) =
      ((contents ip.di d).drop off).take n := by
    rw [contents]
    refine List.ext_getElem ?_ fun k hk hk' => ?_
    · simp only [List.length_map, List.length_range, List.length_take, List.length_drop]
      rw [hc]
      split_ifs <;> omega
    · simp
  simp only [hloop, bind, Except.bind, hbytes]

/-- **`readi`** returns the bytes of the file from `off` on. -/
theorem readi_contents (dev : Devsw) (h : Owned F sb d) (hi : ip.inum < sb.ninodes)
    (ht : ip.di.type ≠ 0) (hdi : dinodeAt sb d ip.inum = ip.di) (hdev : ip.di.type ≠ T_DEV)
    {off n : ℕ} (hoff : off ≤ ip.di.size.toNat) (hn : off + n < 2 ^ 32) :
    readi sb dev d ip off n = .ok (some (((contents ip.di d).drop off).take n), ip, d) := by
  have hfill := h.filled hi (hdi ▸ ht)
  have hsize := h.size hi (hdi ▸ ht)
  rw [hdi] at hfill hsize
  exact readi_filled dev hfill (nblocks_le hsize) hdev hoff hn
    ((min_le_right _ _).trans (le_nblocks _))

end

/-! ## Every call -/

section
variable {F : Prop} {fs fs' : Fs} {i : Fin NINODE} {dev : Devsw}

/-- What `dirlink` does: it finds the name, or it writes an entry. -/
theorem Consistent.dirlink_cases (h : Consistent F fs) (hi : fs.Locked i) {name : List UInt8}
    {inum : UInt16} {r : Option Unit} (hok : Xv6.dirlink dev fs i name inum = .ok (r, fs')) :
    (r = none ∧ fs'.sb = fs.sb ∧ fs'.disk = fs.disk ∧
      ∀ k, fs.Ref k → fs'.icache k = fs.icache k) ∨
    r = some () ∧ ∃ off ip d, writei fs.sb dev fs.disk (fs.icache i)
      (Dirent.toBytes ⟨inum, strncpy DIRSIZ name⟩) off = .ok (some 16, ip, d) ∧
      fs' = fs.put i ip d := by
  unfold Xv6.dirlink at hok
  obtain ⟨⟨r₁, fs₁⟩, hlook, hrest⟩ := bind_ok hok
  clear hok
  rcases (h.dirlookup_safe hi name).2 _ hlook with ⟨rfl, rfl⟩ | ⟨j, off, inum', c, rfl, hget, rfl⟩
  · dsimp only at hrest
    obtain ⟨⟨off, r₂, ip, d⟩, hfind, hok⟩ := bind_ok hrest
    have hsame := (h.findDirent_safe hi (e := .dirlinkRead) (by rintro ⟨⟩) _ _ 0).2 _ hfind
    cases hsame
    obtain ⟨⟨n, ip, d⟩, hw, hok⟩ := bind_ok hok
    dsimp only at hok
    split_ifs at hok with hn
    · cases hok
      subst hn
      exact .inr ⟨rfl, off, ip, d, hw, rfl⟩
  · obtain ⟨fs₂, hput, -, hsb, hd, hc⟩ := h.iget_iput hget
    dsimp only at hrest
    rw [hput] at hrest
    cases hrest
    exact .inl ⟨rfl, hsb, hd, hc⟩

/-- Inode `j` keeps its type and its contents. -/
def Fs.SameFile (fs : Fs) (j : ℕ) (fs' : Fs) : Prop :=
  (dinodeAt fs.sb fs'.disk j).type = (dinodeAt fs.sb fs.disk j).type ∧
    contents (dinodeAt fs.sb fs'.disk j) fs'.disk = contents (dinodeAt fs.sb fs.disk j) fs.disk

theorem KeepsFiles.sameFile {t j : ℕ} (fs' : Fs) (h : KeepsFiles fs.sb fs.disk t fs'.disk)
    (hj : j < fs.sb.ninodes) (hjt : j ≠ t) (ht : (dinodeAt fs.sb fs.disk j).type ≠ 0) :
    fs.SameFile j fs' := by
  obtain ⟨hdi, hc⟩ := h j hj hjt ht
  exact ⟨by rw [hdi], by rw [hdi, hc]⟩

/-- The contents of the inode of entry `i`. -/
def Fs.file (fs : Fs) (i : Fin NINODE) : List UInt8 :=
  contents (dinodeAt fs.sb fs.disk (fs.icache i).inum) fs.disk

/-- The call may change the contents of inode `j`. -/
def FsOp.Changes (fs : Fs) (j : ℕ) : FsOp → Prop
  | .writei i _ _ => (fs.icache i).inum = j
  | .dirlink i _ _ => (fs.icache i).inum = j
  | .iput i => (fs.icache i).inum = j ∧ (fs.icache i).ref = 1
  | _ => False

/-- `update` changes no contents. -/
theorem Consistent.update_sameFile (h : Consistent F fs) (hi : fs.Locked i)
    (major minor nlink : Int16) {j : ℕ} (hj : j < fs.sb.ninodes)
    (ht : (dinodeAt fs.sb fs.disk j).type ≠ 0) {ip : Inode}
    (hip : ip = { fs.icache i with di := { (fs.icache i).di with major, minor, nlink } }) :
    fs.SameFile j (fs.put i ip (iupdate fs.sb fs.disk ip)) := by
  have he := h.entry hi.1
  obtain ⟨hdi, hti⟩ := he.valid hi.2
  have hk : Kept F fs.sb fs.disk (fs.icache i) ip (iupdate fs.sb fs.disk ip) := by
    rw [hip]
    exact iupdate_kept h.owned he.range hti hdi major minor nlink
  have hd : ∀ {c}, fs.sb.IsData c → iupdate fs.sb fs.disk ip c = fs.disk c := fun hc => by
    rw [hip]
    exact setDinode_data h.owned.refs.ok he.range hc _
  by_cases hji : j = (fs.icache i).inum
  · subst hji
    have hself := hk.self
    refine ⟨?_, contents_congr ?_ fun k hlt => ?_⟩
    · rw [Fs.put_disk, hself, hdi, hip]
    · rw [Fs.put_disk, hself, hdi, hip]
    · rw [Fs.put_disk, hself]
      have hb := byteAt_data h.owned.refs hj ht hd (h.owned.slot_ne_zero hj ht hlt).2
      rw [← hb, hdi, hip]
      rfl
  · exact (h.owned.keepsFiles hk.other hd).sameFile (fs.put i ip _) hj hji ht

/-- **Every call** keeps the files that it does not write or free. -/
theorem Consistent.exec_sameFile (h : Consistent F fs) {op : FsOp} (hs : FsStep dev fs op fs')
    {j : ℕ} (hj : j < fs.sb.ninodes) (ht : (dinodeAt fs.sb fs.disk j).type ≠ 0)
    (hop : ¬ op.Changes fs j) : fs.SameFile j fs' := by
  obtain ⟨hr, hok⟩ := hs
  cases op with
  | iget inum =>
    obtain ⟨_, -, hok⟩ := bind_ok hok
    cases hok
    exact ⟨rfl, rfl⟩
  | idup i =>
    cases hok
    exact ⟨rfl, rfl⟩
  | ilock i =>
    simp only [Fs.exec, Xv6.ilock] at hok
    split_ifs at hok <;> cases hok <;> exact ⟨rfl, rfl⟩
  | ialloc type =>
    obtain ⟨⟨k, fs₁⟩, hal, hok⟩ := bind_ok hok
    cases hok
    unfold Xv6.ialloc at hal
    split at hal
    · rename_i inum hfree
      obtain ⟨hi, h0⟩ := freeInode_some hfree
      obtain ⟨_, -, hal⟩ := bind_ok hal
      cases hal
      refine (h.owned.keepsFiles (i := inum) (fun hk hne => ?_)
        fun hc => setDinode_data h.owned.refs.ok hi hc _).sameFile _ hj ?_ ht
      · rw [dinodeAt_setDinode h.owned.refs.ok hi hk, if_neg hne]
      · rintro rfl
        exact ht h0
    · cases hal
  | update i major minor nlink =>
    cases hok
    exact h.update_sameFile hr major minor nlink hj ht rfl
  | readi i off n =>
    have he := h.entry hr.1
    obtain ⟨hdi, hti⟩ := he.valid hr.2
    obtain ⟨r, hread⟩ := readi_kept dev h.owned he.range hti hdi off n
    rw [Fs.exec, hread] at hok
    cases hok
    exact ⟨rfl, rfl⟩
  | writei i src off =>
    have he := h.entry hr.1.1
    obtain ⟨hdi, hti⟩ := he.valid hr.1.2
    obtain ⟨⟨r, ip, d⟩, hw, hok⟩ := bind_ok hok
    cases hok
    exact (writei_contents h.owned he.range hti hdi hr.2 hw).others.sameFile
      (fs.put i ip d) hj (fun heq => hop heq.symm) ht
  | dirlink i name inum =>
    have he := h.entry hr.1
    obtain ⟨hdi, hti⟩ := he.valid hr.2
    obtain ⟨⟨r, fs₁⟩, hlink, hok⟩ := bind_ok hok
    cases hok
    rcases h.dirlink_cases hr hlink with ⟨-, -, hd, -⟩ | ⟨-, off, ip, d, hw, rfl⟩
    · exact ⟨by rw [hd], by rw [hd]⟩
    · refine (writei_contents h.owned he.range hti hdi ?_ hw).others.sameFile
        (fs.put i ip d) hj (fun heq => hop heq.symm) ht
      rw [Dirent.length_toBytes]
      decide
  | iput i =>
    obtain ⟨fs₁, hput, hp⟩ := h.iput_ok hr
    rw [Fs.exec, hput] at hok
    cases hok
    rcases hp with ⟨h1, -, -, ip, d, -, -, hrem, rfl⟩ | ⟨-, rfl⟩
    · exact (h.owned.keepsFiles hrem.other hrem.data).sameFile (fs.put i ip d) hj
        (fun heq => hop ⟨heq.symm, h1⟩) ht
    · exact ⟨rfl, rfl⟩

/-- Entry `i` of the cache stays in use, for the same inode. -/
structure Fs.SameEntry (fs : Fs) (i : Fin NINODE) (fs' : Fs) : Prop where
  sb : fs'.sb = fs.sb
  ref : fs'.Ref i
  inum : (fs'.icache i).inum = (fs.icache i).inum
  valid : (fs.icache i).valid = true → (fs'.icache i).valid = true

theorem Fs.SameEntry.refl (hi : fs.Ref i) : fs.SameEntry i fs := ⟨rfl, hi, rfl, id⟩

theorem Fs.SameEntry.trans {fs'' : Fs} (h : fs.SameEntry i fs') (h' : fs'.SameEntry i fs'') :
    fs.SameEntry i fs'' :=
  ⟨h'.sb.trans h.sb, h'.ref, h'.inum.trans h.inum, h'.valid ∘ h.valid⟩

theorem Fs.SameEntry.put (hi : fs.Ref i) {j : Fin NINODE} {ip : Inode} (d : Disk)
    (h : j = i → 0 < ip.ref ∧ ip.inum = (fs.icache i).inum ∧
      ((fs.icache i).valid = true → ip.valid = true)) : fs.SameEntry i (fs.put j ip d) := by
  by_cases hij : i = j
  · subst hij
    obtain ⟨href, hinum, hvalid⟩ := h rfl
    refine ⟨rfl, ?_, ?_, ?_⟩
    · rw [Fs.Ref, Fs.put_self]
      exact href
    · rw [Fs.put_self]
      exact hinum
    · rw [Fs.put_self]
      exact hvalid
  · have hne := fs.put_ne ip d hij
    exact ⟨rfl, by rw [Fs.Ref, hne]; exact hi, by rw [hne], by rw [hne]; exact id⟩

theorem Fs.SameEntry.iget (hi : fs.Ref i) {inum : ℕ} {j : Fin NINODE} {c : Icache} (d : Disk)
    (h : Xv6.iget fs.icache ROOTDEV inum = .ok (j, c)) :
    fs.SameEntry i { fs with disk := d, icache := c } := by
  rcases iget_cases h with ⟨-, -, rfl⟩ | ⟨h0, -, rfl⟩
  · refine .put hi d ?_
    rintro rfl
    exact ⟨Nat.succ_pos _, rfl, id⟩
  · refine .put hi d ?_
    rintro rfl
    exact absurd h0 hi.ne'

/-- An entry is in use until its last reference is dropped. -/
theorem Consistent.exec_sameEntry (h : Consistent F fs) {op : FsOp} (hs : FsStep dev fs op fs')
    (hi : fs.Ref i) (hop : op = .iput i → 1 < (fs.icache i).ref) : fs.SameEntry i fs' := by
  obtain ⟨hr, hok⟩ := hs
  cases op with
  | iget inum =>
    obtain ⟨⟨j, c⟩, hget, hok⟩ := bind_ok hok
    cases hok
    exact .iget hi fs.disk hget
  | idup j =>
    cases hok
    refine .put hi fs.disk ?_
    rintro rfl
    exact ⟨Nat.succ_pos _, rfl, id⟩
  | ilock j =>
    simp only [Fs.exec, Xv6.ilock] at hok
    split_ifs at hok
    · cases hok
      exact .refl hi
    · cases hok
      refine .put hi fs.disk ?_
      rintro rfl
      exact ⟨hi, rfl, fun _ => rfl⟩
  | ialloc type =>
    obtain ⟨⟨k, fs₁⟩, hal, hok⟩ := bind_ok hok
    cases hok
    unfold Xv6.ialloc at hal
    split at hal
    · obtain ⟨⟨j, c⟩, hget, hal⟩ := bind_ok hal
      cases hal
      exact .iget hi _ hget
    · cases hal
  | update j major minor nlink =>
    cases hok
    refine .put hi _ ?_
    rintro rfl
    exact ⟨hi, rfl, id⟩
  | readi j off n =>
    have he := h.entry hr.1
    obtain ⟨hdi, hti⟩ := he.valid hr.2
    obtain ⟨r, hread⟩ := readi_kept dev h.owned he.range hti hdi off n
    rw [Fs.exec, hread] at hok
    cases hok
    refine .put hi _ ?_
    rintro rfl
    exact ⟨hi, rfl, id⟩
  | writei j src off =>
    have he := h.entry hr.1.1
    obtain ⟨hdi, hti⟩ := he.valid hr.1.2
    obtain ⟨⟨r, ip, d⟩, hw, hok⟩ := bind_ok hok
    cases hok
    refine .put hi _ ?_
    rintro rfl
    rw [(writei_kept h.owned he.range hti hdi hr.2 hw).eq]
    exact ⟨hi, rfl, id⟩
  | dirlink j name inum =>
    have he := h.entry hr.1
    obtain ⟨hdi, hti⟩ := he.valid hr.2
    obtain ⟨⟨r, fs₁⟩, hlink, hok⟩ := bind_ok hok
    cases hok
    rcases h.dirlink_cases hr hlink with ⟨-, hsb, -, hc⟩ | ⟨-, off, ip, d, hw, rfl⟩
    · refine ⟨hsb, ?_, by rw [hc i hi], by rw [hc i hi]; exact id⟩
      rw [Fs.Ref, hc i hi]
      exact hi
    · refine .put hi _ ?_
      rintro rfl
      have hk := writei_kept h.owned he.range hti hdi (by rw [Dirent.length_toBytes]; decide) hw
      rw [hk.eq]
      exact ⟨hi, rfl, id⟩
  | iput j =>
    obtain ⟨fs₁, hput, hp⟩ := h.iput_ok hr
    rw [Fs.exec, hput] at hok
    cases hok
    rcases hp with ⟨h1, -, -, ip, d, -, -, -, rfl⟩ | ⟨-, rfl⟩
    · refine .put hi _ ?_
      rintro rfl
      exact absurd h1 (hop rfl).ne'
    · refine .put hi _ ?_
      rintro rfl
      exact ⟨Nat.sub_pos_of_lt (hop rfl), rfl, id⟩

end

end Xv6
