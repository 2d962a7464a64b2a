/-
  The file system stays consistent: the bit map, the block pointers and the
  sizes of the inodes agree after every operation.

  `Owned` is the invariant of the disk: allocated inodes own the blocks marked
  in the bit map, each from one place, and a file has exactly the blocks below
  its size.  `Cached` says that the inode cache agrees with the disk.  Every
  operation of `fs.c` keeps both (`Consistent.exec`).
-/
import Xv6.Fs.Files
import Xv6.Fs.Dir
import Xv6.Lib.Reach

namespace Xv6

open Own Fallible Function

/-! ## The invariant of the disk -/

/-- An inode without contents. -/
def Dinode.Empty (di : Dinode) : Prop := (∀ k, di.addrs k = 0) ∧ di.size = 0

/-- `F` says whether the free inodes are known to be empty. -/
structure Owned (F : Prop) (sb : Superblock) (d : Disk) : Prop where
  refs : Refs sb (dinodeAt sb d) d
  filled : ∀ {i}, i < sb.ninodes → (dinodeAt sb d i).type ≠ 0 →
    Filled (dinodeAt sb d i) d (nblocks (dinodeAt sb d i).size.toNat)
  size : ∀ {i}, i < sb.ninodes → (dinodeAt sb d i).type ≠ 0 →
    (dinodeAt sb d i).size.toNat ≤ MAXFILE * BSIZE
  empty : F → ∀ {i}, i < sb.ninodes → (dinodeAt sb d i).type = 0 → (dinodeAt sb d i).Empty

section
variable {F : Prop} {sb : Superblock} {d d₁ : Disk} {i : ℕ} {di : Dinode}

/-- Inode `i` is copied to disk after its blocks have been worked on. -/
theorem Owned.setDinode (h : Owned F sb d) (hi : i < sb.ninodes)
    (hr : Refs sb (update (dinodeAt sb d) i di) d₁)
    (hdin : ∀ {j}, j < sb.ninodes → dinodeAt sb d₁ j = dinodeAt sb d j)
    (hother : ∀ {j}, j < sb.ninodes → j ≠ i → (dinodeAt sb d j).type ≠ 0 → ∀ t,
      (dinodeAt sb d j).slot d₁ t = (dinodeAt sb d j).slot d t)
    (hf : di.type ≠ 0 → Filled di d₁ (nblocks di.size.toNat) ∧ di.size.toNat ≤ MAXFILE * BSIZE)
    (h0 : di.type = 0 → di.Empty) :
    Owned F sb (setDinode sb d₁ i di) := by
  have hok := hr.ok
  have htab : ∀ {j}, j < sb.ninodes → dinodeAt sb (Xv6.setDinode sb d₁ i di) j =
      update (dinodeAt sb d) i di j := by
    intro j hj
    rw [dinodeAt_setDinode hok hi hj, update_apply, hdin hj]
  have hslot : ∀ {j}, j < sb.ninodes → (update (dinodeAt sb d) i di j).type ≠ 0 → ∀ t,
      (update (dinodeAt sb d) i di j).slot (Xv6.setDinode sb d₁ i di) t =
        (update (dinodeAt sb d) i di j).slot d₁ t := fun hj htj =>
    slot_congr fun h0 => setDinode_data hok hi (hr.used_iaddr hj htj h0).1 di
  refine ⟨?_, fun {j} hj htj => ?_, fun {j} hj htj => ?_, fun hF j hj htj => ?_⟩
  · refine hr.congr (fun c hc => bitAt_setDinode hok hi hc di) (readsb_update (hok.one_lt_iblock hi) _)
      fun k => ?_
    obtain ⟨j, t⟩ := k
    by_cases hj : j < sb.ninodes
    · refine owner_congr (by rw [htab hj]) fun htj => ?_
      rw [htab hj]
      exact hslot hj htj t
    · rw [owner, owner, if_neg fun h => hj h.1, if_neg fun h => hj h.1]
  · rw [htab hj] at htj ⊢
    by_cases hji : j = i
    · subst hji
      refine Filled.congr ?_ (hslot hj htj)
      rw [update_self] at htj ⊢
      exact (hf htj).1
    · refine Filled.congr ?_ (hslot hj htj)
      rw [update_of_ne hji] at htj ⊢
      exact (h.filled hj htj).congr (hother hj hji htj)
  · rw [htab hj] at htj ⊢
    by_cases hji : j = i
    · subst hji
      rw [update_self] at htj ⊢
      exact (hf htj).2
    · rw [update_of_ne hji] at htj ⊢
      exact h.size hj htj
  · rw [htab hj] at htj ⊢
    by_cases hji : j = i
    · subst hji
      rw [update_self] at htj ⊢
      exact h0 htj
    · rw [update_of_ne hji] at htj ⊢
      exact h.empty hF hj htj

/-- The contents of the blocks of inode `i` have changed, and nothing else. -/
theorem Owned.contents (h : Owned F sb d) (hg : Grown sb (dinodeAt sb d) d i (dinodeAt sb d i) d₁)
    (hf : Filled (dinodeAt sb d i) d₁ (nblocks (dinodeAt sb d i).size.toNat)) : Owned F sb d₁ := by
  refine ⟨?_, fun {j} hj htj => ?_, fun {j} hj htj => ?_, fun hF j hj htj => ?_⟩
  · have hr := hg.refs
    rw [update_eq_self] at hr
    exact hr.table fun j hj => hg.dinode hj
  · rw [hg.dinode hj] at htj ⊢
    by_cases hji : j = i
    · rw [hji]
      exact hf
    · exact (h.filled hj htj).congr (hg.other hj hji htj)
  · rw [hg.dinode hj] at htj ⊢
    exact h.size hj htj
  · rw [hg.dinode hj] at htj ⊢
    exact h.empty hF hj htj

/-- The outcome of an operation on the inode `ip`: the disk is consistent and the in-memory inode
    is the one on disk. -/
structure Kept (F : Prop) (sb : Superblock) (d : Disk) (ip ip' : Inode) (d' : Disk) : Prop where
  owned : Owned F sb d'
  self : dinodeAt sb d' ip.inum = ip'.di
  eq : ip' = { ip with di := ip'.di }
  type : ip'.di.type ≠ 0
  other : ∀ {j}, j < sb.ninodes → j ≠ ip.inum → dinodeAt sb d' j = dinodeAt sb d j

variable {ip ip' : Inode} {dev : Devsw}

theorem Kept.refl (h : Owned F sb d) (ht : ip.di.type ≠ 0) (hdi : dinodeAt sb d ip.inum = ip.di) :
    Kept F sb d ip ip d := ⟨h, hdi, rfl, ht, fun _ _ => rfl⟩

theorem writei_kept (h : Owned F sb d) (hi : ip.inum < sb.ninodes) (ht : ip.di.type ≠ 0)
    (hdi : dinodeAt sb d ip.inum = ip.di) {src : List UInt8} {off : ℕ} (hsrc : src.length < 2 ^ 32)
    {r : Option ℕ} (hok : writei sb dev d ip src off = .ok (r, ip', d₁)) : Kept F sb d ip ip' d₁ := by
  have hfill := h.filled hi (hdi ▸ ht)
  simp only [writei] at hok
  split_ifs at hok with hdev hmaj hbad hmax hgrow
  iterate 4 cases hok; exact .refl h ht hdi
  all_goals
    obtain ⟨⟨di, d₂⟩, hloop, hok⟩ := bind_ok hok
    cases hok
    simp only [not_or, Nat.not_lt] at hbad hmax
    -- the check against overflow makes the sum exact
    have hsize := ip.di.size.toNat_lt
    have hsum : off + src.length ≤ MAXFILE * BSIZE := by
      have := hbad.1
      have := hbad.2
      omega
    rw [← hdi] at hloop
    obtain ⟨hg, hf, hsame⟩ := writeiLoop_spec hi src.length h.refs (hdi ▸ ht) hfill
      (by rw [hdi]; exact hbad.1.trans (le_nblocks _)) le_rfl hloop
  · have htype : di.type ≠ 0 := by rw [hg.type_eq, hdi]; exact ht
    have hnat : (UInt32.ofNat (off + src.length)).toNat = off + src.length := by
      rw [UInt32.toNat_ofNat', Nat.mod_eq_of_lt]
      simp only [MAXFILE, NDIRECT, NINDIRECT, BSIZE] at hsum
      omega
    set di' : Dinode := { di with size := UInt32.ofNat (off + src.length) } with hdi'
    have hr : Refs sb (update (dinodeAt sb d) ip.inum di') d₂ := hg.refs.setFields rfl rfl
    have hf' : Filled di' d₂ (nblocks di'.size.toNat) := by
      have hmax : max (nblocks (dinodeAt sb d ip.inum).size.toNat) (nblocks (off + src.length)) =
          nblocks (off + src.length) := max_eq_right (by
        rw [hdi]
        simp only [nblocks, BSIZE]
        omega)
      rw [hmax] at hf
      simp only [hdi', hnat]
      exact ⟨fun hk => hf.blocks hk, hf.iaddr⟩
    have hdin : dinodeAt sb (iupdate sb d₂ { ip with di := di' }) ip.inum = di' := by
      rw [iupdate, dinodeAt_setDinode hr.ok hi hi, if_pos rfl]
    refine ⟨h.setDinode hi hr hg.dinode hg.other (fun _ => ⟨hf', ?_⟩) (absurd · htype), hdin, rfl,
      htype, fun hj hji => ?_⟩
    · simp only [hdi', hnat]
      exact hsum
    · rw [iupdate, dinodeAt_setDinode hr.ok hi hj, if_neg hji, hg.dinode hj]
  · -- all blocks were there
    have hle : off + src.length ≤ nblocks (dinodeAt sb d ip.inum).size.toNat * BSIZE := by
      rw [hdi]
      refine le_trans ?_ (le_nblocks _)
      have := hbad.1
      omega
    obtain rfl := hsame hle
    rw [max_eq_left (nblocks_le hle)] at hf
    refine ⟨h.contents hg hf, ?_, rfl, hdi ▸ ht, fun hj _ => hg.dinode hj⟩
    exact hg.dinode hi

theorem writei_safe (h : Owned F sb d) (hi : ip.inum < sb.ninodes) (ht : ip.di.type ≠ 0)
    (hdi : dinodeAt sb d ip.inum = ip.di) {src : List UInt8} {off : ℕ} (hsrc : src.length < 2 ^ 32) :
    Safe .freeingFree (fun r => Kept F sb d ip r.2.1 r.2.2) (writei sb dev d ip src off) := by
  refine ⟨fun herr => ?_, fun r hok => writei_kept h hi ht hdi hsrc hok⟩
  have hs : Safe .freeingFree (fun _ => True) (writei sb dev d ip src off) := by
    unfold writei
    dsimp only
    split
    · split <;> exact .ok trivial
    split
    · exact .ok trivial
    split
    · exact .ok trivial
    · refine (writeiLoop_safe _ d ip.di off src).bind fun _ _ => ?_
      split <;> exact .ok trivial
  exact hs.1 herr

/-- `iupdate` with new values of the fields that are not about the contents. -/
theorem iupdate_kept (h : Owned F sb d) (hi : ip.inum < sb.ninodes) (ht : ip.di.type ≠ 0)
    (hdi : dinodeAt sb d ip.inum = ip.di) (major minor nlink : Int16) :
    Kept F sb d ip { ip with di := { ip.di with major, minor, nlink } }
      (iupdate sb d { ip with di := { ip.di with major, minor, nlink } }) := by
  set di' : Dinode := { ip.di with major, minor, nlink } with hdi'
  have hr : Refs sb (update (dinodeAt sb d) ip.inum di') d := by
    have := h.refs
    rw [← update_eq_self ip.inum (dinodeAt sb d), hdi] at this
    exact this.setFields rfl rfl
  have hfill := h.filled hi (hdi ▸ ht)
  have hsize := h.size hi (hdi ▸ ht)
  rw [hdi] at hfill hsize
  refine ⟨h.setDinode hi hr (fun _ => rfl) (fun _ _ _ _ => rfl) (fun _ =>
    ⟨⟨fun hk => hfill.blocks hk, hfill.iaddr⟩, hsize⟩) (absurd · ht), ?_, rfl, ht, fun hj hji => ?_⟩
  · rw [iupdate, dinodeAt_setDinode hr.ok hi hi, if_pos rfl]
  · rw [iupdate, dinodeAt_setDinode hr.ok hi hj, if_neg hji]

/-- An inode without blocks. -/
theorem filled_zero (h : ∀ s, di.slot d s = 0) : Filled di d (nblocks 0) where
  blocks {k} _ := iff_of_false (fun hs => hs (h _)) k.not_lt_zero
  iaddr := iff_of_false (fun hs => hs (h (.addr iaddr))) (Nat.not_lt_zero _)

/-- A free inode is allocated, without blocks. -/
theorem Owned.alloc (h : Owned F sb d) (hi : i < sb.ninodes) (h0 : (dinodeAt sb d i).type = 0)
    (hdi : di.Empty) : Owned F sb (Xv6.setDinode sb d i di) := by
  have hslot : ∀ s, di.slot d s = 0 := slot_zero hdi.1
  have hsize : di.size.toNat = 0 := by rw [hdi.2]; rfl
  refine h.setDinode hi (h.refs.replace fun s => ?_) (fun _ => rfl) (fun _ _ _ _ => rfl)
    (fun _ => ⟨hsize ▸ filled_zero hslot, by rw [hsize]; exact Nat.zero_le _⟩) fun _ => hdi
  rw [owner_none (by rw [update_self]; exact hslot s), owner, if_neg fun h => h.2.1 h0]

theorem Owned.ialloc (h : Owned F sb d) (hi : i < sb.ninodes) (h0 : (dinodeAt sb d i).type = 0)
    (type : Int16) : Owned F sb (Xv6.setDinode sb d i { Dinode.zero with type := type }) :=
  h.alloc hi h0 ⟨fun _ => rfl, rfl⟩

/-- The inode `ip` and its blocks have been freed. -/
structure Removed (F : Prop) (sb : Superblock) (d : Disk) (ip : Inode) (d' : Disk) : Prop where
  owned : Owned F sb d'
  self : dinodeAt sb d' ip.inum = { ip.di.empty with type := 0 }
  other : ∀ {j}, j < sb.ninodes → j ≠ ip.inum → dinodeAt sb d' j = dinodeAt sb d j
  data : ∀ {c}, sb.IsData c → d' c = d c

/-- **An inode is freed:** what `iput` does on disk. -/
theorem Owned.free (h : Owned F sb d) (hi : ip.inum < sb.ninodes) (ht : ip.di.type ≠ 0)
    (hdi : dinodeAt sb d ip.inum = ip.di) :
    ∃ d₁, itrunc sb d ip = .ok ({ ip with di := ip.di.empty }, d₁) ∧
      Removed F sb d ip (Xv6.setDinode sb d₁ ip.inum { ip.di.empty with type := 0 }) := by
  obtain ⟨d₁, hd, hr, hdin, hdata⟩ := itrunc_spec h.refs hi ht hdi
  have h₁ : Owned F sb (Xv6.setDinode sb d₁ ip.inum ip.di.empty) :=
    h.setDinode hi hr hdin (fun hj _ htj => slot_congr fun h0 =>
      hdata (h.refs.used_iaddr hj htj h0).1)
      (fun _ => ⟨filled_zero (slot_empty _), Nat.zero_le _⟩) (absurd · ht)
  have hself : dinodeAt sb (Xv6.setDinode sb d₁ ip.inum ip.di.empty) ip.inum = ip.di.empty := by
    rw [dinodeAt_setDinode hr.ok hi hi, if_pos rfl]
  refine ⟨_, hd, h₁.setDinode hi (h₁.refs.replace fun s => ?_) (fun _ => rfl)
    (fun _ _ _ _ => rfl) (absurd rfl ·) fun _ => ⟨fun _ => rfl, rfl⟩, ?_, fun hj hji => ?_,
    fun hc => ?_⟩
  · rw [owner_none (by rw [update_self]; exact slot_zero (fun _ => rfl) s),
      owner_none (by rw [hself]; exact slot_empty _ s)]
  · rw [dinodeAt_setDinode hr.ok hi hi, if_pos rfl]
  · rw [dinodeAt_setDinode hr.ok hi hj, if_neg hji, dinodeAt_setDinode hr.ok hi hj, if_neg hji,
      hdin hj]
  · rw [setDinode_data hr.ok hi hc, setDinode_data hr.ok hi hc, hdata hc]

/-- **`readi`** returns, and changes neither the inode nor the disk. -/
theorem readi_kept (dev : Devsw) (h : Owned F sb d) (hi : ip.inum < sb.ninodes) (ht : ip.di.type ≠ 0)
    (hdi : dinodeAt sb d ip.inum = ip.di) (off n : ℕ) :
    ∃ r, readi sb dev d ip off n = .ok (r, ip, d) := by
  have hfill := h.filled hi (hdi ▸ ht)
  have hsize := h.size hi (hdi ▸ ht)
  rw [hdi] at hfill hsize
  rw [readi]
  split
  · split <;> exact ⟨_, rfl⟩
  split
  · exact ⟨_, rfl⟩
  · rename_i hbad
    simp only [not_or, Nat.not_lt] at hbad
    set m := if ip.di.size.toNat < off + n then ip.di.size.toNat - off else n with hm
    have hle : off + m ≤ nblocks ip.di.size.toNat * BSIZE := by
      refine le_trans ?_ (le_nblocks _)
      have := hbad.1
      rw [hm]
      split_ifs <;> omega
    have hloop : readiLoop sb m d ip.di off m = _ :=
      readiLoop_spec hfill (nblocks_le hsize) m hle le_rfl
    exact ⟨_, by simp only [hloop, bind, Except.bind]; rfl⟩

end

end Xv6
