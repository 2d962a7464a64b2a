/-
  The kernel on an image that `mkfs` has written.

  The kernel reads back every file of the image, and finds it in the root
  directory under its name (`main_readable`); the blocks of the image are not
  allocated again.  The size of the root is rounded up to the next block even
  if its last block is full: then the root ends with a block that does not
  exist, and reading it allocates one (`main_noHoles_iff`).
-/
import Xv6.Mkfs.Pack

namespace Xv6

open Bytes Fallible

/-! ## The first entry with a name -/

/-- The loop over the entries of a directory, as far as they can be read. -/
theorem findDirent_first {sb : Superblock} {dev : Devsw} {d : Disk} {dp : Inode} {e : FsPanic}
    {p : Dirent → Bool} {l : List Dirent}
    (hread : ∀ {m de}, l[m]? = some de → readDirent sb dev d dp (16 * m) = .ok (some de, dp, d))
    (hsize : 16 * l.length ≤ dp.di.size.toNat) {k : ℕ} {de : Dirent} (hk : l[k]? = some de)
    (hp : p de = true) (hfirst : ∀ m < k, ∀ de', l[m]? = some de' → p de' = false) (fuel : ℕ) :
    ∀ m ≤ k, k < m + fuel →
      findDirent sb dev e p fuel d dp (16 * m) = .ok (16 * k, some de, dp, d) := by
  have hlt := (List.getElem?_eq_some_iff.1 hk).1
  induction fuel with
  | zero =>
    intro m hm hfuel
    omega
  | succ fuel ih =>
    intro m hm hfuel
    have hget := List.getElem?_eq_getElem (show m < l.length by omega)
    rw [findDirent, if_neg (by omega), hread hget]
    simp only [bind, Except.bind]
    rcases Nat.lt_or_eq_of_le hm with hmk | rfl
    · have hnext := ih (m + 1) (by omega) (by omega)
      rw [if_neg (by rw [hfirst m hmk _ hget]; rintro ⟨⟩), ← hnext]
      congr 1
    · rw [hk] at hget
      cases hget
      rw [if_pos hp]

namespace Mkfs

variable {files : List HostFile} {s : Mkfs}

/-! ## The image at the end -/

/-- The state with the size of the root fixed. -/
def final (s : Mkfs) : Mkfs := s.store ROOTINO (rounded (s.dinode ROOTINO))

theorem rootino_lt : ROOTINO < NINODES := by decide

theorem final_data {c : BlockNo} (hc : sb.IsData c) : s.final.image c = s.image c := by
  rw [final, image_store rootino_lt, setDinode_data sb_ok rootino_lt hc]

variable {i : ℕ} {de : Dirent} {k : ℕ} {x : ℕ × List UInt8} {f : HostFile}

theorem dinodeAt_final (hi : i < NINODES) : dinodeAt sb s.final.image i =
    if i = ROOTINO then rounded (s.dinode ROOTINO) else s.dinode i := by
  rw [dinodeAt_image hi]
  exact dinode_store rootino_lt hi _

theorem addrs_final (hi : i < NINODES) :
    (dinodeAt sb s.final.image i).addrs = (s.dinode i).addrs := by
  rw [dinodeAt_final hi]
  split_ifs with h
  · rw [h]
    rfl
  · rfl

theorem type_final (hi : i < NINODES) :
    (dinodeAt sb s.final.image i).type = (s.dinode i).type := by
  rw [dinodeAt_final hi]
  split_ifs with h
  · rw [h]
    rfl
  · rfl

namespace Packed
variable (h : Packed files s) {i : ℕ}
include h

theorem filled (hi : i < NINODES) (ht : (s.dinode i).type ≠ 0) :
    Filled (s.dinode i) s.image (nblocks (s.dinode i).size.toNat) := by
  have hf := h.inv.owned.filled hi (by rwa [dinodeAt_image hi])
  rwa [dinodeAt_image hi] at hf

/-- The block pointers stay. -/
theorem slot_final (hi : i < NINODES) (ht : (s.dinode i).type ≠ 0) (t : Slot) :
    (dinodeAt sb s.final.image i).slot s.final.image t = (s.dinode i).slot s.image t := by
  have hsame : (dinodeAt sb s.final.image i).slot s.final.image t =
      (s.dinode i).slot s.final.image t := by
    cases t <;> simp only [Dinode.slot, addrs_final hi]
  rw [hsame]
  refine slot_congr (fun h0 => final_data ?_) t
  have hr := h.inv.owned.refs.used_iaddr hi (by rwa [dinodeAt_image hi])
    (by rwa [dinodeAt_image hi])
  rw [dinodeAt_image hi] at hr
  exact hr.1

theorem filled_final (hi : i < NINODES) (ht : (s.dinode i).type ≠ 0) :
    Filled (dinodeAt sb s.final.image i) s.final.image (nblocks (s.dinode i).size.toNat) :=
  (h.filled hi ht).congr (h.slot_final hi ht)

theorem size_le (hi : i < NINODES) (ht : (s.dinode i).type ≠ 0) :
    nblocks (s.dinode i).size.toNat ≤ MAXFILE := by
  have hsize := h.inv.owned.size hi (by rwa [dinodeAt_image hi])
  rw [dinodeAt_image hi] at hsize
  exact nblocks_le hsize

theorem byteAt_final (hi : i < NINODES) (ht : (s.dinode i).type ≠ 0) {k : ℕ}
    (hk : k < (s.dinode i).size.toNat) :
    (dinodeAt sb s.final.image i).byteAt s.final.image k = (s.dinode i).byteAt s.image k := by
  have hle := h.size_le hi ht
  have hblock : k / BSIZE < nblocks (s.dinode i).size.toNat := by
    simp only [nblocks, BSIZE]
    omega
  have hs := ((h.filled hi ht).blocks (hblock.trans_le hle)).2 hblock
  have hused := h.inv.owned.refs.used_slot (s := fileSlot (k / BSIZE)) hi
    (by rwa [dinodeAt_image hi]) (by rwa [dinodeAt_image hi])
  rw [dinodeAt_image hi] at hused
  rw [Dinode.byteAt, Dinode.byteAt, h.slot_final hi ht, final_data hused.1]

theorem rootSize : (s.dinode ROOTINO).size.toNat = 16 * (files.length + 2) := by
  rw [← length_file, h.root, length_rootBytes]

theorem rootType_ne : (s.dinode ROOTINO).type ≠ 0 := by
  rw [h.rootType]
  decide

/-! ## The size of the root -/

theorem rounded_size (hlen : files.length + 2 ≤ NINODES) :
    (rounded (s.dinode ROOTINO)).size.toNat = ((files.length + 2) / 32 + 1) * BSIZE := by
  rw [rounded, h.rootSize, UInt32.toNat_ofNat', Nat.mod_eq_of_lt]
  · simp only [BSIZE]
    omega
  · simp only [BSIZE, NINODES] at hlen ⊢
    omega

theorem nblocks_rounded (hlen : files.length + 2 ≤ NINODES) :
    nblocks (rounded (s.dinode ROOTINO)).size.toNat = (files.length + 2) / 32 + 1 := by
  rw [h.rounded_size hlen]
  simp only [nblocks, BSIZE]
  omega

/-- The last block of the root is not full: the image is consistent. -/
theorem owned_final (hlen : files.length + 2 ≤ NINODES) (hmod : (2 + files.length) % 32 ≠ 0) :
    Owned True sb s.final.image := by
  have ht := h.rootType_ne
  have hdin : dinodeAt sb s.image ROOTINO = s.dinode ROOTINO := dinodeAt_image rootino_lt
  have hr : Refs sb (Function.update (dinodeAt sb s.image) ROOTINO (rounded (s.dinode ROOTINO)))
      s.image := by
    have hr₀ := h.inv.owned.refs
    rw [← Function.update_eq_self ROOTINO (dinodeAt sb s.image), hdin] at hr₀
    exact hr₀.setFields rfl rfl
  have hsame : nblocks (s.dinode ROOTINO).size.toNat = (files.length + 2) / 32 + 1 := by
    rw [h.rootSize]
    simp only [nblocks, BSIZE]
    omega
  have hfill : Filled (rounded (s.dinode ROOTINO)) s.image
      (nblocks (rounded (s.dinode ROOTINO)).size.toNat) := by
    have hf := h.filled rootino_lt ht
    rw [h.nblocks_rounded hlen, ← hsame]
    exact ⟨fun hk => hf.blocks hk, hf.iaddr⟩
  have hsize : (rounded (s.dinode ROOTINO)).size.toNat ≤ MAXFILE * BSIZE := by
    rw [h.rounded_size hlen]
    simp only [MAXFILE, NDIRECT, NINDIRECT, BSIZE, NINODES] at hlen ⊢
    omega
  rw [final, image_store rootino_lt]
  exact h.inv.owned.setDinode rootino_lt hr (fun _ => rfl) (fun _ _ _ _ => rfl)
    (fun _ => ⟨hfill, hsize⟩) (absurd · ht)

/-- The last block of the root is full: the next one does not exist. -/
theorem hole (hlen : files.length + 2 ≤ NINODES) (hmod : (2 + files.length) % 32 = 0) :
    (files.length + 2) / 32 < nblocks (dinodeAt sb s.final.image ROOTINO).size.toNat ∧
      (dinodeAt sb s.final.image ROOTINO).slot s.final.image
        (fileSlot ((files.length + 2) / 32)) = 0 := by
  have hdin : dinodeAt sb s.final.image ROOTINO = rounded (s.dinode ROOTINO) := by
    rw [dinodeAt_final rootino_lt, if_pos rfl]
  have hmax : (files.length + 2) / 32 < MAXFILE := by
    simp only [MAXFILE, NDIRECT, NINDIRECT, BSIZE, NINODES] at hlen ⊢
    omega
  constructor
  · rw [hdin, h.nblocks_rounded hlen]
    exact Nat.lt_succ_self _
  · have hiff := (h.filled rootino_lt h.rootType_ne).blocks hmax
    rw [h.rootSize] at hiff
    rw [h.slot_final rootino_lt h.rootType_ne]
    by_contra h0
    have hlt := hiff.1 h0
    simp only [nblocks, BSIZE] at hlt
    omega

end Packed

/-- Every block of every file is there. -/
def NoHoles (d : Disk) : Prop :=
  ∀ i < NINODES, ∀ k < nblocks (dinodeAt sb d i).size.toNat, (dinodeAt sb d i).slot d (fileSlot k) ≠ 0

/-- Reading a file or directory allocates no block: the disk and the inode stay. -/
def ReadOnly (d : Disk) : Prop :=
  ∀ (dev : Devsw) (ip : Inode) (off n : ℕ), ip.inum < NINODES → dinodeAt sb d ip.inum = ip.di →
    ip.di.type ≠ 0 → ∃ r, readi sb dev d ip off n = .ok (r, ip, d)

theorem noHoles_of_owned {d : Disk} (h : Owned True sb d) : NoHoles d := by
  intro i hi k hk
  by_cases ht : (dinodeAt sb d i).type = 0
  · have hempty := h.empty trivial hi ht
    rw [hempty.2] at hk
    exact absurd hk (Nat.not_lt_zero k)
  · have hmax := nblocks_le (h.size hi ht)
    exact ((h.filled hi ht).blocks (hk.trans_le hmax)).2 hk

/-- **The image has no holes**, and reading it allocates nothing, unless the entries of the root
fill its last block. -/
theorem main_noHoles_iff (hfits : Fits files) : ∃ d, main files = .ok d ∧
    (NoHoles d ∧ ReadOnly d ↔ (2 + files.length) % 32 ≠ 0) := by
  obtain ⟨s, h, hmain⟩ := main_packed hfits
  refine ⟨_, hmain, ?_⟩
  constructor
  · rintro ⟨hno, -⟩ hmod
    obtain ⟨hlt, hslot⟩ := h.hole hfits.inodes hmod
    exact hno ROOTINO rootino_lt _ hlt hslot
  · intro hmod
    have howned := h.owned_final hfits.inodes hmod
    exact ⟨noHoles_of_owned howned, fun dev ip off n hi hdi ht =>
      readi_kept dev howned hi ht hdi off n⟩

/-- A file `cat` of three bytes, read in two parts. -/
def catFile : HostFile := ⟨[95, 99, 97, 116], [[1, 2], [3]]⟩

theorem fits_cat : Fits [catFile] :=
  ⟨by decide, by decide, by decide, by decide, by decide⟩

theorem main_noHoles_cat : ∃ d, main [catFile] = .ok d ∧ NoHoles d ∧ ReadOnly d := by
  obtain ⟨d, hmain, hiff⟩ := main_noHoles_iff fits_cat
  exact ⟨d, hmain, hiff.2 (by decide)⟩

/-- Thirty empty files, whose entries fill the first block of the root. -/
def thirty : List HostFile := (List.range 30).map fun n => ⟨[.ofNat (97 + n)], []⟩

theorem fits_thirty : Fits thirty :=
  ⟨by decide, by decide, by decide, by decide, by decide⟩

/-- The second block of the root does not exist. -/
theorem main_thirty : ∃ d, main thirty = .ok d ∧ (dinodeAt sb d ROOTINO).size.toNat = 1024 ∧
    (dinodeAt sb d ROOTINO).slot d (fileSlot 1) = 0 := by
  obtain ⟨s, h, hmain⟩ := main_packed fits_thirty
  refine ⟨_, hmain, ?_, (h.hole (by decide) (by decide)).2⟩
  have hdin : dinodeAt sb s.final.image ROOTINO = rounded (s.dinode ROOTINO) := by
    rw [dinodeAt_final rootino_lt, if_pos rfl]
  have hsize := h.rounded_size (by decide)
  rw [← hdin] at hsize
  exact hsize

/-! ## Reading the files -/

namespace Packed
variable (h : Packed files s)
include h

theorem file_final {k : ℕ} {f : HostFile} (hlen : files.length + 2 ≤ NINODES)
    (hf : files[k]? = some f) :
    k + 2 < NINODES ∧ dinodeAt sb s.final.image (k + 2) = s.dinode (k + 2) ∧
      (s.dinode (k + 2)).type = T_FILE ∧ contents (s.dinode (k + 2)) s.final.image = f.bytes := by
  have hk := (List.getElem?_eq_some_iff.1 hf).1
  have hi : k + 2 < NINODES := by omega
  have ht := h.fileType k hk
  have ht0 : (s.dinode (k + 2)).type ≠ 0 := by rw [ht]; decide
  have hdin : dinodeAt sb s.final.image (k + 2) = s.dinode (k + 2) := by
    rw [dinodeAt_final hi, if_neg (by rw [ROOTINO]; omega)]
  refine ⟨hi, hdin, ht, ?_⟩
  rw [← h.file hf, Mkfs.file]
  refine contents_congr rfl fun m hm => ?_
  rw [← h.byteAt_final hi ht0 hm, hdin]

/-- The bytes of the root directory are where they were. -/
theorem take_root (hlen : files.length + 2 ≤ NINODES) :
    (contents (rounded (s.dinode ROOTINO)) s.final.image).take (16 * (files.length + 2)) =
      rootBytes files := by
  have hsize := h.rootSize
  have hrounded := h.rounded_size hlen
  have hdin : dinodeAt sb s.final.image ROOTINO = rounded (s.dinode ROOTINO) := by
    rw [dinodeAt_final rootino_lt, if_pos rfl]
  rw [← h.root, Mkfs.file, contents, contents, hrounded, hsize, List.map_take.symm, List.take_range,
    min_eq_left (by simp only [BSIZE]; omega)]
  refine List.map_congr_left fun m hm => ?_
  rw [← hdin]
  exact h.byteAt_final rootino_lt h.rootType_ne (by rw [hsize]; exact List.mem_range.1 hm)

end Packed

/-- The entries of the root, as the kernel reads them. -/
def rootDir (files : List HostFile) : List Dirent :=
  (entries files).map fun x => ⟨.ofNat x.1, strncpy DIRSIZ x.2⟩

/-- One piece of a concatenation of pieces of the same length. -/
theorem take_drop_flatMap {α : Type*} {g : α → List UInt8} {c : ℕ} (hg : ∀ a, (g a).length = c) :
    ∀ {l : List α} {m : ℕ} {a : α}, l[m]? = some a → ((l.flatMap g).drop (c * m)).take c = g a
  | x :: l, 0, a, ha => by
    cases ha
    rw [Nat.mul_zero, List.drop_zero, List.flatMap_cons, List.take_left' (hg x)]
  | x :: l, m + 1, a, ha => by
    rw [List.getElem?_cons_succ] at ha
    rw [List.flatMap_cons, Nat.mul_succ, Nat.add_comm, ← List.drop_drop, List.drop_left' (hg x),
      take_drop_flatMap hg ha]

theorem take_rootBytes {m : ℕ} (hm : (rootDir files)[m]? = some de) :
    Dirent.ofBytes (((rootBytes files).drop (16 * m)).take 16) = de := by
  rw [rootDir, List.getElem?_map] at hm
  obtain ⟨x, hx, rfl⟩ := Option.map_eq_some_iff.1 hm
  have hlen : ∀ x : ℕ × List UInt8, (dirent x.1 x.2).length = 16 := fun x => length_dirent x.1 x.2
  rw [rootBytes, take_drop_flatMap hlen hx]
  exact Dirent.ofBytes_toBytes _ (length_strncpy _ _)

theorem length_rootDir (files : List HostFile) : (rootDir files).length = files.length + 2 := by
  rw [rootDir, List.length_map, length_entries]

/-- The root directory, locked in entry `i` of the inode cache. -/
structure RootLocked (d : Disk) (fs : Fs) (i : Fin NINODE) : Prop where
  sb : fs.sb = sb
  disk : fs.disk = d
  dev : (fs.icache i).dev = ROOTDEV
  di : (fs.icache i).di = dinodeAt Mkfs.sb d ROOTINO

theorem Packed.readDirent (h : Packed files s) (hlen : files.length + 2 ≤ NINODES) (dev : Devsw)
    {dp : Inode} (hdp : dp.di = dinodeAt sb s.final.image ROOTINO) {m : ℕ}
    (hm : (rootDir files)[m]? = some de) :
    Xv6.readDirent sb dev s.final.image dp (16 * m) = .ok (some de, dp, s.final.image) := by
  have hlt := (List.getElem?_eq_some_iff.1 hm).1
  rw [length_rootDir] at hlt
  have hdin : dp.di = rounded (s.dinode ROOTINO) := by
    rw [hdp, dinodeAt_final rootino_lt, if_pos rfl]
  have hsize : dp.di.size.toNat = ((files.length + 2) / 32 + 1) * BSIZE := by
    rw [hdin, h.rounded_size hlen]
  have hfill := h.filled_final rootino_lt h.rootType_ne
  have hmax := h.size_le rootino_lt h.rootType_ne
  rw [h.rootSize] at hfill hmax
  rw [← hdp] at hfill
  have hdev : dp.di.type ≠ T_DEV := by
    rw [hdin]
    change (s.dinode ROOTINO).type ≠ T_DEV
    rw [h.rootType]
    decide
  have hoff : 16 * m ≤ dp.di.size.toNat := by
    rw [hsize]
    simp only [BSIZE]
    omega
  have hsum : 16 * m + 16 < 2 ^ 32 := by
    simp only [NINODES] at hlen
    omega
  have hend : 16 * m + 16 ≤ nblocks (16 * (files.length + 2)) * BSIZE :=
    le_trans (by omega) (le_nblocks _)
  have hread : readi sb dev s.final.image dp (16 * m) 16 = _ :=
    readi_filled dev hfill hmax hdev hoff hsum ((min_le_left _ _).trans hend)
  have hbytes : ((contents dp.di s.final.image).drop (16 * m)).take 16 =
      ((rootBytes files).drop (16 * m)).take 16 := by
    rw [hdin, ← h.take_root hlen, List.drop_take, List.take_take, min_eq_left (by omega)]
  have h16 : (((rootBytes files).drop (16 * m)).take 16).length = 16 := by
    rw [List.length_take, List.length_drop, length_rootBytes]
    omega
  rw [hbytes] at hread
  simp only [Xv6.readDirent, hread, bind, Except.bind, h16, if_true, take_rootBytes hm]

/-- The inode numbers in the root. -/
theorem entries_range (hlen : files.length + 2 ≤ NINODES) (hk : (entries files)[k]? = some x) :
    0 < x.1 ∧ x.1 < NINODES := by
  have hmem := List.mem_of_getElem? hk
  simp only [entries, List.mem_cons, List.mem_map] at hmem
  obtain rfl | rfl | ⟨⟨f, m⟩, hm, rfl⟩ := hmem
  · decide
  · decide
  · have hm := List.mem_zipIdx hm
    dsimp only
    omega

theorem toNat_entry (hlen : files.length + 2 ≤ NINODES) (hk : (entries files)[k]? = some x) :
    (UInt16.ofNat x.1).toNat = x.1 := by
  rw [UInt16.toNat_ofNat']
  exact Nat.mod_eq_of_lt ((entries_range hlen hk).2.trans (by decide))

theorem getElem?_rootDir (hk : (rootDir files)[k]? = some de) :
    ∃ x, (entries files)[k]? = some x ∧ de = ⟨.ofNat x.1, strncpy DIRSIZ x.2⟩ := by
  rw [rootDir, List.getElem?_map] at hk
  obtain ⟨x, hx, rfl⟩ := Option.map_eq_some_iff.1 hk
  exact ⟨x, hx, rfl⟩

/-- The test of `dirlookup` on an entry of the root. -/
theorem entry_matches (hlen : files.length + 2 ≤ NINODES) (hk : (entries files)[k]? = some x)
    (name : List UInt8) :
    (UInt16.ofNat x.1 ≠ 0 ∧ namecmp name (strncpy DIRSIZ x.2) = 0) ↔ cname name = cname x.2 := by
  have hpos : UInt16.ofNat x.1 ≠ 0 := by
    intro h0
    have hx := (entries_range hlen hk).1
    rw [← toNat_entry hlen hk, h0] at hx
    exact absurd hx (by decide)
  rw [namecmp_eq_zero, cname_strncpy]
  exact and_iff_right hpos

/-- **`dirlookup` in the root** finds the first entry with the name. -/
theorem Packed.dirlookup (h : Packed files s) (hlen : files.length + 2 ≤ NINODES) (dev : Devsw)
    {fs : Fs} {i : Fin NINODE} (hr : RootLocked s.final.image fs i)
    (hk : (entries files)[k]? = some x)
    (hfirst : ∀ m < k, ∀ y, (entries files)[m]? = some y → cname y.2 ≠ cname x.2) :
    Xv6.dirlookup dev fs i x.2 = (do
      let (j, c) ← iget fs.icache ROOTDEV x.1
      .ok (some (j, 16 * k), { fs with icache := c })) := by
  have hkd : (rootDir files)[k]? = some ⟨.ofNat x.1, strncpy DIRSIZ x.2⟩ := by
    rw [rootDir, List.getElem?_map, hk]
    rfl
  have hlt := (List.getElem?_eq_some_iff.1 hkd).1
  rw [length_rootDir] at hlt
  have hsize : (fs.icache i).di.size.toNat = ((files.length + 2) / 32 + 1) * BSIZE := by
    rw [hr.di, dinodeAt_final rootino_lt, if_pos rfl, h.rounded_size hlen]
  have htype : (fs.icache i).di.type = T_DIR := by
    rw [hr.di, type_final rootino_lt, h.rootType]
  have hfind : findDirent sb dev .dirlookupRead
      (fun de => decide (de.inum ≠ 0 ∧ namecmp x.2 de.name = 0))
      ((fs.icache i).di.size.toNat / 16 + 1) s.final.image (fs.icache i) (16 * 0) = _ :=
    findDirent_first (fun hm => h.readDirent hlen dev hr.di hm)
      (by rw [length_rootDir, hsize]; simp only [BSIZE]; omega) hkd
      (decide_eq_true ((entry_matches hlen hk _).2 rfl))
      (fun m hm de hde => by
        obtain ⟨y, hy, rfl⟩ := getElem?_rootDir hde
        exact decide_eq_false fun hp => hfirst m hm y hy ((entry_matches hlen hy _).1 hp).symm)
      _ 0 (Nat.zero_le _) (by rw [hsize]; simp only [BSIZE]; omega)
  have hsame : Function.update fs.icache i (fs.icache i) = fs.icache := Function.update_eq_self ..
  rw [Nat.mul_zero] at hfind
  rw [Xv6.dirlookup]
  simp only [htype, ne_eq, not_true_eq_false, if_false, hr.sb, hr.disk, bind, Except.bind] at hfind ⊢
  simp only [hfind, hsame, hr.dev, toNat_entry hlen hk]

/-- The names in the image differ from each other and from the root's own. -/
def Names (files : List HostFile) : Prop :=
  (files.map fun f => cname f.entry).Nodup ∧
    ∀ f ∈ files, cname f.entry ≠ dot ∧ cname f.entry ≠ dotdot

instance (files : List HostFile) : Decidable (Names files) := inferInstanceAs (Decidable (_ ∧ _))

/-- The entry of a file. -/
theorem getElem?_entries (hf : files[k]? = some f) :
    (entries files)[k + 2]? = some (k + 2, f.entry) := by
  simp [entries, List.getElem?_zipIdx, hf, Nat.add_comm]

theorem Names.first (hn : Names files) (hf : files[k]? = some f) :
    ∀ m < k + 2, ∀ y, (entries files)[m]? = some y → cname y.2 ≠ cname f.entry := by
  intro m hm y hy
  have hdots := hn.2 f (List.mem_of_getElem? hf)
  match m, hm, hy with
  | 0, _, hy =>
    cases hy
    exact hdots.1.symm
  | 1, _, hy =>
    cases hy
    exact hdots.2.symm
  | m + 2, hm, hy =>
    have hmk : m < k := by omega
    have hk := (List.getElem?_eq_some_iff.1 hf).1
    have hg := List.getElem?_eq_getElem (show m < files.length by omega)
    rw [getElem?_entries hg] at hy
    cases hy
    intro heq
    refine List.nodup_iff_getElem?_ne_getElem?.1 hn.1 m k hmk (by simpa using hk) ?_
    rw [List.getElem?_map, List.getElem?_map, hg, hf]
    exact congrArg some heq

/-- No inode of the image refers to the block, and it is not metadata. -/
def Unused (d : Disk) (b : BlockNo) : Prop :=
  nmeta ≤ b.toNat ∧ ∀ i < NINODES, (dinodeAt sb d i).type ≠ 0 → ∀ t, (dinodeAt sb d i).slot d t ≠ b

/-- **The blocks of the image are not allocated again**, as long as their bits stay set. -/
theorem Packed.unused (h : Packed files s) {d₁ d₂ : Disk} {b : BlockNo}
    (hbits : ∀ c < FSSIZE, bitAt sb s.final.image c = true → bitAt sb d₁ c = true)
    (hb : Xv6.balloc sb d₁ = .ok (b, d₂)) : Unused s.final.image b := by
  obtain ⟨n, hn, hfree, rfl, -⟩ := balloc_ok hb
  have hle : s.final.freeblock ≤ FSSIZE := h.inv.fresh.le
  have hn' : n < FSSIZE := hn
  have hnat : (UInt32.ofNat n).toNat = n := by
    rw [UInt32.toNat_ofNat']
    exact Nat.mod_eq_of_lt (hn'.trans (by decide))
  have hge : s.freeblock ≤ n := by
    by_contra hlt
    have hset := bitAt_image hle hn'
    rw [decide_eq_true (show n < s.final.freeblock from Nat.not_le.1 hlt)] at hset
    rw [hbits n hn' hset] at hfree
    cases hfree
  refine ⟨by rw [hnat]; exact h.inv.fresh.ge.trans hge, fun i hi ht t heq => ?_⟩
  rw [type_final hi] at ht
  rw [h.slot_final hi ht] at heq
  -- the blocks in use have been taken before
  have hne : (s.dinode i).slot s.image t ≠ 0 := by
    intro h0
    have hpos := h.inv.fresh.ge.trans hge
    rw [← hnat, ← heq, h0] at hpos
    exact absurd hpos (by decide)
  have hused := h.inv.owned.refs.used_slot (s := t) hi (by rwa [dinodeAt_image hi])
    (by rwa [dinodeAt_image hi])
  rw [dinodeAt_image hi, heq] at hused
  have hlt := used_lt h.inv.fresh hused
  rw [hnat] at hlt
  omega

/-! ## The kernel reads the image -/

/-- The kernel reads the file back: `bmap` finds its blocks and `readi` returns its bytes. -/
structure ReadsBack (d : Disk) (inum : ℕ) (bytes : List UInt8) : Prop where
  size : (dinodeAt sb d inum).size.toNat = bytes.length
  bmap : ∀ bn < nblocks bytes.length, ∃ b, b ≠ 0 ∧
    bmap sb d (dinodeAt sb d inum) bn = .ok (b, dinodeAt sb d inum, d)
  readi : ∀ (dev : Devsw) (ip : Inode) (off n : ℕ), ip.di = dinodeAt sb d inum →
    off ≤ bytes.length → off + n < 2 ^ 32 →
    readi sb dev d ip off n = .ok (some ((bytes.drop off).take n), ip, d)

theorem Packed.readsBack (h : Packed files s) (hlen : files.length + 2 ≤ NINODES)
    (hf : files[k]? = some f) : ReadsBack s.final.image (k + 2) f.bytes := by
  obtain ⟨hi, hdin, ht, hc⟩ := h.file_final hlen hf
  have ht0 : (s.dinode (k + 2)).type ≠ 0 := by rw [ht]; decide
  have hfill := h.filled_final hi ht0
  have hmax := h.size_le hi ht0
  have hsize : (s.dinode (k + 2)).size.toNat = f.bytes.length := by rw [← hc, length_contents]
  refine ⟨by rw [hdin, hsize], fun bn hbn => ?_, fun dev ip off n hip hoff hn => ?_⟩
  · rw [← hsize] at hbn
    have hb := (hfill.blocks (hbn.trans_le hmax)).2 hbn
    exact ⟨_, hb, bmap_found (hbn.trans_le hmax) hb⟩
  · rw [hdin] at hip hfill
    rw [← hip] at hfill hc hsize ht
    rw [← hc]
    rw [← hip] at hmax
    exact readi_filled dev hfill hmax (by rw [ht]; decide) (by rw [hsize]; exact hoff) hn
      ((min_le_right _ _).trans (le_nblocks _))

/-- **The kernel reads back what `mkfs` packed.** -/
theorem main_readable (hfits : Fits files) : ∃ d, main files = .ok d ∧ readsb d = sb ∧
    (∀ k f, files[k]? = some f → ReadsBack d (k + 2) f.bytes) ∧
    (Names files → ∀ k f, files[k]? = some f → ∀ dev fs i, RootLocked d fs i →
      Xv6.dirlookup dev fs i f.entry = (do
        let (j, c) ← iget fs.icache ROOTDEV (k + 2)
        .ok (some (j, 16 * (k + 2)), { fs with icache := c }))) ∧
    ∀ d₁ b d₂, (∀ c < FSSIZE, bitAt sb d c = true → bitAt sb d₁ c = true) →
      Xv6.balloc sb d₁ = .ok (b, d₂) → Unused d b := by
  obtain ⟨s, h, hmain⟩ := main_packed hfits
  refine ⟨_, hmain, ?_, fun k f hf => h.readsBack hfits.inodes hf, fun hn k f hf dev fs i hr => ?_,
    fun d₁ b d₂ hbits hb => h.unused hbits hb⟩
  · rw [image_store rootino_lt, setDinode, readsb_update (sb_ok.one_lt_iblock rootino_lt)]
    exact h.inv.owned.refs.super
  · have hlook := h.dirlookup hfits.inodes dev hr (getElem?_entries hf) (hn.first hf)
    exact hlook

theorem main_readable_cat : ∃ d, main [catFile] = .ok d ∧ ReadsBack d 2 [1, 2, 3] ∧
    ∀ fs i, RootLocked d fs i → Xv6.dirlookup noDev fs i [99, 97, 116] = (do
      let (j, c) ← iget fs.icache ROOTDEV 2
      .ok (some (j, 32), { fs with icache := c })) := by
  obtain ⟨d, hmain, -, hread, hlook, -⟩ := main_readable fits_cat
  exact ⟨d, hmain, hread 0 catFile rfl, hlook (by decide) 0 catFile rfl noDev⟩

/-- A file that is called `.` in the image. -/
def dotFile : HostFile := ⟨[95, 46], []⟩

/-- The name `.` is found as the root itself. -/
theorem main_dot : ∃ d, main [dotFile] = .ok d ∧ ([dotFile].map fun f => cname f.entry).Nodup ∧
    ∀ fs i, RootLocked d fs i → Xv6.dirlookup noDev fs i dotFile.entry = (do
      let (j, c) ← iget fs.icache ROOTDEV ROOTINO
      .ok (some (j, 0), { fs with icache := c })) := by
  have hfits : Fits [dotFile] := ⟨by decide, by decide, by decide, by decide, by decide⟩
  obtain ⟨s, h, hmain⟩ := main_packed hfits
  refine ⟨_, hmain, by decide, fun fs i hr => ?_⟩
  have hdot : (entries [dotFile])[0]? = some (ROOTINO, dot) := rfl
  have hlook := h.dirlookup (by decide) noDev hr hdot fun m hm => absurd hm (Nat.not_lt_zero m)
  exact hlook

end Mkfs

end Xv6
