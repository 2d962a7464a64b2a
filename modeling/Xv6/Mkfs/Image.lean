/-
  `mkfs`: the functions that build the disk image.

  `mkfs` has its own `ialloc`, `balloc` and `iappend`, which take inodes and
  blocks one after the other and write the bit map at the very end.  The image
  of a state (`Mkfs.image`) is the disk with the bit map that would be written
  now.  On images `iappend` is the kernel's `writei` at the end of a file:
  `balloc` finds the block that `mkfs` takes next (`balloc_image`), so `bmap`
  and the loops go through the same steps (`fileBlock_bmap`,
  `iappendLoop_writeiLoop`).
-/
import Mathlib.Order.Interval.Finset.Nat
import Xv6.Fs.Need
import Xv6.Fs.Path

namespace Xv6

open Bytes Fallible Function

namespace Mkfs

/-! ## The disk layout -/

abbrev NINODES : ℕ := 200

abbrev nbitmap : ℕ := FSSIZE / (BSIZE * 8) + 1
abbrev ninodeblocks : ℕ := NINODES / IPB + 1
abbrev nlog : ℕ := LOGSIZE

/-- Number of meta blocks (boot, sb, nlog, inode, bitmap). -/
abbrev nmeta : ℕ := 2 + nlog + ninodeblocks + nbitmap

def sb : Superblock where
  size := FSSIZE
  nblocks := FSSIZE - nmeta
  ninodes := NINODES
  nlog := nlog
  logstart := 2
  inodestart := 2 + nlog
  bmapstart := 2 + nlog + ninodeblocks

theorem sb_ok : sb.Ok := ⟨by decide, by decide, by decide, by decide⟩

/-- How a run ends early. -/
inductive Error where
  /-- an assertion fails -/
  | assert
  /-- `perror("read")` -/
  | read
  deriving DecidableEq

end Mkfs

/-- The variables of `mkfs`: the image file, `freeinode` and `freeblock`. -/
structure Mkfs where
  disk : Disk
  freeinode : ℕ
  freeblock : ℕ

namespace Mkfs

/-! ## Sectors and inodes -/

/-- The image file has `FSSIZE` blocks; it does not grow, since every block is read before it is
    written. -/
def rsect (d : Disk) (sec : BlockNo) : Except Error Block :=
  if sec.toNat < FSSIZE then .ok (d sec) else .error .read

def wsect (d : Disk) (sec : BlockNo) (buf : Block) : Disk := update d sec buf

def winode (d : Disk) (inum : ℕ) (ip : Dinode) : Except Error Disk := do
  let bn := sb.iblock inum
  let buf ← rsect d bn
  .ok (wsect d bn (writeDinode buf (inum % IPB) ip))

def rinode (d : Disk) (inum : ℕ) : Except Error Dinode := do
  let buf ← rsect d (sb.iblock inum)
  .ok (readDinode buf (inum % IPB))

def ialloc (s : Mkfs) (type : Int16) : Except Error (ℕ × Mkfs) := do
  let inum := s.freeinode
  let d ← winode s.disk inum { Dinode.zero with type := type, nlink := 1 }
  .ok (inum, { s with disk := d, freeinode := s.freeinode + 1 })

/-- The bit map whose first `used` bits are set. -/
def bitmap (used : ℕ) : Block := (List.range used).foldl setBit fun _ => 0

def balloc (d : Disk) (used : ℕ) : Except Error Disk :=
  if used < BSIZE * 8 then .ok (wsect d (.ofNat sb.bmapstart) (bitmap used)) else .error .assert

/-! ## Appending to a file -/

/-- The next block, `freeblock++`. -/
def take (s : Mkfs) : BlockNo × Mkfs :=
  (.ofNat s.freeblock, { s with freeblock := s.freeblock + 1 })

/-- The block with index `fbn` of a file, a new one if there is none. -/
def fileBlock (s : Mkfs) (din : Dinode) (fbn : ℕ) : Except Error (BlockNo × Dinode × Mkfs) :=
  if h : fbn < NDIRECT then
    let k : Fin (NDIRECT + 1) := ⟨fbn, lt_naddrs h⟩
    if din.addrs k = 0 then
      let (x, s) := s.take
      .ok (x, { din with addrs := update din.addrs k x }, s)
    else .ok (din.addrs k, din, s)
  else do
    let (ind, din, s) :=
      if din.addrs (Fin.last NDIRECT) = 0 then
        let (ind, s) := s.take
        (ind, { din with addrs := update din.addrs (Fin.last NDIRECT) ind }, s)
      else (din.addrs (Fin.last NDIRECT), din, s)
    let a ← rsect s.disk ind
    if indirect a (fbn - NDIRECT) = 0 then
      let (x, s) := s.take
      .ok (x, din, { s with disk := wsect s.disk ind (setIndirect a (fbn - NDIRECT) x) })
    else .ok (indirect a (fbn - NDIRECT), din, s)

/-- The loop of `iappend`, at most `fuel` rounds of it; every round appends at least one byte. -/
def iappendLoop : ℕ → Mkfs → Dinode → ℕ → List UInt8 → Except Error (Dinode × Mkfs)
  | 0, s, din, _, _ => .ok (din, s)
  | fuel + 1, s, din, off, p =>
    if p = [] then .ok (din, s)
    else
      let fbn := off / BSIZE
      if MAXFILE ≤ fbn then .error .assert
      else do
        let (x, din, s) ← fileBlock s din fbn
        let n1 := min p.length ((fbn + 1) * BSIZE - off)
        let buf ← rsect s.disk x
        let s := { s with disk := wsect s.disk x (setBytes buf (off - fbn * BSIZE) (p.take n1)) }
        iappendLoop fuel s din (off + n1) (p.drop n1)

def iappend (s : Mkfs) (inum : ℕ) (p : List UInt8) : Except Error Mkfs := do
  let din ← rinode s.disk inum
  let off := din.size.toNat
  let (din, s) ← iappendLoop p.length s din off p
  let d ← winode s.disk inum { din with size := .ofNat (off + p.length) }
  .ok { s with disk := d }

/-! ## Images -/

/-- The disk with the bit map for the blocks taken so far. -/
def image (s : Mkfs) : Disk := wsect s.disk (.ofNat sb.bmapstart) (bitmap s.freeblock)

/-- The blocks that have not been taken are zeroed. -/
structure Fresh (s : Mkfs) : Prop where
  ge : nmeta ≤ s.freeblock
  le : s.freeblock ≤ FSSIZE
  zero : ∀ {b : BlockNo}, s.freeblock ≤ b.toNat → b.toNat < FSSIZE → s.disk b = fun _ => 0

theorem bitmap_succ (used : ℕ) : bitmap (used + 1) = setBit (bitmap used) used := by
  simp only [bitmap, List.range_succ, List.foldl_append, List.foldl_cons, List.foldl_nil]

theorem bit_bitmap (j : ℕ) : ∀ {used : ℕ}, used ≤ 8 * BSIZE → bit (bitmap used) j = decide (j < used)
  | 0, _ => by
    have hbyte : byte (fun _ : Fin BSIZE => (0 : UInt8)) (j / 8) = 0 := by
      unfold byte
      split_ifs <;> rfl
    change bit (fun _ => 0) j = _
    rw [bit_eq, hbyte]
    simp
  | used + 1, h => by
    rw [bitmap_succ, bit_setBit _ (by omega), bit_bitmap j (by omega), Bool.eq_iff_iff]
    simp only [Bool.or_eq_true, decide_eq_true_eq]
    omega

/-- All bits are in one block. -/
theorem bblock_eq {c : ℕ} (hc : c < FSSIZE) : sb.bblock c = .ofNat sb.bmapstart := by
  have hdiv : c / BPB = 0 := Nat.div_eq_of_lt (hc.trans (by decide))
  rw [Superblock.bblock, hdiv, Nat.zero_add]

section
variable {s s' : Mkfs}

variable {b : BlockNo} {fbn : ℕ}

theorem image_apply (hb : b ≠ .ofNat sb.bmapstart) : s.image b = s.disk b :=
  update_of_ne hb _ _

theorem image_bmapstart : s.image (.ofNat sb.bmapstart) = bitmap s.freeblock := by
  rw [image, wsect, update_self]

theorem iblock_ne {i : ℕ} (hi : i < NINODES) : sb.iblock i ≠ .ofNat sb.bmapstart := by
  have hne : sb.iblock i ≠ sb.bblock 0 := sb_ok.iblock_ne_bblock hi (by decide)
  rwa [bblock_eq (by decide)] at hne

theorem data_ne (hb : sb.IsData b) : b ≠ .ofNat sb.bmapstart := by
  have hne : sb.bblock 0 ≠ b := sb_ok.bblock_ne_data (by decide) hb
  rw [bblock_eq (by decide)] at hne
  exact hne.symm

theorem dinodeAt_image {i : ℕ} (hi : i < NINODES) :
    dinodeAt sb s.image i = dinodeAt sb s.disk i := by
  rw [dinodeAt, image_apply (iblock_ne hi), dinodeAt]

/-- The bits of the image. -/
theorem bitAt_image (h : s.freeblock ≤ FSSIZE) {c : ℕ} (hc : c < FSSIZE) :
    bitAt sb s.image c = decide (c < s.freeblock) := by
  have hmod : c % BPB = c := Nat.mod_eq_of_lt (hc.trans (by decide))
  rw [bitAt, bblock_eq hc, hmod, image_bmapstart, bit_bitmap c (h.trans (by decide))]

/-- A store to another block. -/
theorem image_wsect (hb : b ≠ .ofNat sb.bmapstart) (v : Block) :
    image { s with disk := wsect s.disk b v } = update s.image b v :=
  update_comm hb _ _ _

theorem rsect_eq (d : Disk) (hb : b.toNat < FSSIZE) : rsect d b = .ok (d b) := if_pos hb

/-- A store to a block that has been taken. -/
theorem Fresh.wsect (h : s.Fresh) (hb : b.toNat < s.freeblock) (v : Block) :
    Fresh { s with disk := wsect s.disk b v } where
  ge := h.ge
  le := h.le
  zero {c} hc hlt := by
    have hne : c ≠ b := by
      rintro rfl
      exact absurd hb (Nat.not_lt.2 hc)
    exact (update_of_ne hne _ _).trans (h.zero hc hlt)

/-- **The kernel's `balloc`** takes the next block of `mkfs`. -/
theorem balloc_image (h : s.Fresh) {d' : Disk} (hb : Xv6.balloc sb s.image = .ok (b, d')) :
    b = s.take.1 ∧ d' = s.take.2.image ∧ s.take.2.Fresh ∧ sb.IsData b ∧ b.toNat < s.take.2.freeblock := by
  obtain ⟨n, hn, hfree, rfl, rfl⟩ := balloc_ok hb
  have hnat : (UInt32.ofNat n).toNat = n := by
    rw [UInt32.toNat_ofNat']
    exact Nat.mod_eq_of_lt (hn.trans (by decide))
  have hn' : n < FSSIZE := hn
  have hge : s.freeblock ≤ n := by
    rw [bitAt_image h.le hn'] at hfree
    exact Nat.not_lt.1 (of_decide_eq_false hfree)
  -- the first free block is the next one
  obtain rfl : n = s.freeblock := by
    refine le_antisymm (Nat.not_lt.1 fun hlt => ?_) hge
    have hbit := balloc_first sb_ok hb (c := s.freeblock) (by rwa [hnat])
    rw [bitAt_image h.le (hlt.trans hn')] at hbit
    exact absurd (of_decide_eq_true hbit) (lt_irrefl _)
  have hdata : sb.IsData (.ofNat s.freeblock) := by
    rw [Superblock.IsData, hnat]
    exact ⟨h.ge, hn⟩
  refine ⟨rfl, ?_, ⟨?_, hn, ?_⟩, hdata, ?_⟩
  · have hmod : s.freeblock % BPB = s.freeblock := Nat.mod_eq_of_lt (hn'.trans (by decide))
    have hzero : s.disk (.ofNat s.freeblock) = fun _ => 0 := h.zero hnat.ge (by rwa [hnat])
    have hsame : s.take.2.image (.ofNat s.freeblock) = fun _ => 0 :=
      (image_apply (data_ne hdata)).trans hzero
    rw [bzero, markUsed, bblock_eq hn', hmod, image_bmapstart, ← bitmap_succ, image, wsect,
      update_idem, ← hsame]
    exact update_eq_self _ s.take.2.image
  · exact h.ge.trans (Nat.le_succ _)
  · intro c hc hlt
    exact h.zero ((Nat.le_succ _).trans hc) hlt
  · show (UInt32.ofNat s.freeblock).toNat < s.freeblock + 1
    omega

/-- The blocks in use have been taken. -/
theorem used_lt (h : s.Fresh) (hb : Used sb s.image b) : b.toNat < s.freeblock := by
  have hbit := hb.2
  rw [bitAt_image h.le hb.1.2] at hbit
  exact of_decide_eq_true hbit

/-! ## `bmap` -/

/-- `mkfs` and the kernel have found the same block. -/
structure Found (s : Mkfs) (b : BlockNo) (d' : Disk) (s' : Mkfs) : Prop where
  image : s'.image = d'
  fresh : s'.Fresh
  freeinode : s'.freeinode = s.freeinode
  data : sb.IsData b
  taken : b.toNat < s'.freeblock

/-- A block that is there. -/
theorem Found.used (h : s.Fresh) (hb : Used sb s.image b) : Found s b s.image s :=
  ⟨rfl, h, rfl, hb.1, used_lt h hb⟩

/-- A new block. -/
theorem Found.new (h : s.Fresh) {d' : Disk} (hb : Xv6.balloc sb s.image = .ok (b, d')) :
    b = s.take.1 ∧ Found s b d' s.take.2 := by
  obtain ⟨hb, hd, hf, hdata, hlt⟩ := balloc_image h hb
  exact ⟨hb, hd.symm, hf, rfl, hdata, hlt⟩

variable {tab : ℕ → Dinode} {i : ℕ} {b : BlockNo} {di : Dinode} {d' : Disk}

theorem fileBlock_direct (h : s.Fresh) (hr : Refs sb tab s.image) (hi : i < NINODES)
    (ht : (tab i).type ≠ 0) (hdir : fbn < NDIRECT)
    (hok : bmap sb s.image (tab i) fbn = .ok (b, di, d')) :
    ∃ s', fileBlock s (tab i) fbn = .ok (b, di, s') ∧ Found s b d' s' := by
  simp only [bmap, dif_pos hdir] at hok
  simp only [fileBlock, dif_pos hdir]
  split_ifs at hok ⊢ with h0
  · obtain ⟨⟨b₁, d₁⟩, hb, hok⟩ := bind_ok hok
    cases hok
    obtain ⟨rfl, hnew⟩ := Found.new h hb
    exact ⟨_, rfl, hnew⟩
  · cases hok
    exact ⟨_, rfl, .used h (hr.used_slot (s := .addr _) hi ht h0)⟩

/-- The indirect block. -/
theorem take_loadIndirect (h : s.Fresh) (hr : Refs sb tab s.image) (hi : i < NINODES)
    (ht : (tab i).type ≠ 0) {ind : BlockNo}
    (hok : loadIndirect sb s.image (tab i) = .ok (ind, di, d')) :
    ∃ s', (if (tab i).addrs (Fin.last NDIRECT) = 0 then
        (s.take.1, { tab i with
          addrs := update (tab i).addrs (Fin.last NDIRECT) s.take.1 }, s.take.2)
      else ((tab i).addrs (Fin.last NDIRECT), tab i, s)) = (ind, di, s') ∧ Found s ind d' s' := by
  rw [loadIndirect] at hok
  split_ifs at hok ⊢ with h0
  · obtain ⟨⟨b₁, d₁⟩, hb, hok⟩ := bind_ok hok
    cases hok
    obtain ⟨rfl, hnew⟩ := Found.new h hb
    exact ⟨_, rfl, hnew⟩
  · cases hok
    exact ⟨_, rfl, .used h (hr.used_iaddr hi ht h0)⟩

theorem fileBlock_indirect (h : s.Fresh) (hr : Refs sb tab s.image) (hi : i < NINODES)
    (ht : (tab i).type ≠ 0) (hind : NDIRECT ≤ fbn)
    (hok : bmap sb s.image (tab i) fbn = .ok (b, di, d')) :
    ∃ s', fileBlock s (tab i) fbn = .ok (b, di, s') ∧ Found s b d' s' := by
  have hmap := bmap_spec hr hi ht hok
  simp only [bmap, dif_neg (Nat.not_lt.2 hind)] at hok
  split_ifs at hok with hj
  obtain ⟨⟨ind, di₁, d₁⟩, hload, hok⟩ := bind_ok hok
  obtain ⟨s₁, htake, hfound⟩ := take_loadIndirect h hr hi ht hload
  obtain rfl := hfound.image
  have hdisk : s₁.image ind = s₁.disk ind := image_apply (data_ne hfound.data)
  have hread : rsect s₁.disk ind = .ok (s₁.image ind) := by
    rw [rsect_eq _ hfound.data.2, hdisk]
  simp only [take] at htake
  simp only [fileBlock, dif_neg (Nat.not_lt.2 hind), take, htake, hread, bind, Except.bind]
  dsimp only at hok
  split_ifs at hok ⊢ with h0
  · obtain ⟨⟨b₂, d₂⟩, hb, hok⟩ := bind_ok hok
    cases hok
    obtain ⟨rfl, hnew⟩ := Found.new hfound.fresh hb
    obtain rfl := hnew.image
    have hlt : ind.toNat < s₁.take.2.freeblock := hfound.taken.trans (Nat.lt_succ_self _)
    have hsame : s₁.take.2.image ind = s₁.image ind := by
      rw [hdisk]
      exact image_apply (data_ne hfound.data)
    refine ⟨_, rfl, ?_, hnew.fresh.wsect hlt _, hfound.freeinode, hnew.data, hnew.taken⟩
    dsimp only
    rw [hsame]
    exact image_wsect (s := s₁.take.2) (data_ne hfound.data) _
  · cases hok
    have hself : update tab i di i = di := update_self ..
    have hused := hmap.refs.used_slot (s := fileSlot fbn) hi (by rw [hself, hmap.type_eq]; exact ht)
      (by rw [hself, hmap.addr]; exact hmap.pos)
    rw [hself, hmap.addr] at hused
    exact ⟨_, rfl, rfl, hfound.fresh, hfound.freeinode, hused.1, used_lt hfound.fresh hused⟩

/-- **The block of a file** is the one that the kernel's `bmap` finds on the image. -/
theorem fileBlock_bmap (h : s.Fresh) (hr : Refs sb tab s.image) (hi : i < NINODES)
    (ht : (tab i).type ≠ 0) (hok : bmap sb s.image (tab i) fbn = .ok (b, di, d')) :
    ∃ s', fileBlock s (tab i) fbn = .ok (b, di, s') ∧ Found s b d' s' := by
  rcases Nat.lt_or_ge fbn NDIRECT with hdir | hind
  · exact fileBlock_direct h hr hi ht hdir hok
  · exact fileBlock_indirect h hr hi ht hind hok

/-! ## `writei` -/

/-- **The loop of `iappend`** is the loop of `writei`. -/
theorem iappendLoop_writeiLoop (hi : i < NINODES) (fuel : ℕ) : ∀ {s : Mkfs} {tab : ℕ → Dinode}
    {n off : ℕ} {p : List UInt8}, s.Fresh → Refs sb tab s.image → (tab i).type ≠ 0 →
    Filled (tab i) s.image n → off ≤ n * BSIZE →
    writeiLoop sb fuel s.image (tab i) off p = .ok (di, d') →
    ∃ s', iappendLoop fuel s (tab i) off p = .ok (di, s') ∧ s'.image = d' ∧ s'.Fresh ∧
      s'.freeinode = s.freeinode := by
  induction fuel with
  | zero =>
    intro s tab n off p h hr ht hf hoff hok
    cases hok
    exact ⟨_, rfl, rfl, h, rfl⟩
  | succ fuel ih =>
    intro s tab n off p h hr ht hf hoff hok
    rw [writeiLoop] at hok
    rw [iappendLoop]
    split_ifs at hok ⊢ with hnil
    · cases hok
      exact ⟨_, rfl, rfl, h, rfl⟩
    · obtain ⟨⟨b, di₁, d₁⟩, hb, hok⟩ := bind_ok hok
      obtain ⟨hpos, hm⟩ := round_le n off hnil
      have hmap := bmap_spec hr hi ht hb
      obtain ⟨s₁, hblock, hfound⟩ := fileBlock_bmap h hr hi ht hb
      obtain rfl := hfound.image
      have hread : rsect s₁.disk b = .ok (s₁.image b) := by
        rw [rsect_eq _ hfound.data.2, image_apply (data_ne hfound.data)]
      have hmin : (off / BSIZE + 1) * BSIZE - off = BSIZE - off % BSIZE := by
        simp only [BSIZE]
        omega
      have hstart : off - off / BSIZE * BSIZE = off % BSIZE := by
        simp only [BSIZE]
        omega
      set m := min p.length (BSIZE - off % BSIZE) with hmdef
      have himage := image_wsect (s := s₁) (data_ne hfound.data)
        (setBytes (s₁.image b) (off % BSIZE) (p.take m))
      obtain ⟨hg, ht₁, hf₁⟩ := writeiRound hr hi ht hf hoff hb
        (setBytes (s₁.image b) (off % BSIZE) (p.take m))
      have hself : update tab i di₁ i = di₁ := update_self ..
      dsimp only at hok
      rw [← himage] at hg hf₁ hok
      rw [← hself] at hok
      obtain ⟨s', hloop, himage', hfresh', hino⟩ := ih (hfound.fresh.wsect hfound.taken _) hg.refs
        ht₁ hf₁ hm hok
      refine ⟨s', ?_, himage', hfresh', hino.trans hfound.freeinode⟩
      rw [hself] at hloop
      simp only [if_neg (Nat.not_le.2 hmap.range), hblock, hread, hmin, hstart, bind, Except.bind]
      exact hloop

/-! ## The functions on images -/

theorem iblock_lt (hi : i < NINODES) : (sb.iblock i).toNat < nmeta := by
  obtain ⟨heq, hlt⟩ := sb_ok.toNat_iblock hi
  rw [heq]
  exact hlt.trans (by decide)

theorem rinode_eq (d : Disk) (hi : i < NINODES) : rinode d i = .ok (dinodeAt sb d i) := by
  rw [rinode, rsect_eq d ((iblock_lt hi).trans (by decide))]
  rfl

theorem winode_eq (d : Disk) (hi : i < NINODES) (di : Dinode) :
    winode d i di = .ok (setDinode sb d i di) := by
  rw [winode, rsect_eq d ((iblock_lt hi).trans (by decide))]
  rfl

/-- Inode `i` is written. -/
def store (s : Mkfs) (i : ℕ) (di : Dinode) : Mkfs := { s with disk := setDinode sb s.disk i di }

theorem image_store (hi : i < NINODES) (di : Dinode) :
    (s.store i di).image = setDinode sb s.image i di := by
  rw [store, setDinode, setDinode, image_apply (iblock_ne hi)]
  exact image_wsect (iblock_ne hi) _

theorem Fresh.store (h : s.Fresh) (hi : i < NINODES) (di : Dinode) : (s.store i di).Fresh :=
  h.wsect ((iblock_lt hi).trans_le h.ge) _

/-- What holds between two steps of `mkfs`: the image is consistent. -/
structure Inv (s : Mkfs) : Prop where
  fresh : s.Fresh
  owned : Owned True sb s.image

theorem Inv.freeBlocks (h : s.Inv) : freeBlocks sb s.image + s.freeblock = FSSIZE := by
  have hle := h.fresh.le
  have hfilter : (Finset.range sb.size).filter (fun b => bitAt sb s.image b = false) =
      Finset.Ico s.freeblock FSSIZE := by
    ext c
    simp only [Finset.mem_filter, Finset.mem_range, Finset.mem_Ico]
    constructor
    · rintro ⟨hc, hbit⟩
      rw [bitAt_image hle hc] at hbit
      exact ⟨Nat.not_lt.1 (of_decide_eq_false hbit), hc⟩
    · rintro ⟨hge, hc⟩
      refine ⟨hc, ?_⟩
      rw [bitAt_image hle hc]
      exact decide_eq_false (Nat.not_lt.2 hge)
  have hcard : Xv6.freeBlocks sb s.image = FSSIZE - s.freeblock := by
    rw [Xv6.freeBlocks, hfilter, Nat.card_Ico]
  omega

/-- The inode `i` of the image file. -/
abbrev dinode (s : Mkfs) (i : ℕ) : Dinode := dinodeAt sb s.disk i

/-- The contents of file `i`. -/
def file (s : Mkfs) (i : ℕ) : List UInt8 := contents (s.dinode i) s.image

theorem length_file (s : Mkfs) (i : ℕ) : (s.file i).length = (s.dinode i).size.toNat :=
  length_contents _ _

/-- What a step does to the inodes other than `i`. -/
structure Others (s : Mkfs) (i : ℕ) (s' : Mkfs) : Prop where
  dinode : ∀ j < NINODES, j ≠ i → s'.dinode j = s.dinode j
  file : ∀ j < NINODES, j ≠ i → (s.dinode j).type ≠ 0 → s'.file j = s.file j

theorem dinode_store (hi : i < NINODES) {j : ℕ} (hj : j < NINODES) (di : Dinode) :
    (s.store i di).dinode j = if j = i then di else s.dinode j :=
  dinodeAt_setDinode sb_ok hi hj di

theorem Inv.others_store (h : s.Inv) (hi : i < NINODES) (di : Dinode) :
    Others s i (s.store i di) := by
  have hdin : ∀ {j}, j < sb.ninodes → j ≠ i →
      dinodeAt sb (s.store i di).image j = dinodeAt sb s.image j := fun {j} hj hji => by
    rw [image_store hi, dinodeAt_setDinode sb_ok hi hj, if_neg hji]
  have hkeeps : KeepsFiles sb s.image i (s.store i di).image :=
    h.owned.keepsFiles hdin fun hc => by rw [image_store hi, setDinode_data sb_ok hi hc]
  refine ⟨fun j hj hji => ?_, fun j hj hji htj => ?_⟩
  · rw [dinode_store hi hj, if_neg hji]
  · obtain ⟨-, hcj⟩ := hkeeps j hj hji (by rwa [dinodeAt_image hj])
    rw [dinodeAt_image hj] at hcj
    rw [file, dinode_store hi hj, if_neg hji, hcj, file]

/-- The bytes `p` have been appended to file `i`. -/
structure Appended (s : Mkfs) (i : ℕ) (p : List UInt8) (s' : Mkfs) : Prop where
  inv : s'.Inv
  others : Others s i s'
  file : s'.file i = s.file i ++ p
  type : (s'.dinode i).type = (s.dinode i).type
  freeinode : s'.freeinode = s.freeinode
  freeblock : s'.freeblock + need (nblocks (s.file i).length) =
    s.freeblock + need (nblocks (s.file i ++ p).length)

/-- `writei` at the end of a file. -/
theorem overwrite_end (l p : List UInt8) : overwrite l l.length p = l ++ p := by
  rw [overwrite, List.take_length, List.drop_of_length_le (Nat.le_add_right _ _), List.append_nil]

/-- The in-memory inode that the kernel would have. -/
def inode (s : Mkfs) (i : ℕ) : Inode := ⟨ROOTDEV, i, 1, true, s.dinode i⟩

/-- **`iappend` is `writei` at the end of the file**, and succeeds while there are blocks. -/
theorem Inv.iappend_writei (h : s.Inv) (hi : i < NINODES) (ht : (s.dinode i).type ≠ 0)
    (hdev : (s.dinode i).type ≠ T_DEV) {p : List UInt8} (hp : p ≠ [])
    (hmax : (s.dinode i).size.toNat + p.length ≤ MAXFILE * BSIZE)
    (hroom : s.freeblock + need (nblocks ((s.dinode i).size.toNat + p.length)) ≤
      FSSIZE + need (nblocks (s.dinode i).size.toNat)) :
    ∃ s' di', iappend s i p = .ok s' ∧
      writei sb noDev s.image (s.inode i) p (s.dinode i).size.toNat =
        .ok (some p.length, { s.inode i with di := di' }, s'.image) ∧
      s'.Fresh ∧ s'.freeinode = s.freeinode ∧
      Xv6.freeBlocks sb s'.image + need (nblocks ((s.dinode i).size.toNat + p.length)) =
        Xv6.freeBlocks sb s.image + need (nblocks (s.dinode i).size.toNat) := by
  have hdi : dinodeAt sb s.image i = s.dinode i := dinodeAt_image hi
  have hpos : 0 < p.length := List.length_pos_iff.2 hp
  have hgrow : nblocks (s.dinode i).size.toNat ≤ nblocks ((s.dinode i).size.toNat + p.length) := by
    simp only [nblocks, BSIZE]
    omega
  have hfree := h.freeBlocks
  have ht' : (dinodeAt sb s.image i).type ≠ 0 := by rwa [hdi]
  have hfill := h.owned.filled hi ht'
  have hoff : (s.dinode i).size.toNat ≤ nblocks (dinodeAt sb s.image i).size.toNat * BSIZE := by
    rw [hdi]
    exact le_nblocks _
  obtain ⟨di, d₁, hloop, hcount⟩ := writeiLoop_need hi p.length h.owned.refs ht' hfill hoff le_rfl
    hmax (by rw [hdi, max_eq_right hgrow]; omega)
  obtain ⟨s₁, happ, rfl, hfresh, hino⟩ := iappendLoop_writeiLoop hi p.length h.fresh
    h.owned.refs ht' hfill hoff hloop
  rw [hdi] at hloop happ hcount
  rw [max_eq_right hgrow] at hcount
  have hlt : (s.dinode i).size.toNat < (s.dinode i).size.toNat + p.length := by omega
  have hwrite : writei sb noDev s.image (s.inode i) p (s.dinode i).size.toNat = _ :=
    writei_grows hdev le_rfl hlt hmax hloop
  refine ⟨s₁.store i { di with size := .ofNat ((s.dinode i).size.toNat + p.length) },
    { di with size := .ofNat ((s.dinode i).size.toNat + p.length) }, ?_, ?_, hfresh.store hi _,
    hino, ?_⟩
  · simp only [iappend, rinode_eq _ hi, happ, winode_eq _ hi, bind, Except.bind, store]
  · rw [image_store hi]
    exact hwrite
  · have hbits : ∀ di, Xv6.freeBlocks sb (setDinode sb s₁.image i di) = Xv6.freeBlocks sb s₁.image :=
      fun di => freeBlocks_congr fun c hc => bitAt_setDinode sb_ok hi hc di
    rw [image_store hi, hbits, hcount]

/-- **`iappend`** succeeds while there are blocks, and appends its bytes. -/
theorem Inv.iappend (h : s.Inv) (hi : i < NINODES) (ht : (s.dinode i).type ≠ 0)
    (hdev : (s.dinode i).type ≠ T_DEV) {p : List UInt8} (hp : p ≠ [])
    (hmax : (s.file i ++ p).length ≤ MAXFILE * BSIZE)
    (hroom : s.freeblock + need (nblocks (s.file i ++ p).length) ≤
      FSSIZE + need (nblocks (s.file i).length)) :
    ∃ s', Mkfs.iappend s i p = .ok s' ∧ Appended s i p s' := by
  rw [List.length_append, length_file] at hmax hroom
  obtain ⟨s', di', happ, hwrite, hfresh, hino, hcount⟩ :=
    h.iappend_writei hi ht hdev hp hmax hroom
  have hrange : (s.inode i).inum < sb.ninodes := hi
  have htype : (s.inode i).di.type ≠ 0 := ht
  have hdi : dinodeAt sb s.image (s.inode i).inum = (s.inode i).di := dinodeAt_image hi
  have hsrc : p.length < 2 ^ 32 := by
    simp only [MAXFILE, NDIRECT, NINDIRECT, BSIZE] at hmax
    omega
  have hkept := writei_kept h.owned hrange htype hdi hsrc hwrite
  have hstored := writei_contents h.owned hrange htype hdi hsrc hwrite
  have hself : s'.dinode i = di' := (dinodeAt_image hi).symm.trans hkept.self
  have hinv : s'.Inv := ⟨hfresh, hkept.owned⟩
  have hfile : s'.file i = s.file i ++ p := by
    have hbytes : contents di' s'.image = overwrite (s.file i) (s.dinode i).size.toNat p :=
      (hstored.bytes hdev _ rfl).2.2.2
    rw [file, hself, hbytes, ← length_file, overwrite_end]
  have hothers : Others s i s' := by
    constructor
    · intro j hj hji
      have hother := hkept.other hj hji
      rwa [dinodeAt_image hj, dinodeAt_image hj] at hother
    · intro j hj hji htj
      obtain ⟨hdj, hcj⟩ := hstored.others j hj hji (by rwa [dinodeAt_image hj])
      rw [dinodeAt_image hj, dinodeAt_image hj] at hdj
      rw [dinodeAt_image hj] at hcj
      rw [file, dinode, hdj, hcj, file]
  refine ⟨s', happ, ?_⟩
  have htype : (s'.dinode i).type = (s.dinode i).type := by
    have hfields : di' = { s.dinode i with addrs := di'.addrs, size := di'.size } := hstored.fields
    rw [hself, hfields]
  refine ⟨hinv, hothers, hfile, htype, hino, ?_⟩
  · have h₁ := h.freeBlocks
    have h₂ := hinv.freeBlocks
    rw [List.length_append, length_file]
    omega

end

end Mkfs

end Xv6
