/-
  The on-disk format of the file system (`fs.h`).

  The super block says where the inode blocks and the free bit map lie.  An
  inode block holds `IPB` inodes of 64 bytes (`readDinode`, `writeDinode`), a
  bit map block `BPB` bits, an indirect block `NINDIRECT` block numbers.  The
  rest of the file system sees a disk through three views: `dinodeAt` (inode
  number to inode), `bitAt` (block number to bit) and `indirect` (the entries of
  an indirect block), and needs to know only how a store to one of them acts on
  all three.
-/
import Xv6.Param
import Xv6.Lib.Bytes
import Mathlib.Data.Fin.Basic
import Mathlib.Logic.Function.Basic

namespace Xv6

open Bytes Function

abbrev NDIRECT : ℕ := 12

theorem lt_naddrs {k : ℕ} (h : k < NDIRECT) : k < NDIRECT + 1 := Nat.lt_succ_of_lt h

/-- Block numbers in an indirect block. -/
abbrev NINDIRECT : ℕ := BSIZE / 4

abbrev MAXFILE : ℕ := NDIRECT + NINDIRECT

/-- Inodes per block. -/
abbrev IPB : ℕ := BSIZE / 64

/-- Bitmap bits per block. -/
abbrev BPB : ℕ := BSIZE * 8

/-! ## The super block -/

structure Superblock where
  size : ℕ
  nblocks : ℕ
  ninodes : ℕ
  nlog : ℕ
  logstart : ℕ
  inodestart : ℕ
  bmapstart : ℕ
  deriving DecidableEq

/-- `readsb`. -/
def readsb (d : Disk) : Superblock :=
  let b := d 1
  ⟨leGet 4 b 0, leGet 4 b 4, leGet 4 b 8, leGet 4 b 12, leGet 4 b 16, leGet 4 b 20, leGet 4 b 24⟩

namespace Superblock

/-- The number of metadata blocks: the data blocks follow the bit map. -/
def nmeta (sb : Superblock) : ℕ := sb.bmapstart + sb.size / BPB + 1

/-- The layout that `mkfs` makes: boot block, super block, log, inode blocks, bit map, data. -/
structure Ok (sb : Superblock) : Prop where
  super : 1 < sb.inodestart
  inodes : sb.inodestart + sb.ninodes / IPB < sb.bmapstart
  data : sb.nmeta ≤ sb.size
  fits : sb.size < 2 ^ 31

/-- `IBLOCK(inum, sb)`. -/
def iblock (sb : Superblock) (inum : ℕ) : BlockNo := .ofNat (inum / IPB + sb.inodestart)

/-- `BBLOCK(b, sb)`. -/
def bblock (sb : Superblock) (b : ℕ) : BlockNo := .ofNat (b / BPB + sb.bmapstart)

variable {sb : Superblock}

theorem Ok.toNat_iblock (h : sb.Ok) {i : ℕ} (hi : i < sb.ninodes) :
    (sb.iblock i).toNat = i / IPB + sb.inodestart ∧ i / IPB + sb.inodestart < sb.bmapstart := by
  have h1 := h.inodes
  have h2 := h.data
  have h3 := h.fits
  have h4 : i / IPB ≤ sb.ninodes / IPB := Nat.div_le_div_right hi.le
  simp only [nmeta, iblock, UInt32.toNat_ofNat', IPB, BPB, BSIZE] at h1 h2 h4 ⊢
  omega

theorem Ok.toNat_bblock (h : sb.Ok) {b : ℕ} (hb : b < sb.size) :
    (sb.bblock b).toNat = b / BPB + sb.bmapstart ∧ b / BPB + sb.bmapstart < sb.nmeta := by
  have h2 := h.data
  have h3 := h.fits
  have h4 : b / BPB ≤ sb.size / BPB := Nat.div_le_div_right hb.le
  simp only [nmeta, bblock, UInt32.toNat_ofNat', BPB, BSIZE] at h2 h4 ⊢
  omega

/-- The super block is not an inode or bit map block. -/
theorem Ok.one_lt_iblock (h : sb.Ok) {i : ℕ} (hi : i < sb.ninodes) : 1 < (sb.iblock i).toNat := by
  have h1 := h.super
  rw [(h.toNat_iblock hi).1]
  exact h1.trans_le (Nat.le_add_left _ _)

theorem Ok.one_lt_bmapstart (h : sb.Ok) : 1 < sb.bmapstart :=
  h.super.trans_le ((Nat.le_add_right _ _).trans h.inodes.le)

theorem Ok.one_lt_bblock (h : sb.Ok) {b : ℕ} (hb : b < sb.size) : 1 < (sb.bblock b).toNat := by
  rw [(h.toNat_bblock hb).1]
  exact h.one_lt_bmapstart.trans_le (Nat.le_add_left _ _)

theorem Ok.iblock_ne_bblock (h : sb.Ok) {i b : ℕ} (hi : i < sb.ninodes) (hb : b < sb.size) :
    sb.iblock i ≠ sb.bblock b := by
  intro heq
  have h1 := h.toNat_iblock hi
  have h2 := (h.toNat_bblock hb).1
  rw [heq, h2] at h1
  exact absurd h1.2 (by rw [← h1.1]; exact Nat.not_lt.2 (Nat.le_add_left _ _))

end Superblock

/-! ## Inodes -/

/-- `struct dinode`. -/
@[ext] structure Dinode where
  type : Int16
  major : Int16
  minor : Int16
  nlink : Int16
  size : UInt32
  addrs : Fin (NDIRECT + 1) → BlockNo

/-- The 16-bit field at offset `off`. -/
def short (b : Block) (off : ℕ) : Int16 := (UInt16.ofNat (leGet 2 b off)).toInt16

def setShort (b : Block) (off : ℕ) (v : Int16) : Block := leSet 2 b off v.toUInt16.toNat

/-- The 32-bit field at offset `off`. -/
def uint (b : Block) (off : ℕ) : UInt32 := .ofNat (leGet 4 b off)

def setUint (b : Block) (off : ℕ) (v : UInt32) : Block := leSet 4 b off v.toNat

/-- `((struct dinode*)bp->data)[k]`. -/
def readDinode (b : Block) (k : ℕ) : Dinode where
  type := short b (64 * k)
  major := short b (64 * k + 2)
  minor := short b (64 * k + 4)
  nlink := short b (64 * k + 6)
  size := uint b (64 * k + 8)
  addrs i := uint b (64 * k + 12 + 4 * i)

/-- `memmove(dip->addrs, ip->addrs, sizeof(ip->addrs))`. -/
def setAddrs (b : Block) (off : ℕ) (f : Fin (NDIRECT + 1) → BlockNo) : Block :=
  leSetAll 4 (fun i => if h : i < NDIRECT + 1 then (f ⟨i, h⟩).toNat else 0) (NDIRECT + 1) b off

/-- Copy an inode to position `k` of an inode block. -/
def writeDinode (b : Block) (k : ℕ) (di : Dinode) : Block :=
  let b := setShort b (64 * k) di.type
  let b := setShort b (64 * k + 2) di.major
  let b := setShort b (64 * k + 4) di.minor
  let b := setShort b (64 * k + 6) di.nlink
  let b := setUint b (64 * k + 8) di.size
  setAddrs b (64 * k + 12) di.addrs

variable {off : ℕ}

theorem short_setShort (b : Block) (v : Int16) (h : off + 2 ≤ BSIZE) :
    short (setShort b off v) off = v := by
  have hlt : v.toUInt16.toNat < 256 ^ 2 := v.toUInt16.toNat_lt
  rw [short, setShort, leGet_leSet _ _ _ h, Nat.mod_eq_of_lt hlt, UInt16.ofNat_toNat,
    Int16.toInt16_toUInt16]

theorem uint_setUint (b : Block) (v : UInt32) (h : off + 4 ≤ BSIZE) :
    uint (setUint b off v) off = v := by
  have hlt : v.toNat < 256 ^ 4 := v.toNat_lt
  rw [uint, setUint, leGet_leSet _ _ _ h, Nat.mod_eq_of_lt hlt, UInt32.ofNat_toNat]

theorem uint_setAddrs (b : Block) (f : Fin (NDIRECT + 1) → BlockNo)
    (h : off + 4 * (NDIRECT + 1) ≤ BSIZE) (i : Fin (NDIRECT + 1)) :
    uint (setAddrs b off f) (off + 4 * i) = f i := by
  have hlt : (f i).toNat < 256 ^ 4 := (f i).toNat_lt
  rw [uint, setAddrs, leGet_leSetAll _ _ _ _ i.isLt h, dif_pos i.isLt, Nat.mod_eq_of_lt hlt,
    UInt32.ofNat_toNat]

section
variable (b : Block) {off off' : ℕ}

theorem short_setShort_ne (v : Int16) (h : off' + 2 ≤ off ∨ off + 2 ≤ off') :
    short (setShort b off v) off' = short b off' := by
  rw [short, setShort, leGet_leSet_ne _ _ _ _ h, short]

theorem short_setUint_ne (v : UInt32) (h : off' + 2 ≤ off ∨ off + 4 ≤ off') :
    short (setUint b off v) off' = short b off' := by
  rw [short, setUint, leGet_leSet_ne _ _ _ _ h, short]

theorem short_setAddrs_ne (f : Fin (NDIRECT + 1) → BlockNo)
    (h : off' + 2 ≤ off ∨ off + 4 * (NDIRECT + 1) ≤ off') :
    short (setAddrs b off f) off' = short b off' := by
  rw [short, setAddrs, leGet_leSetAll_ne _ _ _ _ _ h, short]

theorem uint_setShort_ne (v : Int16) (h : off' + 4 ≤ off ∨ off + 2 ≤ off') :
    uint (setShort b off v) off' = uint b off' := by
  rw [uint, setShort, leGet_leSet_ne _ _ _ _ h, uint]

theorem uint_setUint_ne (v : UInt32) (h : off' + 4 ≤ off ∨ off + 4 ≤ off') :
    uint (setUint b off v) off' = uint b off' := by
  rw [uint, setUint, leGet_leSet_ne _ _ _ _ h, uint]

theorem uint_setAddrs_ne (f : Fin (NDIRECT + 1) → BlockNo)
    (h : off' + 4 ≤ off ∨ off + 4 * (NDIRECT + 1) ≤ off') :
    uint (setAddrs b off f) off' = uint b off' := by
  rw [uint, setAddrs, leGet_leSetAll_ne _ _ _ _ _ h, uint]

end

/-- Reading back an inode. -/
theorem readDinode_writeDinode (b : Block) {k : ℕ} (di : Dinode) (hk : k < IPB) :
    readDinode (writeDinode b k di) k = di := by
  simp only [IPB, BSIZE] at hk
  refine Dinode.ext ?_ ?_ ?_ ?_ ?_ (funext fun i => ?_)
  · simp only [readDinode, writeDinode]
    rw [short_setAddrs_ne _ _ (by omega), short_setUint_ne _ _ (by omega),
      short_setShort_ne _ _ (by omega), short_setShort_ne _ _ (by omega),
      short_setShort_ne _ _ (by omega), short_setShort _ _ (by simp only [BSIZE]; omega)]
  · simp only [readDinode, writeDinode]
    rw [short_setAddrs_ne _ _ (by omega), short_setUint_ne _ _ (by omega),
      short_setShort_ne _ _ (by omega), short_setShort_ne _ _ (by omega),
      short_setShort _ _ (by simp only [BSIZE]; omega)]
  · simp only [readDinode, writeDinode]
    rw [short_setAddrs_ne _ _ (by omega), short_setUint_ne _ _ (by omega),
      short_setShort_ne _ _ (by omega), short_setShort _ _ (by simp only [BSIZE]; omega)]
  · simp only [readDinode, writeDinode]
    rw [short_setAddrs_ne _ _ (by omega), short_setUint_ne _ _ (by omega),
      short_setShort _ _ (by simp only [BSIZE]; omega)]
  · simp only [readDinode, writeDinode]
    rw [uint_setAddrs_ne _ _ (by omega), uint_setUint _ _ (by simp only [BSIZE]; omega)]
  · exact uint_setAddrs _ _ (by simp only [BSIZE, NDIRECT]; omega) i

/-- The other inodes of the block. -/
theorem readDinode_writeDinode_ne (b : Block) {k l : ℕ} (di : Dinode) (hkl : l ≠ k) :
    readDinode (writeDinode b k di) l = readDinode b l := by
  have hshort : ∀ {off}, 64 * l ≤ off → off + 2 ≤ 64 * l + 64 →
      short (writeDinode b k di) off = short b off := by
    intro off h1 h2
    rw [writeDinode, short_setAddrs_ne _ _ (by simp only [NDIRECT]; omega), short_setUint_ne _ _ (by omega),
      short_setShort_ne _ _ (by omega), short_setShort_ne _ _ (by omega),
      short_setShort_ne _ _ (by omega), short_setShort_ne _ _ (by omega)]
  have huint : ∀ {off}, 64 * l ≤ off → off + 4 ≤ 64 * l + 64 →
      uint (writeDinode b k di) off = uint b off := by
    intro off h1 h2
    rw [writeDinode, uint_setAddrs_ne _ _ (by simp only [NDIRECT]; omega), uint_setUint_ne _ _ (by omega),
      uint_setShort_ne _ _ (by omega), uint_setShort_ne _ _ (by omega),
      uint_setShort_ne _ _ (by omega), uint_setShort_ne _ _ (by omega)]
  refine Dinode.ext ?_ ?_ ?_ ?_ ?_ (funext fun i => ?_)
  · exact hshort (by omega) (by omega)
  · exact hshort (by omega) (by omega)
  · exact hshort (by omega) (by omega)
  · exact hshort (by omega) (by omega)
  · exact huint (by omega) (by omega)
  · have hi := i.isLt
    simp only [NDIRECT] at hi
    exact huint (by omega) (by omega)

/-! ## The views of a disk -/

/-- Inode `inum`. -/
def dinodeAt (sb : Superblock) (d : Disk) (inum : ℕ) : Dinode :=
  readDinode (d (sb.iblock inum)) (inum % IPB)

/-- Copy an inode to its place on disk. -/
def setDinode (sb : Superblock) (d : Disk) (inum : ℕ) (di : Dinode) : Disk :=
  update d (sb.iblock inum) (writeDinode (d (sb.iblock inum)) (inum % IPB) di)

/-- The bit of block `b` in the free bit map. -/
def bitAt (sb : Superblock) (d : Disk) (b : ℕ) : Bool := bit (d (sb.bblock b)) (b % BPB)

/-- `a[j]` for an indirect block `a`. -/
def indirect (b : Block) (j : ℕ) : BlockNo := uint b (4 * j)

def setIndirect (b : Block) (j : ℕ) (v : BlockNo) : Block := setUint b (4 * j) v

/-- A zeroed block lists no blocks. -/
theorem indirect_zero (j : ℕ) : indirect (fun _ => 0) j = 0 := by
  rw [indirect, uint, leGet_zero]
  rfl

theorem indirect_setIndirect (b : Block) {j : ℕ} (v : BlockNo) (hj : j < NINDIRECT) (k : ℕ) :
    indirect (setIndirect b j v) k = if k = j then v else indirect b k := by
  simp only [NINDIRECT, BSIZE] at hj
  split_ifs with hk
  · subst hk
    exact uint_setUint _ _ (by simp only [BSIZE]; omega)
  · exact uint_setUint_ne _ _ (by omega)

section
variable {sb : Superblock} {d : Disk}

/-- The block is neither the super block nor an inode or bit map block. -/
def Superblock.IsData (sb : Superblock) (b : BlockNo) : Prop :=
  sb.nmeta ≤ b.toNat ∧ b.toNat < sb.size

variable {b : BlockNo} {i : ℕ}

theorem Superblock.Ok.one_lt_data (h : sb.Ok) (hb : sb.IsData b) : 1 < b.toNat :=
  h.one_lt_bmapstart.trans_le
    (((Nat.le_add_right _ _).trans (Nat.le_add_right _ _)).trans hb.1)

theorem Superblock.Ok.data_ne_zero (h : sb.Ok) (hb : sb.IsData b) : b ≠ 0 := by
  rintro rfl
  exact absurd (h.one_lt_data hb) (by decide)

/-- A store elsewhere leaves the super block alone. -/
theorem readsb_update (hb : 1 < b.toNat) (v : Block) :
    readsb (update d b v) = readsb d := by
  have h1 : (1 : BlockNo) ≠ b := by rintro rfl; exact absurd hb (by decide)
  simp only [readsb, update_of_ne h1]

theorem Superblock.Ok.iblock_ne_data (h : sb.Ok) (hi : i < sb.ninodes) (hb : sb.IsData b) :
    sb.iblock i ≠ b := by
  rintro rfl
  have h1 := h.toNat_iblock hi
  have h2 := hb.1
  simp only [nmeta, BPB, BSIZE] at h2
  omega

theorem Superblock.Ok.bblock_ne_data (h : sb.Ok) {c : ℕ} (hc : c < sb.size) (hb : sb.IsData b) :
    sb.bblock c ≠ b := by
  rintro rfl
  have h1 := h.toNat_bblock hc
  have h2 := hb.1
  omega

/-- A store to an inode. -/
theorem dinodeAt_setDinode (h : sb.Ok) {i j : ℕ} (hi : i < sb.ninodes) (hj : j < sb.ninodes)
    (di : Dinode) : dinodeAt sb (setDinode sb d i di) j = if j = i then di else dinodeAt sb d j := by
  have h1 := h.toNat_iblock hi
  have h2 := h.toNat_iblock hj
  have hmod : i % IPB < IPB := Nat.mod_lt _ (by decide)
  rw [dinodeAt, setDinode, update_apply]
  split_ifs with hb hij hij
  · subst hij
    exact readDinode_writeDinode _ _ hmod
  · have hne : j % IPB ≠ i % IPB := by
      rw [hb] at h2
      simp only [IPB, BSIZE] at h1 h2 ⊢
      omega
    rw [readDinode_writeDinode_ne _ _ hne, dinodeAt, hb]
  · subst hij; exact absurd rfl hb
  · rfl

theorem bitAt_setDinode (h : sb.Ok) {i b : ℕ} (hi : i < sb.ninodes) (hb : b < sb.size)
    (di : Dinode) : bitAt sb (setDinode sb d i di) b = bitAt sb d b := by
  rw [bitAt, setDinode, update_of_ne (h.iblock_ne_bblock hi hb).symm, bitAt]

theorem setDinode_data (h : sb.Ok) (hi : i < sb.ninodes) (hb : sb.IsData b) (di : Dinode) :
    setDinode sb d i di b = d b :=
  update_of_ne (h.iblock_ne_data hi hb).symm _ _

/-- A store to a data block changes neither inodes nor the bit map. -/
theorem dinodeAt_update (h : sb.Ok) (hi : i < sb.ninodes) (hb : sb.IsData b) (v : Block) :
    dinodeAt sb (update d b v) i = dinodeAt sb d i := by
  rw [dinodeAt, update_of_ne (h.iblock_ne_data hi hb), dinodeAt]

theorem bitAt_update (h : sb.Ok) {c : ℕ} (hc : c < sb.size) (hb : sb.IsData b) (v : Block) :
    bitAt sb (update d b v) c = bitAt sb d c := by
  rw [bitAt, update_of_ne (h.bblock_ne_data hc hb), bitAt]

end

end Xv6
