/-
  The block allocator (`balloc` and `bfree` of `fs.c`).

  `log_write` and the buffer cache do not appear here: what one process reads
  and writes between `begin_op` and `end_op` is a plain map from blocks to
  contents.
-/
import Xv6.Fs.Layout
import Mathlib.Data.List.Basic

namespace Xv6

open Bytes Function

/-- The panics of `fs.c`, `file.c` and `sysfile.c`. -/
inductive FsPanic where
  /-- `panic("balloc: out of blocks")` -/
  | outOfBlocks
  /-- `panic("freeing free block")` -/
  | freeingFree
  /-- `panic("ialloc: no inodes")` -/
  | ialloc
  /-- `panic("iget: no inodes")` -/
  | iget
  /-- `panic("ilock")` -/
  | ilock
  /-- `panic("ilock: no type")` -/
  | noType
  /-- `panic("bmap: out of range")` -/
  | bmapRange
  /-- `panic("dirlookup not DIR")` -/
  | notDir
  /-- `panic("dirlookup read")` -/
  | dirlookupRead
  /-- `panic("dirlink read")` -/
  | dirlinkRead
  /-- `panic("dirlink")` -/
  | dirlink
  /-- `panic("short filewrite")` -/
  | shortFilewrite
  /-- `panic("fileclose")` -/
  | fileclose
  /-- `panic("isdirempty: readi")` -/
  | isdiremptyReadi
  /-- `panic("unlink: nlink < 1")` -/
  | unlinkNlink
  /-- `panic("unlink: writei")` -/
  | unlinkWritei
  /-- `panic("create dots")` -/
  | createDots
  /-- `panic("create: dirlink")` -/
  | createDirlink
  deriving DecidableEq

/-- `bzero`. -/
def bzero (d : Disk) (b : BlockNo) : Disk := update d b fun _ => 0

/-- The inner loop of `balloc`: the first free block in the bit map block `bp` for the blocks
    from `b` on. -/
def ballocScan (sb : Superblock) (bp : Block) (b : ℕ) : Option ℕ :=
  (List.range BPB).find? fun bi => b + bi < sb.size ∧ bit bp bi = false

/-- Mark block `b` in use. -/
def markUsed (sb : Superblock) (d : Disk) (b : ℕ) : Disk :=
  update d (sb.bblock b) (setBit (d (sb.bblock b)) (b % BPB))

/-- Allocate a zeroed disk block. -/
def balloc (sb : Superblock) (d : Disk) : Except FsPanic (BlockNo × Disk) :=
  -- `k` counts the bit map blocks
  match (List.range ((sb.size + BPB - 1) / BPB)).findSome? fun k =>
    (ballocScan sb (d (sb.bblock (k * BPB))) (k * BPB)).map (k * BPB + ·) with
  | some b => .ok (.ofNat b, bzero (markUsed sb d b) (.ofNat b))
  | none => .error .outOfBlocks

/-- Free a disk block. -/
def bfree (d : Disk) (b : BlockNo) : Except FsPanic Disk :=
  let sb := readsb d
  let bp := d (sb.bblock b.toNat)
  if bit bp (b.toNat % BPB) = false then .error .freeingFree
  else .ok (update d (sb.bblock b.toNat) (clearBit bp (b.toNat % BPB)))

/-! ## Specifications -/

section
variable {sb : Superblock} {d d' : Disk} {b : BlockNo}

theorem bblock_mul (sb : Superblock) {k bi : ℕ} (h : bi < BPB) :
    sb.bblock (k * BPB) = sb.bblock (k * BPB + bi) := by
  have hpos : 0 < BPB := by decide
  rw [Superblock.bblock, Superblock.bblock, Nat.mul_div_cancel k hpos, Nat.add_comm (k * BPB) bi,
    Nat.add_mul_div_right bi k hpos, Nat.div_eq_of_lt h, Nat.zero_add]

theorem ballocScan_some {bp : Block} {k bi : ℕ} (h : ballocScan sb bp k = some bi) :
    bi < BPB ∧ k + bi < sb.size ∧ bit bp bi = false := by
  rw [ballocScan] at h
  refine ⟨List.mem_range.1 (List.mem_of_find?_eq_some h), of_decide_eq_true (List.find?_some
    (p := fun bi => decide (k + bi < sb.size ∧ bit bp bi = false)) h)⟩

/-- `balloc` finds a block whose bit is clear. -/
theorem balloc_ok (h : balloc sb d = .ok (b, d')) : ∃ n < sb.size, bitAt sb d n = false ∧
    b = .ofNat n ∧ d' = bzero (markUsed sb d n) (.ofNat n) := by
  unfold balloc at h
  split at h
  next n hn =>
    cases h
    obtain ⟨k, -, hk⟩ := List.exists_of_findSome?_eq_some hn
    obtain ⟨bi, hbi, rfl⟩ := Option.map_eq_some_iff.1 hk
    obtain ⟨hlt, h1, h2⟩ := ballocScan_some hbi
    refine ⟨_, h1, ?_, rfl, rfl⟩
    rw [bitAt, ← bblock_mul sb hlt, Nat.mul_add_mod_self_right, Nat.mod_eq_of_lt hlt]
    exact h2
  next => cases h

variable {n c : ℕ}

/-- Two blocks with bits at the same place are one. -/
theorem bblock_inj (hok : sb.Ok) (hn : n < sb.size) (hc : c < sb.size)
    (h : sb.bblock n = sb.bblock c) (hm : n % BPB = c % BPB) : n = c := by
  have h1 := (hok.toNat_bblock hn).1
  have h2 := (hok.toNat_bblock hc).1
  rw [h, h2] at h1
  rw [← Nat.div_add_mod n BPB, ← Nat.div_add_mod c BPB, hm, Nat.add_right_cancel h1]

/-- The bit map after a store to the bit of block `n`. -/
theorem bitAt_store (hok : sb.Ok) (hn : n < sb.size) (hc : c < sb.size) {v : Block} {x : Bool}
    (hv : ∀ j, bit v j = if n % BPB = j then x else bit (d (sb.bblock n)) j) :
    bitAt sb (update d (sb.bblock n) v) c = if n = c then x else bitAt sb d c := by
  rw [bitAt, update_apply]
  split_ifs with hb hnc hnc
  · rw [hv, if_pos (by rw [hnc])]
  · rw [hv, if_neg fun hm => hnc (bblock_inj hok hn hc hb.symm hm), ← hb, bitAt]
  · subst hnc; exact absurd rfl hb
  · rfl

theorem bitAt_markUsed (hok : sb.Ok) (hn : n < sb.size) (hc : c < sb.size) :
    bitAt sb (markUsed sb d n) c = if n = c then true else bitAt sb d c := by
  refine bitAt_store hok hn hc fun j => ?_
  have hlt : n % BPB < 8 * BSIZE := Nat.mod_lt _ (by decide)
  rw [bit_setBit _ hlt]
  split_ifs with h <;> simp [h]

/-- What `balloc` does: it takes a block whose bit is clear, sets the bit and zeroes the block. -/
structure Balloced (sb : Superblock) (d : Disk) (b : BlockNo) (d' : Disk) : Prop where
  data : sb.IsData b
  free : bitAt sb d b.toNat = false
  bit : ∀ {c}, c < sb.size → bitAt sb d' c = if b.toNat = c then true else bitAt sb d c
  dinode : ∀ {i}, i < sb.ninodes → dinodeAt sb d' i = dinodeAt sb d i
  block : ∀ {c}, sb.IsData c → d' c = if c = b then fun _ => 0 else d c
  super : readsb d' = readsb d

/-- **`balloc`.**  The bits of the metadata blocks are set. -/
theorem balloc_spec (hok : sb.Ok) (hmeta : ∀ c < sb.nmeta, bitAt sb d c = true)
    (h : balloc sb d = .ok (b, d')) : Balloced sb d b d' := by
  obtain ⟨n, hn, hfree, rfl, rfl⟩ := balloc_ok h
  have hnat : (UInt32.ofNat n).toNat = n := by
    have := hok.fits
    rw [UInt32.toNat_ofNat']
    omega
  have hdata : sb.IsData (.ofNat n) := by
    refine ⟨?_, hnat.symm ▸ hn⟩
    by_contra hlt
    rw [hnat, Nat.not_le] at hlt
    rw [hmeta n hlt] at hfree
    cases hfree
  refine ⟨hdata, by rw [hnat]; exact hfree, fun hc => ?_, fun hi => ?_, fun {c} hc => ?_, ?_⟩
  · rw [hnat, bzero, bitAt_update hok hc hdata, bitAt_markUsed hok hn hc]
  · rw [bzero, dinodeAt_update hok hi hdata, dinodeAt, markUsed,
      update_of_ne (hok.iblock_ne_bblock hi hn), dinodeAt]
  · rw [bzero, update_apply]
    split_ifs
    · rfl
    · exact update_of_ne (hok.bblock_ne_data hn hc).symm _ _
  · rw [bzero, readsb_update (hok.one_lt_data hdata), markUsed, readsb_update (hok.one_lt_bblock hn)]

/-- What `bfree` does: it clears the bit of the block. -/
structure Bfreed (sb : Superblock) (d : Disk) (b : BlockNo) (d' : Disk) : Prop where
  bit : ∀ {c}, c < sb.size → bitAt sb d' c = if b.toNat = c then false else bitAt sb d c
  dinode : ∀ {i}, i < sb.ninodes → dinodeAt sb d' i = dinodeAt sb d i
  block : ∀ {c}, sb.IsData c → d' c = d c
  super : readsb d' = readsb d

/-- **`bfree`** of a block in use. -/
theorem bfree_spec (hok : sb.Ok) (hsb : readsb d = sb) (hb : b.toNat < sb.size)
    (hused : bitAt sb d b.toNat = true) : ∃ d', bfree d b = .ok d' ∧ Bfreed sb d b d' := by
  have hbit : Bytes.bit (d (sb.bblock b.toNat)) (b.toNat % BPB) ≠ false := by
    rw [← bitAt, hused]; rintro ⟨⟩
  refine ⟨_, by simp only [bfree, hsb, if_neg hbit]; rfl, fun hc => ?_, fun hi => ?_, fun {c} hc => ?_,
    ?_⟩
  · refine bitAt_store hok hb hc fun j => ?_
    have hlt : b.toNat % BPB < 8 * BSIZE := Nat.mod_lt _ (by decide)
    rw [bit_clearBit _ hlt]
    split_ifs with h <;> simp [h]
  · rw [dinodeAt, update_of_ne (hok.iblock_ne_bblock hi hb), dinodeAt]
  · exact update_of_ne (hok.bblock_ne_data hb hc).symm _ _
  · exact readsb_update (hok.one_lt_bblock hb) _

end

end Xv6
