/-
  The on-disk log of `log.c`: where it lies and the format of its header
  block.

  `struct logheader` is `n` followed by `block[LOGSIZE]`, all 32-bit
  little-endian.  `encodeHead` is what `write_head` does to the header block
  (it leaves everything past `block[n-1]` as it was), `decodeHead` what
  `read_head` gets out of it.
-/
import Xv6.Param
import Xv6.Lib.Bytes

namespace Xv6

open Bytes

/-! ## The log area -/

/-- `log.start` and `log.size` as `initlog` takes them from the super block: a
    log has at least its header block and the C `int`s that number its blocks
    do not overflow. -/
structure LogArea where
  start : ℕ
  size : ℕ
  pos : 0 < size
  fits : start + size < 2 ^ 31

namespace LogArea

/-- Block `k` of the log (`log.start + k`). -/
def blk (a : LogArea) (k : ℕ) : BlockNo := UInt32.ofNat (a.start + k)

/-- The header block. -/
def head (a : LogArea) : BlockNo := a.blk 0

/-- `b` lies in `[log.start, log.start + log.size)`. -/
def Mem (a : LogArea) (b : BlockNo) : Prop := a.start ≤ b.toNat ∧ b.toNat < a.start + a.size

instance (a : LogArea) (b : BlockNo) : Decidable (a.Mem b) :=
  inferInstanceAs (Decidable (_ ∧ _))

variable {a : LogArea}

variable {k : ℕ}

theorem toNat_blk (hk : k < a.size) : (a.blk k).toNat = a.start + k := by
  have := a.fits
  rw [blk, UInt32.toNat_ofNat']
  exact Nat.mod_eq_of_lt (by omega)

theorem blk_mem (hk : k < a.size) : a.Mem (a.blk k) := by
  rw [Mem, toNat_blk hk]; omega

theorem head_mem : a.Mem a.head := blk_mem a.pos

theorem blk_inj {k l : ℕ} (hk : k < a.size) (hl : l < a.size) (h : a.blk k = a.blk l) : k = l := by
  have := congrArg UInt32.toNat h
  rw [toNat_blk hk, toNat_blk hl] at this
  omega

theorem blk_ne_head (hk : k + 1 < a.size) : a.blk (k + 1) ≠ a.head :=
  fun h => absurd (blk_inj hk a.pos h) (Nat.succ_ne_zero k)

/-- A home block is not a block of the log. -/
theorem ne_of_not_mem {b c : BlockNo} (hb : ¬ a.Mem b) (hc : a.Mem c) : c ≠ b :=
  fun h => hb (h ▸ hc)

end LogArea

/-- The log area of an image made by `mkfs`: `sb.logstart` is `2` and
    `sb.nlog` is `LOGSIZE`. -/
def mkfsLog : LogArea := ⟨2, LOGSIZE, by decide, by decide⟩

/-! ## The header block -/

/-- `hb->n`, as unsigned bytes. -/
def headN (hb : Block) : ℕ := leGet 4 hb 0

/-- `hb->block[i]`. -/
def headBlock (hb : Block) (i : ℕ) : BlockNo := UInt32.ofNat (leGet 4 hb (4 + 4 * i))

/-- `hb->block[i] = b`. -/
def setHeadBlock (hb : Block) (b : BlockNo) (i : ℕ) : Block := leSet 4 hb (4 + 4 * i) b.toNat

/-- The loop of `write_head` from index `i` on. -/
def setHeadBlocks : List BlockNo → ℕ → Block → Block
  | [], _, hb => hb
  | b :: bs, i, hb => setHeadBlocks bs (i + 1) (setHeadBlock hb b i)

/-- The header block as `write_head` fills it in. -/
def encodeHead (lh : List BlockNo) (hb : Block) : Block :=
  setHeadBlocks lh 0 (leSet 4 hb 0 lh.length)

/-- The header block as `read_head` reads it.  `n` is a C `int`: no entry is
    copied when it is negative, and a count above `LOGSIZE` would run out of
    `log.lh.block` (no result here). -/
def decodeHead (hb : Block) : Option (List BlockNo) :=
  if headN hb < 2 ^ 31 then
    if headN hb ≤ LOGSIZE then some ((List.range (headN hb)).map (headBlock hb)) else none
  else some []

theorem leGet_setHeadBlocks {off : ℕ} : ∀ (bs : List BlockNo) (i : ℕ) (hb : Block),
    off + 4 ≤ 4 + 4 * i → leGet 4 (setHeadBlocks bs i hb) off = leGet 4 hb off
  | [], _, _, _ => rfl
  | b :: bs, i, hb, h => by
    rw [setHeadBlocks, leGet_setHeadBlocks bs _ _ (by omega), setHeadBlock,
      leGet_leSet_ne _ _ _ _ (by omega)]

@[simp] theorem headN_setHeadBlocks (bs : List BlockNo) (i : ℕ) (hb : Block) :
    headN (setHeadBlocks bs i hb) = headN hb :=
  leGet_setHeadBlocks bs i hb (by omega)

theorem headBlock_setHeadBlocks : ∀ (bs : List BlockNo) (i : ℕ) (hb : Block) {j : ℕ},
    i + bs.length ≤ LOGSIZE → ∀ h : j < bs.length,
      headBlock (setHeadBlocks bs i hb) (i + j) = bs[j]
  | b :: bs, i, hb, 0, hl, _ => by
    have hoff : 4 + 4 * i + 4 ≤ BSIZE := by
      simp only [List.length_cons, LOGSIZE, MAXOPBLOCKS] at hl; simp only [BSIZE]; omega
    have hb32 : b.toNat < 256 ^ 4 := b.toNat_lt
    rw [Nat.add_zero, setHeadBlocks, headBlock, leGet_setHeadBlocks _ _ _ (by omega), setHeadBlock,
      leGet_leSet _ _ _ hoff, Nat.mod_eq_of_lt hb32, UInt32.ofNat_toNat]
    rfl
  | b :: bs, i, hb, j + 1, hl, h => by
    simp only [List.length_cons] at hl h
    rw [setHeadBlocks, show i + (j + 1) = i + 1 + j by omega,
      headBlock_setHeadBlocks bs (i + 1) _ (by omega) (by omega)]
    rfl

theorem headN_encodeHead {lh : List BlockNo} (hl : lh.length ≤ LOGSIZE) (hb : Block) :
    headN (encodeHead lh hb) = lh.length := by
  rw [encodeHead, headN_setHeadBlocks, headN, leGet_leSet _ _ _ (by decide), Nat.mod_eq_of_lt]
  exact lt_of_le_of_lt hl (by decide)

/-- **`read_head` reads back what `write_head` wrote.** -/
theorem decodeHead_encodeHead {lh : List BlockNo} (hl : lh.length ≤ LOGSIZE) (hb : Block) :
    decodeHead (encodeHead lh hb) = some lh := by
  have hn := headN_encodeHead hl hb
  have h31 : lh.length < 2 ^ 31 := lt_of_le_of_lt hl (by decide)
  rw [decodeHead, hn, if_pos h31, if_pos hl]
  congr 1
  refine List.ext_getElem (by simp) fun i h1 h2 => ?_
  have := headBlock_setHeadBlocks lh 0 (leSet 4 hb 0 lh.length) (by omega) h2
  rw [Nat.zero_add] at this
  simpa [encodeHead] using this

/-- A header with count `0` lists nothing. -/
theorem decodeHead_of_zero {hb : Block} (h : headN hb = 0) : decodeHead hb = some [] := by
  simp [decodeHead, h]

end Xv6
