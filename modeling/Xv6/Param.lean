/-
  The constants of `param.h` and `fs.h`, and disk blocks.
-/
import Mathlib.Algebra.GroupWithZero.Nat
import Mathlib.Data.Fintype.Defs

namespace Xv6

/-! ## `param.h` -/

/-- Maximum number of processes. -/
abbrev NPROC : ℕ := 64

instance : NeZero NPROC := ⟨by decide⟩

/-- Max number of blocks any FS operation writes. -/
abbrev MAXOPBLOCKS : ℕ := 10

/-- Max data blocks in the on-disk log. -/
abbrev LOGSIZE : ℕ := MAXOPBLOCKS * 3

/-- Size of the disk block cache. -/
abbrev NBUF : ℕ := MAXOPBLOCKS * 3

instance : NeZero NBUF := ⟨by decide⟩

/-- Device number of file system root disk. -/
abbrev ROOTDEV : UInt32 := 1

/-- Size of the file system in blocks. -/
abbrev FSSIZE : ℕ := 1000

/-! ## `fs.h` -/

/-- Block size. -/
abbrev BSIZE : ℕ := 512

instance : NeZero BSIZE := ⟨by decide⟩

/-- A disk block. -/
abbrev Block : Type := Fin BSIZE → UInt8

/-- Block numbers are C `uint`s. -/
abbrev BlockNo : Type := UInt32

/-- A block device: a map from block numbers to blocks. -/
abbrev Disk : Type := BlockNo → Block

end Xv6
