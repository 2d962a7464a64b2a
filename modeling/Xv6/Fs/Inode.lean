/-
  Inodes (`fs.c`): the inode cache, the blocks of a file, and reading and
  writing.

  The functions are those of `fs.c` as one process executes them, on a plain
  map from blocks to contents.  A file's blocks are numbered by the entries of
  `addrs` and of the indirect block; `bmap` allocates a block when it finds a
  zero entry.  `-1` is `none`.
-/
import Xv6.Fs.Alloc
import Mathlib.Data.List.FinRange

namespace Xv6

open Bytes Function

/-- Maximum number of active i-nodes. -/
abbrev NINODE : ℕ := 50

instance : NeZero NINODE := ⟨by decide⟩

/-- Maximum major device number. -/
abbrev NDEV : ℕ := 10

abbrev T_DIR : Int16 := 1
abbrev T_FILE : Int16 := 2
abbrev T_DEV : Int16 := 3

/-- `struct inode` without its sleep-lock. -/
structure Inode where
  dev : UInt32
  inum : ℕ
  ref : ℕ
  /-- `I_VALID` -/
  valid : Bool
  /-- copy of disk inode -/
  di : Dinode

abbrev Icache : Type := Fin NINODE → Inode

/-- The file system as one process sees it inside an operation. -/
structure Fs where
  sb : Superblock
  disk : Disk
  icache : Icache

/-- The device functions in `devsw`, for device numbers below `NDEV`. -/
structure Devsw where
  read : ℕ → Option (ℕ → ℕ → Option (List UInt8))
  write : ℕ → Option (ℕ → List UInt8 → Option ℕ)

/-! ## The inode cache -/

/-- Find the inode with number `inum` on device `dev` and return the in-memory copy. -/
def iget (c : Icache) (dev : UInt32) (inum : ℕ) : Except FsPanic (Fin NINODE × Icache) :=
  -- is the inode already cached?
  match (List.finRange NINODE).find? fun i => 0 < (c i).ref ∧ (c i).dev = dev ∧ (c i).inum = inum with
  | some i => .ok (i, update c i { c i with ref := (c i).ref + 1 })
  | none =>
    -- recycle an inode cache entry
    match (List.finRange NINODE).find? fun i => (c i).ref = 0 with
    | some i => .ok (i, update c i ⟨dev, inum, 1, false, (c i).di⟩)
    | none => .error .iget

/-- Increment reference count. -/
def idup (c : Icache) (i : Fin NINODE) : Icache :=
  update c i { c i with ref := (c i).ref + 1 }

/-- A zeroed inode. -/
def Dinode.zero : Dinode := ⟨0, 0, 0, 0, 0, fun _ => 0⟩

/-- The loop of `ialloc`: the first free inode. -/
def freeInode (sb : Superblock) (d : Disk) : Option ℕ :=
  (List.range' 1 (sb.ninodes - 1)).find? fun inum => (dinodeAt sb d inum).type = 0

/-- Allocate a new inode with the given type on device `dev`. -/
def ialloc (fs : Fs) (dev : UInt32) (type : Int16) : Except FsPanic (Fin NINODE × Fs) :=
  match freeInode fs.sb fs.disk with
  | some inum => do
    let (i, c) ← iget fs.icache dev inum
    .ok (i, { fs with
      disk := setDinode fs.sb fs.disk inum { Dinode.zero with type := type }, icache := c })
  | none => .error .ialloc

/-- Copy a modified in-memory inode to disk. -/
def iupdate (sb : Superblock) (d : Disk) (ip : Inode) : Disk := setDinode sb d ip.inum ip.di

/-- Read the inode from disk if necessary. -/
def ilock (fs : Fs) (i : Fin NINODE) : Except FsPanic Fs :=
  let ip := fs.icache i
  if ip.ref < 1 then .error .ilock
  else if ip.valid then .ok fs
  else
    let di := dinodeAt fs.sb fs.disk ip.inum
    if di.type = 0 then .error .noType
    else .ok { fs with icache := update fs.icache i { ip with valid := true, di := di } }

/-! ## The blocks of a file -/

/-- Load the indirect block, allocating if necessary. -/
def loadIndirect (sb : Superblock) (d : Disk) (di : Dinode) :
    Except FsPanic (BlockNo × Dinode × Disk) :=
  if di.addrs (Fin.last NDIRECT) = 0 then do
    let (addr, d) ← balloc sb d
    .ok (addr, { di with addrs := update di.addrs (Fin.last NDIRECT) addr }, d)
  else .ok (di.addrs (Fin.last NDIRECT), di, d)

/-- The disk block address of the `bn`th block of a file; if there is no such block, `bmap`
    allocates one. -/
def bmap (sb : Superblock) (d : Disk) (di : Dinode) (bn : ℕ) :
    Except FsPanic (BlockNo × Dinode × Disk) :=
  if h : bn < NDIRECT then
    let k : Fin (NDIRECT + 1) := ⟨bn, lt_naddrs h⟩
    if di.addrs k = 0 then do
      let (addr, d) ← balloc sb d
      .ok (addr, { di with addrs := update di.addrs k addr }, d)
    else .ok (di.addrs k, di, d)
  else if bn - NDIRECT < NINDIRECT then do
    let (ind, di, d) ← loadIndirect sb d di
    let addr := indirect (d ind) (bn - NDIRECT)
    if addr = 0 then do
      let (addr, d) ← balloc sb d
      .ok (addr, di, update d ind (setIndirect (d ind) (bn - NDIRECT) addr))
    else .ok (addr, di, d)
  else .error .bmapRange

/-- Free the block `b`, if there is one. -/
def itruncBlock (d : Disk) (b : BlockNo) : Except FsPanic Disk := if b = 0 then .ok d else bfree d b

/-- Free the block at entry `k` of `addrs`, if there is one. -/
def itruncAddr (s : Dinode × Disk) (k : Fin (NDIRECT + 1)) : Except FsPanic (Dinode × Disk) := do
  let d ← itruncBlock s.2 (s.1.addrs k)
  .ok ({ s.1 with addrs := update s.1.addrs k 0 }, d)

/-- Free the blocks listed in the indirect block, if there is one. -/
def itruncIndirect (di : Dinode) (d : Disk) : Except FsPanic Disk :=
  if di.addrs (Fin.last NDIRECT) = 0 then .ok d
  else
    let a := d (di.addrs (Fin.last NDIRECT))
    (List.finRange NINDIRECT).foldlM (fun d (j : Fin NINDIRECT) => itruncBlock d (indirect a j)) d

/-- Truncate inode: discard its contents. -/
def itrunc (sb : Superblock) (d : Disk) (ip : Inode) : Except FsPanic (Inode × Disk) := do
  let (di, d) ← (List.finRange NDIRECT).foldlM (fun s k => itruncAddr s k.castSucc) (ip.di, d)
  let d ← itruncIndirect di d
  let (di, d) ← itruncAddr (di, d) (Fin.last NDIRECT)
  let ip := { ip with di := { di with size := 0 } }
  .ok (ip, iupdate sb d ip)

/-- Drop a reference to an in-memory inode, and free the inode (and its content) on disk if
    that was the last reference and it has no links. -/
def iput (fs : Fs) (i : Fin NINODE) : Except FsPanic Fs :=
  let ip := fs.icache i
  if ip.ref = 1 ∧ ip.valid ∧ ip.di.nlink = 0 then do
    let (ip, d) ← itrunc fs.sb fs.disk ip
    let ip := { ip with di := { ip.di with type := 0 } }
    let d := iupdate fs.sb d ip
    .ok { fs with
      disk := d, icache := update fs.icache i { ip with valid := false, ref := ip.ref - 1 } }
  else .ok { fs with icache := update fs.icache i { ip with ref := ip.ref - 1 } }

/-! ## Reading and writing -/

/-- The loop of `readi`, at most `fuel` rounds of it; every round reads at least one byte. -/
def readiLoop (sb : Superblock) : ℕ → Disk → Dinode → ℕ → ℕ →
    Except FsPanic (List UInt8 × Dinode × Disk)
  | 0, d, di, _, _ => .ok ([], di, d)
  | fuel + 1, d, di, off, n =>
    if n = 0 then .ok ([], di, d)
    else do
      let (b, di, d) ← bmap sb d di (off / BSIZE)
      let m := min n (BSIZE - off % BSIZE)
      let bytes := getBytes (d b) (off % BSIZE) m
      let (rest, di, d) ← readiLoop sb fuel d di (off + m) (n - m)
      .ok (bytes ++ rest, di, d)

/-- Read data from inode. -/
def readi (sb : Superblock) (dev : Devsw) (d : Disk) (ip : Inode) (off n : ℕ) :
    Except FsPanic (Option (List UInt8) × Inode × Disk) :=
  if ip.di.type = T_DEV then
    if ip.di.major < 0 ∨ NDEV ≤ ip.di.major.toInt then .ok (none, ip, d)
    else .ok ((dev.read ip.di.major.toInt.toNat).bind fun f => f off n, ip, d)
  else if ip.di.size.toNat < off ∨ (off + n) % 2 ^ 32 < off then .ok (none, ip, d)
  else do
    let n := if ip.di.size.toNat < off + n then ip.di.size.toNat - off else n
    let (bytes, di, d) ← readiLoop sb n d ip.di off n
    .ok (some bytes, { ip with di := di }, d)

/-- The loop of `writei`, at most `fuel` rounds of it; every round writes at least one byte. -/
def writeiLoop (sb : Superblock) : ℕ → Disk → Dinode → ℕ → List UInt8 →
    Except FsPanic (Dinode × Disk)
  | 0, d, di, _, _ => .ok (di, d)
  | fuel + 1, d, di, off, src =>
    if src = [] then .ok (di, d)
    else do
      let (b, di, d) ← bmap sb d di (off / BSIZE)
      let m := min src.length (BSIZE - off % BSIZE)
      let d := update d b (setBytes (d b) (off % BSIZE) (src.take m))
      writeiLoop sb fuel d di (off + m) (src.drop m)

/-- Write data to inode. -/
def writei (sb : Superblock) (dev : Devsw) (d : Disk) (ip : Inode) (src : List UInt8) (off : ℕ) :
    Except FsPanic (Option ℕ × Inode × Disk) :=
  let n := src.length
  if ip.di.type = T_DEV then
    if ip.di.major < 0 ∨ NDEV ≤ ip.di.major.toInt then .ok (none, ip, d)
    else .ok ((dev.write ip.di.major.toInt.toNat).bind fun f => f off src, ip, d)
  else if ip.di.size.toNat < off ∨ (off + n) % 2 ^ 32 < off then .ok (none, ip, d)
  else if MAXFILE * BSIZE < (off + n) % 2 ^ 32 then .ok (none, ip, d)
  else do
    let (di, d) ← writeiLoop sb n d ip.di off src
    if 0 < n ∧ ip.di.size.toNat < off + n then
      let ip := { ip with di := { di with size := .ofNat (off + n) } }
      .ok (some n, ip, iupdate sb d ip)
    else .ok (some n, { ip with di := di }, d)

end Xv6
