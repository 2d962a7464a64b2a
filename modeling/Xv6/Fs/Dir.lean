/-
  Directories (`fs.c`): files that are sequences of 16-byte entries, an inode
  number and a name of at most `DIRSIZ` bytes.

  Names are byte strings; past its end a string reads as NUL.
-/
import Xv6.Fs.Inode

namespace Xv6

abbrev DIRSIZ : ℕ := 14

/-! ## `string.c` -/

def strncmp : ℕ → List UInt8 → List UInt8 → ℤ
  | 0, _, _ => 0
  | n + 1, p, q =>
    if p.headD 0 ≠ 0 ∧ p.headD 0 = q.headD 0 then strncmp n p.tail q.tail
    else (p.headD 0).toNat - (q.headD 0).toNat

/-- The `n` bytes that `strncpy(s, t, n)` stores at `s`. -/
def strncpy : ℕ → List UInt8 → List UInt8
  | 0, _ => []
  | n + 1, t => if t.headD 0 ≠ 0 then t.headD 0 :: strncpy n t.tail else List.replicate (n + 1) 0

theorem length_strncpy : ∀ (n : ℕ) (t : List UInt8), (strncpy n t).length = n
  | 0, _ => rfl
  | n + 1, t => by
    rw [strncpy]
    split
    · rw [List.length_cons, length_strncpy n]
    · rw [List.length_replicate]

/-! ## Directory entries -/

/-- `struct dirent`. -/
structure Dirent where
  inum : UInt16
  name : List UInt8

def Dirent.ofBytes (xs : List UInt8) : Dirent :=
  ⟨(xs.getD 0 0).toUInt16 + 256 * (xs.getD 1 0).toUInt16, (xs.drop 2).take DIRSIZ⟩

def Dirent.toBytes (de : Dirent) : List UInt8 :=
  [de.inum.toUInt8, (de.inum / 256).toUInt8] ++ de.name

/-- A directory entry is 16 bytes long. -/
theorem Dirent.length_toBytes (inum : UInt16) (name : List UInt8) :
    (Dirent.toBytes ⟨inum, strncpy DIRSIZ name⟩).length = 16 := by
  simp only [Dirent.toBytes, List.length_append, length_strncpy]
  rfl

def namecmp (s t : List UInt8) : ℤ := strncmp DIRSIZ s t

section
variable (sb : Superblock) (dev : Devsw)

/-- Read the directory entry at offset `off`; `none` if `readi` does not return all of it. -/
def readDirent (d : Disk) (dp : Inode) (off : ℕ) : Except FsPanic (Option Dirent × Inode × Disk) := do
  let (r, dp, d) ← readi sb dev d dp off 16
  match r with
  | some bytes =>
    .ok (if bytes.length = 16 then some (.ofBytes bytes) else none, dp, d)
  | none => .ok (none, dp, d)

/-- A loop over the entries of a directory from offset `off` on, at most `fuel` rounds of it: the
    first entry that satisfies `p`, with its offset, or the offset after the last entry. -/
def findDirent (e : FsPanic) (p : Dirent → Bool) : ℕ → Disk → Inode → ℕ →
    Except FsPanic (ℕ × Option Dirent × Inode × Disk)
  | 0, d, dp, off => .ok (off, none, dp, d)
  | fuel + 1, d, dp, off =>
    if dp.di.size.toNat ≤ off then .ok (off, none, dp, d)
    else do
      let (r, dp, d) ← readDirent sb dev d dp off
      match r with
      | none => .error e
      | some de =>
        if p de then .ok (off, some de, dp, d) else findDirent e p fuel d dp (off + 16)

end

/-- Look for a directory entry in a directory; the inode found and the offset of the entry. -/
def dirlookup (dev : Devsw) (fs : Fs) (i : Fin NINODE) (name : List UInt8) :
    Except FsPanic (Option (Fin NINODE × ℕ) × Fs) := do
  let dp := fs.icache i
  if dp.di.type ≠ T_DIR then .error .notDir
  let (off, r, dp, d) ← findDirent fs.sb dev .dirlookupRead
    (fun de => de.inum ≠ 0 ∧ namecmp name de.name = 0) (dp.di.size.toNat / 16 + 1) fs.disk dp 0
  let fs := { fs with disk := d, icache := Function.update fs.icache i dp }
  match r with
  | none => .ok (none, fs)
  | some de =>
    let (j, c) ← iget fs.icache dp.dev de.inum.toNat
    .ok (some (j, off), { fs with icache := c })

/-- Write a new directory entry `(name, inum)` into the directory `dp`. -/
def dirlink (dev : Devsw) (fs : Fs) (i : Fin NINODE) (name : List UInt8) (inum : UInt16) :
    Except FsPanic (Option Unit × Fs) := do
  -- check that name is not present
  let (r, fs) ← dirlookup dev fs i name
  match r with
  | some (j, _) =>
    let fs ← iput fs j
    .ok (none, fs)
  | none =>
    -- look for an empty dirent
    let dp := fs.icache i
    let (off, _, dp, d) ← findDirent fs.sb dev .dirlinkRead (fun de => de.inum = 0)
      (dp.di.size.toNat / 16 + 1) fs.disk dp 0
    let (n, dp, d) ← writei fs.sb dev d dp (Dirent.toBytes ⟨inum, strncpy DIRSIZ name⟩) off
    if n = some 16 then
      .ok (some (), { fs with disk := d, icache := Function.update fs.icache i dp })
    else .error .dirlink

end Xv6
