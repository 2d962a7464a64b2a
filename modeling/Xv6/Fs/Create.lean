/-
  `create` while an inode is being freed (`sysfile.c`, `fs.c`).

  One process executes `iput` on the entry `e` of the inode cache, any number
  of processes execute `create`.  A step ends where `icache.lock`, a sleep-lock
  or a buffer is released, or earlier; the tests of `I_VALID` and the stores to
  the fields of an in-memory inode are steps of their own.  What `writei` and
  `itrunc` do to the contents of files is any sequence of stores to blocks that
  do not hold inodes.

  Every inode number that `create` finds in a directory belongs to an inode
  with a link, and the references that `create` drops are not the last ones of
  an inode without links: there is one `iput` that frees.
-/
import Xv6.Fs.Runs

namespace Xv6

open Function

/-! ## Program counters -/

/-- Where a process is in `iput`. -/
inductive IputPc where
  /-- before the test of the reference count -/
  | test
  /-- in `itrunc` -/
  | trunc
  /-- at `ip->type = 0` -/
  | clear
  /-- at `iupdate(ip)` -/
  | update
  /-- before the last section under `icache.lock` -/
  | last
  | done
  deriving DecidableEq

/-- Where a process is in `ilock`. -/
inductive IlockPc where
  /-- at `acquiresleep` -/
  | acquire
  /-- at the test of `I_VALID` -/
  | test
  /-- before the inode is read from disk -/
  | load
  /-- at `ip->flags |= I_VALID` -/
  | set
  deriving DecidableEq

/-- The inode that `create` locks: the parent directory, a new inode in the directory `dp`, or an
    inode that was there. -/
inductive Role where
  | parent
  | fresh (dp : Fin NINODE)
  | existing
  deriving DecidableEq

/-- The three calls of `dirlink`: `"."` and `".."` in the new directory, the name in its
    parent. -/
inductive Link where
  | dot
  | dotdot
  | name
  deriving DecidableEq

/-- What `create` does after `iunlockput`. -/
inductive Then where
  | ret (ip : Fin NINODE)
  | existing (ip : Fin NINODE)
  | fail
  deriving DecidableEq

/-- Where a process is in `create`. -/
inductive CreatePc where
  | start
  | ilock (r : Role) (i : Fin NINODE) (pc : IlockPc)
  | lookup (dp : Fin NINODE)
  /-- `ialloc` has found the inodes below `inum` in use -/
  | ialloc (dp : Fin NINODE) (inum : ℕ)
  /-- at `iget` in `ialloc` -/
  | iget (dp : Fin NINODE) (inum : ℕ)
  /-- at the assignments to `major`, `minor` and `nlink` -/
  | fields (dp ip : Fin NINODE)
  | update (dp ip : Fin NINODE)
  /-- at `dp->nlink++` -/
  | nlink (dp ip : Fin NINODE)
  | dpUpdate (dp ip : Fin NINODE)
  /-- at the type check in `dirlookup` -/
  | dirlookup (dp ip : Fin NINODE) (k : Link)
  /-- in the `writei` of `dirlink` -/
  | writei (dp ip : Fin NINODE) (k : Link)
  | iunlock (i : Fin NINODE) (k : Then)
  | iput (i : Fin NINODE) (k : Then)
  /-- at the type check of an inode that was there -/
  | check (ip : Fin NINODE)
  /-- `create` has returned the inode it allocated -/
  | ret (ip : Fin NINODE)
  /-- `create` has returned an inode that was there -/
  | old (ip : Fin NINODE)
  /-- the caller has unlocked the inode -/
  | opened (ip : Fin NINODE)
  | failed
  deriving DecidableEq

/-! ## The machine -/

structure CreateArgs where
  type : Int16
  major : Int16
  minor : Int16

/-- What stays the same in a run. -/
structure Creates where
  /-- the entry that `iput` is called on -/
  e : Fin NINODE
  /-- the references held by open files and current directories -/
  base : Fin NINODE → ℕ
  args : ℕ → CreateArgs
  args_type : ∀ p, (args p).type ≠ 0

structure CrState where
  fs : Fs
  /-- the process that holds the sleep-lock of an inode -/
  holder : Fin NINODE → Option ℕ
  iput : IputPc
  proc : ℕ → CreatePc
  panicked : Option FsPanic

/-- The choices of a process. -/
inductive CrStep where
  /-- the only step there is; in `dirlookup`, the name is not found -/
  | go
  /-- `nameiparent` returns the directory `inum` -/
  | walk (inum : ℕ)
  /-- `nameiparent` returns a current directory -/
  | cwd (i : Fin NINODE)
  /-- `dirlookup` finds the name -/
  | found (inum : ℕ)
  /-- a store to a block that holds no inodes, with the new size and addresses of the file -/
  | data (b : BlockNo) (v : Block) (size : UInt32) (addrs : Fin (NDIRECT + 1) → BlockNo)
  /-- `writei` returns without `iupdate` -/
  | skip

namespace CrState

variable (c : Creates) (s : CrState)

/-- Process `p` goes on at `pc`. -/
def goto (p : ℕ) (pc : CreatePc) (fs : Fs) : CrState :=
  { s with fs := fs, proc := update s.proc p pc }

def ip (i : Fin NINODE) : Inode := s.fs.icache i

def dinode (inum : ℕ) : Dinode := dinodeAt s.fs.sb s.fs.disk inum

/-- A change of the in-memory inode. -/
def setIp (i : Fin NINODE) (ip : Inode) : Fs := s.fs.put i ip s.fs.disk

/-- A change of the in-memory inode that is copied to disk. -/
def updateIp (i : Fin NINODE) (ip : Inode) : Fs := s.fs.put i ip (iupdate s.fs.sb s.fs.disk ip)

/-- `ialloc` marks inode `inum` allocated on the disk. -/
def markInode (inum : ℕ) (type : Int16) : Fs :=
  { s.fs with disk := setDinode s.fs.sb s.fs.disk inum { Dinode.zero with type := type } }

/-- No inode is in block `b`. -/
def NoInodes (b : BlockNo) : Prop := ∀ inum < s.fs.sb.ninodes, s.fs.sb.iblock inum ≠ b

instance (b : BlockNo) : Decidable (s.NoInodes b) :=
  inferInstanceAs (Decidable (∀ inum < _, _))

/-- A store of `writei` or `itrunc` for the file of entry `i`. -/
def store (i : Fin NINODE) (b : BlockNo) (v : Block) (size : UInt32)
    (addrs : Fin (NDIRECT + 1) → BlockNo) : Fs :=
  let ip := s.ip i
  s.fs.put i { ip with di := { ip.di with size, addrs } } (update s.fs.disk b v)

/-- The process that executes `iput`. -/
def iputNext : CrStep → Option CrState
  | .go =>
    let ip := s.ip c.e
    match s.iput with
    | .test =>
      if ip.ref = 1 ∧ ip.valid ∧ ip.di.nlink = 0 then some { s with iput := .trunc }
      else some { s with fs := s.setIp c.e { ip with ref := ip.ref - 1 }, iput := .done }
    | .trunc => some { s with fs := s.updateIp c.e { ip with di := ip.di.empty }, iput := .clear }
    | .clear => some { s with
        fs := s.setIp c.e { ip with di := { ip.di with type := 0 } }, iput := .update }
    | .update => some { s with fs := s.updateIp c.e ip, iput := .last }
    | .last => some { s with
        fs := s.setIp c.e { ip with valid := false, ref := ip.ref - 1 }, iput := .done }
    | .done => none
  | .data b v size addrs =>
    if s.iput = .trunc ∧ s.NoInodes b then some { s with fs := s.store c.e b v size addrs } else none
  | _ => none

/-- Process `p` calls `iget` and goes on with the entry. -/
def igetNext (p : ℕ) (inum : ℕ) (k : Fin NINODE → CreatePc) : CrState :=
  match Xv6.iget s.fs.icache ROOTDEV inum with
  | .ok (i, ic) => s.goto p (k i) { s.fs with icache := ic }
  | .error e => { s with panicked := some e }

/-- After `ilock`. -/
def afterIlock : Role → Fin NINODE → CreatePc
  | .parent, i => .lookup i
  | .fresh dp, i => .fields dp i
  | .existing, i => .check i

/-- `ilock`, called by process `p`. -/
def ilockNext (p : ℕ) (r : Role) (i : Fin NINODE) : IlockPc → Option CrState
  | .acquire =>
    if (s.ip i).ref < 1 then some { s with panicked := some .ilock }
    else if s.holder i = none then
      some { s.goto p (.ilock r i .test) s.fs with holder := update s.holder i (some p) }
    else none
  | .test => some (s.goto p (if (s.ip i).valid then afterIlock r i else .ilock r i .load) s.fs)
  | .load => some (s.goto p (.ilock r i .set)
      (s.setIp i { s.ip i with di := s.dinode (s.ip i).inum }))
  | .set =>
    let ip := { s.ip i with valid := true }
    if ip.di.type = 0 then some { s with fs := s.setIp i ip, panicked := some .noType }
    else some (s.goto p (afterIlock r i) (s.setIp i ip))

/-- The directory that `dirlink` writes to. -/
def linkDir (dp ip : Fin NINODE) : Link → Fin NINODE
  | .dot => ip
  | .dotdot => ip
  | .name => dp

/-- After `dirlink`. -/
def afterLink (dp ip : Fin NINODE) : Link → CreatePc
  | .dot => .dirlookup dp ip .dotdot
  | .dotdot => .dirlookup dp ip .name
  | .name => .iunlock dp (.ret ip)

def afterPut : Then → CreatePc
  | .ret ip => .ret ip
  | .existing ip => .ilock .existing ip .acquire
  | .fail => .failed

/-- The steps of `create` that are determined by where the process is. -/
def createGo (p : ℕ) : CreatePc → Option CrState
  | .start => none
  | .ilock r i pc => s.ilockNext p r i pc
  | .lookup dp =>
    if (s.ip dp).di.type ≠ T_DIR then some { s with panicked := some .notDir }
    else some (s.goto p (.ialloc dp 1) s.fs)
  | .ialloc dp inum =>
    if inum < s.fs.sb.ninodes then
      if (s.dinode inum).type = 0 then
        some (s.goto p (.iget dp inum) (s.markInode inum (c.args p).type))
      else some (s.goto p (.ialloc dp (inum + 1)) s.fs)
    else some { s with panicked := some .ialloc }
  | .iget dp inum => some (s.igetNext p inum fun ip => .ilock (.fresh dp) ip .acquire)
  | .fields dp ip => some (s.goto p (.update dp ip) (s.setIp ip { s.ip ip with
      di := { (s.ip ip).di with major := (c.args p).major, minor := (c.args p).minor, nlink := 1 } }))
  | .update dp ip => some (s.goto p
      (if (c.args p).type = T_DIR then .nlink dp ip else .dirlookup dp ip .name)
      (s.updateIp ip (s.ip ip)))
  | .nlink dp ip => some (s.goto p (.dpUpdate dp ip) (s.setIp dp { s.ip dp with
      di := { (s.ip dp).di with nlink := (s.ip dp).di.nlink + 1 } }))
  | .dpUpdate dp ip => some (s.goto p (.dirlookup dp ip .dot) (s.updateIp dp (s.ip dp)))
  | .dirlookup dp ip k =>
    if (s.ip (linkDir dp ip k)).di.type ≠ T_DIR then some { s with panicked := some .notDir }
    else some (s.goto p (.writei dp ip k) s.fs)
  | .writei dp ip k => some (s.goto p (afterLink dp ip k)
      (s.updateIp (linkDir dp ip k) (s.ip (linkDir dp ip k))))
  | .iunlock i k => some { s.goto p (.iput i k) s.fs with holder := update s.holder i none }
  | .iput i k =>
    if (s.ip i).ref = 1 ∧ (s.ip i).valid ∧ (s.ip i).di.nlink = 0 then none
    else some (s.goto p (afterPut k) (s.setIp i { s.ip i with ref := (s.ip i).ref - 1 }))
  | .check ip =>
    if (c.args p).type = T_FILE ∧ (s.ip ip).di.type = T_FILE then some (s.goto p (.old ip) s.fs)
    else some (s.goto p (.iunlock ip .fail) s.fs)
  | .ret ip | .old ip => some { s.goto p (.opened ip) s.fs with
      holder := update s.holder ip none }
  | .opened _ => none
  | .failed => none

def createNext (p : ℕ) : CrStep → Option CrState
  | .go => s.createGo c p (s.proc p)
  | .walk inum =>
    if s.proc p = .start ∧ inum < s.fs.sb.ninodes ∧ (s.dinode inum).type = T_DIR ∧
        (s.dinode inum).nlink ≠ 0 then
      some (s.igetNext p inum fun i => .ilock .parent i .acquire)
    else none
  | .cwd i =>
    if s.proc p = .start ∧ 0 < c.base i ∧ (s.dinode (s.ip i).inum).type = T_DIR then
      some (s.goto p (.ilock .parent i .acquire) { s.fs with icache := idup s.fs.icache i })
    else none
  | .found inum =>
    match s.proc p with
    | .lookup dp =>
      if (s.ip dp).di.type ≠ T_DIR then some { s with panicked := some .notDir }
      else if inum < s.fs.sb.ninodes ∧ (s.dinode inum).nlink ≠ 0 then
        some (s.igetNext p inum fun ip => .iunlock dp (.existing ip))
      else none
    | _ => none
  | .data b v size addrs =>
    match s.proc p with
    | .writei dp ip k =>
      if s.NoInodes b then
        some (s.goto p (.writei dp ip k) (s.store (linkDir dp ip k) b v size addrs))
      else none
    | _ => none
  | .skip =>
    match s.proc p with
    | .writei dp ip k => some (s.goto p (afterLink dp ip k) s.fs)
    | _ => none

/-- A step of `iput` (`none`) or of the `create` of a process. -/
def next (who : Option ℕ) (x : CrStep) : Option CrState :=
  if s.panicked.isSome then none
  else match who with
    | none => s.iputNext c x
    | some p => s.createNext c p x

end CrState

/-- The start: `iput` and `create` have been called, the entries of the inode cache are allocated
    inodes, each cached once, and valid entries are as on disk. -/
structure CrInit (c : Creates) (s : CrState) : Prop where
  ok : s.fs.sb.Ok
  iput : s.iput = .test
  proc : ∀ p, s.proc p = .start
  panicked : s.panicked = none
  ref : ∀ i, (s.ip i).ref = c.base i + if i = c.e then 1 else 0
  dev : ∀ i, 0 < (s.ip i).ref → (s.ip i).dev = ROOTDEV
  inum : ∀ i, 0 < (s.ip i).ref → (s.ip i).inum < s.fs.sb.ninodes
  type : ∀ i, 0 < (s.ip i).ref → (s.dinode (s.ip i).inum).type ≠ 0
  once : ∀ i j, 0 < (s.ip i).ref → 0 < (s.ip j).ref → (s.ip i).inum = (s.ip j).inum → i = j
  valid : ∀ i, 0 < (s.ip i).ref → (s.ip i).valid = true → (s.ip i).di = s.dinode (s.ip i).inum
  linked : ∀ n < s.fs.sb.ninodes, (s.dinode n).nlink ≠ 0 → (s.dinode n).type ≠ 0

/-- Runs in which a step of `who` is taken only in states with `P s who`. -/
def CrRuns (c : Creates) (P : CrState → Option ℕ → Prop) : CrState → Prop :=
  Transition.Reach (CrInit c) fun s (x : Option ℕ × CrStep) s' =>
    P s x.1 ∧ s.next c x.1 x.2 = some s'

end Xv6
