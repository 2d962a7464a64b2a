/-
  The file table (`file.c`) and file descriptors (`sysfile.c`).

  `fileclose` is cut at the `release` of `ftable.lock`: what it does to the
  table, and the copy `ff` of a file that has to be closed after that.
-/
import Xv6.Fs.Inode

namespace Xv6

/-- Open files per process. -/
abbrev NOFILE : ℕ := 16

/-- Open files per system. -/
abbrev NFILE : ℕ := 100

inductive FdType where
  | FD_NONE
  | FD_PIPE
  | FD_INODE
  deriving DecidableEq

/-- `struct file`; a pipe is named by a number, an inode by its entry in the cache. -/
structure File where
  type : FdType
  /-- reference count -/
  ref : ℕ
  readable : Bool
  writable : Bool
  pipe : ℕ
  ip : Fin NINODE
  off : UInt32

abbrev Ftable : Type := Fin NFILE → File

/-- `proc->ofile` -/
abbrev Ofile : Type := Fin NOFILE → Option (Fin NFILE)

/-- The first entry whose count is 0. -/
def freeFile (t : Ftable) : Option (Fin NFILE) := (List.finRange NFILE).find? fun f => (t f).ref = 0

/-- Allocate a file structure. -/
def filealloc (t : Ftable) : Option (Fin NFILE × Ftable) :=
  (freeFile t).map fun f => (f, Function.update t f { t f with ref := 1 })

/-- Increment ref count for file `f`; `none` is the panic. -/
def filedup (t : Ftable) (f : Fin NFILE) : Option Ftable :=
  if (t f).ref < 1 then none else some (Function.update t f { t f with ref := (t f).ref + 1 })

/-- Decrement ref count for file `f`, and the file `ff` to close when it reaches 0; `none` is the
    panic. -/
def fileclose (t : Ftable) (f : Fin NFILE) : Option (Ftable × Option File) :=
  if (t f).ref < 1 then none
  else if 0 < (t f).ref - 1 then
    some (Function.update t f { t f with ref := (t f).ref - 1 }, none)
  else some (Function.update t f { t f with ref := 0, type := .FD_NONE }, some (t f))

/-- Allocate a file descriptor. -/
def fdalloc (o : Ofile) : Option (Fin NOFILE) := (List.finRange NOFILE).find? fun fd => o fd = none

end Xv6
