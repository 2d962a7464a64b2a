import Xv6.Param
import Xv6.Lib.Bytes
import Xv6.Lib.Redo
import Xv6.Lib.Reach
import Xv6.Lib.Count
import Xv6.Lib.Own
import Xv6.Lib.Fallible
import Xv6.Lib.RingBuf
import Xv6.Lib.Ring
import Xv6.Lib.Extent
import Xv6.Log.Header
import Xv6.Log.Commit
import Xv6.Log.Ops
import Xv6.Log.Group
import Xv6.Log.Atomic
import Xv6.Log.Reserve
import Xv6.Bio.Cache
import Xv6.Bio.System
import Xv6.Bio.Coherent
import Xv6.Bio.Refine
import Xv6.Bio.Transparent
import Xv6.Fs.Layout
import Xv6.Fs.Alloc
import Xv6.Fs.Inode
import Xv6.Fs.Dir
import Xv6.Fs.Owner
import Xv6.Fs.Files
import Xv6.Fs.Consistent
import Xv6.Fs.Runs
import Xv6.Fs.Create
import Xv6.Fs.Free
import Xv6.Fs.Content
import Xv6.Fs.Filewrite
import Xv6.Fs.Budget
import Xv6.Proc.Table
import Xv6.Proc.Kernel
import Xv6.Proc.Steps
import Xv6.Proc.Running
import Xv6.Proc.RoundRobin
import Xv6.Proc.Locking
import Xv6.Proc.Outline
import Xv6.Proc.Control
import Xv6.Proc.Monitor
import Xv6.Proc.Wakeup
import Xv6.Proc.Sleeplock
import Xv6.Proc.Family
import Xv6.Proc.Kill
import Xv6.Io.Pipe
import Xv6.Io.Calls
import Xv6.Io.Fifo
import Xv6.Io.Ready
import Xv6.Io.Killed
import Xv6.Io.Console
import Xv6.Io.Editor
import Xv6.Ide.Driver
import Xv6.Ide.Refine
import Xv6.User.Malloc
import Xv6.User.FreeList
import Xv6.User.MallocSafe
import Xv6.User.Sh
import Xv6.User.ShTokens
import Xv6.User.ShGrammar
import Xv6.Vm.Args
import Xv6.Io.File
import Xv6.Io.Lifetime
import Xv6.Lib.Radix
import Xv6.Vm.Copyout
import Xv6.Vm.Copyuvm
import Xv6.Exec.Args
import Xv6.Exec.Correct
import Xv6.Exec.Robust
import Xv6.Fs.Dirmap
import Xv6.Fs.Held
import Xv6.Fs.Path
import Xv6.User.ShRun
import Xv6.User.ShWords
import Xv6.Fs.Need
import Xv6.Mkfs.Image
import Xv6.Mkfs.Kernel
import Xv6.Bio.Lru
import Xv6.Fs.Bitmap
import Xv6.Proc.Cli
import Xv6.User.Grep
import Xv6.User.GrepLines
import Xv6.User.Memmove
import Xv6.Vm.Inverse
import Xv6.Io.LifePages
import Xv6.Fs.Crash
import Xv6.Vm.Isolation
