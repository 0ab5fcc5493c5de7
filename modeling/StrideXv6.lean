import StrideXv6.Lib.Run
import StrideXv6.Lib.Locks
import StrideXv6.Lib.Bytes
import StrideXv6.Lib.Crash
import StrideXv6.Lib.Hoare
import StrideXv6.Lib.Ownership
import StrideXv6.Lib.RefCount
import StrideXv6.Lib.Ring
import StrideXv6.Lib.Monitor
import StrideXv6.Lib.Recording
import StrideXv6.Lib.Links
import StrideXv6.Lib.FreeList
import StrideXv6.Lib.Extents
import StrideXv6.Lib.Pointers
import StrideXv6.Sched.Table
import StrideXv6.Sched.Scan
import StrideXv6.Sched.Steps
import StrideXv6.Sched.Dispatch
import StrideXv6.Sched.Accounting
import StrideXv6.Sched.Stride
import StrideXv6.Sched.Lag
import StrideXv6.Sched.Lifecycle
import StrideXv6.Sched.Kill
import StrideXv6.Sched.Sleep
import StrideXv6.Sched.Lineage
import StrideXv6.Sched.Tree
import StrideXv6.Sched.Wakeup
import StrideXv6.Pipes.Sleepers
import StrideXv6.Pipes.Pipe
import StrideXv6.Pipes.Fifo
import StrideXv6.Log.Commit
import StrideXv6.Log.Atomicity
import StrideXv6.Log.Admission
import StrideXv6.Log.Group
import StrideXv6.Console.Input
import StrideXv6.Console.Locking
import StrideXv6.Console.LockOrder
import StrideXv6.Console.Ring
import StrideXv6.Console.Reading
import StrideXv6.Bio.System
import StrideXv6.Bio.Coherence
import StrideXv6.Bio.Cache
import StrideXv6.Bio.Status
import StrideXv6.Bio.Lru
import StrideXv6.Fs.Layout
import StrideXv6.Fs.Inode
import StrideXv6.Fs.Owner
import StrideXv6.Fs.Bmap
import StrideXv6.Fs.Content
import StrideXv6.Fs.Consistent
import StrideXv6.Fs.Specs
import StrideXv6.Fs.Invariant
import StrideXv6.Fs.Directory
import StrideXv6.Fs.Sysfile
import StrideXv6.Fs.Names
import StrideXv6.Fs.Logging
import StrideXv6.Fs.Transfer
import StrideXv6.Fs.Filewrite
import StrideXv6.Fs.Chunks
import StrideXv6.Fs.Entries
import StrideXv6.Fs.Paths
import StrideXv6.Fs.Files
import StrideXv6.Fs.Crash
import StrideXv6.Mkfs.Append
import StrideXv6.Mkfs.Image
import StrideXv6.Mkfs.Readback
import StrideXv6.Mkfs.Consistent
import StrideXv6.Mkfs.Build
import StrideXv6.Syscall.Args
import StrideXv6.Syscall.Confined
import StrideXv6.Mem.Pages
import StrideXv6.Mem.Book
import StrideXv6.Mem.Vm
import StrideXv6.Mem.Leak
import StrideXv6.Mem.Count
import StrideXv6.Mem.Calls
import StrideXv6.Mem.Unmap
import StrideXv6.Mem.Grow
import StrideXv6.Mem.Sbrk
import StrideXv6.Mem.Mapping
import StrideXv6.Mem.Copy
import StrideXv6.Mem.Freevm
import StrideXv6.Mem.Copyout
import StrideXv6.Mem.Layout
import StrideXv6.Mem.Mappages
import StrideXv6.Mem.Kalloc
import StrideXv6.Exec.Image
import StrideXv6.Exec.Source
import StrideXv6.Exec.Load
import StrideXv6.Exec.Stack
import StrideXv6.Exec.Call
import StrideXv6.Exec.Guard
import StrideXv6.Exec.Stray
import StrideXv6.Shell.Parser
import StrideXv6.Shell.Words
import StrideXv6.Shell.Grammar
import StrideXv6.Shell.Correct
import StrideXv6.Shell.Argv
import StrideXv6.Strings.Memmove
import StrideXv6.Grep.Match
import StrideXv6.Grep.Lines
import StrideXv6.Mp.Table
import StrideXv6.Malloc.Heap
import StrideXv6.Malloc.Integrity
import StrideXv6.Malloc.Ring
