import Xv6.Lib.Ascent
import Xv6.Lib.Bytes
import Xv6.Lib.Lineage
import Xv6.Lib.Mutex
import Xv6.Lib.Stop
import Xv6.Lib.Tally
import Xv6.Lib.TransitionSystem
import Xv6.Param
import Xv6.Proc.Table
import Xv6.Proc.Step
import Xv6.Proc.Effect
import Xv6.Proc.Forest
import Xv6.Proc.Getprocs
import Xv6.Disk.Machine
import Xv6.Log.Commit
import Xv6.Log.Crash
import Xv6.Log.System
import Xv6.Log.Effect
import Xv6.Log.Protocol
import Xv6.Log.Cache
import Xv6.Log.Invariant
import Xv6.Log.Capacity
import Xv6.Log.Coherence
import Xv6.Log.Transparency
import Xv6.Fs.Layout
import Xv6.Log.Write
import Xv6.Fs.Alloc
import Xv6.Fs.Blocks
import Xv6.Fs.Consistent
import Xv6.Fs.Inode
import Xv6.Fs.File
import Xv6.Fs.Torn
import Xv6.Fs.Table
import Xv6.Fs.Dir
import Xv6.Fs.System
import Xv6.Lib.RingBuffer
import Xv6.Lib.Slots
import Xv6.Pipe.System
import Xv6.Pipe.Effect
import Xv6.Pipe.Stream
import Xv6.Pipe.Wakeup
import Xv6.Sched.System
import Xv6.Sched.Effect
import Xv6.Sched.Placement
import Xv6.Sched.Kill
import Xv6.Sched.Target
import Xv6.Lib.Deposit
import Xv6.Proc.Wait
import Xv6.Proc.Reap
import Xv6.Lib.Heap
import Xv6.Lib.Program
import Xv6.Lib.Machine
import Xv6.Vm.Pte
import Xv6.Vm.Walk
import Xv6.Vm.User
import Xv6.Vm.Table
import Xv6.Vm.Lookup
import Xv6.Vm.Mapping
import Xv6.Vm.Space
import Xv6.Vm.Refused
import Xv6.Vm.Release
import Xv6.Vm.Fault
import Xv6.Vm.Usercopy
import Xv6.Vm.Confined
import Xv6.Vm.Duplicate
import Xv6.Vm.Resize
import Xv6.Console.System
import Xv6.Proc.Disclosure
import Xv6.Console.Discipline
import Xv6.Itable.Invariant
import Xv6.Itable.Coherence
import Xv6.Itable.Orphans
import Xv6.File.Lossless
import Xv6.Lib.Traversal
import Xv6.User.Ptv
import Xv6.User.Depth
import Xv6.Sleeplock.Exclusion
import Xv6.Proc.Marshal
import Xv6.Fs.Unlink
import Xv6.Fs.Holes
import Xv6.Fs.Footprint
import Xv6.Fs.Freeing
import Xv6.Fs.Reservation
import Xv6.Fs.Transactions
import Xv6.Fs.Fits
import Xv6.Fs.Array
import Xv6.File.Read
import Xv6.Vm.Strings
import Xv6.Vm.Usermode
import Xv6.Vm.Process
import Xv6.Vm.Fork
import Xv6.Vm.Isolation
import Xv6.Fs.Names
import Xv6.Fs.Enough
import Xv6.Fs.Nodes
import Xv6.Fs.Directory
import Xv6.Fs.Path
import Xv6.User.Grep
import Xv6.Console.Copy
import Xv6.User.Malloc
import Xv6.Vm.Sbrk
import Xv6.Libc.Memmove
import Xv6.Print.Printf
import Xv6.Console.Uart
import Xv6.Docs.Markdown
