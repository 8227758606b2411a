import Koerix.AddrSpace.AddPage
import Koerix.AddrSpace.Basic
import Koerix.AddrSpace.Beside
import Koerix.AddrSpace.Built
import Koerix.AddrSpace.Clone
import Koerix.AddrSpace.Copy
import Koerix.AddrSpace.Cow
import Koerix.AddrSpace.Destroy
import Koerix.AddrSpace.Entry
import Koerix.AddrSpace.Frames
import Koerix.AddrSpace.Map
import Koerix.AddrSpace.Outside
import Koerix.AddrSpace.Own
import Koerix.AddrSpace.Path
import Koerix.AddrSpace.Relink
import Koerix.AddrSpace.Shape
import Koerix.AddrSpace.Shared
import Koerix.AddrSpace.Tree
import Koerix.AddrSpace.Undo
import Koerix.AddrSpace.Unmap
import Koerix.AddrSpace.Unshare
import Koerix.AddrSpace.Update
import Koerix.AddrSpace.View
import Koerix.Boot.Cmdline
import Koerix.Drivers.Ps2
import Koerix.Fpu.Basic
import Koerix.Fpu.Lazy
import Koerix.Fs.Dir
import Koerix.Fs.Vectored
import Koerix.Heap.Alloc
import Koerix.Heap.Basic
import Koerix.Heap.Break
import Koerix.Heap.Capacity
import Koerix.Heap.Clients
import Koerix.Heap.Drain
import Koerix.Heap.Free
import Koerix.Heap.Layout
import Koerix.Heap.Memory
import Koerix.Lib.BitField
import Koerix.Lib.ByteMemory
import Koerix.Lib.CString
import Koerix.Lib.DoublyLinked
import Koerix.Lib.Exclusive
import Koerix.Lib.InDegree
import Koerix.Lib.Numeral
import Koerix.Lib.Owner
import Koerix.Lib.Ring
import Koerix.Lib.Run
import Koerix.Lib.SearchTree
import Koerix.Lib.WordScan
import Koerix.Lib.Yields
import Koerix.List.Basic
import Koerix.List.Sequence
import Koerix.Machine.Basic
import Koerix.Machine.Objects
import Koerix.Machine.Reserved
import Koerix.Map.Basic
import Koerix.Map.Client
import Koerix.Map.Copy
import Koerix.Map.Erase
import Koerix.Map.Index
import Koerix.Map.Shape
import Koerix.PageMap.Account
import Koerix.PageMap.Basic
import Koerix.PageMap.Boot
import Koerix.Proc.Active
import Koerix.Proc.Basic
import Koerix.Proc.DeadTasks
import Koerix.Proc.Files
import Koerix.Proc.Loader
import Koerix.Proc.Locks
import Koerix.Proc.MapRaces
import Koerix.Proc.PageFault
import Koerix.Proc.Reaper
import Koerix.Proc.StackAddr
import Koerix.Proc.StackOwners
import Koerix.Proc.StackRuns
import Koerix.Proc.Stacks
import Koerix.Proc.Switch
import Koerix.Queue.Buffer
import Koerix.Queue.Delivery
import Koerix.Queue.Irq
import Koerix.Queue.Readers
import Koerix.Queue.Subscribers
import Koerix.Refs.FileDesc
import Koerix.Refs.SharedPtr
import Koerix.Sched.Dispatch
import Koerix.Sched.Enumerate
import Koerix.Sched.Remove
import Koerix.Sched.Select
import Koerix.Sched.Sleep
import Koerix.Spaces.Basic
import Koerix.Spaces.Destroy
import Koerix.Spaces.Fork
import Koerix.Spaces.Isolation
import Koerix.Spaces.Refs
import Koerix.Spaces.Shared
import Koerix.Spaces.Writable
import Koerix.Stdio.File
import Koerix.Stdio.Read
import Koerix.Stdio.Write
import Koerix.Sync.Code
import Koerix.Sync.Cpu
import Koerix.Sync.Mutex
import Koerix.Sync.Nested
import Koerix.Sync.Unscheduled
import Koerix.Sync.Wakeup
import Koerix.Task.Context
import Koerix.Task.Fork
import Koerix.Text.Console
import Koerix.Text.Itoa
import Koerix.Text.Keyboard
import Koerix.Text.Search
