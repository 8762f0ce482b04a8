import Pintos.Lib.LinkHeap
import Pintos.Lib.Except
import Pintos.Lib.Compaction
import Pintos.Lib.Search
import Pintos.Lib.Ring
import Pintos.Lib.Word
import Pintos.Lib.Slots
import Pintos.Lib.Buckets
import Pintos.Lib.Bytes
import Pintos.Lib.WeakOrder
import Pintos.Lib.Compare
import Pintos.List.Model
import Pintos.List.Wf
import Pintos.List.Splice
import Pintos.List.Ordered
import Pintos.List.Stable
import Pintos.List.Refine
import Pintos.Threads.State
import Pintos.Threads.Ops
import Pintos.Threads.Step
import Pintos.Threads.Sched
import Pintos.Threads.Abstract
import Pintos.Threads.Refine
import Pintos.Threads.Stack
import Pintos.Threads.Donation
import Pintos.Threads.Priority
import Pintos.Threads.Mlfqs
import Pintos.Threads.Queue
import Pintos.Str.String
import Pintos.Libc.Arithmetic
import Pintos.Libc.Stdlib
import Pintos.Libc.Random
import Pintos.Libc.Ustar
import Pintos.Userprog.Syscall
import Pintos.Userprog.Load
import Pintos.Userprog.Pagedir
import Pintos.Kernel.Bitmap
import Pintos.Kernel.Packed
import Pintos.Kernel.Hash
import Pintos.Kernel.HashSet
import Pintos.Threads.Palloc
import Pintos.Threads.Init
import Pintos.Threads.Malloc
import Pintos.Devices.Intq
import Pintos.Devices.Input
import Pintos.Devices.Kbd
import Pintos.Devices.Partition
import Pintos.Devices.Vga
import Pintos.Devices.Rtc
import Pintos.Devices.Timer
import Pintos.Devices.Serial
import Pintos.Filesys.Inode
import Pintos.Filesys.InodeIo
import Pintos.Filesys.Directory
import Pintos.Filesys.Filesys
import Pintos.Threads.Paging
