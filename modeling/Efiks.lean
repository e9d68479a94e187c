import Efiks.Kmalloc.LinkedListAllocator
import Efiks.Kmalloc.HeapSafety
import Efiks.Lib.PtrTree
import Efiks.Mm.FrameAllocator
import Efiks.Mm.PageTable
import Efiks.Mm.MemoryManager
import Efiks.Lib.SharedFrames
import Efiks.Mm.Frames
import Efiks.Mm.Tables
import Efiks.Mm.Leaves
import Efiks.Mm.ForkTables
import Efiks.Mm.FreeTables
import Efiks.Mm.KernelStack
import Efiks.Mm.NewSpace
import Efiks.Mm.Machine
import Efiks.Mm.Regions
import Efiks.Mm.Invariant
import Efiks.Mm.Steps
import Efiks.Mm.LifeSteps
import Efiks.Mm.Exec
import Efiks.Mm.Runs
import Efiks.Mm.Accounting
import Efiks.Exec.Elf
import Efiks.Exec.Loader
import Efiks.Mm.Growing
import Efiks.Exec.Calls
import Efiks.Tasks.Spawn
import Efiks.Mm.FrameLevels
import Efiks.Mm.LevelSteps
import Efiks.Mm.LevelFork
import Efiks.Mm.KernelHalf
import Efiks.Sched.Harts
import Efiks.Lib.Split
import Efiks.Tool.Layout
import Efiks.Mm.Mappings
import Efiks.Lib.Checked
import Efiks.Vsfs.Disk
import Efiks.Vsfs.Inode
import Efiks.Vsfs.Read
import Efiks.Vsfs.WellFormed
import Efiks.Vsfs.Write
import Efiks.Vsfs.Bitmap
import Efiks.Vsfs.Namespace
import Efiks.Lib.Returns
import Efiks.Vsfs.NoPanic
import Efiks.Vsfs.Lookup
import Efiks.Driver.Virtqueue
import Efiks.Driver.VirtioBlk
import Efiks.Driver.SectorStore
import Efiks.Syscall.Dispatch
import Efiks.Syscall.Confinement
import Efiks.Vfs.Mount
import Efiks.Mm.Heap
import Efiks.Mm.Faults
import Efiks.Tasks.InitialStack
import Efiks.Lib.Cursor
import Efiks.Vfs.File
import Efiks.Syscall.UserAccess
import Efiks.Syscall.Vectored
import Efiks.Mm.FrameSet
import Efiks.Sched.Placement
import Efiks.Kmalloc.FirstFit
import Efiks.Vsfs.BitmapBits
import Efiks.Sync.RwLock
import Efiks.Driver.Uart
import Efiks.Lib.Slab
import Efiks.Tasks.Table
import Efiks.Lib.PriorityQueue
import Efiks.Sched.SleepingTasks
import Efiks.Mm.ForkTranslation
import Efiks.Sched.PlacedSteps
import Efiks.Sched.PlacedMoves
import Efiks.Sched.PlacedSwitch
import Efiks.Sched.PlacedRuns
import Efiks.Sched.Ledger
import Efiks.Sched.OneHart
import Efiks.Sched.Kin
import Efiks.Sched.Kinship
import Efiks.Sched.Teardown
import Efiks.Sched.Handshake
import Efiks.Sched.Orphans
import Efiks.Sched.ExitStatus
import Efiks.Sched.Sleep
import Efiks.Sched.WaitCall
import Efiks.Lib.NameTree
import Efiks.Vsfs.Tree
import Efiks.Vsfs.Linked
import Efiks.Vsfs.Create
import Efiks.Vsfs.Sessions
import Efiks.Lib.Trace
import Efiks.Vsfs.Refinement
