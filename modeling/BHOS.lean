import BHOS.Lib.Blocks
import BHOS.Lib.CharArray
import BHOS.Strings
import BHOS.Numerals
import BHOS.NumeralValues
import BHOS.Console
import BHOS.ConsoleWindow
import BHOS.Printk
import BHOS.Lib.X86
import BHOS.Lib.X86Segments
import BHOS.InterruptEntry
import BHOS.Tss
import BHOS.Lib.Chain
import BHOS.Lib.Runs
import BHOS.Lib.Words
import BHOS.Lib.Bytes
import BHOS.Bitmap
import BHOS.BitmapSet
import BHOS.Pmm
import BHOS.PmmLists
import BHOS.PmmBlocks
import BHOS.PmmSelect
import BHOS.PmmFree
import BHOS.PmmInit
import BHOS.PmmOwnership
import BHOS.PmmCoalesce
import BHOS.MemoryMap
import BHOS.PageNumbers
import BHOS.Paging
import BHOS.Boot
import BHOS.Vmm
import BHOS.KernelPool
import BHOS.VmmSteps
import BHOS.KernelCalls
import BHOS.KernelMapping
import BHOS.PoolSafety
import BHOS.PoolStorage
import BHOS.PoolClients
import BHOS.Translation
import BHOS.Frames
import BHOS.Lib.Ring
import BHOS.Threads
import BHOS.UserVmm
import BHOS.UserAlloc
import BHOS.RoundRobin
import BHOS.Fairness
import BHOS.Scheduler
import BHOS.AddressSpace
import BHOS.UserPdt
import BHOS.UserDirectories
import BHOS.KernelSpace
import BHOS.KernelAtomic
import BHOS.UserBitmap
import BHOS.UserSpace
import BHOS.UserMapping
import BHOS.Sync
import BHOS.SyncSteps
import BHOS.WaitQueues
import BHOS.Semaphore
import BHOS.Lock
import BHOS.ThreadRing
import BHOS.Interrupts
import BHOS.IntFlag
import BHOS.Link
import BHOS.LinkRemove
import BHOS.LinkBuild
import BHOS.LinkThreads
import BHOS.Lib.X86Ops
import BHOS.ContextSwitch
import BHOS.ThreadStacks
import BHOS.ThreadRuns
import BHOS.Lib.Pic
import BHOS.Irq
import BHOS.Timer
import BHOS.Lib.X86Gate
import BHOS.KernelFrames
import BHOS.KernelLog
import BHOS.Lib.Monitor
import BHOS.PrintkSteps
import BHOS.PrintkThreads
import BHOS.PmmReport
import BHOS.PmmScreen
