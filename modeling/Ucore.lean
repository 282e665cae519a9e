import Ucore.Lib.Outcome
import Ucore.Lib.Bytes
import Ucore.Lib.Cells
import Ucore.Lib.Custody
import Ucore.Lib.Siblings
import Ucore.Lib.Separation
import Ucore.Lib.Dyadic
import Ucore.Lib.Runs
import Ucore.Lib.TokenQueue
import Ucore.Lib.Sums
import Ucore.Lib.Waiting
import Ucore.Lib.Splice
import Ucore.Lib.RedBlack
import Ucore.Lib.Heap
import Ucore.Lib.Ledger
import Ucore.Lib.Links
import Ucore.Lib.Deltas
import Ucore.Lib.Window
import Ucore.Sfs.State
import Ucore.Sfs.Inode
import Ucore.Sfs.ReadDir
import Ucore.Sfs.FileIo
import Ucore.Sfs.BlockIo
import Ucore.Sfs.FileTable
import Ucore.Sfs.Rules
import Ucore.Sfs.Unmount
import Ucore.Sfs.Ownership
import Ucore.Sfs.Spending
import Ucore.Sfs.MapGrowth
import Ucore.Sfs.MapGet
import Ucore.Sfs.MapLoad
import Ucore.Sfs.MapFree
import Ucore.Sfs.Transfer
import Ucore.Sfs.FileSpec
import Ucore.Sfs.Truncate
import Ucore.Sfs.FileRuns
import Ucore.Sfs.FileStore
import Ucore.Sfs.TableRuns
import Ucore.Threads.Model
import Ucore.Threads.Calls
import Ucore.Threads.Discipline
import Ucore.Threads.Lifetime
import Ucore.Threads.LifetimeRuns
import Ucore.Threads.LockOrder
import Ucore.Buddy.Pmm
import Ucore.Buddy.Invariant
import Ucore.Buddy.Free
import Ucore.Buddy.Alloc
import Ucore.Buddy.Zones
import Ucore.Buddy.Runs
import Ucore.Buddy.Accounting
import Ucore.Rb.Tree
import Ucore.Rb.Shape
import Ucore.Rb.Insert
import Ucore.Rb.Delete
import Ucore.Rb.Search
import Ucore.Rb.Runs
import Ucore.Vm.Memory
import Ucore.Vm.Areas
import Ucore.Vm.Space
import Ucore.Vm.Tables
import Ucore.Vm.Ranges
import Ucore.Vm.Shared
import Ucore.Vm.AreaList
import Ucore.Vm.AreaMap
import Ucore.Vm.Shares
import Ucore.Vm.Unmap
import Ucore.Vm.Faults
import Ucore.Vm.UserAccess
import Ucore.Vm.FrameRuns
import Ucore.Vm.Exit
import Ucore.Vm.Fork
import Ucore.Vm.Mapping
import Ucore.Vm.System
import Ucore.Vm.SystemSpec
import Ucore.Vm.AreaRuns
import Ucore.Vm.ShareRuns
import Ucore.Vm.ExitRuns
import Ucore.Vm.Mmap
import Ucore.Vm.CopyString
import Ucore.Vm.Brk
import Ucore.Sync.Sched
import Ucore.Sync.Timers
import Ucore.Sync.TimerRuns
import Ucore.Sync.Semaphores
import Ucore.Sync.UserSem
import Ucore.Sync.Signals
import Ucore.Sync.KernelSem
import Ucore.Sync.Mailbox
import Ucore.Sync.MailboxSpec
import Ucore.Sync.MailboxSlots
import Ucore.Sync.MailboxTimers
import Ucore.Sync.MailboxQueues
import Ucore.Sync.MailboxCalls
import Ucore.Sync.MailboxWakeups
import Ucore.Sync.MailboxLedger
import Ucore.Sync.MailboxDelivery
import Ucore.Sync.MailboxSegments
import Ucore.Signal.Model
import Ucore.Signal.Sets
import Ucore.Signal.Dequeue
import Ucore.Signal.Send
import Ucore.Signal.Steps
import Ucore.Signal.Numbers
import Ucore.Signal.Masks
import Ucore.Signal.Flags
import Ucore.Signal.FlagRuns
import Ucore.Signal.Groups
import Ucore.Signal.Cancel
import Ucore.Signal.Frames
import Ucore.Proc.Family
import Ucore.Proc.FamilyLinks
import Ucore.Proc.FamilyCalls
import Ucore.Proc.FamilyRuns
import Ucore.Proc.Pids
import Ucore.Proc.ExitCode
import Ucore.Sched.Classes
import Ucore.Sched.QueueSpec
import Ucore.Sched.QueueRuns
import Ucore.Sched.RoundRobin
import Ucore.Syscall.Locks
import Ucore.Pipe.Positions
import Ucore.Devs.Stdin
