import Jaeos.Lib.LinkedRing
import Jaeos.Lib.LinkedList
import Jaeos.Lib.Placement
import Jaeos.Lib.Forest
import Jaeos.Lib.Prog
import Jaeos.Lib.Trace
import Jaeos.Lib.Keeps
import Jaeos.Lib.Transition
import Jaeos.Lib.Fifo
import Jaeos.Lib.Threads
import Jaeos.Lib.Locks
import Jaeos.Lib.Guarded
import Jaeos.Lib.Locals
import Jaeos.Types
import Jaeos.Pcb
import Jaeos.ProcQueue
import Jaeos.Asl
import Jaeos.Links
import Jaeos.AslRep
import Jaeos.AslMap
import Jaeos.ProcTree
import Jaeos.Nucleus
import Jaeos.Scheduler
import Jaeos.Exceptions
import Jaeos.Interrupts
import Jaeos.Machine
import Jaeos.Calls
import Jaeos.Lists
import Jaeos.Abstract
import Jaeos.Core
import Jaeos.Kill
import Jaeos.Request
import Jaeos.Effects
import Jaeos.Boot
import Jaeos.Reach
import Jaeos.Nuke
import Jaeos.Presumed
import Jaeos.UserCalls
import Jaeos.Areas
import Jaeos.Sesv
import Jaeos.Terminals
import Jaeos.Verdict
import Jaeos.Partition
import Jaeos.Semaphores
import Jaeos.Devices
import Jaeos.Clock
import Jaeos.Ticks
import Jaeos.CpuTime
import Jaeos.Tod
import Jaeos.Creation
import Jaeos.ClockWaiters
import Jaeos.Queues
import Jaeos.Trees
import Jaeos.Fairness
import Jaeos.Resume
import Jaeos.Lineage
import Jaeos.Exclusion
import Jaeos.Accounting
import Jaeos.Refinement
import Jaeos.Support.Types
import Jaeos.Support.Ops
import Jaeos.Support.VmIo
import Jaeos.Support.InitProc
import Jaeos.Support.Routines
import Jaeos.Support.Sections
import Jaeos.Support.Mutexes
import Jaeos.Support.Caller
import Jaeos.Support.Confined
import Jaeos.Support.Services
import Jaeos.Support.Adl
import Jaeos.Support.Avsl
import Jaeos.Support.Virtual
import Jaeos.Support.Waiters
import Jaeos.Support.VirtualLaw
import Jaeos.Support.Occupancy
import Jaeos.Support.Delays
import Jaeos.Support.Pairs
import Jaeos.Support.Priority
import Jaeos.Support.Wakeup
import Jaeos.Support.Asleep
import Jaeos.Support.Hardware
import Jaeos.Support.Sectors
import Jaeos.Support.Output
import Jaeos.Support.Input
import Jaeos.Support.DiskRead
import Jaeos.Support.Paging
import Jaeos.Support.Frames
import Jaeos.Support.Fault
import Jaeos.Support.PageFaults
import Jaeos.Support.Tables
import Jaeos.Support.Pager
import Jaeos.Support.PagerSteps
import Jaeos.Support.PagerRules
import Jaeos.Support.PagerHandlers
import Jaeos.Support.PagerLoader
import Jaeos.Support.PagerRuns
import Jaeos.Support.Stack
import Jaeos.Support.PagerStacks
import Jaeos.Support.Disks
import Jaeos.Support.DiskRules
import Jaeos.Support.DiskTransfers
import Jaeos.Support.DiskRequests
import Jaeos.Support.DiskLoader
import Jaeos.Support.DiskRuns
import Jaeos.Support.DiskStacks
import Jaeos.Support.Replacement
