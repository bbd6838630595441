import Yalnix.Loops
import Yalnix.Machine
import Yalnix.AddressSpace
import Yalnix.LoadProgram
import Yalnix.Processes
import Yalnix.Queues
import Yalnix.Kernel
import Yalnix.Chains
import Yalnix.Forests
import Yalnix.FamilyTree
import Yalnix.Accesses
import Yalnix.FreeList
import Yalnix.FreeCounter
import Yalnix.Calls
import Yalnix.Boot
import Yalnix.Runs
import Yalnix.ProcessTree
import Yalnix.ReadyQueue
import Yalnix.Blocking
import Yalnix.Waiting
import Yalnix.Clock
import Yalnix.CurrProc
import Yalnix.ClockQueues
import Yalnix.Exec
import Yalnix.Terminals
import Yalnix.TtyInput
import Yalnix.TtyOutput
import Yalnix.Quantum
import Yalnix.DelayTicks
import Yalnix.KernelHeap
import Yalnix.Bytes
import Yalnix.Layout
import Yalnix.Arguments
import Yalnix.Errors
import Yalnix.Indices
import Yalnix.FrameLeak
import Yalnix.WaitingQueue
import Yalnix.ReadyFifo
import Yalnix.Allocation
import Yalnix.ExitFrames
import Yalnix.StackGrowth
import Yalnix.PhysicalCheck
import Yalnix.HeapBreak
import Yalnix.NewTable
import Yalnix.ForkLoop
import Yalnix.BorrowedPage
import Yalnix.ForkErrors
import Yalnix.Lookaside
import Yalnix.Translation
import Yalnix.ForkCopies
import Yalnix.Ownership
import Yalnix.Frames
import Yalnix.SwitchFrames
import Yalnix.BootFrames
import Yalnix.FrameOwnership
import Yalnix.Isolation
import Yalnix.ValidPages
import Yalnix.SpaceLayout
import Yalnix.LayoutRuns
import Yalnix.Births
import Yalnix.Privacy
import Yalnix.ForkContents
import Yalnix.KernelPages
import Yalnix.Protection
import Yalnix.PrivateMemory
import Yalnix.UserMemory
import Yalnix.ProgramImage
import Yalnix.Strays
import Yalnix.StrayFrames
import Yalnix.RoundRobin
import Yalnix.Returns
import Yalnix.ProcessSystem
import Yalnix.Dispatch
import Yalnix.FrameAllocator
import Yalnix.VirtualScan
import Yalnix.BootMap
import Yalnix.ExitQueue
import Yalnix.ReadyRemoval
