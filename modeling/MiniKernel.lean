import MiniKernel.Verified.Trace
import MiniKernel.Verified.ByteMemory
import MiniKernel.Verified.Links
import MiniKernel.Ports.PmmRoundTrip
import MiniKernel.Ports.PmmCoverage
import MiniKernel.Ports.PmmReserved
import MiniKernel.Ports.KmallocRuns
import MiniKernel.Ports.ProcessReports
import MiniKernel.Ports.ProcessSleep
import MiniKernel.Ports.ProcessPanic
import MiniKernel.Ports.ProcessStacks
import MiniKernel.Ports.TrapRuns
import MiniKernel.Ports.Fork
import MiniKernel.Ports.PagingRecycling
import MiniKernel.Ports.PagingIdentity
import MiniKernel.Ports.PagingFrames
import MiniKernel.Ports.ElfSegments
import MiniKernel.Ports.SystemHeap
import MiniKernel.Ports.ProcessRemoval
import MiniKernel.Ports.UserProcesses
import MiniKernel.Ports.PagingFixed
import MiniKernel.Ports.PagingAccess
import MiniKernel.Ports.KmallocAccess
import MiniKernel.Ports.ElfFrame
import MiniKernel.Ports.ProgramLoads
import MiniKernel.Ports.Console
import MiniKernel.Ports.ShellLines
import MiniKernel.Ports.ProcessRotation
import MiniKernel.Ports.ProcessPids
import MiniKernel.Ports.BootMap
import MiniKernel.Ports.PagingCache
import MiniKernel.Ports.BootTicks
import MiniKernel.Ports.PmmBestFit
import MiniKernel.Ports.PmmRetention
import MiniKernel.Ports.KmallocBlocks
import MiniKernel.Ports.KmallocFailure
import MiniKernel.Ports.ForkFrames
import MiniKernel.Ports.PagingDraws
import MiniKernel.Ports.ProcessFailure
import MiniKernel.Ports.PagingPinned
import MiniKernel.Ports.ProcessLeaks
import MiniKernel.Ports.ElfDraws
import MiniKernel.Ports.ExecFailure
import MiniKernel.Verified.EventLog
import MiniKernel.Ports.ElfWrites
import MiniKernel.Ports.PagingMaps
import MiniKernel.Ports.PageReports
import MiniKernel.Verified.LinkLog
import MiniKernel.Ports.ProcessSchedule
import MiniKernel.Ports.ProcessWakeups
import MiniKernel.Ports.KernelTraps
import MiniKernel.Ports.ProcessParents
import MiniKernel.Verified.Windows
import MiniKernel.Ports.ConsoleText
import MiniKernel.Ports.ConsoleNumbers
import MiniKernel.Ports.ConsoleLines
import MiniKernel.Ports.ForkLoop
import MiniKernel.Ports.CommandBuffer
import MiniKernel.Verified.StackDepth
import MiniKernel.Ports.FreeStack
import MiniKernel.Ports.PageRanges
import MiniKernel.Verified.Transfers
import MiniKernel.Ports.KernelLoad
import MiniKernel.Verified.Protection
import MiniKernel.Ports.DescriptorTables
import MiniKernel.Ports.ConsoleReports
import MiniKernel.Ports.FaultReports
import MiniKernel.Verified.InterruptController
import MiniKernel.Ports.InterruptRequests
import MiniKernel.Verified.TimeSharing
import MiniKernel.Ports.VirtualProcessors
import MiniKernel.Verified.BoundedWaiting
import MiniKernel.Ports.ProcessFairness
import MiniKernel.Verified.IntervalTimer
import MiniKernel.Ports.TimerTicks
import MiniKernel.Ports.BootChoice
import MiniKernel.Verified.IndexedRegisters
import MiniKernel.Ports.CursorUpdates
import MiniKernel.Ports.UptimeDisplay
import MiniKernel.Ports.ProcessAlarms
import MiniKernel.Ports.ConsoleEcho
import MiniKernel.Ports.PagingSparing
import MiniKernel.Ports.PagingKept
