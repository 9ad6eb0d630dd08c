import OsSim.RunSteps
import OsSim.RunSimulation
import OsSim.SpanCover
import OsSim.LinkedHeap
import OsSim.TextScanning
import OsSim.MemoryWords
import OsSim.MemoryDevice
import OsSim.MemorySequential
import OsSim.MemoryPageTable
import OsSim.MemoryMapping
import OsSim.MemoryConstructors
import OsSim.MemoryPaging
import OsSim.MemoryLibrary
import OsSim.MemoryEffects
import OsSim.MemoryInstruction
import OsSim.MemoryArea
import OsSim.MemoryCopy
import OsSim.MemoryFifo
import OsSim.MemorySwap
import OsSim.MemoryRegions
import OsSim.MemoryLedger
import OsSim.ResourcePool
import OsSim.MemoryBytes
import OsSim.MemoryTranslation
import OsSim.MemoryFrames
import OsSim.MemoryDrain
import OsSim.MemoryGrowth
import OsSim.MemoryArithmetic
import OsSim.MemoryReadBack
import OsSim.MemoryFault
import OsSim.MemoryBounds
import OsSim.MemoryAccess
import OsSim.MemorySymbols
import OsSim.MemoryReclaim
import OsSim.MemoryFreeList
import OsSim.MemoryVictims
import OsSim.MemoryEntries
import OsSim.SchedulerQueue
import OsSim.SchedulerMlq
import OsSim.SchedulerPlacement
import OsSim.SchedulerDispatch
import OsSim.SchedulerStarvation
import OsSim.SchedulerFifo
import OsSim.ProcessRun
import OsSim.MemoryIsolation
import OsSim.MemoryLifetime
import OsSim.ProcessFrame
import OsSim.VirtualMemory
import OsSim.VirtualProgram
import OsSim.VirtualFrames
import OsSim.CpuRoutine
import OsSim.CpuExecution
import OsSim.CpuTermination
import OsSim.CpuSlice
import OsSim.CpuCapacity
import OsSim.OsMachine
import OsSim.OsTransparency
import OsSim.TimerBarrier
import OsSim.MutexBlocks
import OsSim.TimerCondvars
import OsSim.TimerRefinement
import OsSim.TimerEnd
import OsSim.SlotClock
import OsSim.SlotWork
import OsSim.ListScheduling
import OsSim.SlotBound
import OsSim.Commands
import OsSim.LockedSections
import OsSim.LockedProgress
import OsSim.SchedulerStatements
import OsSim.SchedulerSections
import OsSim.MutexPrograms
import OsSim.SystemLocks
import OsSim.Loader
import OsSim.LoaderFormat
import OsSim.WeightedRounds
import OsSim.SchedulerRounds
import OsSim.SchedulerWaiting
import OsSim.FormatScanning
import OsSim.ConfigFile
import OsSim.OsFiles
