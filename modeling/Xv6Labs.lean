import Xv6Labs.Runs
import Xv6Labs.ByteWords
import Xv6Labs.FsLayout
import Xv6Labs.FsCode
import Xv6Labs.FsBlocks
import Xv6Labs.FsSlots
import Xv6Labs.FsBmap
import Xv6Labs.FsData
import Xv6Labs.FsTrunc
import Xv6Labs.FsFiles
import Xv6Labs.FsReference
import Xv6Labs.FsBitmap
import Xv6Labs.RedoLog
import Xv6Labs.LogCode
import Xv6Labs.LogRecovery
import Xv6Labs.LogAtomic
import Xv6Labs.LogReserve
import Xv6Labs.PointerChain
import Xv6Labs.Tally
import Xv6Labs.LockTable
import Xv6Labs.KmemCode
import Xv6Labs.KmemOwnership
import Xv6Labs.KmemDeadlock
import Xv6Labs.BcacheCode
import Xv6Labs.BcacheInv
import Xv6Labs.BcacheRuns
import Xv6Labs.CowCode
import Xv6Labs.CowInv
import Xv6Labs.CowPages
import Xv6Labs.CowTables
import Xv6Labs.CowFree
import Xv6Labs.CowWrites
import Xv6Labs.CowProcs
import Xv6Labs.CowCounts
import Xv6Labs.CowSystem
import Xv6Labs.CowRefine
import Xv6Labs.CowFork
import Xv6Labs.MmapCode
import Xv6Labs.MmapSys
import Xv6Labs.Outcomes
import Xv6Labs.MmapTables
import Xv6Labs.MmapRefs
import Xv6Labs.MmapCounts
import Xv6Labs.MmapEffects
import Xv6Labs.MmapVmas
import Xv6Labs.MmapFaults
import Xv6Labs.LazyCode
import Xv6Labs.LazyTables
import Xv6Labs.LazyRefine
import Xv6Labs.LazySbrk
import Xv6Labs.LazyCopy
import Xv6Labs.DirCode
import Xv6Labs.DirSys
import Xv6Labs.DirRules
import Xv6Labs.DirOpen
import Xv6Labs.DirRefs
import Xv6Labs.DirCounts
import Xv6Labs.DirTree
import Xv6Labs.DirWalk
import Xv6Labs.DirLinks
import Xv6Labs.DirNlink
import Xv6Labs.DirExact
import Xv6Labs.AlarmCode
import Xv6Labs.AlarmRuns
import Xv6Labs.RingSlots
import Xv6Labs.NicCode
import Xv6Labs.NicRings
import Xv6Labs.NodePaths
import Xv6Labs.PgtblCode
import Xv6Labs.PgtblRefine
import Xv6Labs.WaitCode
import Xv6Labs.WaitTable
import Xv6Labs.WaitKids
import Xv6Labs.WaitThreads
import Xv6Labs.WaitRefine
import Xv6Labs.WaitRuns
import Xv6Labs.KmemSteal
import Xv6Labs.PipeCode
import Xv6Labs.PipeRuns
import Xv6Labs.BarrierCode
import Xv6Labs.BarrierRuns
import Xv6Labs.HashCode
import Xv6Labs.HashRuns
import Xv6Labs.HashPuts
import Xv6Labs.UthreadCode
import Xv6Labs.UthreadRuns
import Xv6Labs.VirtioCode
import Xv6Labs.VirtioRuns
import Xv6Labs.FsShort
import Xv6Labs.MmapUnmap
import Xv6Labs.ConsoleRuns
import Xv6Labs.PgtblCopy
import Xv6Labs.FsDir
import Xv6Labs.DirPath
import Xv6Labs.ByteLoads
import Xv6Labs.UmallocCode
import Xv6Labs.Extents
import Xv6Labs.UmallocHeap
import Xv6Labs.UmallocRuns
import Xv6Labs.ShCode
import Xv6Labs.ShGrammar
import Xv6Labs.ShTokens
import Xv6Labs.ShParse
import Xv6Labs.ShExact
import Xv6Labs.BcacheLru
import Xv6Labs.ProcTableCode
import Xv6Labs.ProcTableRuns
import Xv6Labs.GrepMatch
import Xv6Labs.FsBalloc
import Xv6Labs.Xargs
import Xv6Labs.Sieve
import Xv6Labs.PrimesCode
import Xv6Labs.PrimesRuns
import Xv6Labs.FindTree
import Xv6Labs.PipeWakeups
import Xv6Labs.BarrierEnds
import Xv6Labs.UthreadTurns
import Xv6Labs.WaitForest
import Xv6Labs.ExecStack
import Xv6Labs.BioCode
import Xv6Labs.BioEqual
import Xv6Labs.BioSteps
