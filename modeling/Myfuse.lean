import Myfuse.Library.Exec
import Myfuse.Library.Assign
import Myfuse.Library.Bytes
import Myfuse.Library.BlockTree
import Myfuse.Library.DiskWrites
import Myfuse.Layout
import Myfuse.Exits
import Myfuse.Log
import Myfuse.LogDevice
import Myfuse.Proofs.BufferCache
import Myfuse.Proofs.LogCommit
import Myfuse.Proofs.LogRecovery
import Myfuse.Proofs.CrashAtomicity
import Myfuse.Proofs.DeviceRounds
import Myfuse.Proofs.DeviceFaults
import Myfuse.LogThreads
import Myfuse.Proofs.LogAgreement
import Myfuse.Proofs.LogAdmission
import Myfuse.Proofs.LogProtocol
import Myfuse.BufCache
import Myfuse.Proofs.HashedCache
import Myfuse.Proofs.CacheRefinement
import Myfuse.Proofs.CachedLog
import Myfuse.Proofs.CacheTransparency
import Myfuse.DeviceFaults
import Myfuse.FileSystem
import Myfuse.BlockAllocator
import Myfuse.Inode
import Myfuse.Library.Bitmap
import Myfuse.Proofs.Allocation
import Myfuse.Proofs.LogUse
import Myfuse.Proofs.Mount
import Myfuse.Library.Ownership
import Myfuse.Proofs.Volume
import Myfuse.Proofs.AllocatorSteps
import Myfuse.Proofs.FileFrames
import Myfuse.Proofs.FindOrAlloc
import Myfuse.Proofs.DinodeFormat
import Myfuse.Proofs.Operation
import Myfuse.Proofs.ReadWrite
import Myfuse.Proofs.Truncate
import Myfuse.Proofs.FreeTree
import Myfuse.Proofs.Resize
import Myfuse.Proofs.Session
import Myfuse.Proofs.AllocatorRuns
import Myfuse.Proofs.WellFormed
import Myfuse.Proofs.FileBytes
import Myfuse.Proofs.FileHistory
import Myfuse.Proofs.Usable
import Myfuse.Proofs.BlockOwnership
import Myfuse.Directory
import Myfuse.File
import Myfuse.Proofs.Exhaustion
import Myfuse.Mkfs
import Myfuse.Proofs.Accounting
import Myfuse.Library.NameTree
import Myfuse.Proofs.PathWalk
import Myfuse.ReadFaults
import Myfuse.Proofs.ReadFaults
import Myfuse.Library.TwoRuns
import Myfuse.Proofs.AllocatorBlind
import Myfuse.Proofs.EntryBlind
import Myfuse.Proofs.RecycledEntries
import Myfuse.Proofs.RecycledCalls
import Myfuse.Proofs.Balance
import Myfuse.Proofs.CallBalance
import Myfuse.Proofs.CallOutcomes
import Myfuse.FuseCall
import Myfuse.Proofs.RenameOutcome
import Myfuse.Proofs.CallRuns
import Myfuse.InodeThreads
import Myfuse.Proofs.InodeTable
import Myfuse.Proofs.InodeDinodes
import Myfuse.Proofs.InodeProtocol
import Myfuse.Proofs.DiskLayout
import Myfuse.Library.Rings
import Myfuse.LinkedCache
import Myfuse.Proofs.LeastRecent
import Myfuse.Proofs.LinkedCache
import Myfuse.Proofs.EntryRules
import Myfuse.Library.PartialMap
import Myfuse.Proofs.BlockMap
import Myfuse.Proofs.Shrink
import Myfuse.Proofs.ReadEffects
import Myfuse.Proofs.FileLimit
import Myfuse.Library.Slots
import Myfuse.Proofs.DirectoryFormat
import Myfuse.Proofs.EntryTable
import Myfuse.Proofs.DirectoryMap
import Myfuse.Proofs.References
import Myfuse.Proofs.Readdir
import Myfuse.Proofs.FileTable
import Myfuse.Proofs.HandleOffsets
import Myfuse.ItableThreads
import Myfuse.Proofs.ItableCounts
import Myfuse.DiskDiagnostic
import Myfuse.Proofs.DiskDiagnostic
import Myfuse.Library.NameTree
import Myfuse.Proofs.PathWalk
import Myfuse.CacheThreads
import Myfuse.Proofs.BufferPool
import Myfuse.Proofs.CommitPoints
import Myfuse.Proofs.Namespace
import Myfuse.Proofs.LinkedTree
import Myfuse.Proofs.DirectoryTree
import Myfuse.Proofs.RenameTree
import Myfuse.Proofs.RenameMoves
import Myfuse.WriteThreads
import Myfuse.Proofs.WriteStretches
import Myfuse.Proofs.StretchEffects
import Myfuse.Proofs.ConcurrentWrites
import Myfuse.Proofs.WriteOrders
import Myfuse.Library.Simulation
import Myfuse.BlockDevice
import Myfuse.Proofs.BlockDevice
import Myfuse.FtableThreads
import Myfuse.Proofs.FtableThreads
import Myfuse.Format
import Myfuse.Proofs.Format
import Myfuse.Proofs.Formatted
import Myfuse.Proofs.Remount
import Myfuse.Proofs.InodeSteps
import Myfuse.Proofs.FileTree
import Myfuse.Proofs.TreeCalls
import Myfuse.Proofs.TreeRuns
import Myfuse.Proofs.Durability
import Myfuse.Proofs.TreeRemount
import Myfuse.Proofs.TreeSessions
