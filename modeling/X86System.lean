import X86System.Library.Transition
import X86System.Library.Exec
import X86System.Bitmap
import X86System.BitmapScan
import X86System.Thread
import X86System.WaitExit
import X86System.Processes
import X86System.Queues
import X86System.Scheduler
import X86System.SchedulerRuns
import X86System.ExitDelivery
import X86System.StepCases
import X86System.Parents
import X86System.Sleepers
import X86System.Parking
import X86System.Library.Ring
import X86System.Ioqueue
import X86System.IoqueueRuns
import X86System.Lock
import X86System.LockInvariant
import X86System.Library.Bytes
import X86System.FileSystem
import X86System.InodeTable
import X86System.InodeRecords
import X86System.Blocks
import X86System.Directory
import X86System.DirEntries
import X86System.Format
import X86System.Paths
import X86System.FileData
import X86System.Removal
import X86System.Creation
import X86System.Descriptors
import X86System.Sessions
import X86System.DescriptorCalls
import X86System.Still
import X86System.OpenCounts
import X86System.OpenCalls
import X86System.Slots
import X86System.Backing
import X86System.Writers
import X86System.RemovedDirs
import X86System.Counting
import X86System.DescriptorRuns
import X86System.Independence
import X86System.Library.PathTree
import X86System.Lookup
import X86System.PathWalk
import X86System.WashPath
import X86System.FileBlocks
import X86System.FileWrites
import X86System.FileReads
import X86System.FileContents
import X86System.BitmapSectors
import X86System.OpenInodes
import X86System.DirDeletes
import X86System.FileSizes
import X86System.FilePositions
import X86System.Library.Paging
import X86System.Library.Ledger
import X86System.Memory
import X86System.AddressSpaces
import X86System.MemoryPools
import X86System.Frames
import X86System.PageTables
import X86System.PageMapping
import X86System.PageRuns
import X86System.SpaceInvariant
import X86System.Directories
import X86System.SpaceCalls
import X86System.SpaceTasks
import X86System.SpaceProcesses
import X86System.SpaceForks
import X86System.FrameSupply
import X86System.MallocPages
import X86System.ForkCalls
import X86System.SpaceExits
import X86System.SpaceRuns
import X86System.HeapSupply
import X86System.ForkSupply
import X86System.FirstProcess
import X86System.ForkOutcomes
import X86System.Library.Logged
import X86System.PageRequests
import X86System.Translations
import X86System.FileLimits
import X86System.InodeReleases
import X86System.DirReads
import X86System.PathSearches
import X86System.WorkingDir
import X86System.SearchFrames
import X86System.PathAgreement
import X86System.OutOfSpace
import X86System.Library.Watched
import X86System.HeapTraces
import X86System.FailedCreations
import X86System.OpenAccounts
import X86System.Library.Interleaving
import X86System.DirHandles
import X86System.CreatedNames
import X86System.Keyboard
import X86System.Partitions
import X86System.Disks
import X86System.StartUp
import X86System.TaskNames
import X86System.Screen
import X86System.Pipes
import X86System.PipeCreation
import X86System.Segments
import X86System.ProgramLoads
import X86System.KernelHalf
import X86System.PageLifetimes
import X86System.ProcessLeaks
import X86System.CanonicalPaths
import X86System.NameBuffers
import X86System.WordWalks
import X86System.SectorTransfers
import X86System.Console
import X86System.Readline
import X86System.CommandLine
import X86System.FormattedOutput
import X86System.LinkedLists
import X86System.LoadBounds
import X86System.BitmapRuns
import X86System.NumberPrinters
import X86System.HeapReturns
import X86System.ResponseTimes
import X86System.ContextRuns
import X86System.LockedCalls
import X86System.ScriptedCalls
import X86System.ConsoleCalls
import X86System.ChannelCalls
import X86System.TypedLines
import X86System.Mounting
import X86System.Reboots
import X86System.Sleeping
import X86System.ShellCommands
