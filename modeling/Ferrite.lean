import Ferrite.Library.DyadicBlocks
import Ferrite.Library.Chain
import Ferrite.Library.Runs
import Ferrite.Memory.Buddy
import Ferrite.Memory.BuddyPool
import Ferrite.Memory.BuddyCalls
import Ferrite.Memory.BuddyInit
import Ferrite.Memory.BuddyRuns
import Ferrite.Memory.BuddyAgreement
import Ferrite.Memory.BuddySetUp
import Ferrite.Memory.BuddyMerges
import Ferrite.Sys.Process
import Ferrite.Sys.DeadProcess
import Ferrite.Sys.Timers
import Ferrite.Sys.WaitWakeup
import Ferrite.Library.Packed
import Ferrite.Net.Unix
import Ferrite.Net.UnixLinks
import Ferrite.Net.UnixStream
import Ferrite.Fs.Descriptors
import Ferrite.Library.Tables
import Ferrite.Fs.DescriptorCounts
import Ferrite.Fs.InodeCache
import Ferrite.Fs.InodeLookup
import Ferrite.Fs.Mount
import Ferrite.Fs.MountCrossing
import Ferrite.Fs.MountRuns
import Ferrite.Library.Pages
import Ferrite.Memory.Paging
import Ferrite.Memory.Frames
import Ferrite.Sys.Fork
import Ferrite.Memory.AddressSpace
import Ferrite.Sys.ForkCopy
import Ferrite.Memory.Heap
import Ferrite.Library.Segments
import Ferrite.Memory.BuddyMemory
import Ferrite.Memory.HeapMemory
import Ferrite.Memory.HeapInvariant
import Ferrite.Memory.HeapCalls
import Ferrite.Memory.HeapRuns
import Ferrite.Memory.HeapSizes
import Ferrite.Sys.Credentials
import Ferrite.Sys.Slots
import Ferrite.Sys.SlotReuse
import Ferrite.Fs.Ext2
import Ferrite.Fs.Ext2Read
import Ferrite.Library.Records
import Ferrite.Fs.Ext2Dir
import Ferrite.Fs.DeleteEntry
import Ferrite.Fs.Ext2Blocks
import Ferrite.Fs.Ext2Inode
import Ferrite.Fs.Ext2Truncate
import Ferrite.Fs.ReadDir
import Ferrite.Fs.FindEntry
import Ferrite.Fs.Rmdir
import Ferrite.Fs.WriteEntry
import Ferrite.Fs.Create
import Ferrite.Fs.Geometry
import Ferrite.Fs.GroupTable
import Ferrite.Fs.InodeRecords
import Ferrite.Fs.Alloc
import Ferrite.Fs.AllocAgree
import Ferrite.Fs.AllocAtomic
import Ferrite.Fs.NewInode
import Ferrite.Fs.DirOnDisk
import Ferrite.Fs.CreateTrace
import Ferrite.Fs.CreateLookup
import Ferrite.Fs.PathSafety
import Ferrite.Fs.PathCalls
import Ferrite.Fs.EntryCalls
import Ferrite.Fs.Getcwd
import Ferrite.Fs.SuperRead
import Ferrite.Fs.InodeSlots
import Ferrite.Memory.MapPage
import Ferrite.Sys.FatalSignals
import Ferrite.Memory.Vmm
import Ferrite.Memory.BootMemory
import Ferrite.Memory.InitPages
import Ferrite.Memory.Pmm
import Ferrite.Sys.FreePagedir
import Ferrite.Sys.FailedFork
import Ferrite.Sys.PagedirRuns
import Ferrite.Sys.Modules
import Ferrite.Net.SocketFiles
import Ferrite.Net.SocketRelease
import Ferrite.Net.SocketNodes
import Ferrite.Fs.DescriptorEntries
import Ferrite.Sys.Kill
import Ferrite.Library.Image
import Ferrite.Library.Loops
import Ferrite.Sys.Loader
import Ferrite.Sys.LoaderSections
import Ferrite.Sys.Relocate
import Ferrite.Sys.LoaderBounds
import Ferrite.Library.Patches
import Ferrite.Memory.Kmalloc
import Ferrite.Library.Signed
import Ferrite.Library.Sums
import Ferrite.Sys.Epoch
import Ferrite.Sys.Clock
import Ferrite.Library.Numerals
import Ferrite.Text.Numbers
import Ferrite.Text.Format
import Ferrite.Text.Conversions
import Ferrite.Text.Snprintk
import Ferrite.Library.Fields
import Ferrite.User.Shell
import Ferrite.Library.Ring
import Ferrite.Drivers.Console
import Ferrite.Drivers.Vga
import Ferrite.User.Malloc
import Ferrite.User.Calendar
import Ferrite.Fs.Positions
import Ferrite.Drivers.AtaDevice
import Ferrite.Drivers.Ide
import Ferrite.Fs.AddEntry
import Ferrite.Fs.FileWrite
import Ferrite.Fs.WriteSplice
import Ferrite.Fs.OpenAccess
import Ferrite.Fs.AllocRuns
import Ferrite.Fs.Edited
import Ferrite.Fs.Unlink
import Ferrite.Library.Roll
import Ferrite.Library.Shelf
import Ferrite.Library.Strings
import Ferrite.Sys.ExecArgs
import Ferrite.User.Environment
import Ferrite.Text.Atoi
import Ferrite.Library.Blocks
import Ferrite.Text.Split
