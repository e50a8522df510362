import ConeOS.Library.Table
import ConeOS.Library.Ring
import ConeOS.Vfs.Basic
import ConeOS.Vfs.Path
import ConeOS.Vfs.Descriptor
import ConeOS.Vfs.References
import ConeOS.Vfs.TableInvariant
import ConeOS.Vfs.Pipe
import ConeOS.Vfs.PipeSystem
import ConeOS.Vfs.PipeFifo
import ConeOS.Library.Word
import ConeOS.Memory.Pmm
import ConeOS.Library.Loop
import ConeOS.Memory.PageTable
import ConeOS.Process.Image
import ConeOS.Process.Kernel
import ConeOS.Process.Run
import ConeOS.Memory.Forest
import ConeOS.Memory.TableUpdate
import ConeOS.Library.Occurrence
import ConeOS.Memory.Account
import ConeOS.Memory.Twin
import ConeOS.Memory.Map
import ConeOS.Memory.Walk
import ConeOS.Memory.KernelPages
import ConeOS.Memory.Destroy
import ConeOS.Memory.Create
import ConeOS.Memory.Clone
import ConeOS.Memory.Loading
import ConeOS.Process.ImageSpec
import ConeOS.Process.Records
import ConeOS.Process.Reaping
import ConeOS.Vfs.Mount
import ConeOS.Vfs.Resolution
import ConeOS.Scheduling.Scheduler
import ConeOS.Scheduling.Effect
import ConeOS.Scheduling.SchedulerInvariant
import ConeOS.Memory.Spares
import ConeOS.Memory.KernelTables
import ConeOS.Memory.KernelMap
import ConeOS.Memory.KernelHalf
import ConeOS.Vfs.Console
import ConeOS.Vfs.Wakeup
import ConeOS.Memory.View
import ConeOS.Firmware.Madt
import ConeOS.Firmware.MadtGrammar
import ConeOS.Firmware.MadtParser
import ConeOS.Drivers.Block
import ConeOS.Drivers.BlockRun
import ConeOS.Vfs.File
import ConeOS.Fs.Ramfs
import ConeOS.Fs.RamfsMap
import ConeOS.Vfs.Lookup
import ConeOS.Vfs.Duplicate
import ConeOS.Fs.RootFs
import ConeOS.Fs.Chunks
import ConeOS.Fs.RamfsTree
import ConeOS.Process.UserMemory
import ConeOS.Process.Stack
import ConeOS.Process.Spaces
import ConeOS.Process.Lifecycle
import ConeOS.Process.UserCopy
import ConeOS.Process.Munmap
import ConeOS.Process.Arguments
import ConeOS.Process.ElfLoad
import ConeOS.Fat32.Utf8
import ConeOS.Fs.Initramfs
import ConeOS.Memory.PmmRun
import ConeOS.Process.Mmap
import ConeOS.Fat32.Volume
import ConeOS.Fat32.Names
import ConeOS.Library.Scan
import ConeOS.Fat32.Directory
import ConeOS.Fat32.Delete
import ConeOS.Fat32.Paths
import ConeOS.Fat32.Tree
import ConeOS.Fat32.Rmdir
import ConeOS.Fat32.Write
import ConeOS.Fat32.Alias
import ConeOS.Fat32.Create
import ConeOS.Memory.KernelGrowth
import ConeOS.Memory.KernelPrune
import ConeOS.Memory.KernelStack
import ConeOS.Fs.OpenFailure
import ConeOS.Memory.PmmBounds
import ConeOS.Vfs.MountLookup
import ConeOS.Vfs.Seek
import ConeOS.Fat32.Freeing
import ConeOS.Fs.RamfsReaddir
import ConeOS.Cpu.Apic
import ConeOS.Fs.SharedOffset
import ConeOS.Process.Isolation
