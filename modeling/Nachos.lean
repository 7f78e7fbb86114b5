import Nachos.Lib.Runs
import Nachos.Lib.Owned
import Nachos.Lib.Lock
import Nachos.Lib.Traces
import Nachos.Lib.Cells
import Nachos.Lib.CString
import Nachos.Lib.Keyed
import Nachos.Lib.Places
import Nachos.Lib.Words
import Nachos.Lib.Chunks
import Nachos.Lib.Copy
import Nachos.Lib.Numerals
import Nachos.Lib.ExchangeSort
import Nachos.Lib.Programs
import Nachos.Lib.Simulation
import Nachos.Lib.Store
import Nachos.Threads.Semaphore
import Nachos.Threads.LinkedList
import Nachos.Threads.SemaphoreRuns
import Nachos.Userprog.BitMap
import Nachos.Userprog.BitMapRuns
import Nachos.Machine.Machine
import Nachos.Machine.HostFile
import Nachos.Machine.Memory
import Nachos.Machine.Mips
import Nachos.Machine.Multiply
import Nachos.Machine.Alu
import Nachos.Machine.Interrupt
import Nachos.Machine.LoadDelay
import Nachos.Machine.DiskTime
import Nachos.Userprog.AddrSpace
import Nachos.Userprog.FlatMemory
import Nachos.Userprog.Copy
import Nachos.Userprog.Loader
import Nachos.Userprog.Exception
import Nachos.Userprog.World
import Nachos.Userprog.Transfer
import Nachos.Userprog.ReadString
import Nachos.Userprog.ReadInt
import Nachos.Userprog.PrintInt
import Nachos.Userprog.PrintString
import Nachos.Userprog.FileCalls
import Nachos.Userprog.FilePosition
import Nachos.Threads.PTable
import Nachos.Threads.PTableInv
import Nachos.Threads.Handshake
import Nachos.Threads.Pieces
import Nachos.Threads.ExecInv
import Nachos.Threads.ExitInv
import Nachos.Threads.ProcessTable
import Nachos.Threads.Join
import Nachos.Threads.JoinStatus
import Nachos.Threads.Exit
import Nachos.Threads.Frames
import Nachos.Threads.Spaces
import Nachos.Threads.Exec
import Nachos.Threads.SynchConsole
import Nachos.Threads.ConsoleWrite
import Nachos.Threads.ConsoleRead
import Nachos.Kernel.System
import Nachos.Kernel.Isolation
import Nachos.Kernel.Instruction
import Nachos.Kernel.Registers
import Nachos.Kernel.Syscalls
import Nachos.Filesys.FileTable
import Nachos.Filesys.HostFiles
import Nachos.Kernel.OpenFiles
import Nachos.Filesys.Disk
import Nachos.Filesys.OpenFile
import Nachos.Filesys.FileHeader
import Nachos.Filesys.Directory
import Nachos.Filesys.DirectoryMap
import Nachos.Filesys.FileSystem
import Nachos.Filesys.Consistency
import Nachos.Filesys.CreateRemove
import Nachos.Filesys.FileSystemRuns
import Nachos.Filesys.FileBytes
import Nachos.Filesys.Volume
import Nachos.Filesys.FsTest
import Nachos.Network.Packet
import Nachos.Network.PostOffice
import Nachos.Network.Delivery
import Nachos.Threads.SynchDevice
import Nachos.Threads.STable
import Nachos.Threads.SemaphoreValue
import Nachos.Threads.Scheduler
import Nachos.Threads.Levels
import Nachos.Threads.Placement
import Nachos.Threads.Discipline
import Nachos.Threads.Reclaim
import Nachos.Threads.Progress
import Nachos.Test.CopyFile
import Nachos.Test.ReverseFile
import Nachos.Test.Sort
import Nachos.Test.Taps
import Nachos.Test.TapsRuns
import Nachos.Test.Main
import Nachos.Test.MainRuns
import Nachos.Test.MainProgress
import Nachos.Bin.Coff2noff
import Nachos.Bin.Segments
import Nachos.Bin.Program
