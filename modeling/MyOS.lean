import MyOS.Lib.Run
import MyOS.Lib.Interrupt
import MyOS.Lib.Chain
import MyOS.Lib.WaitGraph
import MyOS.Lib.Memory
import MyOS.Lib.Block
import MyOS.Lib.ByteFile
import MyOS.Const
import MyOS.Message
import MyOS.Protect
import MyOS.Proc
import MyOS.IpcCode
import MyOS.Main
import MyOS.ForkExit
import MyOS.TaskMm
import MyOS.ForkSteps
import MyOS.Fs.State
import MyOS.Fs.Misc
import MyOS.Fs.Open
import MyOS.Fs.Disklog
import MyOS.Fs.Link
import MyOS.Fs.ReadWrite
import MyOS.Fs.Main
import MyOS.Tty
import MyOS.Exec
import MyOS.UserCopies
import MyOS.TtyFs
import MyOS.Keyboard
import MyOS.TaskTty
import MyOS.Proofs.Outcome
import MyOS.Proofs.Progress
import MyOS.Proofs.SendQueue
import MyOS.Proofs.Ipc
import MyOS.Proofs.Deadlock
import MyOS.Proofs.Delivery
import MyOS.Proofs.Asserts
import MyOS.Proofs.IpcCode
import MyOS.Proofs.Interrupts
import MyOS.Proofs.ScanCodes
import MyOS.Proofs.ForkQueue
import MyOS.Proofs.HalfBuilt
import MyOS.Proofs.Turn
import MyOS.Proofs.Reap
import MyOS.Proofs.Wait
import MyOS.Proofs.Isolation
import MyOS.Proofs.Readers
import MyOS.Proofs.Sectors
import MyOS.Proofs.Partitions
import MyOS.Proofs.Mkfs
import MyOS.Proofs.Refused
import MyOS.Proofs.ExecFiles
import MyOS.Proofs.ExecImage
import MyOS.Lib.RefTable
import MyOS.Fs.World
import MyOS.Proofs.DiskMaps
import MyOS.Proofs.SmapAlloc
import MyOS.Proofs.DeviceEnd
import MyOS.Proofs.Disklog
import MyOS.Proofs.FsInv
import MyOS.Proofs.FsSteps
import MyOS.Proofs.FsFiles
import MyOS.Proofs.FsRequests
import MyOS.Proofs.FsStart
import MyOS.Proofs.FsRuns
import MyOS.Proofs.RdwtTurns
import MyOS.Proofs.ByteFile
import MyOS.Lib.Scan
import MyOS.HdRdwt
import MyOS.Proofs.SmapFree
import MyOS.Proofs.MapRuns
import MyOS.Proofs.DirSlots
import MyOS.Proofs.Lookup
import MyOS.Proofs.DirEntries
import MyOS.Proofs.HdTransfer
import MyOS.Proofs.RdwtBounds
import MyOS.Lib.RingBuf
import MyOS.Rings
import MyOS.Proofs.Rings
import MyOS.Lines
import MyOS.Proofs.Lines
import MyOS.Sched
import MyOS.Proofs.Sched
import MyOS.Lib.SlotMap
import MyOS.Fs.Names
import MyOS.Proofs.DirMap
import MyOS.Proofs.NameRuns
import MyOS.Proofs.ArgVector
import MyOS.Proofs.SegmentCopies
import MyOS.Proofs.SrcDest
import MyOS.ProcRuns
import MyOS.Proofs.ProcRuns
import MyOS.Proofs.ProcNames
import MyOS.Proofs.ForkMemory
import MyOS.Fs.LogCalls
import MyOS.Proofs.LogRegion
import MyOS.Servers
import MyOS.Proofs.Waits
import MyOS.Proofs.Servers
import MyOS.KeyEvents
import MyOS.Proofs.Modifiers
import MyOS.Console
import MyOS.Proofs.Console
import MyOS.Vsprintf
import MyOS.Lib.Numerals
import MyOS.Proofs.Numerals
import MyOS.Proofs.Vsprintf
import MyOS.Proofs.Sprintf
import MyOS.Untar
import MyOS.Proofs.Untar
import MyOS.Lib.Words
import MyOS.Shell
import MyOS.Proofs.Shell
import MyOS.Boot
import MyOS.Proofs.Boot
import MyOS.KernelMap
import MyOS.Proofs.KernelMap
import MyOS.Clock
import MyOS.Proofs.Clock
import MyOS.Proofs.Descriptors
import MyOS.Proofs.I2a
import MyOS.DoExec
import MyOS.Descriptors
import MyOS.Hd
import MyOS.Lib.Patch
import MyOS.Proofs.FsOutcome
import MyOS.Proofs.Loader
import MyOS.Proofs.ExecArgs
import MyOS.Lib.Stack
import MyOS.KernelAsm
import MyOS.Proofs.KernelAsm
import MyOS.Proofs.Contexts
import MyOS.Proofs.Nesting
import MyOS.Lib.Masks
import MyOS.BootLoader
import MyOS.Proofs.RootDir
import MyOS.Proofs.Paging
import MyOS.Proofs.InitKernel
import MyOS.Proofs.BootChain
import MyOS.Lib.Calls
import MyOS.Lib.Ranking
import MyOS.TaskSys
import MyOS.Proofs.TaskSys
import MyOS.Lib.Segmentation
import MyOS.Proofs.Protection
import MyOS.Lib.Loop
import MyOS.StringAsm
import MyOS.Proofs.StringAsm
