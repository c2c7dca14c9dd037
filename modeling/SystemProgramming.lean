import SystemProgramming.Bytes
import SystemProgramming.Calls
import SystemProgramming.Copy.Simpcp
import SystemProgramming.Runs
import SystemProgramming.Copy.ShortCounts
import SystemProgramming.Copy.MtCopy
import SystemProgramming.Copy.Segment
import SystemProgramming.Copy.Threads
import SystemProgramming.Copy.Parallel
import SystemProgramming.Copy.Creation
import SystemProgramming.Copy.Main
import SystemProgramming.Copy.Overwrite
import SystemProgramming.Mutex
import SystemProgramming.Stdio.IobufErrors
import SystemProgramming.Stdio.IobufMutex
import SystemProgramming.Sync.CvSimple
import SystemProgramming.Stdio.CleanupHandler
import SystemProgramming.Sync.MtPrimes
import SystemProgramming.Signals.SigqRecv
import SystemProgramming.FileIO.SgioSimple
import SystemProgramming.Process.SetPcap
import SystemProgramming.Process.FdTable
import SystemProgramming.Process.DaemonTrad
import SystemProgramming.Strings
import SystemProgramming.Shell.Simpsh
import SystemProgramming.Shell.Commands
import SystemProgramming.Shell.Waits
import SystemProgramming.Signals.React
import SystemProgramming.Signals.RunwalkTimer
import SystemProgramming.Signals.RSleep
import SystemProgramming.Signals.ReactTimer
import SystemProgramming.Signals.DeferOrNot
import SystemProgramming.Signals.AlarmRep
import SystemProgramming.Process.NamedThreads
import SystemProgramming.Timespec
import SystemProgramming.Stdio.ThreadBuffers
import SystemProgramming.Sync.MatrixMul
import SystemProgramming.CriticalSection
import SystemProgramming.Sync.BankAcc
import SystemProgramming.Copy.LongSegments
import SystemProgramming.Printf
import SystemProgramming.FileIO.HexDump
import SystemProgramming.FileIO.MmapFile
import SystemProgramming.Sync.PsharedMutex
import SystemProgramming.Sync.Facto
import SystemProgramming.Sync.PrimeGen
import SystemProgramming.Sync.PrimeBuffer
import SystemProgramming.Cells
import SystemProgramming.Process.ForkR6
import SystemProgramming.Process.RlimitPrimes
import SystemProgramming.Copy.Division
import SystemProgramming.Sizes
import SystemProgramming.Process.Forkbomb
import SystemProgramming.Signals.Murder
import SystemProgramming.PriorityQueue
import SystemProgramming.Spawning
import SystemProgramming.Signals.SignalSet
import SystemProgramming.Signals.RtsigsWaiter
import SystemProgramming.Signals.SigqIpc
import SystemProgramming.Signals.Cancelit
import SystemProgramming.Sync.ThreadParams
import SystemProgramming.Sync.SharedParam
import SystemProgramming.Sync.Mutex1
import SystemProgramming.Sync.PsharedDump
import SystemProgramming.Process.WaitStatus
import SystemProgramming.Process.Offspring
import SystemProgramming.Process.Fork2c
import SystemProgramming.Process.PdfRdr
import SystemProgramming.Process.Smallbomb
import SystemProgramming.Process.ForkPrintf
import SystemProgramming.Process.SavedSet
import SystemProgramming.Stdio.Streams
import SystemProgramming.FileIO.Redirct
import SystemProgramming.Signals.ThreadSignals
import SystemProgramming.Signals.AppTemplate
import SystemProgramming.Signals.HandleSegv
import SystemProgramming.Sync.SchedAttr
