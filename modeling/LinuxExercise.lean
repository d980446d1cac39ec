import LinuxExercise.Framework.System
import LinuxExercise.Framework.Monitor
import LinuxExercise.Framework.Ring
import LinuxExercise.Framework.Threads
import LinuxExercise.Framework.SlotTable
import LinuxExercise.Framework.LinkedList
import LinuxExercise.Framework.Memory
import LinuxExercise.ThreadPool.Model
import LinuxExercise.ThreadPool.State
import LinuxExercise.ThreadPool.Create
import LinuxExercise.ThreadPool.Discipline
import LinuxExercise.ThreadPool.Exclusion
import LinuxExercise.ThreadPool.Queue
import LinuxExercise.ThreadPool.Workers
import LinuxExercise.ThreadPool.Counters
import LinuxExercise.ThreadPool.Slots
import LinuxExercise.ThreadPool.Retirement
import LinuxExercise.ThreadPool.Wakeup
import LinuxExercise.ThreadPool.Shutdown
import LinuxExercise.ThreadPool.Lifetime
import LinuxExercise.ThreadPool.Ownership
import LinuxExercise.ThreadPool.Progress
import LinuxExercise.ThreadPool.Growth
import LinuxExercise.ThreadPool.Stranded
import LinuxExercise.Servers.Kernel
import LinuxExercise.Servers.Sessions
import LinuxExercise.Servers.Select
import LinuxExercise.Servers.SelectService
import LinuxExercise.Servers.SelectDescriptors
import LinuxExercise.Servers.SelectLoop
import LinuxExercise.Servers.Poll
import LinuxExercise.Servers.PollTable
import LinuxExercise.Servers.Epoll
import LinuxExercise.Servers.FailedAccept
import LinuxExercise.Servers.FailingReads
import LinuxExercise.Servers.EchoServers
import LinuxExercise.Servers.LineClient
import LinuxExercise.Servers.Exchange
import LinuxExercise.Servers.ExchangeProgress
import LinuxExercise.ThreadSync.SemRing
import LinuxExercise.ThreadSync.CondStack
import LinuxExercise.ThreadSync.CondStackSafety
import LinuxExercise.ThreadSync.SharedMutex
import LinuxExercise.Network.UdpServer
import LinuxExercise.Network.ForkServer
import LinuxExercise.Network.ForkSession
import LinuxExercise.Files.CopyFile
import LinuxExercise.Files.MmapFile
import LinuxExercise.Files.Upper
import LinuxExercise.ThreadSync.Counter
import LinuxExercise.Framework.CString
import LinuxExercise.Network.UnixSession
import LinuxExercise.Network.UnixConnect
import LinuxExercise.Framework.Signals
import LinuxExercise.Signals.Mysleep
import LinuxExercise.Signals.MysleepAlarm
import LinuxExercise.Framework.Pipe
import LinuxExercise.Framework.Simulation
import LinuxExercise.Framework.Termination
import LinuxExercise.Processes.Fifo
import LinuxExercise.Processes.PipePair
import LinuxExercise.ThreadPool.Drain
import LinuxExercise.ThreadSync.NoSync
import LinuxExercise.ThreadSync.Refinement
import LinuxExercise.ThreadSync.RwLock
import LinuxExercise.Framework.JobControl
import LinuxExercise.Network.TcpOnce
import LinuxExercise.Servers.PollEcho
import LinuxExercise.Signals.Catching
import LinuxExercise.ThreadSync.CondStackDrain
import LinuxExercise.ThreadSync.FileLock
import LinuxExercise.Framework.Datagrams
import LinuxExercise.Network.Multicast
import LinuxExercise.Network.UdpExchange
import LinuxExercise.Signals.Pending
