import Aesd.Lib.BlockHeap
import Aesd.Lib.MachineInt
import Aesd.Lib.Ring
import Aesd.Lib.Segments
import Aesd.CircularBuffer
import Aesd.CircularBufferInvariant
import Aesd.CircularBufferSearch
import Aesd.KernelMemory
import Aesd.CharDriver
import Aesd.DriverInvariant
import Aesd.DriverWrite
import Aesd.Lib.LineLog
import Aesd.Lib.Runs
import Aesd.CommandLog
import Aesd.DriverRead
import Aesd.ReadContent
import Aesd.DriverSeek
import Aesd.DriverOwnership
import Aesd.DriverRuns
import Aesd.DriverLeak
import Aesd.OpenFiles
import Aesd.SeekParser
import Aesd.SocketServer
import Aesd.ReplyLoop
import Aesd.SocketReply
import Aesd.ReceiveLoop
import Aesd.SocketRequest
import Aesd.ServerRuns
import Aesd.InterleavedClients
import Aesd.InterleavedReplies
import Aesd.ReadFailures
import Aesd.ReadNumbers
import Aesd.WriteCuts
import Aesd.RequestOutcomes
import Aesd.SeekGrammar
import Aesd.ReceiveCuts
import Aesd.Lib.DescriptorTable
import Aesd.ServerProcess
import Aesd.ProcessTallies
import Aesd.DescriptorCustody
import Aesd.OwnDescriptors
import Aesd.JoinedThreads
import Aesd.ProcessRequests
import Aesd.ReceiveHeads
import Aesd.ExecAnswers
import Aesd.DriverSums
import Aesd.SumBounds
import Aesd.DriverStages
import Aesd.Lib.DividedHeap
import Aesd.DriverInterleaving
import Aesd.DriverProgress
import Aesd.DriverLinearization
import Aesd.ProcessShutdown
import Aesd.ProcessDevice
import Aesd.ProcessDeviceInvariant
import Aesd.ProcessStores
import Aesd.ForeignSteps
import Aesd.ProcessReplies
import Aesd.InterleavedStores
import Aesd.DriverLosses
import Aesd.ModuleLifecycle
import Aesd.ServerStartup
import Aesd.Threading
import Aesd.CommandPrograms
