import WorkflowModel.Proof.HttpFraming
import WorkflowModel.Proof.ClientAttempts
import WorkflowModel.Proof.UpstreamGet
import WorkflowModel.Proof.PollerStop
import WorkflowModel.Proof.PollerTable
import WorkflowModel.Proof.PollerDrain
import WorkflowModel.Proof.PollerHandover
import WorkflowModel.Lib.SearchTree
import WorkflowModel.Proof.PollerTimers
import WorkflowModel.Proof.PollerExpiry
import WorkflowModel.Proof.PollerAlarm
import WorkflowModel.Proof.HttpChunkGrammar
import WorkflowModel.Http.ChunkCursor
import WorkflowModel.Proof.HttpChunkCursor
import WorkflowModel.Client.HttpTask
import WorkflowModel.Proof.HttpEncode
import WorkflowModel.Proof.HttpRoundTrip
import WorkflowModel.Proof.ClientRequest
import WorkflowModel.Kernel.CommScheduler
import WorkflowModel.Proof.SchedulerBalance
import WorkflowModel.Proof.SchedulerRuns
import WorkflowModel.Proof.SchedulerWaiters
import WorkflowModel.Proof.SchedulerWake
import WorkflowModel.Kernel.Communicator
import WorkflowModel.Proof.CommunicatorEntries
import WorkflowModel.Proof.CommunicatorLedger
import WorkflowModel.Proof.CommunicatorParts
import WorkflowModel.Proof.CommunicatorSteps
import WorkflowModel.Proof.CommunicatorRequests
import WorkflowModel.Proof.CommunicatorRuns
import WorkflowModel.Proof.UpstreamAlive
import WorkflowModel.Proof.UpstreamBookkeeping
import WorkflowModel.Util.LRUCache
import WorkflowModel.Proof.CacheHandles
import WorkflowModel.Proof.CacheMap
import WorkflowModel.Proof.CacheEviction
import WorkflowModel.Factory.SeriesWork
import WorkflowModel.Lib.RingBuffer
import WorkflowModel.Proof.SeriesQueue
import WorkflowModel.Kernel.SubTask
import WorkflowModel.Proof.JoinTree
import WorkflowModel.Proof.JoinCounts
import WorkflowModel.Proof.JoinRuns
import WorkflowModel.Proof.JoinEntries
import WorkflowModel.Kernel.Executor
import WorkflowModel.Proof.ExecutorRuns
import WorkflowModel.Proof.ExecutorSessions
import WorkflowModel.Kernel.ResultQueue
import WorkflowModel.Proof.ResultQueueRuns
import WorkflowModel.Proof.URICut
import WorkflowModel.Proof.URIParts
import WorkflowModel.Proof.URIParse
import WorkflowModel.Proof.URIGrammar
import WorkflowModel.Http.HeaderStore
import WorkflowModel.Proof.HttpHeaderStore
import WorkflowModel.Proof.HttpEncodeExact
import WorkflowModel.Lib.Block
import WorkflowModel.Proof.HttpHeaderGrammar
import WorkflowModel.Proof.HttpFields
import WorkflowModel.Http.Response
import WorkflowModel.Proof.HttpTwins
import WorkflowModel.Proof.HttpInterim
import WorkflowModel.Proof.HttpReceive
import WorkflowModel.Lib.Cells
import WorkflowModel.Util.EncodeStream
import WorkflowModel.Proof.EncodeStreamContents
import WorkflowModel.Proof.ClientOriginalUri
import WorkflowModel.Manager.Router
import WorkflowModel.Proof.RouterTargets
import WorkflowModel.Lib.Nearest
import WorkflowModel.Proof.UpstreamHash
import WorkflowModel.Lib.Shares
import WorkflowModel.Proof.UpstreamPlacement
import WorkflowModel.Proof.PollerReserved
import WorkflowModel.Kernel.ReplyTimer
import WorkflowModel.Proof.ReplyDeadline
import WorkflowModel.Kernel.SendMessage
import WorkflowModel.Proof.SendMessage
import WorkflowModel.Lib.Multimap
import WorkflowModel.Http.HeaderMap
import WorkflowModel.Proof.UpstreamTouches
import WorkflowModel.Proof.UpstreamBreakers
import WorkflowModel.Proof.UpstreamRemoval
import WorkflowModel.Proof.UpstreamShares
import WorkflowModel.Proof.HttpHeaderMap
import WorkflowModel.Proof.HttpTruncated
import WorkflowModel.Util.StringUtil
import WorkflowModel.Proof.UrlEncoding
import WorkflowModel.Util.URIQuery
import WorkflowModel.Proof.QuerySplit
import WorkflowModel.Proof.RouterBreaks
import WorkflowModel.Manager.RouteManager
import WorkflowModel.Proof.RouteKeys
import WorkflowModel.Proof.RouteRuns
import WorkflowModel.Manager.RouteTree
import WorkflowModel.Proof.RouteTree
import WorkflowModel.Manager.DNSCache
import WorkflowModel.Proof.DNSRefresh
import WorkflowModel.Algorithm.DNSRoutine
import WorkflowModel.Proof.UnixHost
import WorkflowModel.Factory.RouterTask
import WorkflowModel.Proof.RouterPaths
import WorkflowModel.Manager.WFGlobal
import WorkflowModel.Proof.ClientPort
import WorkflowModel.Lib.Base64
import WorkflowModel.Base64Module.Base64
import WorkflowModel.Proof.Base64Buffers
import WorkflowModel.Lib.RedBlack
import WorkflowModel.Kernel.RBTree
import WorkflowModel.Proof.RBTreeMemory
import WorkflowModel.Proof.RBTreeInsert
import WorkflowModel.Proof.RBTreeErase
import WorkflowModel.Proof.RBTreeWalk
import WorkflowModel.Proof.RBTreeRuns
import WorkflowModel.CArray
import WorkflowModel.Http.ParserAccess
import WorkflowModel.Proof.HttpAccess
import WorkflowModel.Proof.Strtol
import WorkflowModel.Proof.HttpBounds
import WorkflowModel.Proof.HttpBoundedCalls
import WorkflowModel.Kernel.ThrdPool
import WorkflowModel.Proof.ThrdPoolSteps
import WorkflowModel.Proof.ThrdPoolTasks
import WorkflowModel.Proof.ThrdPoolJoins
import WorkflowModel.Lib.Progress
import WorkflowModel.Proof.ThrdPoolShutdown
import WorkflowModel.Lib.LinkedRing
import WorkflowModel.Kernel.ListHead
import WorkflowModel.Proof.ListHeadRuns
import WorkflowModel.Factory.SeriesRun
import WorkflowModel.Proof.SeriesRunSteps
import WorkflowModel.Proof.SeriesRunTasks
import WorkflowModel.Proof.SeriesRunOrder
import WorkflowModel.Proof.SeriesRunEnd
import WorkflowModel.Proof.HttpPieces
import WorkflowModel.Proof.HttpChunkText
import WorkflowModel.Lib.Framing
import WorkflowModel.Kernel.ReadMessage
import WorkflowModel.Proof.ReadMessage
import WorkflowModel.Proof.HttpTransfer
import WorkflowModel.Proof.HttpReplies
import WorkflowModel.Http.Request
import WorkflowModel.Proof.HttpRequest
import WorkflowModel.Kernel.SleepSession
import WorkflowModel.Proof.SleepTimers
import WorkflowModel.Proof.SleepRuns
