import Codechiev.Library.Transition
import Codechiev.Library.PrefixDecoder
import Codechiev.Library.DelimitedDecoder
import Codechiev.Library.Multimap
import Codechiev.Library.WaitSet
import Codechiev.Library.Once
import Codechiev.Library.GrowingBatches
import Codechiev.Library.KeyedStore
import Codechiev.Library.BoundedQueue
import Codechiev.Library.ScriptLoop
import Codechiev.Library.ArrayFill
import Codechiev.Library.Base64
import Codechiev.Library.SqlScanner
import Codechiev.Base.FixedBuffer
import Codechiev.Base.FixedBufferQueue
import Codechiev.Base.Logger
import Codechiev.Base.Condition
import Codechiev.Base.BlockingQueue
import Codechiev.Base.Singleton
import Codechiev.Net.Internet
import Codechiev.Net.Channel
import Codechiev.Net.EPollRounds
import Codechiev.Net.TcpEndpoint
import Codechiev.Net.OutputStream
import Codechiev.Net.TcpLengthCoder
import Codechiev.Net.InputStream
import Codechiev.Net.HardErrors
import Codechiev.Net.FullBuffer
import Codechiev.Net.Endpoint
import Codechiev.Net.EventLoop
import Codechiev.Net.PollEvent
import Codechiev.Net.Http.HttpServer
import Codechiev.Net.Http.ZeroBytes
import Codechiev.Net.TcpServer
import Codechiev.Net.ServerLoop
import Codechiev.Net.ClientLoop
import Codechiev.Net.Protobuf.Rpc
import Codechiev.Net.Protobuf.SharedChannel
import Codechiev.Net.Protobuf.RpcConnection
import Codechiev.Net.Protobuf.RpcService
import Codechiev.Net.Protobuf.ProtoServer
import Codechiev.Net.Timer
import Codechiev.Net.TimerQueue
import Codechiev.Net.TimerDelivery
import Codechiev.Net.TimerPunctuality
import Codechiev.Net.SharedTimerQueue
import Codechiev.Db.SqlManager
import Codechiev.Db.Psql
import Codechiev.Db.PoolRuns
import Codechiev.Db.PoolExclusion
import Codechiev.Db.ConcurrentCalls
import Codechiev.Db.LostConnections
import Codechiev.Db.OrmPsql
import Codechiev.Db.OrmRows
import Codechiev.Base.AppendResult
import Codechiev.Net.MoveRanges
import Codechiev.Net.TimerArming
import Codechiev.Net.TimerReentry
import Codechiev.Net.SchedulerDispatch
import Codechiev.Net.SchedulerRegistry
import Codechiev.Base.WorkerCount
import Codechiev.Base.QueueDestructor
import Codechiev.Base.ForkJoin
import Codechiev.Db.CellWidths
import Codechiev.Db.Placeholders
import Codechiev.Db.OrmStore
import Codechiev.Utility.Openssl
import Codechiev.Utility.Base64
