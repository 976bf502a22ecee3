import Uco.Interleaving
import Uco.SharedMutex
import Uco.Umutex
import Uco.Semaphore
import Uco.Channel
import Uco.BufferedChannel
import Uco.ConnectionPool
import Uco.PoolShutdown
import Uco.Transaction
import Uco.DistributedLock
import Uco.LockLease
import Uco.LockShutdown
import Uco.Resp
import Uco.RespGrammar
import Uco.RespRoundTrip
import Uco.RespStrict
import Uco.ReplyMatching
import Uco.ThreadPool
import Uco.Cobatch
import Uco.Sleeper
import Uco.TimerHeap
import Uco.Scheduler
import Uco.TimerArm
import Uco.SleepSlot
import Uco.SleepChange
import Uco.SleepAdjudication
import Uco.Sendfile
import Uco.Bytes
import Uco.RateLimit
import Uco.Ustring
import Uco.FilePath
import Uco.StaticPath
import Uco.SessionJson
import Uco.HttpSession
import Uco.SessionRoundTrip
import Uco.FlatJson
import Uco.SessionRun
import Uco.FailedLoad
import Uco.SavedSession
import Uco.DestroyedSession
import Uco.CorruptedSession
import Uco.LoginSession
import Uco.Buffer
import Uco.BufferQueue
import Uco.FileResponse
import Uco.ResourcePool
import Uco.IndexedList
import Uco.ShmLog
import Uco.YamlConfig
import Uco.YamlRoundTrip
import Uco.HttpRequest
import Uco.Fragmentation
import Uco.WholeRequest
import Uco.KeepAlive
import Uco.PrefixTree
import Uco.RouteSelection
import Uco.RouteParams
import Uco.MiddlewareChain
import Uco.AwaitCall
import Uco.ByteRange
import Uco.PartialResponse
import Uco.RotatedSession
import Uco.RetryAfter
import Uco.SqlFailure
import Uco.HeaderCase
import Uco.TrailingSlash
import Uco.RouteGroups
import Uco.RoutePattern
import Uco.Segments
import Uco.Cookie
import Uco.SessionCookie
import Uco.Form
import Uco.Recency
import Uco.LruCache
import Uco.HeapOrder
import Uco.TimerRun
import Uco.LogFile
import Uco.LogLines
import Uco.LogOverload
import Uco.GatherWrite
import Uco.RowBinding
import Uco.StrictDecode
import Uco.StrToInteger
import Uco.Mustache
import Uco.MustacheGrammar
import Uco.MustacheRender
import Uco.MustacheEscape
import Uco.MustacheText
import Uco.Accounts
import Uco.Site
import Uco.ServerExit
import Uco.Condition
import Uco.ResponseHead
import Uco.PlainRequest
import Uco.HttpConnection
import Uco.Deadline
import Uco.SyncWait
import Uco.LogArguments
import Uco.ThreadGuard
