import HahaWeb.Base.Fifo
import HahaWeb.Library.Resumable
import HahaWeb.Http.Chunked
import HahaWeb.Http.Segmentation
import HahaWeb.Http.Limits
import HahaWeb.Http.Faults
import HahaWeb.Http.Completion
import HahaWeb.Http.MultiPartTermination
import HahaWeb.Http.MultiPartRoundTrip
import HahaWeb.Http.Untrusted
import HahaWeb.Http.Upload
import HahaWeb.Http.ResponseHead
import HahaWeb.Http.ResourceRoot
import HahaWeb.Http.KeepAlive
import HahaWeb.Http.ContextRelease
import HahaWeb.Http.HttpCookie
import HahaWeb.Net.TimerHeap
import HahaWeb.Net.Delivery
import HahaWeb.Json.Parse
import HahaWeb.Json.JsonBuffer
import HahaWeb.Json.RoundTrip
import HahaWeb.Net.PendingTasks
import HahaWeb.Net.LoopLiveness
import HahaWeb.Net.EventLoopThread
import HahaWeb.Net.Idle
import HahaWeb.Http.ServerBatches
import HahaWeb.Http.ServerReplies
import HahaWeb.Net.TimerIndex
import HahaWeb.Net.TimerQueue
import HahaWeb.Http.SessionTimers
import HahaWeb.Base.TaskDelivery
import HahaWeb.Base.ThreadPool
import HahaWeb.Log.LogAppender
import HahaWeb.Log.LogFile
import HahaWeb.Log.Rotation
import HahaWeb.Log.Logger
import HahaWeb.Json.Unicode
import HahaWeb.Json.WhiteSpace
import HahaWeb.Json.JsonCopy
import HahaWeb.Base.UrlCoding
import HahaWeb.Http.KeyValue
import HahaWeb.Http.AbsoluteUrl
import HahaWeb.Http.RequestHead
import HahaWeb.Http.HeaderSize
import HahaWeb.Http.ContentLength
import HahaWeb.Config.Config
import HahaWeb.Net.TimerFd
import HahaWeb.Http.HttpSession
import HahaWeb.Http.PartData
import HahaWeb.Json.Progress
import HahaWeb.Log.LogStream
import HahaWeb.Log.LogFormatter
import HahaWeb.Base.StringView
import HahaWeb.Base.KmpSearch
import HahaWeb.Net.Batch
