import Cppnet.Lib.Loop
import Cppnet.Io.Basic
import Cppnet.Io.BufferedReader
import Cppnet.Io.BufferedWriter
import Cppnet.Io.ShortWrites
import Cppnet.Io.StringReader
import Cppnet.Lib.Line
import Cppnet.Bytes
import Cppnet.Util.StringUtil
import Cppnet.Util.Utf8
import Cppnet.Io.LimitReader
import Cppnet.Lib.KeyedMap
import Cppnet.Io.Readline
import Cppnet.Url.Basic
import Cppnet.Http.ChunkedReader
import Cppnet.Http.Headers
import Cppnet.Http.Message
import Cppnet.Url.RoundTrip
import Cppnet.Http.Encode
import Cppnet.Http.Decode
import Cppnet.Http.Truncation
import Cppnet.Http.Framing
import Cppnet.Http.RoundTrip
import Cppnet.Http.Injection
import Cppnet.Http.Server
import Cppnet.Http.Pipeline
import Cppnet.Http.CutText
import Cppnet.Http.Client
import Cppnet.Http.ChunkedWriter
import Cppnet.Http.Chunks
import Cppnet.Http.Segmentation
import Cppnet.Http.ChunkSizes
import Cppnet.Url.Encode
import Cppnet.Encoding.Base64
import Cppnet.Encoding.Hex
import Cppnet.Instrument.TraceContext
import Cppnet.Url.Parts
import Cppnet.Http.Target
import Cppnet.Url.Query
import Cppnet.Url.Rebuild
import Cppnet.Url.Reparse
import Cppnet.Lib.Machine
import Cppnet.Util.RingBuffer
import Cppnet.Util.ResourcePool
import Cppnet.Lib.NodeList
import Cppnet.Lib.Sieve
import Cppnet.Util.Cache
import Cppnet.Util.SieveCache
import Cppnet.Ip.Basic
import Cppnet.Ip.RoundTrip
import Cppnet.Http.HeaderMap
import Cppnet.Http.Router
import Cppnet.Http.Routes
import Cppnet.Lib.PriorityQueue
import Cppnet.Io.EpollLoop
import Cppnet.Io.Completion
import Cppnet.Io.Timeouts
import Cppnet.Url.Triples
import Cppnet.Url.Bounds
import Cppnet.Url.Authority
import Cppnet.Url.Trailing
import Cppnet.Coro.ThreadPool
import Cppnet.Coro.Drain
import Cppnet.Coro.Resume
import Cppnet.Coro.Generator
import Cppnet.Coro.TaskGroup
import Cppnet.Instrument.AnyValue
import Cppnet.Url.Parameters
import Cppnet.Io.Lines
import Cppnet.Http.HeaderLines
import Cppnet.Http.Numbers
import Cppnet.Http.ContentType
import Cppnet.Http.ChunkGrammar
import Cppnet.Http.Finished
import Cppnet.Http.Starvation
import Cppnet.Io.FailedWrites
import Cppnet.Io.Buffer
import Cppnet.Lib.Bits
import Cppnet.Lib.Digits
import Cppnet.Encoding.BitString
import Cppnet.Encoding.Padding
import Cppnet.Encoding.Reads
import Cppnet.Encoding.Writes
import Cppnet.Instrument.TraceParent
import Cppnet.Ip.Order
import Cppnet.Ip.Parsed
import Cppnet.Util.GetOrSet
import Cppnet.Util.FailedMakes
import Cppnet.Util.Handles
import Cppnet.Http.RejectedRoutes
import Cppnet.Io.Socket
import Cppnet.Lib.Attempts
import Cppnet.Prometheus.Metric
import Cppnet.Prometheus.Histogram
import Cppnet.Prometheus.Updates
import Cppnet.Prometheus.Registry
import Cppnet.Io.WriteAll
import Cppnet.Util.Replace
import Cppnet.Prometheus.Labels
import Cppnet.Pattern.Parse
import Cppnet.Pattern.Loose
import Cppnet.Pattern.Balance
import Cppnet.Lib.Program
import Cppnet.Coro.Task
import Cppnet.Coro.TaskChains
import Cppnet.Coro.TaskRuns
import Cppnet.Http.Reply
import Cppnet.Http.Exchange
import Cppnet.Lib.Encoder
import Cppnet.Instrument.Record
import Cppnet.Instrument.Traces
import Cppnet.Instrument.Metrics
import Cppnet.Lib.Ledger
import Cppnet.Io.Descriptors
import Cppnet.Io.Forgotten
import Cppnet.Http.Connections
import Cppnet.Http.Calls
import Cppnet.Http.Hanging
import Cppnet.Io.KqueueLoop
import Cppnet.Io.SocketReads
