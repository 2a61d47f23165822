import Yclib.Amf.RoundTrip
import Yclib.Amf.Truncation
import Yclib.Rtmp.Response
import Yclib.Rtmp.Fragmentation
import Yclib.Rtmp.Halting
import Yclib.Rtmp.Control
import Yclib.Rtmp.Transmit
import Yclib.Rtmp.Registry
import Yclib.Rtmp.Commands
import Yclib.Rtmp.Sending
import Yclib.Rtmp.Compression
import Yclib.Rtmp.Media
import Yclib.Rtmp.Boundaries
import Yclib.Rtmp.Timestamps
import Yclib.Rtmp.PayloadLoop
import Yclib.Rtmp.Chunking
import Yclib.Rtmp.Accessors
import Yclib.Rtmp.ArgumentBounds
import Yclib.Rtmp.MessageBounds
import Yclib.Rtmp.ParserBounds
import Yclib.Http.Bounds
import Yclib.Rtmp.Dispatch
import Yclib.Rtmp.Layout
import Yclib.Feed.Items
import Yclib.Rtmp.Stamps
import Yclib.Http.RequestLine
import Yclib.Http.Url
import Yclib.Rtmp.StreamCreate
import Yclib.Http.Lifetime
import Yclib.Http.Clients
import Yclib.Http.Writing
import Yclib.Http.Dispatch
import Yclib.Http.HeaderText
import Yclib.Rtmp.Players
import Yclib.Util.FileMgr
import Yclib.Util.IndexAppend
import Yclib.Util.Pool
import Yclib.Util.RbtStore
import Yclib.Util.RbtNeighbours
import Yclib.Info.Text
import Yclib.Util.Timers
import Yclib.Db.Queries
import Yclib.Foss.Registry
import Yclib.Foss.Answers
import Yclib.Trs.Connections
import Yclib.Trs.Join
import Yclib.Trs.Binding
import Yclib.Trs.Polls
import Yclib.Trs.Responses
import Yclib.Live.Delivery
import Yclib.Util.CSearch
import Yclib.Util.Decimal
import Yclib.Media.Flv
import Yclib.Live.Naming
import Yclib.Media.Hls
import Yclib.Live.Request
import Yclib.Log.Logserver
import Yclib.Log.Pipe
import Yclib.Util.Dir
import Yclib.Media.FlvMeta
import Yclib.Media.FlvAccount
import Yclib.Media.FlvWriteFile
import Yclib.Media.TsSeek
import Yclib.Util.Codecs
import Yclib.Util.IpText
import Yclib.Live.UriBounds
import Yclib.Media.HlsWrite
import Yclib.Media.HlsRead
import Yclib.Live.Polling
import Yclib.Live.Listing
import Yclib.Json.RoundTrip
import Yclib.Json.Room
import Yclib.Json.Bounds
import Yclib.Json.Unicode
import Yclib.Json.Messages
import Yclib.Live.Recording
import Yclib.Live.Cascade
import Yclib.Http.Exchange
