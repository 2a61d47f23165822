import Yclib.Amf.Read
import Yclib.Rtmp.Block

namespace Yclib.Rtmp
open Amf

/-- `rconn->state`, in the order of its constants. -/
inductive ConnState
  | handshakeC0 | handshakeC1 | handshakeC2
  | handshakeS0 | handshakeS1 | handshakeS2
  | chunkFmt | chunkChannel1 | chunkChannel2 | chunkChannel3 | chunkChannel
  | chunkTimestamp | chunkMsgLen | chunkMsgType | chunkMsgStreamid | chunkExtraTimestamp
  | chunkPayload
deriving DecidableEq

/-- `rns_rtmp_chunk_t`: the header of the last chunk on a chunk stream. -/
structure RtmpChunk where
  fmt : Nat := 0
  channel : Nat := 0
  timestamp : Nat := 0
  msglen : Nat := 0
  msgtype : Nat := 0
  streamid : Nat := 0
deriving DecidableEq

/-- `rns_rtmp_msg_t`. -/
structure RtmpMsg where
  type : Nat
  size : Nat
  timestamp : Nat
  streamid : Nat
  offset : Nat
  len : Nat
  key : Bool
  packettype : Nat
deriving DecidableEq

def avcPacketTypeSeq : Nat := 0
def avcPacketTypeNalu : Nat := 1

/-- `rns_rtmp_msg_stream_t`: `msgs` begins with what `rns_list_last` finds, the message
added last. The players are on the far side of `send`. -/
structure MsgStream where
  msgs : List RtmpMsg
  store : Store
  level : store.Level
  videometa : Option RtmpMsg
  metadata : Option (UInt32 × SdObj)

/-- What the messages of a connection act on: its chunk streams, the message streams of
the server under their net stream ids, and the rest of the world (the players, the
sockets, the other fields of the connection). -/
structure Sess (ω : Type) where
  chunkstreams : Nat → Option RtmpChunk
  nstreams : Nat → Option MsgStream
  world : ω

/-- The commands `rtmp_command_parse` knows, `FCPublish` being served as `releaseStream`. -/
inductive Command
  | connect | call | releaseStream | createStream | getStreamLength | checkbw | play | play2
  | deleteStream | closeStream | receiveAudio | receiveVideo | publish | seek | pause
deriving DecidableEq

/-- The parts the parser calls out to. A command handler is given the chunk stream it
is called on, the memory from its arguments on and their size; there is no result
if it does not come back. -/
structure Handlers (ω : Type) where
  /-- `rtmp_send_S0`, `rtmp_send_S1`. -/
  sendS0S1 : ω → ω
  /-- `rtmp_send_S2` of the bytes in `CS2`. -/
  sendS2 : List UInt8 → ω → ω
  /-- `rtmp_msg_send` to every player of the stream. -/
  msgSend : Nat → RtmpMsg → Sess ω → Sess ω
  /-- It may restamp a chunk stream of this connection, if the connection plays its own
  stream, and leaves the rest of the header and the message streams alone. -/
  msgSend_keeps : ∀ streamid msg sess, (msgSend streamid msg sess).nstreams = sess.nstreams ∧
    ∀ channel chunk, sess.chunkstreams channel = some chunk → ∃ fmt timestamp,
      (msgSend streamid msg sess).chunkstreams channel = some { chunk with fmt, timestamp }
  /-- `rtmp_command_connect` and its siblings. -/
  command : Command → Sess ω → Nat → Mem → Nat → Option (Sess ω × Nat)

/-- No player, no sender, and commands that take what they are given. -/
def Handlers.silent : Handlers Unit where
  sendS0S1 := id
  sendS2 _ := id
  msgSend _ _ sess := sess
  msgSend_keeps _ _ _ := ⟨rfl, fun _ chunk hc => ⟨chunk.fmt, chunk.timestamp, hc⟩⟩
  command _ sess _ _ size := some (sess, size)

/-- `sizeof(rconn->cbuf)`. -/
def cbufSize : Nat := 1024

/-- Whether `cbuf` has room for `n` bytes. -/
def cbufHolds (n : Nat) : Bool := n ≤ cbufSize

/-- `rns_rconn_t`, as far as `rtmp_parse` reads it; `cbuf` is what its first `cbuflen`
bytes hold. -/
structure Conn (ω : Type) where
  state : ConnState
  CS1 : List UInt8
  cbuf : List UInt8
  ichunksize : Nat
  bw : Nat
  curchunk : Nat
  curfmt : Nat
  curlen : Nat
  sess : Sess ω

/-- The connection `rns_rconnserver_create` makes. `CS1` is what `rtmp_send_S1` fills in. -/
def Conn.create (CS1 : List UInt8) (nstreams : Nat → Option MsgStream) (world : ω) : Conn ω where
  state := .handshakeC0
  CS1 := CS1
  cbuf := []
  ichunksize := 128
  bw := 0
  curchunk := 0
  curfmt := 0
  curlen := 0
  sess := ⟨fun _ => none, nstreams, world⟩

end Yclib.Rtmp
