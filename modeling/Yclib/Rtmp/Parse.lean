import Yclib.Feed.Cut
import Yclib.Rtmp.Payload
import Yclib.Util.CString

namespace Yclib.Rtmp
open Network Amf

variable {ω : Type}

def rtmpMsgtypeSize : Nat := 1
def rtmpMsgtypeAbort : Nat := 2
def rtmpMsgtypeAck : Nat := 3
def rtmpMsgtypeUc : Nat := 4
def rtmpMsgtypeWack : Nat := 5
def rtmpMsgtypeBw : Nat := 6
def rtmpMsgtypeCommandAmf3 : Nat := 17
def rtmpMsgtypeDatamsg : Nat := 18
def rtmpMsgtypeCommandAmf0 : Nat := 20

/-- Memory from offset `w` on. -/
def Mem.from (m : Mem) (w : Nat) : Mem := fun i => m (w + i)

/-- `rtmp_uc_parse`, whose events change nothing. -/
def rtmpUcParse (sess : Sess ω) (curchunk : Nat) (m : Mem) (size : Nat) : Nat :=
  match sess.chunkstreams curchunk with
  | none => size
  | some chunk =>
    let len := u32Sub chunk.msglen 2
    if size < 2 then 0
    else if size < len + 2 then 0
    else match rnsBtoh16 m 0 with
      | 0 => u32 (2 + len)
      | 3 => u32 (2 + 4 + u32Sub len 4)
      | _ => 2

/-- `rtmp_datamsg_parse`. Each reader is given `end - walker` bytes, a difference that
wraps around once `walker` has gone past `end`. -/
def rtmpDatamsgParse (sess : Sess ω) (curchunk : Nat) (m : Mem) (size : Nat) :
    Option (Sess ω × Nat) := do
  let (cmd, bytes) ← (readValue m size).ret
  if cmd.isNone then return (sess, if bytes ≠ 0 then size else 0)
  let walker := bytes
  let rest := u32Sub size walker
  let (str, bytes) ← (readValue (Mem.from m walker) rest).ret
  if str.isNone then return (sess, if bytes ≠ 0 then size else 0)
  let walker := walker + bytes + 1
  let rest := u32Sub size walker
  match sess.chunkstreams curchunk with
  | none => return (sess, size)
  | some chunk =>
    match sess.nstreams chunk.streamid with
    | none => return (sess, size)
    | some stream =>
      let (metadata, bytes) ← (sdEcmaRead (Mem.from m walker) rest (readFuel rest) 0).ret
      let sess := sess.setStream chunk.streamid { stream with metadata := metadata }
      if metadata.isNone then return (sess, if bytes ≠ 0 then size else 0)
      return (sess, u32 (walker + bytes))

/-- The names `rtmp_command_parse` compares with, in its order. Nothing is called for `close`. -/
def commands : List (String × Option Command) :=
  [("connect", some .connect), ("call", some .call), ("close", none),
    ("releaseStream", some .releaseStream), ("FCPublish", some .releaseStream),
    ("createStream", some .createStream), ("getStreamLength", some .getStreamLength),
    ("_checkbw", some .checkbw), ("play", some .play), ("play2", some .play2),
    ("deleteStream", some .deleteStream), ("closeStream", some .closeStream),
    ("receiveAudio", some .receiveAudio), ("receiveVideo", some .receiveVideo),
    ("publish", some .publish), ("seek", some .seek), ("pause", some .pause)]

/-- The first name that agrees with the command's on all of the command's bytes. -/
def commandNamed (name : SdStr) : Option Command :=
  ((commands.find? (fun c => strncmpEq name.str (ascii c.1) name.str.length)).map Prod.snd).getD none

def rtmpCommandParse (h : Handlers ω) (sess : Sess ω) (curchunk : Nat) (m : Mem) (size : Nat) :
    Option (Sess ω × Nat) := do
  let (name, bytes) ← (sdStrRead m (1 + u32Sub size 1) 1).ret
  match name with
  | none => return (sess, size)
  | some name =>
    let walker := 1 + bytes
    let (sess, psize) ← match commandNamed name with
      | none => some (sess, 0)
      | some command => h.command command sess curchunk (Mem.from m walker) (u32Sub size walker)
    return (sess, if psize = 0 then 0 else u32 (walker + psize))

/-- What came of a message: how far the walker got, a write past the end of `cbuf`, or
no return. -/
inductive Parsed (ω : Type)
  | ret (rconn : Conn ω) (used : Nat)
  | overrun
  | lost

/-- `end - walker` as the size of a `memcpy`, `skip` bytes into a buffer of `size`. -/
def copySize (skip size : Nat) : Nat := if skip ≤ size then size - skip else 2 ^ 64 - (skip - size)

/-- Memory that begins with `bs`. -/
def memOf (bs : List UInt8) (behind : Mem) : Mem :=
  fun i => if h : i < bs.length then bs[i] else behind (i - bs.length)

section

-- `room n` tells whether `cbuf` holds `n` bytes; in the program it is `cbufHolds`.
variable (room : Nat → Bool) (h : Handlers ω)

/-- The four message types that go through `cbuf`, with the parser of the type and the
`skip` bytes it leaves out in front. `stale` is what `cbuf` holds behind its bytes. -/
def cbufParse (parse : Sess ω → Nat → Mem → Nat → Option (Sess ω × Nat)) (skip : Nat)
    (rconn : Conn ω) (m : Mem) (size : Nat) (stale : Mem) : Parsed ω :=
  let o := rconn.cbuf.length
  if room (o + copySize skip size) then
    let cbuf := rconn.cbuf ++ slice m skip (copySize skip size)
    match parse rconn.sess rconn.curchunk (memOf cbuf stale) cbuf.length with
    | none => .lost
    | some (sess, s) =>
      if 0 < s then .ret { rconn with sess := sess, cbuf := [] } (u32 (skip + u32Sub s o))
      else .ret { rconn with sess := sess, cbuf := cbuf } skip
  else .overrun

def rtmpMsgParse (rconn : Conn ω) (m : Mem) (size : Nat) (stale : Mem) : Parsed ω :=
  match rconn.sess.chunkstreams rconn.curchunk with
  | none => .ret rconn size
  | some chunk =>
    if chunk.msgtype = rtmpMsgtypeSize then
      if size < 4 then .ret rconn 0 else .ret { rconn with ichunksize := rnsBtoh32 m 0 } 4
    else if chunk.msgtype = rtmpMsgtypeAck ∨ chunk.msgtype = rtmpMsgtypeWack then
      if size < 4 then .ret rconn 0 else .ret rconn 4
    else if chunk.msgtype = rtmpMsgtypeBw then
      if size < 4 then .ret rconn 0 else .ret { rconn with bw := rnsBtoh32 m 0 } 4
    else if chunk.msgtype = rtmpMsgtypeUc then
      cbufParse room (fun sess curchunk m size => some (sess, rtmpUcParse sess curchunk m size)) 0
        rconn m size stale
    else if chunk.msgtype = rtmpMsgtypeAudio ∨ chunk.msgtype = rtmpMsgtypeVideo then
      match rtmpMsgPayload h rconn.sess rconn.curchunk chunk m size with
      | none => .lost
      | some (sess, used) => .ret { rconn with sess := sess } used
    else if chunk.msgtype = rtmpMsgtypeDatamsg then
      cbufParse room rtmpDatamsgParse 0 rconn m size stale
    else if chunk.msgtype = rtmpMsgtypeCommandAmf3 then
      cbufParse room (rtmpCommandParse h) 1 rconn m size stale
    else if chunk.msgtype = rtmpMsgtypeCommandAmf0 then
      cbufParse room (rtmpCommandParse h) 0 rconn m size stale
    else .ret rconn 0

def Sess.setChunk (sess : Sess ω) (curchunk : Nat) (chunk : RtmpChunk) : Sess ω :=
  { sess with chunkstreams := Function.update sess.chunkstreams curchunk (some chunk) }

/-- What a step of `rtmp_parse` can see besides the bytes it was given: what the
receive buffer holds behind them, and what `cbuf` holds behind its bytes. -/
structure Behind where
  past : Mem
  stale : Mem

/-- `RNS_RTMP_CHUNK_PAYLOAD`. -/
def rtmpPayloadStep (stale : Mem) (rconn : Conn ω) (m : Mem) (size : Nat) :
    Feed.Verdict (Conn ω) :=
  let len := min rconn.ichunksize size
  match rtmpMsgParse room h rconn m len stale with
  | .overrun => .stuck
  | .lost => .stuck
  | .ret rconn s =>
    let used := if 0 < s then s else len
    let curlen := u32 (rconn.curlen + s)
    if s = 0 ∧ len < rconn.ichunksize ∧ curlen < rconn.ichunksize then
      .next { rconn with curlen := curlen } used
    else .next { rconn with state := .chunkFmt, curlen := 0 } used

/-- One round of the loop of `rtmp_parse` with `rest` from `walker` to `end`. -/
def rtmpStep (b : Behind) (rconn : Conn ω) (rest : List UInt8) :
    Feed.Verdict (Conn ω) :=
  let m := memOf rest b.past
  let size := rest.length
  -- `rtmp_parse` returns at once without the chunk stream of a chunk it has begun
  let header (need : Nat) (next : RtmpChunk → Feed.Verdict (Conn ω)) : Feed.Verdict (Conn ω) :=
    match rconn.sess.chunkstreams rconn.curchunk with
    | none => .leave
    | some chunk => if size < need then .leave else next chunk
  match rconn.state with
  | .handshakeC0 =>
    if size < 1 then .leave
    else .next { rconn with
      state := .handshakeC1, sess := { rconn.sess with world := h.sendS0S1 rconn.sess.world } } 1
  | .handshakeC1 =>
    if size < 1536 then .leave
    else
      let CS2 := slice m 0 4 ++ List.replicate 4 0 ++ slice m 8 1528
      .next { rconn with
        state := .handshakeC2
        sess := { rconn.sess with world := h.sendS2 CS2 rconn.sess.world } } 1536
  | .handshakeC2 =>
    if size < 1536 then .leave
    else if slice m 0 4 ≠ rconn.CS1.take 4 then .next rconn 0
    else if slice m 8 1528 ≠ rconn.CS1.drop 8 then .next rconn 8
    else .next { rconn with state := .chunkFmt } 1536
  | .handshakeS0 => .next { rconn with state := .handshakeS1 } 0
  | .handshakeS1 => .next { rconn with state := .handshakeS2 } 0
  | .handshakeS2 => .next { rconn with state := .chunkFmt } 0
  | .chunkFmt =>
    if size < 1 then .leave
    else .next { rconn with state := .chunkChannel1, curfmt := ((m 0).toNat &&& 0xC0) >>> 6 } 0
  | .chunkChannel1 =>
    if size < 1 then .leave
    else
      let curchunk := (m 0).toNat &&& 0x3F
      let state : ConnState :=
        if curchunk = 0 then .chunkChannel2 else if curchunk = 1 then .chunkChannel3 else .chunkChannel
      .next { rconn with state := state, curchunk := curchunk } 1
  | .chunkChannel2 =>
    if size < 1 then .leave
    else .next { rconn with state := .chunkChannel, curchunk := (m 0).toNat + 64 } 1
  | .chunkChannel3 =>
    -- one byte is asked for and two are read
    if size < 1 then .leave
    else .next { rconn with
      state := .chunkChannel, curchunk := ((m 1).toNat <<< 8) + (m 0).toNat + 64 } 2
  | .chunkChannel =>
    let chunk := (rconn.sess.chunkstreams rconn.curchunk).getD {}
    let chunk := { chunk with fmt := rconn.curfmt, channel := rconn.curchunk }
    .next { rconn with
      state := if rconn.curfmt ≠ 3 then .chunkTimestamp else .chunkPayload
      sess := rconn.sess.setChunk rconn.curchunk chunk } 0
  | .chunkTimestamp => header 3 fun chunk =>
    let timestamp := rnsBtoh24 m 0
    .next { rconn with
      state := if chunk.fmt = 2 then .chunkExtraTimestamp else .chunkMsgLen
      sess := rconn.sess.setChunk rconn.curchunk { chunk with
        timestamp := if chunk.fmt ≠ 0 then u32 (chunk.timestamp + timestamp) else timestamp } } 3
  | .chunkMsgLen => header 3 fun chunk =>
    .next { rconn with
      state := .chunkMsgType
      sess := rconn.sess.setChunk rconn.curchunk { chunk with msglen := rnsBtoh24 m 0 } } 3
  | .chunkMsgType => header 1 fun chunk =>
    .next { rconn with
      state := if chunk.fmt = 0 then .chunkMsgStreamid else .chunkExtraTimestamp
      sess := rconn.sess.setChunk rconn.curchunk { chunk with msgtype := (m 0).toNat } } 1
  | .chunkMsgStreamid => header 4 fun chunk =>
    .next { rconn with
      state := .chunkExtraTimestamp
      sess := rconn.sess.setChunk rconn.curchunk { chunk with streamid := rnsLtoh32 m 0 } } 4
  | .chunkExtraTimestamp => header 0 fun chunk =>
    if chunk.timestamp = 0xFFFFFF then
      if size < 4 then .leave
      else .next { rconn with
        state := .chunkPayload
        sess := rconn.sess.setChunk rconn.curchunk { chunk with timestamp := rnsBtoh32 m 0 } } 4
    else .next { rconn with state := .chunkPayload } 0
  | .chunkPayload => header 0 fun _ => rtmpPayloadStep room h b.stale rconn m size

/-- `read_func` on the pieces successive `recv` calls return: each is handed to
`rtmp_parse` at the start of the buffer, and `read_pos` and `write_pos` go back to
zero whatever `rtmp_parse` has left. -/
def readFunc : Conn ω → List (Behind × List UInt8) → Conn ω → Prop :=
  Feed.Runs (rtmpStep room h)

end

end Yclib.Rtmp
