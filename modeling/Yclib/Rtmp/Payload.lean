import Yclib.Rtmp.Conn

namespace Yclib.Rtmp
open Network

variable {ω : Type}

/-- The message is stored completely. -/
def RtmpMsg.Done (msg : RtmpMsg) : Prop := msg.size ≤ msg.len

instance (msg : RtmpMsg) : Decidable msg.Done := inferInstanceAs (Decidable (_ ≤ _))

def rtmpMsgtypeAudio : Nat := 8
def rtmpMsgtypeVideo : Nat := 9

/-- The message a chunk with the header `chunk` begins, with `m` at its payload. -/
def RtmpMsg.create (chunk : RtmpChunk) (offset : Nat) (m : Mem) : RtmpMsg where
  type := chunk.msgtype
  size := chunk.msglen
  timestamp := u32 (if chunk.fmt = 3 then chunk.timestamp + 10 else chunk.timestamp)
  streamid := chunk.streamid
  offset := offset
  len := 0
  key := chunk.msgtype == rtmpMsgtypeVideo && m 0 == 0x17
  packettype :=
    if chunk.msgtype = rtmpMsgtypeVideo ∧ m 0 = 0x17 ∧ m 1 = 0 then avcPacketTypeSeq
    else avcPacketTypeNalu

def Sess.setStream (sess : Sess ω) (streamid : Nat) (stream : MsgStream) : Sess ω :=
  { sess with nstreams := Function.update sess.nstreams streamid (some stream) }

/-- What `RTMP_MSG_INIT` does with the message before: a complete one goes to the
players, or is kept for them if it is a sequence header. -/
def msgComplete (h : Handlers ω) (sess : Sess ω) (streamid : Nat) (stream : MsgStream)
    (msg : RtmpMsg) : Sess ω :=
  if msg.key ∧ msg.packettype = avcPacketTypeSeq then
    sess.setStream streamid { stream with videometa := some msg, msgs := stream.msgs.tail }
  else h.msgSend streamid msg sess

/-- `RTMP_MSG_INIT`, after the message before it: the session, the stream, the message
begun and those before it. There is no result for a message without bytes, which
is begun over and over. The two nodes are read again through the pointers taken
before. -/
def msgInit (sess : Sess ω) (curchunk : Nat) (chunk : RtmpChunk) (stream : MsgStream) (m : Mem) :
    Option (Sess ω × MsgStream × RtmpMsg × List RtmpMsg) :=
  let header := (sess.chunkstreams curchunk).getD chunk
  let stream := (sess.nstreams chunk.streamid).getD stream
  if header.msglen = 0 then none
  else some (sess, stream, .create header stream.store.offset m, stream.msgs)

/-- The message the payload goes to: the one added last, or a new one if that is complete. -/
def msgSelect (h : Handlers ω) (sess : Sess ω) (curchunk : Nat) (chunk : RtmpChunk)
    (stream : MsgStream) (m : Mem) : Option (Sess ω × MsgStream × RtmpMsg × List RtmpMsg) :=
  match stream.msgs with
  | [] => msgInit sess curchunk chunk stream m
  | msg :: others =>
    if msg.Done then
      msgInit (msgComplete h sess chunk.streamid stream msg) curchunk chunk stream m
    else some (sess, stream, msg, others)

/-- `RTMP_MSG_WRITE` with `msg` the message added last, and the others before it. -/
def msgWrite (sess : Sess ω) (streamid : Nat) (stream : MsgStream) (msg : RtmpMsg)
    (others : List RtmpMsg) (m : Mem) (size : Nat) : Sess ω × Nat :=
  let len := min size (msg.size - msg.len)
  let copied := stream.store.copy len (slice m 0 len)
  let writebytes := len - copied.2.length
  let msg := { msg with len := msg.len + writebytes }
  (sess.setStream streamid { stream with
      msgs := msg :: others, store := copied.1, level := copy_level stream.level _ _ },
    if msg.len < msg.size then 0 else writebytes)

/-- `rtmp_msg_payload` on the chunk stream `curchunk`, which has the header `chunk`. -/
def rtmpMsgPayload (h : Handlers ω) (sess : Sess ω) (curchunk : Nat) (chunk : RtmpChunk) (m : Mem)
    (size : Nat) : Option (Sess ω × Nat) :=
  match sess.nstreams chunk.streamid with
  | none => some (sess, size)
  | some stream =>
    match msgSelect h sess curchunk chunk stream m with
    | none => none
    | some (sess, stream, msg, others) =>
      some (msgWrite sess chunk.streamid stream msg others m size)

/-- The stream with `bs` stored for `msg`. -/
def MsgStream.wrote (stream : MsgStream) (msg : RtmpMsg) (others : List RtmpMsg)
    (bs : List UInt8) : MsgStream :=
  { stream with
    msgs := { msg with len := msg.len + bs.length } :: others
    store := bs.foldl Store.push stream.store
    level := pushes_level stream.level bs }

/-- Storing in two goes is storing at once. -/
theorem wrote_wrote (stream : MsgStream) (msg : RtmpMsg) (others : List RtmpMsg)
    (xs ys : List UInt8) :
    (stream.wrote msg others xs).wrote { msg with len := msg.len + xs.length } others ys =
      stream.wrote msg others (xs ++ ys) := by
  simp [MsgStream.wrote, List.foldl_append, Nat.add_assoc]

theorem set_stream_twice (sess : Sess ω) (streamid : Nat) (s t : MsgStream) :
    (sess.setStream streamid s).setStream streamid t = sess.setStream streamid t := by
  simp [Sess.setStream]

/-- Where there is room, a write stores what it is given of the message. -/
theorem msg_write (sess : Sess ω) (streamid : Nat) (stream : MsgStream) (msg : RtmpMsg)
    (others : List RtmpMsg) (m : Mem) {size n : Nat} (hn : min size (msg.size - msg.len) = n)
    (hs : n ≤ stream.store.space) :
    msgWrite sess streamid stream msg others m size =
      (sess.setStream streamid (stream.wrote msg others (slice m 0 n)),
        if msg.len + n < msg.size then 0 else n) := by
  have hcopy := @copy_pushes _ stream.level (slice m 0 n) n (by simp)
    (by simpa using hs)
  simp only [msgWrite, hn, hcopy, MsgStream.wrote, slice_length, List.length_nil, Nat.sub_zero]

/-- The bytes still missing of the message the payload goes to. -/
def MsgStream.rem (stream : MsgStream) (chunk : RtmpChunk) : Nat :=
  match stream.msgs with
  | [] => chunk.msglen
  | msg :: _ => if msg.Done then chunk.msglen else msg.size - msg.len

/-- The payload begins a message. -/
def MsgStream.Begins (stream : MsgStream) : Prop := ∀ msg ∈ stream.msgs.head?, msg.Done

theorem msg_complete_chunk (h : Handlers ω) {sess : Sess ω} {streamid curchunk : Nat}
    {stream : MsgStream} {msg : RtmpMsg} {chunk : RtmpChunk}
    (hc : sess.chunkstreams curchunk = some chunk) :
    ∃ fmt timestamp, (msgComplete h sess streamid stream msg).chunkstreams curchunk =
      some { chunk with fmt, timestamp } := by
  unfold msgComplete
  split
  · exact ⟨chunk.fmt, chunk.timestamp, hc⟩
  · exact (h.msgSend_keeps streamid msg sess).2 curchunk chunk hc

theorem msg_complete_stream (h : Handlers ω) {sess : Sess ω} {streamid : Nat}
    {stream : MsgStream} {msg : RtmpMsg} (hs : sess.nstreams streamid = some stream) :
    ∃ stream', (msgComplete h sess streamid stream msg).nstreams streamid = some stream' ∧
      stream'.store = stream.store := by
  unfold msgComplete
  split
  · exact ⟨_, Function.update_self _ _ _, rfl⟩
  · exact ⟨stream, by rw [(h.msgSend_keeps streamid msg sess).1, hs], rfl⟩

/-- What a message that is begun sees of its payload: the first byte, and the second
behind a key frame's. -/
theorem create_congr {chunk : RtmpChunk} {offset : Nat} {m m' : Mem} (h0 : m 0 = m' 0)
    (h1 : chunk.msgtype = rtmpMsgtypeVideo → m 0 = 0x17 → m 1 = m' 1) :
    RtmpMsg.create chunk offset m = RtmpMsg.create chunk offset m' := by
  unfold RtmpMsg.create
  simp only [← h0, RtmpMsg.mk.injEq, true_and]
  by_cases hv : chunk.msgtype = rtmpMsgtypeVideo
  · by_cases hk : m 0 = 0x17
    · rw [h1 hv hk]
    · simp [hk]
  · simp [hv]

/-- What a beginning message looks at beyond its first byte is there. -/
def Peeks (chunk : RtmpChunk) (m m' : Mem) : Prop :=
  m 0 = m' 0 ∧ (chunk.msgtype = rtmpMsgtypeVideo → m 0 = 0x17 → m 1 = m' 1)

theorem msg_init {sess : Sess ω} {curchunk : Nat} {chunk : RtmpChunk} {stream stream' : MsgStream}
    {fmt timestamp : Nat} (hc : sess.chunkstreams curchunk = some { chunk with fmt, timestamp })
    (hs : sess.nstreams chunk.streamid = some stream') (hlen : chunk.msglen ≠ 0) (m : Mem) :
    msgInit sess curchunk chunk stream m = some (sess, stream',
      .create { chunk with fmt, timestamp } stream'.store.offset m, stream'.msgs) := by
  simp [msgInit, hc, hs, hlen]

/-- The message a payload goes to, whatever the payload is: the session and the stream
once the message before is dealt with, and the messages behind. -/
structure Target (ω : Type) where
  sess : Sess ω
  stream : MsgStream
  msg : Mem → RtmpMsg
  others : List RtmpMsg

structure Target.Selected (t : Target ω) (h : Handlers ω) (sess : Sess ω) (curchunk : Nat)
    (chunk : RtmpChunk) (stream : MsgStream) : Prop where
  header : ∃ fmt timestamp, t.sess.chunkstreams curchunk = some { chunk with fmt, timestamp }
  store : t.stream.store = stream.store
  select : ∀ m, msgSelect h sess curchunk chunk stream m = some (t.sess, t.stream, t.msg m, t.others)
  missing : ∀ m, (t.msg m).size - (t.msg m).len = stream.rem chunk ∧ (t.msg m).len < (t.msg m).size
  peeks : ∀ m m', (stream.Begins → Peeks chunk m m') → t.msg m = t.msg m'

theorem begun_selected (h : Handlers ω) {sess sess' : Sess ω} {curchunk : Nat} {chunk : RtmpChunk}
    {stream stream' : MsgStream} {fmt timestamp : Nat}
    (hc : sess'.chunkstreams curchunk = some { chunk with fmt, timestamp })
    (hs : sess'.nstreams chunk.streamid = some stream') (hstore : stream'.store = stream.store)
    (hb : stream.Begins) (hpos : chunk.msglen ≠ 0) (hrem : stream.rem chunk = chunk.msglen)
    (hsel : ∀ m, msgSelect h sess curchunk chunk stream m = msgInit sess' curchunk chunk stream m) :
    Target.Selected ⟨sess', stream', .create { chunk with fmt, timestamp } stream'.store.offset,
      stream'.msgs⟩ h sess curchunk chunk stream where
  header := ⟨fmt, timestamp, hc⟩
  store := hstore
  select m := by rw [hsel, msg_init hc hs hpos]
  missing m := by
    simp only [RtmpMsg.create, hrem]
    omega
  peeks m m' hp := create_congr (hp hb).1 (hp hb).2

theorem open_selected (h : Handlers ω) {sess : Sess ω} {curchunk : Nat} {chunk : RtmpChunk}
    {stream : MsgStream} {msg : RtmpMsg} {others : List RtmpMsg}
    (hc : ∃ fmt timestamp, sess.chunkstreams curchunk = some { chunk with fmt, timestamp })
    (hmsgs : stream.msgs = msg :: others) (hlt : msg.len < msg.size) :
    Target.Selected ⟨sess, stream, fun _ => msg, others⟩ h sess curchunk chunk stream where
  header := hc
  store := rfl
  select := by simp [msgSelect, hmsgs, RtmpMsg.Done, Nat.not_le.mpr hlt]
  missing := by simp [MsgStream.rem, hmsgs, RtmpMsg.Done, Nat.not_le.mpr hlt, hlt]
  peeks _ _ _ := rfl

theorem msg_select (h : Handlers ω) {sess : Sess ω} {curchunk : Nat} {chunk : RtmpChunk}
    {stream : MsgStream} (hc : sess.chunkstreams curchunk = some chunk)
    (hs : sess.nstreams chunk.streamid = some stream) (hlen : stream.Begins → chunk.msglen ≠ 0) :
    ∃ t : Target ω, t.Selected h sess curchunk chunk stream := by
  cases hmsgs : stream.msgs with
  | nil =>
    have hb : stream.Begins := by simp [MsgStream.Begins, hmsgs]
    exact ⟨_, begun_selected h hc hs rfl hb
      (hlen hb) (by simp [MsgStream.rem, hmsgs]) (by simp [msgSelect, hmsgs])⟩
  | cons msg others =>
    by_cases hdone : msg.Done
    · have hb : stream.Begins := by simpa [MsgStream.Begins, hmsgs] using hdone
      obtain ⟨fmt, timestamp, hc'⟩ :=
        msg_complete_chunk h hc
      obtain ⟨stream', hs', hstore⟩ := @msg_complete_stream _ h _ _ _ msg hs
      exact ⟨_, begun_selected h hc' hs' hstore hb (hlen hb) (by simp [MsgStream.rem, hmsgs, hdone])
        (by simp [msgSelect, hmsgs, hdone])⟩
    · exact ⟨_, open_selected h ⟨chunk.fmt, chunk.timestamp, hc⟩ hmsgs (Nat.lt_of_not_le hdone)⟩

/-- Where there is room, the payload is stored up to the end of the message; the length
is told only when that is reached. -/
theorem msg_payload (h : Handlers ω) {sess : Sess ω} {curchunk : Nat} {chunk : RtmpChunk}
    {stream : MsgStream} {t : Target ω} (hs : sess.nstreams chunk.streamid = some stream)
    (ht : t.Selected h sess curchunk chunk stream) (m : Mem) {size : Nat}
    (hspace : min size (stream.rem chunk) ≤ stream.store.space) :
    rtmpMsgPayload h sess curchunk chunk m size =
      some (t.sess.setStream chunk.streamid
          (t.stream.wrote (t.msg m) t.others (slice m 0 (min size (stream.rem chunk)))),
        if size < stream.rem chunk then 0 else stream.rem chunk) := by
  obtain ⟨hsize, hlt⟩ := ht.missing m
  simp only [rtmpMsgPayload, hs, ht.select]
  rw [msg_write _ _ _ _ _ _ (by rw [hsize]) (by rw [ht.store]; exact hspace)]
  congr 2
  split <;> split <;> omega

end Yclib.Rtmp
