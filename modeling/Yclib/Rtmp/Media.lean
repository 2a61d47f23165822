import Yclib.Rtmp.ControlBuffer

namespace Yclib.Rtmp.Media
open Network

/-! Audio and video in chunks, and the messages `rtmp_msg_payload` makes of them. -/

variable {ω : Type}

section
variable {h : Handlers ω} {b : Behind} {rconn : Conn ω} {chunk : RtmpChunk} {stream : MsgStream}
  {t : Target ω} {piece ys : List UInt8}

/-- The payload of a chunk of media goes to the message it is for, and the parser goes on
with the next chunk. -/
theorem payload_passes (hst : rconn.state = .chunkPayload)
    (hc : rconn.sess.chunkstreams rconn.curchunk = some chunk) (hm : Media chunk.msgtype)
    (hs : rconn.sess.nstreams chunk.streamid = some stream)
    (ht : t.Selected h rconn.sess rconn.curchunk chunk stream)
    (hlen : piece.length = min rconn.ichunksize (stream.rem chunk)) (hN : 0 < rconn.ichunksize)
    (hspace : piece.length ≤ stream.store.space) :
    Feed.Passes (rtmpStep cbufHolds h) b rconn (piece ++ ys)
      { rconn with
        state := .chunkFmt, curlen := 0
        sess := t.sess.setStream chunk.streamid
          (t.stream.wrote (t.msg (memOf (piece ++ ys) b.past)) t.others piece) } ys := by
  obtain ⟨hmissing, hlt⟩ := ht.missing (memOf (piece ++ ys) b.past)
  have hall : (piece ++ ys).length = piece.length + ys.length := List.length_append
  have hsize : min (min rconn.ichunksize (piece ++ ys).length) (stream.rem chunk) = piece.length := by
    omega
  have hslice : slice (memOf (piece ++ ys) b.past) 0 piece.length = piece :=
    slice_holds (mem_of_holds _ _ _)
  have hpay := @msg_payload _ h _ _ _ _ _ hs ht (memOf (piece ++ ys) b.past)
    (min rconn.ichunksize (piece ++ ys).length) (by rw [hsize]; exact hspace)
  rw [hsize, hslice] at hpay
  have hret := @media_parse _ cbufHolds h _ _ hm hc (memOf (piece ++ ys) b.past)
    (min rconn.ichunksize (piece ++ ys).length) b.stale
  rw [hpay] at hret
  refine took piece rfl (by rw [← List.length_pos_iff]; omega) ?_
  rw [payload_step hst hc]
  apply payload_over hret
  split
  · exact .inr ⟨rfl, rfl, by omega, by omega⟩
  · exact .inl ⟨by omega, by omega⟩

end

/-! What the chunks of several chunk streams are the chunks of. -/

/-- A message, as its own chunks make it up. -/
structure Message where
  type : Nat
  size : Nat
  timestamp : Nat
  streamid : Nat
  payload : List UInt8

/-- A chunk on the wire. -/
structure Piece where
  channel : Nat
  header : MsgHeader
  bytes : List UInt8

def Piece.wire (c : Piece) : List UInt8 :=
  basicHeader c.header.fmt c.channel ++ (c.header.encode ++ c.bytes)

/-- The chunk streams each for itself: the last header, the message begun, and the messages
that are complete, the last one first. -/
structure Channels where
  header : Nat → RtmpChunk
  begun : Nat → Option Message
  complete : List Message

/-- The header of the chunk stream as the chunk finds it. -/
def Channels.before (s : Channels) (c : Piece) : RtmpChunk :=
  { s.header c.channel with fmt := c.header.fmt, channel := c.channel }

def Channels.read (s : Channels) (c : Piece) : RtmpChunk := (s.before c).read c.header

/-- The message of the chunk before the bytes of the chunk: the one begun on its chunk stream,
or a new one. -/
def Channels.message (s : Channels) (c : Piece) : Message :=
  (s.begun c.channel).getD
    ⟨(s.read c).msgtype, (s.read c).msglen, (s.read c).timestamp, (s.read c).streamid, []⟩

def Message.add (msg : Message) (bytes : List UInt8) : Message :=
  { msg with payload := msg.payload ++ bytes }

def Message.missing (msg : Message) : Nat := msg.size - msg.payload.length

def Channels.add (s : Channels) (c : Piece) : Channels :=
  let msg := (s.message c).add c.bytes
  { header := Function.update s.header c.channel (s.read c)
    begun := Function.update s.begun c.channel (if msg.missing = 0 then none else some msg)
    complete := if msg.missing = 0 then msg :: s.complete else s.complete }

/-- The connection once it has read the header of the chunk. -/
def Channels.headed (s : Channels) (rconn : Conn ω) (c : Piece) : Conn ω :=
  { rconn with
    state := .chunkPayload, curfmt := c.header.fmt, curchunk := c.channel
    sess := rconn.sess.setChunk c.channel (s.read c) }

def Channels.run (s : Channels) (chunks : List Piece) : Channels := chunks.foldl Channels.add s

/-- A chunk of audio or video on the message stream, as long as the chunk size and its
message have it. -/
structure Fits (size streamid : Nat) (s : Channels) (c : Piece) : Prop where
  low : 2 ≤ c.channel
  high : c.channel < 65600
  header : c.header.Fits
  media : Media (s.read c).msgtype
  streamid : (s.read c).streamid = streamid
  length : c.bytes.length = min size (s.message c).missing
  some : 0 < (s.message c).missing

/-- No other chunk stream has a message begun, a message is begun by a header that has its
timestamp, and the timestamp is none that looks extended. -/
structure Alone (s : Channels) (c : Piece) : Prop where
  others : ∀ other, other ≠ c.channel → s.begun other = none
  starts : s.begun c.channel = none → c.header.fmt ≠ 3
  reads : (s.before c).Reads c.header

/-- The message of the connection is the one of its chunks. -/
structure Is (store : Store) (msg : RtmpMsg) (m : Message) : Prop where
  type : msg.type = m.type
  size : msg.size = m.size
  timestamp : msg.timestamp = m.timestamp
  streamid : msg.streamid = m.streamid
  len : msg.len = m.payload.length
  stored : store.Has msg.offset m.payload
  inside : msg.offset + m.payload.length ≤ store.offset

/-- The messages of a stream that are complete. -/
def completed (stream : MsgStream) (msg : RtmpMsg) : Prop :=
  (msg ∈ stream.msgs ∧ msg.Done) ∨ stream.videometa = some msg

/-- The connection between two chunks has stored of the messages what the chunk streams have
of them. -/
structure Holding (size streamid : Nat) (rconn : Conn ω) (stream : MsgStream) (s : Channels) :
    Prop where
  state : rconn.state = .chunkFmt
  chunksize : rconn.ichunksize = size
  headers : ∀ channel, (rconn.sess.chunkstreams channel).getD {} = s.header channel
  found : rconn.sess.nstreams streamid = some stream
  done : ∀ msg, completed stream msg → ∃ m ∈ s.complete, Is stream.store msg m
  begun : ((∀ channel, s.begun channel = none) ∧ stream.Begins) ∨
    ∃ channel m msg others, s.begun channel = some m ∧ (∀ k, k ≠ channel → s.begun k = none) ∧
      stream.msgs = msg :: others ∧ Is stream.store msg m ∧ 0 < m.missing ∧
      msg.offset + m.payload.length = stream.store.offset

/-- What is stored stays when more is stored behind it. -/
theorem is_pushes {store : Store} (hl : store.Level) {msg : RtmpMsg} {m : Message}
    (hi : Is store msg m) (bytes : List UInt8) : Is (bytes.foldl Store.push store) msg m where
  type := hi.type
  size := hi.size
  timestamp := hi.timestamp
  streamid := hi.streamid
  len := hi.len
  stored := pushes_has_before hl bytes hi.stored hi.inside
  inside := by
    rw [pushes_offset]
    have := hi.inside
    omega

/-- The bytes stored at the end of a message are its own. -/
theorem is_wrote {store : Store} (hl : store.Level) {msg : RtmpMsg} {m : Message}
    (hi : Is store msg m) (hoff : msg.offset + m.payload.length = store.offset)
    (bytes : List UInt8) :
    Is (bytes.foldl Store.push store) { msg with len := msg.len + bytes.length } (m.add bytes) where
  type := hi.type
  size := hi.size
  timestamp := hi.timestamp
  streamid := hi.streamid
  len := by simp only [hi.len, Message.add, List.length_append]
  stored := by
    refine has_append.mpr ⟨pushes_has_before hl bytes hi.stored hi.inside, ?_⟩
    simp only [hoff]
    exact pushes_has hl bytes
  inside := by
    simp only [Message.add, List.length_append, pushes_offset]
    omega

section
variable {h : Handlers ω} {b : Behind} {rconn r : Conn ω} {stream stream' : MsgStream}
  {s : Channels} {c : Piece} {size streamid : Nat} {msg : RtmpMsg} {others : List RtmpMsg}

/-- A chunk whose bytes are stored for its message. -/
theorem holding_wrote (hh : Holding size streamid rconn stream s)
    (ha : Alone s c) (hstate : r.state = .chunkFmt) (hsize : r.ichunksize = size)
    (htable : ∀ channel, (r.sess.chunkstreams channel).getD {} = (s.add c).header channel)
    (hfound : r.sess.nstreams streamid = some (stream'.wrote msg others c.bytes))
    (hstore : stream'.store = stream.store) (hmsg : Is stream.store msg (s.message c))
    (hoff : msg.offset + (s.message c).payload.length = stream.store.offset)
    (hdone : ∀ x, (x ∈ others ∧ x.Done) ∨ stream'.videometa = some x → completed stream x) :
    Holding size streamid r (stream'.wrote msg others c.bytes) (s.add c) := by
  have hlevel : stream.store.Level := stream.level
  have hnow := is_wrote hlevel hmsg hoff c.bytes
  have hfold : (stream'.wrote msg others c.bytes).store = c.bytes.foldl Store.push stream.store := by
    rw [← hstore]
    rfl
  have hwhole : RtmpMsg.Done { msg with len := msg.len + c.bytes.length } ↔
      ((s.message c).add c.bytes).missing = 0 := by
    have hlen := hnow.len
    have hsz := hnow.size
    simp only at hlen hsz
    simp only [RtmpMsg.Done, Message.missing, hlen, hsz]
    omega
  refine ⟨hstate, hsize, htable, hfound, ?_, ?_⟩
  · intro x hx
    rw [hfold]
    have hold : completed stream x → ∃ m ∈ (s.add c).complete,
        Is (c.bytes.foldl Store.push stream.store) x m := by
      intro hx
      obtain ⟨m, hm, hi⟩ := hh.done x hx
      refine ⟨m, ?_, is_pushes hlevel hi c.bytes⟩
      simp only [Channels.add]
      split
      · exact List.mem_cons_of_mem _ hm
      · exact hm
    rcases hx with ⟨hx, hd⟩ | hx
    · rcases List.mem_cons.mp hx with rfl | hx
      · refine ⟨_, ?_, hnow⟩
        simp only [Channels.add, hwhole.mp hd, if_true]
        exact List.mem_cons_self
      · exact hold (hdone x (.inl ⟨hx, hd⟩))
    · exact hold (hdone x (.inr hx))
  · by_cases hm : ((s.message c).add c.bytes).missing = 0
    · refine .inl ⟨fun channel => ?_, ?_⟩
      · by_cases hc : channel = c.channel
        · simp [Channels.add, hc, hm]
        · simp [Channels.add, Function.update_of_ne hc, ha.others channel hc]
      · intro x hx
        simp only [MsgStream.wrote, List.head?_cons, Option.mem_def, Option.some.injEq] at hx
        rw [← hx]
        exact hwhole.mpr hm
    · refine .inr ⟨c.channel, _, _, others, ?_, ?_, rfl, hfold ▸ hnow, by omega, ?_⟩
      · simp [Channels.add, hm]
      · intro k hk
        simp [Channels.add, Function.update_of_ne hk, ha.others k hk]
      · rw [hfold, pushes_offset]
        simp only [Message.add, List.length_append]
        omega

/-- The players of a stream are other connections than the one that publishes it. -/
def Elsewhere (h : Handlers ω) : Prop :=
  ∀ streamid msg sess, (h.msgSend streamid msg sess).chunkstreams = sess.chunkstreams

/-- What is done with the complete message before adds no message. -/
theorem complete_kept (hp : Elsewhere h) {sess : Sess ω}
    (hs : sess.nstreams streamid = some stream) (hm : msg ∈ stream.msgs) (hd : msg.Done) :
    (msgComplete h sess streamid stream msg).chunkstreams = sess.chunkstreams ∧
      ∃ stream', (msgComplete h sess streamid stream msg).nstreams streamid = some stream' ∧
        stream'.store = stream.store ∧
        ∀ x, (x ∈ stream'.msgs ∧ x.Done) ∨ stream'.videometa = some x → completed stream x := by
  unfold msgComplete
  split
  · refine ⟨rfl, _, Function.update_self _ _ _, rfl, ?_⟩
    rintro x (⟨hx, hxd⟩ | hx)
    · exact .inl ⟨List.mem_of_mem_tail hx, hxd⟩
    · obtain rfl := Option.some.inj hx
      exact .inl ⟨hm, hd⟩
  · refine ⟨hp _ _ _, stream, by rw [(h.msgSend_keeps streamid msg sess).1, hs], rfl, fun x hx => hx⟩

/-- The message that is begun is the one the header says. -/
theorem begins_selected (hp : Elsewhere h) {sess : Sess ω} {curchunk : Nat} {chunk : RtmpChunk}
    (hc : sess.chunkstreams curchunk = some chunk)
    (hs : sess.nstreams chunk.streamid = some stream) (hb : stream.Begins)
    (hpos : chunk.msglen ≠ 0) :
    ∃ sess' stream', sess'.chunkstreams = sess.chunkstreams ∧ stream'.store = stream.store ∧
      (∀ x, (x ∈ stream'.msgs ∧ x.Done) ∨ stream'.videometa = some x → completed stream x) ∧
      Target.Selected ⟨sess', stream', .create chunk stream'.store.offset, stream'.msgs⟩ h sess
        curchunk chunk stream := by
  cases hmsgs : stream.msgs with
  | nil =>
    exact ⟨sess, stream, rfl, rfl, fun x hx => hx,
      @begun_selected _ h sess sess curchunk chunk stream stream chunk.fmt chunk.timestamp hc hs rfl hb
        hpos (by simp [MsgStream.rem, hmsgs]) (by simp [msgSelect, hmsgs])⟩
  | cons msg others =>
    have hd : msg.Done := hb msg (by simp [hmsgs])
    obtain ⟨htable, stream', hs', hstore, hdone⟩ :=
      complete_kept hp hs (show msg ∈ stream.msgs by simp [hmsgs]) hd
    exact ⟨_, stream', htable, hstore, hdone,
      @begun_selected _ h sess _ curchunk chunk stream stream' chunk.fmt chunk.timestamp
        (by rw [htable, hc]) hs' hstore hb hpos (by simp [MsgStream.rem, hmsgs, hd])
        (by simp [msgSelect, hmsgs, hd])⟩

theorem read_timestamp_lt (hfits : c.header.Fits) (hf : c.header.fmt ≠ 3) :
    (s.read c).timestamp < 2 ^ 32 := by
  unfold Channels.read
  cases hh : c.header with
  | full timestamp msglen msgtype streamid =>
    rw [hh] at hfits
    exact hfits.1
  | same delta msglen msgtype => exact Nat.mod_lt _ (by omega)
  | later delta => exact Nat.mod_lt _ (by omega)
  | none =>
    rw [hh] at hf
    exact absurd rfl hf

theorem read_fmt : (s.read c).fmt = c.header.fmt := by
  unfold Channels.read Channels.before
  cases c.header <;> rfl

/-- The header of a chunk, from its first byte to its payload. -/
theorem header_passed (hh : Holding size streamid rconn stream s) (hf : Fits size streamid s c)
    (hreads : (s.before c).Reads c.header) {ys : List UInt8} (hne : ys ≠ []) :
    Feed.Passes (rtmpStep cbufHolds h) b rconn
      (basicHeader c.header.fmt c.channel ++ (c.header.encode ++ ys)) (s.headed rconn c) ys := by
  have hbefore : rconn.sess.channel c.channel c.header.fmt = s.before c := by
    rw [Sess.channel, hh.headers, Channels.before]
  have hpass := @chunk_passes _ cbufHolds h b rconn ys c.header c.channel hh.state hf.low hf.high
    hf.header (by rw [hbefore]; exact hreads) hne
  rwa [hbefore] at hpass

/-- The headers of the chunk streams behind the chunk. -/
theorem headers_set (hh : Holding size streamid rconn stream s) {sess : Sess ω}
    (hs : sess.chunkstreams = (rconn.sess.setChunk c.channel (s.read c)).chunkstreams)
    (channel : Nat) : (sess.chunkstreams channel).getD {} = (s.add c).header channel := by
  rw [hs]
  by_cases hc : channel = c.channel
  · simp [Sess.setChunk, Channels.add, hc]
  · simp [Sess.setChunk, Channels.add, Function.update_of_ne hc, hh.headers channel]

/-- The bytes of a chunk go to its own message, as long as there is room. -/
theorem piece_stored (hp : Elsewhere h) (hN : 0 < size)
    (hh : Holding size streamid rconn stream s) (hf : Fits size streamid s c) (ha : Alone s c)
    (hspace : c.bytes.length ≤ stream.store.space) (ys : List UInt8) :
    ∃ r stream', Feed.Passes (rtmpStep cbufHolds h) b (s.headed rconn c) (c.bytes ++ ys) r ys ∧
      Holding size streamid r stream' (s.add c) ∧
      stream'.store.space = stream.store.space - c.bytes.length := by
  have hlen := hf.length
  have hsome := hf.some
  have hlevel : stream.store.Level := stream.level
  have hsess : (rconn.sess.setChunk c.channel (s.read c)).nstreams = rconn.sess.nstreams := rfl
  -- once the message is selected
  have hgo (t : Target ω) (msg : RtmpMsg)
      (ht : t.Selected h (rconn.sess.setChunk c.channel (s.read c)) c.channel (s.read c) stream)
      (hsel : t.msg (memOf (c.bytes ++ ys) b.past) = msg)
      (hrem : stream.rem (s.read c) = (s.message c).missing)
      (htable : t.sess.chunkstreams = (rconn.sess.setChunk c.channel (s.read c)).chunkstreams)
      (hstore : t.stream.store = stream.store) (hmsg : Is stream.store msg (s.message c))
      (hoff : msg.offset + (s.message c).payload.length = stream.store.offset)
      (hdone : ∀ x, (x ∈ t.others ∧ x.Done) ∨ t.stream.videometa = some x → completed stream x) :
      ∃ r stream', Feed.Passes (rtmpStep cbufHolds h) b (s.headed rconn c) (c.bytes ++ ys) r ys ∧
        Holding size streamid r stream' (s.add c) ∧
        stream'.store.space = stream.store.space - c.bytes.length := by
    have hpay := @payload_passes _ h b (s.headed rconn c) (s.read c) stream t c.bytes ys rfl
      (set_chunk_self _ _ _) hf.media (by rw [hf.streamid, ← hh.found]; rfl) ht
      (by rw [hrem, hlen]; simp only [Channels.headed, hh.chunksize])
      (by simp only [Channels.headed, hh.chunksize]; exact hN) hspace
    rw [hsel] at hpay
    refine ⟨_, _, hpay, holding_wrote hh ha rfl hh.chunksize
      (headers_set hh htable) ?_ hstore hmsg hoff hdone, ?_⟩
    · rw [hf.streamid]
      exact Function.update_self _ _ _
    · simp only [MsgStream.wrote, hstore]
      exact pushes_space hlevel c.bytes hspace
  cases hbegun : s.begun c.channel with
  | none =>
    have hnone : ∀ channel, s.begun channel = none := fun channel => by
      by_cases hc : channel = c.channel
      · rw [hc, hbegun]
      · exact ha.others channel hc
    have hb : stream.Begins := by
      rcases hh.begun with ⟨-, hb⟩ | ⟨channel, m, -, -, hm, -⟩
      · exact hb
      · rw [hnone] at hm
        cases hm
    have hmsg : s.message c = ⟨(s.read c).msgtype, (s.read c).msglen, (s.read c).timestamp,
        (s.read c).streamid, []⟩ := by
      rw [Channels.message, hbegun, Option.getD_none]
    have hmissing : (s.message c).missing = (s.read c).msglen := by
      rw [hmsg]
      simp [Message.missing]
    obtain ⟨sess', stream', htable, hstore, hdone, ht⟩ := begins_selected (h := h) hp
      (set_chunk_self rconn.sess c.channel (s.read c))
      (by rw [hsess, hf.streamid]; exact hh.found) hb (by omega)
    refine hgo _ _ ht rfl ?_ htable hstore ?_ ?_ hdone
    · rw [hmissing]
      cases hmsgs : stream.msgs with
      | nil => simp [MsgStream.rem, hmsgs]
      | cons msg others =>
        have hd : msg.Done := hb msg (by simp [hmsgs])
        simp [MsgStream.rem, hmsgs, hd]
    · have hfmt : (s.read c).fmt ≠ 3 := by
        rw [read_fmt]
        exact ha.starts hbegun
      have hts : u32 (s.read c).timestamp = (s.read c).timestamp :=
        u32_of_lt (read_timestamp_lt hf.header (ha.starts hbegun))
      rw [hmsg]
      refine ⟨rfl, rfl, ?_, rfl, rfl, fun k hk => absurd hk (by simp), ?_⟩
      · simp only [RtmpMsg.create, hfmt, if_false, hts]
      · simp only [RtmpMsg.create, List.length_nil, Nat.add_zero, hstore, le_refl]
    · rw [hmsg]
      simp only [RtmpMsg.create, List.length_nil, Nat.add_zero, hstore]
  | some m =>
    rcases hh.begun with ⟨hnone, -⟩ | ⟨channel, m', msg, others, hm, hothers, hmsgs, hi, hmiss, hoff⟩
    · rw [hnone] at hbegun
      cases hbegun
    · obtain rfl : c.channel = channel := by
        by_contra hne
        rw [hothers c.channel hne] at hbegun
        cases hbegun
      obtain rfl := Option.some.inj (hbegun.symm.trans hm)
      have hmsg : s.message c = m := by
        rw [Channels.message, hbegun, Option.getD_some]
      have hlt : msg.len < msg.size := by
        have h1 := hi.len
        have h2 := hi.size
        simp only [Message.missing] at hmiss
        omega
      have ht := @open_selected _ h (rconn.sess.setChunk c.channel (s.read c)) c.channel (s.read c)
        stream msg others ⟨_, _, set_chunk_self _ _ _⟩ hmsgs hlt
      refine hgo _ msg ht rfl ?_ rfl rfl (hmsg ▸ hi) (hmsg ▸ hoff) ?_
      · have h1 := hi.len
        have h2 := hi.size
        rw [h1, h2] at hlt
        simp only [MsgStream.rem, hmsgs, RtmpMsg.Done, hmsg, Message.missing, h1, h2]
        rw [if_neg (by omega)]
      · rintro x (⟨hx, hd⟩ | hx)
        · exact .inl ⟨by rw [hmsgs]; exact List.mem_cons_of_mem _ hx, hd⟩
        · exact .inr hx

/-- A chunk goes to its own message, as long as there is room. -/
theorem piece_passes (hp : Elsewhere h) (hN : 0 < size)
    (hh : Holding size streamid rconn stream s) (hf : Fits size streamid s c) (ha : Alone s c)
    (hspace : c.bytes.length ≤ stream.store.space) (ys : List UInt8) :
    ∃ r stream', Feed.Passes (rtmpStep cbufHolds h) b rconn (c.wire ++ ys) r ys ∧
      Holding size streamid r stream' (s.add c) ∧
      stream'.store.space = stream.store.space - c.bytes.length := by
  have hbytes : c.bytes ++ ys ≠ [] := by
    have hlen := hf.length
    have hsome := hf.some
    rw [← List.length_pos_iff, List.length_append]
    omega
  obtain ⟨r, stream', hpass, hrest⟩ := piece_stored (h := h) (b := b) hp hN hh hf ha hspace ys
  refine ⟨r, stream', ?_, hrest⟩
  rw [Piece.wire, List.append_assoc, List.append_assoc]
  exact Feed.passes_trans _ (header_passed hh hf ha.reads hbytes) hpass

/-- What holds of every chunk as the chunk streams find it. -/
def Along (P : Channels → Piece → Prop) : Channels → List Piece → Prop
  | _, [] => True
  | s, c :: chunks => P s c ∧ Along P (s.add c) chunks

def bytesOf (chunks : List Piece) : Nat := (chunks.map (·.bytes.length)).sum

/-- Chunks one after another go to their own messages. -/
theorem pieces_pass (hp : Elsewhere h) (hN : 0 < size) {chunks : List Piece}
    (hh : Holding size streamid rconn stream s) (hf : Along (Fits size streamid) s chunks)
    (ha : Along Alone s chunks) (hspace : bytesOf chunks ≤ stream.store.space) (ys : List UInt8) :
    ∃ r stream', Feed.Passes (rtmpStep cbufHolds h) b rconn (chunks.flatMap Piece.wire ++ ys) r ys ∧
      Holding size streamid r stream' (s.run chunks) ∧
      stream'.store.space = stream.store.space - bytesOf chunks := by
  induction chunks generalizing rconn stream s with
  | nil => exact ⟨rconn, stream, .here, hh, rfl⟩
  | cons c chunks ih =>
    simp only [bytesOf, List.map_cons, List.sum_cons] at hspace
    obtain ⟨r, stream', hpass, hh', hleft⟩ := piece_passes (h := h) (b := b) hp hN hh hf.1 ha.1
      (by omega) (chunks.flatMap Piece.wire ++ ys)
    obtain ⟨r', stream'', hpass', hh'', hleft'⟩ := ih hh' hf.2 ha.2 (by rw [bytesOf]; omega)
    refine ⟨r', stream'', ?_, hh'', ?_⟩
    · rw [List.flatMap_cons, List.append_assoc]
      exact Feed.passes_trans _ hpass hpass'
    · rw [hleft', hleft]
      simp only [bytesOf, List.map_cons, List.sum_cons]
      omega

theorem along_append {P : Channels → Piece → Prop} {xs ys : List Piece} :
    Along P s (xs ++ ys) ↔ Along P s xs ∧ Along P (s.run xs) ys := by
  induction xs generalizing s with
  | nil => simp [Along, Channels.run]
  | cons c xs ih =>
    simp only [List.cons_append, Along, ih, and_assoc]
    rfl

theorem bytes_of_append (xs ys : List Piece) : bytesOf (xs ++ ys) = bytesOf xs + bytesOf ys := by
  simp [bytesOf]

/-- Reads of whole chunks. -/
theorem reads_run (hp : Elsewhere h) (hN : 0 < size) {reads : List (Behind × List Piece)}
    (hh : Holding size streamid rconn stream s)
    (hf : Along (Fits size streamid) s (reads.flatMap Prod.snd))
    (ha : Along Alone s (reads.flatMap Prod.snd))
    (hspace : bytesOf (reads.flatMap Prod.snd) ≤ stream.store.space) :
    ∃ r stream', Feed.Runs (rtmpStep cbufHolds h) rconn
        (reads.map fun p => (p.1, p.2.flatMap Piece.wire)) r ∧
      Holding size streamid r stream' (s.run (reads.flatMap Prod.snd)) := by
  induction reads generalizing rconn stream s with
  | nil => exact ⟨rconn, stream, .nil, hh⟩
  | cons p reads ih =>
    obtain ⟨b, chunks⟩ := p
    rw [List.flatMap_cons] at hf ha hspace ⊢
    rw [along_append] at hf ha
    rw [bytes_of_append] at hspace
    obtain ⟨r, stream', hpass, hh', hleft⟩ := pieces_pass (h := h) (b := b) hp hN hh hf.1 ha.1
      (by omega) []
    obtain ⟨r', stream'', hruns, hh''⟩ := ih hh' hf.2 ha.2 (by omega)
    rw [List.append_nil] at hpass
    refine ⟨r', stream'', .cons (Feed.passes_fed _ hpass .done) hruns, ?_⟩
    rw [Channels.run, List.foldl_append]
    exact hh''

end

/-- The chunk streams of a connection, with no message begun. -/
def Channels.start (rconn : Conn ω) : Channels where
  header channel := (rconn.sess.chunkstreams channel).getD {}
  begun _ := none
  complete := []

/-- A stream without messages, with one block to come. -/
def MsgStream.fresh : MsgStream where
  msgs := []
  store := ⟨fun _ => none, 1, 0⟩
  level := ⟨nofun, fun _ => rfl, fun _ _ => rfl⟩
  videometa := none
  metadata := none

/-- A connection that publishes on message stream 1, between two chunks. -/
def publisher : Conn Unit :=
  { Conn.create [] (fun k => if k = 1 then some MsgStream.fresh else none) () with
    state := .chunkFmt }

theorem fresh_space : MsgStream.fresh.store.space = 524288 := by
  simp [MsgStream.fresh, Store.space, blockSize]

end Yclib.Rtmp.Media
