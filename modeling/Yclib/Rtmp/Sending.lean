import Yclib.Rtmp.Control

namespace Yclib.Rtmp.Sending
open Network

/-! `rtmp_msg_send`: the media messages on their way to a player. -/

/-- `rconn->pstate`. -/
inductive PState
  | datamsg | spspps | keyframe | frame
deriving DecidableEq

/-- `rns_rconn_t`, as far as `rtmp_msg_send` reads it. The chunk streams are those that
`rtmp_parse` keeps its headers in. -/
structure Player where
  chunkstreams : Nat → Option RtmpChunk
  videochunk : Nat
  audiochunk : Nat
  netstream : Nat
  ochunksize : Nat
  pstate : PState
  positive : 0 < ochunksize

def Player.chunkid (player : Player) (msg : RtmpMsg) : Nat :=
  if msg.type = rtmpMsgtypeAudio then player.audiochunk else player.videochunk

/-- The chunk stream a message goes out on when there was none. -/
def Player.fresh (player : Player) (msg : RtmpMsg) : RtmpChunk where
  fmt := 0
  channel := player.chunkid msg
  timestamp := msg.timestamp
  msglen := msg.size
  msgtype := msg.type
  streamid := player.netstream

/-- The chunk stream as the header is written: begun again for a first audio message, and
for the key frame that is waited for. -/
def Player.chunkFor (player : Player) (msg : RtmpMsg) : RtmpChunk :=
  let chunk := (player.chunkstreams (player.chunkid msg)).getD (player.fresh msg)
  if (chunk.fmt = 0 ∧ msg.type = rtmpMsgtypeAudio) ∨ player.pstate = .keyframe then
    { chunk with timestamp := msg.timestamp, fmt := 0 }
  else chunk

def Player.setChunk (player : Player) (chunkid : Nat) (chunk : RtmpChunk) : Player :=
  { player with chunkstreams := Function.update player.chunkstreams chunkid (some chunk) }

/-- The loop of `rtmp_msg_send` with `size - sendbytes` bytes to go, `ochunklen` of them in
the chunk so far: the buffers it attaches and what it returns. A round attaches a byte at
least. -/
def sendLoop (store : Store) (ochunksize chunkid timestamp : Nat) :
    Nat → Nat → Nat → Nat → List (List UInt8) × Int
  | 0, _, _, _ => ([], 0)
  | rounds + 1, offset, rest, ochunklen =>
    if rest = 0 then ([], 0)
    else match store.blocks (blockAlign offset) with
      | none => ([], -5)
      | some block =>
        let inBlock := offset - blockAlign offset
        let len := min (min (min rest ochunksize) (blockSize - inBlock)) (ochunksize - ochunklen)
        let buf := (block.drop inBlock).take len
        if 0 < rest - len ∧ ochunksize ≤ ochunklen + len then
          let c := rtmpMidHeader chunkid timestamp
          if c = [] then ([buf], -51)
          else
            let later := sendLoop store ochunksize chunkid timestamp rounds (offset + len)
              (rest - len) 0
            (buf :: c :: later.1, later.2)
        else
          let later := sendLoop store ochunksize chunkid timestamp rounds (offset + len)
            (rest - len) (ochunklen + len)
          (buf :: later.1, later.2)

/-- A message on its way: the chunk stream its header was written for, the difference of the
timestamps, and what was attached. -/
structure Sent where
  chunk : RtmpChunk
  msg : RtmpMsg
  timestamp : Nat
  bufs : List (List UInt8)

/-- `rtmp_msg_send`; `store` has the blocks of the stream with the id of the message, if
there is one. -/
def rtmpMsgSend (player : Player) (store : Option Store) (msg : RtmpMsg) :
    Player × Option Sent × Int :=
  if player.pstate = .keyframe ∧ msg.key = false then (player, none, 0)
  else
    let chunk := player.chunkFor msg
    match store with
    | none => (player.setChunk (player.chunkid msg) chunk, none, -31)
    | some store =>
      let timestamp := u32Sub msg.timestamp chunk.timestamp
      let header := rtmpMsgHeader chunk msg timestamp
      let player' := player.setChunk (player.chunkid msg) { header.2 with timestamp := msg.timestamp }
      let loop := sendLoop store player.ochunksize (player.chunkid msg) timestamp msg.size msg.offset
        msg.size 0
      let sent := ⟨chunk, msg, timestamp, header.1 :: loop.1⟩
      if loop.2 < 0 then (player', some sent, loop.2)
      else
        ({ player' with pstate := if player.pstate = .keyframe then .frame else player.pstate },
          some sent, 0)

/-- The message header of a chunk as it comes in, with the bytes the extended timestamp is
read from, if it is. -/
structure Received where
  fmt : Nat
  timestamp : Nat
  msglen : Nat
  msgtype : Nat
  streamid : Nat
  extended : Nat

/-- The timestamp before the extended one is looked for. -/
def Received.sum (header : Received) (chunk : RtmpChunk) : Nat :=
  if header.fmt ≠ 0 then u32 (chunk.timestamp + header.timestamp) else header.timestamp

/-- What `rtmp_parse` takes the header of the chunk to be. -/
def Received.read (header : Received) (chunk : RtmpChunk) : RtmpChunk :=
  if header.fmt = 3 then chunk
  else
    let timestamp :=
      if header.sum chunk = 0xFFFFFF then header.extended else header.sum chunk
    if header.fmt = 2 then { chunk with timestamp }
    else if header.fmt = 1 then
      { chunk with timestamp, msglen := header.msglen, msgtype := header.msgtype }
    else
      { chunk with
        timestamp, msglen := header.msglen, msgtype := header.msgtype, streamid := header.streamid }

/-- What `rtmp_parse` makes of the chunk stream of a header it reads, and what it takes the
header to be. -/
def Player.receive (player : Player) (channel : Nat) (header : Received) : Player × RtmpChunk :=
  let chunk := (player.chunkstreams channel).getD {}
  let chunk := header.read { chunk with fmt := header.fmt, channel := channel }
  (player.setChunk channel chunk, chunk)

/-- What happens to a connection that plays a stream: a message is sent on it, a chunk is
received, or `rtmp_datamsg_send` sets the state of the player. -/
inductive Event
  | send (store : Option Store) (msg : RtmpMsg)
  | receive (channel : Nat) (header : Received)
  | restart (pstate : PState)

/-- What can be seen of an event: a message sent or a header received. -/
inductive Seen
  | sent (sent : Sent)
  | received (chunk : RtmpChunk)

def Player.step (player : Player) : Event → Player × List Seen
  | .send store msg =>
    let result := rtmpMsgSend player store msg
    (result.1, result.2.1.toList.map .sent)
  | .receive channel header =>
    let result := player.receive channel header
    (result.1, [.received result.2])
  | .restart pstate => ({ player with pstate := pstate }, [])

def Player.run (player : Player) : List Event → List Seen
  | [] => []
  | event :: events => (player.step event).2 ++ (player.step event).1.run events

/-! The header received is what `rtmp_parse` reads of its bytes. -/

/-- The fields fit the wire. -/
structure Received.Fits (header : Received) : Prop where
  fmt : header.fmt < 4
  timestamp : header.timestamp < 2 ^ 24
  msglen : header.msglen < 2 ^ 24
  msgtype : header.msgtype < 256
  streamid : header.streamid < 2 ^ 32
  extended : header.extended < 2 ^ 32

/-- The bytes behind the basic header. -/
def Received.bytes (header : Received) (chunk : RtmpChunk) : List UInt8 :=
  let extended := if header.sum chunk = 0xFFFFFF then rnsHtob32 header.extended else []
  match header.fmt with
  | 0 => rnsHtob24 header.timestamp ++ (rnsHtob24 header.msglen ++
      ([UInt8.ofNat header.msgtype] ++ ((rnsHtob32 header.streamid).reverse ++ extended)))
  | 1 => rnsHtob24 header.timestamp ++ (rnsHtob24 header.msglen ++
      ([UInt8.ofNat header.msgtype] ++ extended))
  | 2 => rnsHtob24 header.timestamp ++ extended
  | _ => []

section
variable {ω : Type} {room : Nat → Bool} {h : Handlers ω} {b : Behind} {rconn : Conn ω}
  {chunk : RtmpChunk} {ys : List UInt8}

/-- The extended field is read if the timestamp says so, whatever the field says. -/
theorem extended_read {t : Nat} (hst : rconn.state = .chunkExtraTimestamp)
    (hc : rconn.sess.chunkstreams rconn.curchunk = some chunk) (ht : t < 2 ^ 32) (hne : ys ≠ []) :
    Feed.Passes (rtmpStep room h) b rconn
      ((if chunk.timestamp = 0xFFFFFF then rnsHtob32 t else []) ++ ys)
      { rconn with
        state := .chunkPayload
        sess := rconn.sess.setChunk rconn.curchunk { chunk with
          timestamp := if chunk.timestamp = 0xFFFFFF then t else chunk.timestamp } } ys := by
  by_cases hts : chunk.timestamp = 0xFFFFFF
  · have hlen : (rnsHtob32 t).length = 4 := by simp [rnsHtob32]
    have hread : rnsBtoh32 (memOf (rnsHtob32 t ++ ys) b.past) 0 = t :=
      btoh32_of_bytes (mem_of_holds _ _ _) ht
    rw [if_pos hts, if_pos hts]
    refine took _ hlen (by simp [hne]) ?_
    simp only [rtmpStep, hst, hc, hts, if_true, hread, Nat.not_lt_zero, if_false]
    rw [if_neg (by rw [List.length_append]; omega)]
  · have hsame : rconn.sess.setChunk rconn.curchunk chunk = rconn.sess := by
      simp [Sess.setChunk, ← hc]
    rw [if_neg hts, if_neg hts]
    refine took _ rfl (by simpa using hne) ?_
    simp only [rtmpStep, hst, hc, hts, if_false, Nat.not_lt_zero]
    rw [hsame]
    rfl

/-- From the message header on to the payload. -/
theorem received_passes {header : Received}
    (hst : rconn.state = if header.fmt = 3 then .chunkPayload else .chunkTimestamp)
    (hc : rconn.sess.chunkstreams rconn.curchunk = some chunk) (hfmt : chunk.fmt = header.fmt)
    (hfits : header.Fits) (hne : ys ≠ []) :
    Feed.Passes (rtmpStep room h) b rconn (header.bytes chunk ++ ys)
      { rconn with
        state := .chunkPayload
        sess := rconn.sess.setChunk rconn.curchunk (header.read chunk) } ys := by
  obtain ⟨hf, ht, hm, hy, hs, he⟩ := hfits
  obtain ⟨fmt, timestamp, msglen, msgtype, streamid, extended⟩ := header
  have hfield : timestampField timestamp = rnsHtob24 timestamp := by
    rw [timestampField, Nat.min_eq_left (by simp only at ht; omega)]
  have hmin : min timestamp 0xFFFFFF = timestamp := by
    simp only at ht
    omega
  obtain rfl | rfl | rfl | rfl : fmt = 0 ∨ fmt = 1 ∨ fmt = 2 ∨ fmt = 3 := by
    simp only at hf
    omega
  · simp only [Received.bytes, List.append_assoc, ← hfield]
    apply Feed.passes_trans _ (timestamp_passes hst hc _)
    refine Feed.passes_trans _ (msglen_passes (by simp [hfmt]) (set_chunk_self _ _ _) hm _) ?_
    apply Feed.passes_trans _ (msgtype_passes rfl (set_chunk_self _ _ _) hy _)
    refine Feed.passes_trans _ (streamid_passes (by simp [hfmt]) (set_chunk_self _ _ _) hs _) ?_
    have := @extended_read _ room h b { rconn with
        state := .chunkExtraTimestamp
        sess := rconn.sess.setChunk rconn.curchunk { chunk with
          timestamp := timestamp, msglen, msgtype, streamid } } _ ys _
      rfl (set_chunk_self _ _ _) he hne
    simpa [set_chunk_twice, hfmt, Received.read, Received.sum, hmin] using this
  · simp only [Received.bytes, List.append_assoc, ← hfield]
    apply Feed.passes_trans _ (timestamp_passes hst hc _)
    refine Feed.passes_trans _ (msglen_passes (by simp [hfmt]) (set_chunk_self _ _ _) hm _) ?_
    apply Feed.passes_trans _ (msgtype_passes rfl (set_chunk_self _ _ _) hy _)
    have := @extended_read _ room h b { rconn with
        state := .chunkExtraTimestamp
        sess := rconn.sess.setChunk rconn.curchunk { chunk with
          timestamp := u32 (chunk.timestamp + timestamp), msglen, msgtype } } _ ys _
      rfl (set_chunk_self _ _ _) he hne
    simpa [set_chunk_twice, hfmt, Received.read, Received.sum, hmin] using this
  · simp only [Received.bytes, List.append_assoc, ← hfield]
    apply Feed.passes_trans _ (timestamp_passes hst hc _)
    have := @extended_read _ room h b { rconn with
        state := .chunkExtraTimestamp
        sess := rconn.sess.setChunk rconn.curchunk { chunk with
          timestamp := u32 (chunk.timestamp + timestamp) } } _ ys _
      rfl (set_chunk_self _ _ _) he hne
    simpa [set_chunk_twice, hfmt, Received.read, Received.sum, hmin] using this
  · have hsame : rconn.sess.setChunk rconn.curchunk chunk = rconn.sess := by
      simp [Sess.setChunk, ← hc]
    simp only [if_true] at hst
    simp only [Received.bytes, List.nil_append, Received.read, if_true, hsame, ← hst]
    exact .here

/-- A chunk received is read from its first byte on as the player receives it. -/
theorem receive_passes {player : Player} {header : Received} {channel : Nat}
    (hst : rconn.state = .chunkFmt) (htable : rconn.sess.chunkstreams = player.chunkstreams)
    (h2 : 2 ≤ channel) (hc : channel < 65600) (hfits : header.Fits) (hne : ys ≠ []) :
    ∃ r, Feed.Passes (rtmpStep room h) b rconn (basicHeader header.fmt channel ++
        (header.bytes (rconn.sess.channel channel header.fmt) ++ ys)) r ys ∧
      r.state = .chunkPayload ∧ r.curchunk = channel ∧
      r.sess.chunkstreams = (player.receive channel header).1.chunkstreams := by
  have hfields := @received_passes _ room h b { rconn with
      state := if header.fmt = 3 then .chunkPayload else .chunkTimestamp
      curfmt := header.fmt, curchunk := channel
      sess := rconn.sess.setChunk channel (rconn.sess.channel channel header.fmt) } _ ys header
    rfl (set_chunk_self _ _ _) rfl hfits hne
  have hbasic := @basic_passes _ room h b rconn
    (header.bytes (rconn.sess.channel channel header.fmt) ++ ys) _ _ hst hfits.fmt h2 hc
  refine ⟨_, Feed.passes_trans _ hbasic (.next (n := 0) (by simp [hne]) ?_ hfields), rfl, rfl, ?_⟩
  · simp [rtmpStep, Sess.channel]
  · simp [Player.receive, Player.setChunk, Sess.setChunk, Sess.channel, htable]

end

/-! The two directions. -/

/-- The messages sent, with what was attached for them. -/
def sentOf (seen : List Seen) : List Sent :=
  seen.filterMap fun
    | .sent sent => some sent
    | .received _ => none

/-- The headers that the chunks received were taken to have. -/
def receivedOf (seen : List Seen) : List RtmpChunk :=
  seen.filterMap fun
    | .sent _ => none
    | .received chunk => some chunk

theorem sent_of_append (xs ys : List Seen) : sentOf (xs ++ ys) = sentOf xs ++ sentOf ys :=
  List.filterMap_append

theorem received_of_append (xs ys : List Seen) :
    receivedOf (xs ++ ys) = receivedOf xs ++ receivedOf ys := List.filterMap_append

def Event.incoming : Event → Bool
  | .receive .. => true
  | _ => false

/-- Each direction is as if there were no other. -/
def Separate (player : Player) (events : List Event) : Prop :=
  sentOf (player.run events) = sentOf (player.run (events.filter (!·.incoming))) ∧
    receivedOf (player.run events) = receivedOf (player.run (events.filter (·.incoming)))

/-- No chunk is received on a chunk stream that a message is sent on. -/
def Apart (player : Player) (events : List Event) : Prop :=
  ∀ channel header store msg, .receive channel header ∈ events → .send store msg ∈ events →
    channel ≠ player.chunkid msg

/-- Two players that differ in their chunk streams alone, and not in those with the ids. -/
structure Agree (ids : Nat → Prop) (p q : Player) : Prop where
  rest : q = { p with chunkstreams := q.chunkstreams }
  table : ∀ id, ids id → p.chunkstreams id = q.chunkstreams id

section
variable {ids : Nat → Prop} {p q : Player}

theorem agree_chunkid (ha : Agree ids p q) (msg : RtmpMsg) : q.chunkid msg = p.chunkid msg := by
  rw [ha.rest]
  rfl

theorem agree_set (ha : Agree ids p q) (id : Nat) (chunk : RtmpChunk) :
    Agree ids (p.setChunk id chunk) (q.setChunk id chunk) where
  rest := by
    rw [ha.rest]
    rfl
  table k hk := by
    by_cases he : k = id
    · simp [Player.setChunk, he]
    · simp [Player.setChunk, Function.update_of_ne he, ha.table k hk]

theorem agree_chunk (ha : Agree ids p q) {msg : RtmpMsg} (hid : ids (p.chunkid msg)) :
    q.chunkFor msg = p.chunkFor msg := by
  have hsame : q.chunkstreams (q.chunkid msg) = p.chunkstreams (p.chunkid msg) := by
    rw [agree_chunkid ha, ha.table _ hid]
  have hfresh : q.fresh msg = p.fresh msg := by
    rw [ha.rest]
    rfl
  have hstate : q.pstate = p.pstate := by rw [ha.rest]
  unfold Player.chunkFor
  rw [hsame, hfresh, hstate]

/-- A message is sent by both alike. -/
theorem agree_send (ha : Agree ids p q) {msg : RtmpMsg} (hid : ids (p.chunkid msg))
    (store : Option Store) :
    (rtmpMsgSend q store msg).2 = (rtmpMsgSend p store msg).2 ∧
      Agree ids (rtmpMsgSend p store msg).1 (rtmpMsgSend q store msg).1 := by
  have hchunk := agree_chunk ha hid
  have hchunkid := agree_chunkid ha msg
  have hstate : q.pstate = p.pstate := by rw [ha.rest]
  have hsize : q.ochunksize = p.ochunksize := by rw [ha.rest]
  unfold rtmpMsgSend
  rw [hstate, hchunk, hchunkid, hsize]
  split
  · exact ⟨rfl, ha⟩
  · cases store with
    | none => exact ⟨rfl, agree_set ha _ _⟩
    | some store =>
      simp only
      split
      · exact ⟨rfl, agree_set ha _ _⟩
      · refine ⟨rfl, ?_, (agree_set ha _ _).table⟩
        rw [ha.rest]
        rfl

theorem chunkid_send (player : Player) (store : Option Store) (msg other : RtmpMsg) :
    (rtmpMsgSend player store msg).1.chunkid other = player.chunkid other := by
  unfold rtmpMsgSend
  split
  · rfl
  · split
    · rfl
    · simp only
      split
      · rfl
      · rfl

/-- A message that is sent touches its own chunk stream alone. -/
theorem send_table (player : Player) (store : Option Store) (msg : RtmpMsg) {id : Nat}
    (hne : id ≠ player.chunkid msg) :
    (rtmpMsgSend player store msg).1.chunkstreams id = player.chunkstreams id := by
  unfold rtmpMsgSend
  split
  · rfl
  · split
    · exact Function.update_of_ne hne _ _
    · simp only
      split
      · exact Function.update_of_ne hne _ _
      · exact Function.update_of_ne hne _ _

/-- What is sent does not change if the chunks received are left out. -/
theorem sent_alone (events : List Event) (ha : Agree ids p q)
    (hsend : ∀ store msg, .send store msg ∈ events → ids (p.chunkid msg))
    (hreceive : ∀ channel header, .receive channel header ∈ events → ¬ ids channel) :
    sentOf (p.run events) = sentOf (q.run (events.filter (!·.incoming))) := by
  induction events generalizing p q with
  | nil => rfl
  | cons event events ih =>
    have hsend' (p' : Player) (hp : ∀ msg, p'.chunkid msg = p.chunkid msg) :
        ∀ store msg, .send store msg ∈ events → ids (p'.chunkid msg) := by
      intro store msg hm
      rw [hp]
      exact hsend store msg (List.mem_cons_of_mem _ hm)
    have hreceive' : ∀ channel header, .receive channel header ∈ events → ¬ ids channel :=
      fun channel header hm => hreceive channel header (List.mem_cons_of_mem _ hm)
    cases event with
    | send store msg =>
      obtain ⟨hsame, ha'⟩ := agree_send ha (hsend store msg List.mem_cons_self) store
      have hrest := ih ha' (hsend' _ (chunkid_send p store msg)) hreceive'
      rw [List.filter_cons_of_pos rfl, Player.run, Player.run, sent_of_append, sent_of_append]
      simp only [Player.step, hsame, hrest]
    | receive channel header =>
      have hkeep : Agree ids (p.receive channel header).1 q := by
        refine ⟨by rw [ha.rest]; rfl, fun id hid => ?_⟩
        have hne : id ≠ channel := by
          rintro rfl
          exact hreceive id header List.mem_cons_self hid
        rw [← ha.table id hid]
        exact Function.update_of_ne hne _ _
      have hrest := ih hkeep (hsend' _ fun _ => rfl) hreceive'
      rw [List.filter_cons_of_neg (by simp [Event.incoming]), Player.run, sent_of_append]
      exact hrest
    | restart pstate =>
      have hkeep : Agree ids { p with pstate } { q with pstate } :=
        ⟨by rw [ha.rest], fun id hid => ha.table id hid⟩
      have hrest := ih hkeep (hsend' _ fun _ => rfl) hreceive'
      rw [List.filter_cons_of_pos rfl, Player.run, Player.run, sent_of_append, sent_of_append]
      exact hrest

/-- What is received does not change if the messages sent are left out. -/
theorem received_alone (events : List Event)
    (htable : ∀ id, ids id → p.chunkstreams id = q.chunkstreams id)
    (hsend : ∀ store msg, .send store msg ∈ events → ¬ ids (p.chunkid msg))
    (hreceive : ∀ channel header, .receive channel header ∈ events → ids channel) :
    receivedOf (p.run events) = receivedOf (q.run (events.filter (·.incoming))) := by
  induction events generalizing p q with
  | nil => rfl
  | cons event events ih =>
    have hsend' (p' : Player) (hp : ∀ msg, p'.chunkid msg = p.chunkid msg) :
        ∀ store msg, .send store msg ∈ events → ¬ ids (p'.chunkid msg) := by
      intro store msg hm
      rw [hp]
      exact hsend store msg (List.mem_cons_of_mem _ hm)
    have hreceive' : ∀ channel header, .receive channel header ∈ events → ids channel :=
      fun channel header hm => hreceive channel header (List.mem_cons_of_mem _ hm)
    cases event with
    | send store msg =>
      have hkeep : ∀ id, ids id → (rtmpMsgSend p store msg).1.chunkstreams id = q.chunkstreams id := by
        intro id hid
        have hne : id ≠ p.chunkid msg := by
          rintro rfl
          exact hsend store msg List.mem_cons_self hid
        rw [send_table p store msg hne, htable id hid]
      have hrest := ih hkeep (hsend' _ (chunkid_send p store msg)) hreceive'
      have hnone : receivedOf (p.step (.send store msg)).2 = [] := by
        simp [receivedOf, Player.step, List.filterMap_map]
      rw [List.filter_cons_of_neg (by simp [Event.incoming]), Player.run, received_of_append, hnone]
      exact hrest
    | receive channel header =>
      have hid := hreceive channel header List.mem_cons_self
      have hsame : (p.receive channel header).2 = (q.receive channel header).2 := by
        simp only [Player.receive, htable channel hid]
      have hkeep : ∀ id, ids id → (p.receive channel header).1.chunkstreams id =
          (q.receive channel header).1.chunkstreams id := by
        intro id hid
        by_cases he : id = channel
        · simp [Player.receive, Player.setChunk, he, htable channel (he ▸ hid)]
        · simp [Player.receive, Player.setChunk, Function.update_of_ne he, htable id hid]
      have hrest := ih hkeep (hsend' _ fun _ => rfl) hreceive'
      rw [List.filter_cons_of_pos rfl, Player.run, Player.run, received_of_append,
        received_of_append]
      simp only [Player.step, hsame, hrest]
    | restart pstate =>
      have hrest := @ih { p with pstate } _ htable (hsend' _ fun _ => rfl) hreceive'
      rw [List.filter_cons_of_neg (by simp [Event.incoming]), Player.run, received_of_append]
      exact hrest

end

/-- Where no chunk is received on a chunk stream that a message is sent on, the two
directions of a connection do not meet. -/
theorem directions_separate (player : Player) (events : List Event)
    (hapart : Apart player events) : Separate player events := by
  constructor
  · exact @sent_alone (fun id => ∃ store msg, .send store msg ∈ events ∧
      id = player.chunkid msg) _ _ events ⟨rfl, fun _ _ => rfl⟩ (fun store msg hm => ⟨store, msg, hm, rfl⟩)
      (fun channel header hm ⟨store, msg, hs, he⟩ => hapart channel header store msg hm hs he)
  · exact @received_alone (fun id => ∃ header, .receive id header ∈ events) _ _ events
      (fun _ _ => rfl) (fun store msg hs ⟨header, hm⟩ => hapart _ header store msg hm hs rfl)
      (fun channel header hm => ⟨header, hm⟩)

/-- A player as `rns_rconnserver_create` and `createStream` leave it. -/
def Player.create (netstream : Nat) : Player where
  chunkstreams _ := none
  videochunk := 4
  audiochunk := 6
  netstream := netstream
  ochunksize := 128
  pstate := .datamsg
  positive := by decide

/-- One byte of video. -/
def oneByte : Store := ⟨fun _ => some [0x17], 0, 1⟩

def oneVideo : RtmpMsg := ⟨rtmpMsgtypeVideo, 1, 0, 1, 0, 1, true, 1⟩

theorem directions_separate_call :
    Separate (.create 1) [.receive 3 ⟨0, 0, 0, 20, 0, 0⟩, .send (some oneByte) oneVideo] :=
  directions_separate _ _ (by
    intro channel header store msg hr hs
    simp only [List.mem_cons, List.not_mem_nil, or_false, Event.receive.injEq, reduceCtorEq,
      false_or, Event.send.injEq] at hr hs
    rw [hr.1, hs.2]
    decide)

/-- A chunk received on chunk stream 4 sets the stream id of the video that is sent. -/
theorem shared_chunk_stream : ¬ ∀ (player : Player) (events : List Event), Separate player events := by
  intro hall
  have hsent := (hall (.create 1) [.receive 4 ⟨0, 0, 0, 20, 7, 0⟩, .send (some oneByte) oneVideo]).1
  have hstream := congrArg (fun sent => sent.map (·.chunk.streamid)) hsent
  exact absurd hstream (by decide)

end Yclib.Rtmp.Sending
