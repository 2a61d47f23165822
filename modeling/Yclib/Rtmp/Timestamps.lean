import Yclib.Rtmp.Boundaries

namespace Yclib.Rtmp.Timestamps
open Network Sending Compression Rtmp.Media Boundaries

/-! When each message is to be played. -/

/-- What the timestamps of the chunk streams are counted from once the message is sent. -/
def rebase (base : Nat → Nat) (sent : Sent) : Nat → Nat :=
  if sent.chunk.fmt = 0 then Function.update base sent.chunk.channel sent.chunk.timestamp else base

/-- The messages, each with what its timestamp is counted from. -/
def rebased : (Nat → Nat) → List Sent → List (Sent × Nat)
  | _, [] => []
  | base, sent :: later =>
    (sent, rebase base sent sent.chunk.channel) :: rebased (rebase base sent) later

/-- The receiver of a chunk stream has the timestamp of the last message on it. -/
def Dated (player : Player) (recv : Nat → RtmpChunk) (base : Nat → Nat) (id : Nat) : Prop :=
  ∀ chunk, player.chunkstreams id = some chunk → chunk.streamid = player.netstream ∧
    (chunk.fmt = 0 ∨ (recv id).timestamp = u32Sub chunk.timestamp (base id))

/-- The receiver is in step with the chunk streams of the player. -/
structure Clock (player : Player) (recv : Nat → RtmpChunk) (base : Nat → Nat) : Prop where
  tracks : Tracks player recv
  video : Dated player recv base player.videochunk
  audio : Dated player recv base player.audiochunk

/-- Differences add up. -/
theorem u32_sub_add (a b c : Nat) : u32 (u32Sub b c + u32Sub a b) = u32Sub a c := by
  simp only [u32, u32Sub]
  omega

theorem u32_sub_lt (a b : Nat) : u32Sub a b < 2 ^ 32 := Nat.mod_lt _ (by omega)

section
variable {player : Player} {recv recv' : Nat → RtmpChunk} {base base' : Nat → Nat} {msg : RtmpMsg}

theorem chunkid_either (player : Player) (msg : RtmpMsg) :
    player.chunkid msg = player.videochunk ∨ player.chunkid msg = player.audiochunk := by
  unfold Player.chunkid
  split
  · exact .inr rfl
  · exact .inl rfl

theorem clock_dated (hc : Clock player recv base) (msg : RtmpMsg) :
    Dated player recv base (player.chunkid msg) := by
  rcases chunkid_either player msg with hid | hid
  · exact hid ▸ hc.video
  · exact hid ▸ hc.audio

/-- A chunk stream that is set anew, and the others. -/
theorem clock_set {chunk : RtmpChunk} (hc : Clock player recv base)
    (ht : Tracks (player.setChunk (player.chunkid msg) chunk) recv')
    (hrecv : ∀ id, id ≠ player.chunkid msg → recv' id = recv id)
    (hbase : ∀ id, id ≠ player.chunkid msg → base' id = base id)
    (hstream : chunk.streamid = player.netstream)
    (hts : chunk.fmt = 0 ∨ (recv' (player.chunkid msg)).timestamp =
      u32Sub chunk.timestamp (base' (player.chunkid msg))) :
    Clock (player.setChunk (player.chunkid msg) chunk) recv' base' := by
  have hset {id : Nat} (hd : Dated player recv base id) :
      Dated (player.setChunk (player.chunkid msg) chunk) recv' base' id := by
    intro c hget
    by_cases hid : id = player.chunkid msg
    · subst hid
      simp only [Player.setChunk, Function.update_self, Option.some.injEq] at hget
      subst hget
      exact ⟨hstream, hts⟩
    · rw [hrecv id hid, hbase id hid]
      exact hd c (by simpa [Player.setChunk, Function.update_of_ne hid] using hget)
  exact ⟨ht, hset hc.video, hset hc.audio⟩

/-- The chunk stream a message goes out on is of the stream played. -/
theorem chunk_for_stream (hd : Dated player recv base (player.chunkid msg)) :
    (player.chunkFor msg).streamid = player.netstream := by
  unfold Player.chunkFor
  cases hget : player.chunkstreams (player.chunkid msg) with
  | none =>
    simp only [Option.getD_none]
    split
    · rfl
    · rfl
  | some chunk =>
    have hstream := (hd chunk hget).1
    simp only [Option.getD_some]
    split
    · exact hstream
    · exact hstream

/-- What the receiver of a header that leaves the timestamp out has of it. -/
theorem chunk_for_dated (hc : Clock player recv base) (hm : Playable msg)
    (hf : (player.chunkFor msg).fmt ≠ 0) :
    (recv (player.chunkid msg)).timestamp =
      u32Sub (player.chunkFor msg).timestamp (base (player.chunkid msg)) := by
  obtain ⟨-, h0 | ⟨-, hget, -, -⟩⟩ := chunk_for_synced hc.tracks hm
  · exact absurd h0 hf
  · exact ((clock_dated hc msg _ hget).2).resolve_left hf

theorem rebase_self_full {sent : Sent} (hf : sent.chunk.fmt = 0) :
    rebase base sent sent.chunk.channel = sent.chunk.timestamp := by
  rw [rebase, if_pos hf, Function.update_self]

theorem rebase_delta {sent : Sent} (hf : sent.chunk.fmt ≠ 0) : rebase base sent = base := if_neg hf

theorem rebase_ne {sent : Sent} {id : Nat} (hid : id ≠ sent.chunk.channel) :
    rebase base sent id = base id := by
  unfold rebase
  split
  · exact Function.update_of_ne hid _ _
  · rfl

/-- The timestamp a message is taken to have. -/
theorem read_by_timestamp {sent : Sent} (hf : sent.chunk.fmt < 3)
    (hts : sent.timestamp = u32Sub sent.msg.timestamp sent.chunk.timestamp)
    (hknown : sent.chunk.fmt ≠ 0 →
      (recv sent.chunk.channel).timestamp = u32Sub sent.chunk.timestamp (base sent.chunk.channel)) :
    (readBy recv sent).timestamp =
      u32Sub sent.msg.timestamp (rebase base sent sent.chunk.channel) := by
  have hsum (hne : sent.chunk.fmt ≠ 0) :
      u32 ((recv sent.chunk.channel).timestamp + sent.timestamp) =
        u32Sub sent.msg.timestamp (rebase base sent sent.chunk.channel) := by
    rw [hknown hne, hts, u32_sub_add, rebase_delta hne]
  unfold readBy headerOf
  obtain hfmt | hfmt | hfmt : sent.chunk.fmt = 0 ∨ sent.chunk.fmt = 1 ∨ sent.chunk.fmt = 2 := by
    omega
  · rw [rebase_self_full hfmt, ← hts, hfmt]
    rfl
  · rw [← hsum (by omega), hfmt]
    rfl
  · rw [← hsum (by omega), hfmt]
    rfl

theorem chunk_for_fmt (ht : Tracks player recv) (hm : Playable msg) :
    (player.chunkFor msg).fmt < 3 := by
  obtain ⟨-, h0 | ⟨hf, -⟩⟩ := chunk_for_synced ht hm
  · omega
  · rw [hf, laterFmt]
    split <;> omega

/-- The timestamp a message that is sent is taken to have. -/
theorem sent_timestamp (hc : Clock player recv base) (hm : Playable msg) {sent : Sent}
    (hchunk : sent.chunk = player.chunkFor msg) (hmsg : sent.msg = msg)
    (hts : sent.timestamp = u32Sub msg.timestamp sent.chunk.timestamp) :
    (readBy recv sent).timestamp =
      u32Sub msg.timestamp (rebase base sent sent.chunk.channel) := by
  have hread := @read_by_timestamp recv base sent (hchunk ▸ chunk_for_fmt hc.tracks hm) (hmsg ▸ hts)
    (by
      rw [hchunk, (chunk_for_synced hc.tracks hm).1]
      exact chunk_for_dated hc hm)
  rwa [hmsg] at hread

/-- A message that is sent keeps the receiver in step. -/
theorem sent_clock (hc : Clock player recv base) (hm : Playable msg)
    (hkey : player.pstate = .keyframe → msg.key = true) {sent : Sent} {pstate : PState}
    (hchunk : sent.chunk = player.chunkFor msg) (hmsg : sent.msg = msg)
    (hts : sent.timestamp = u32Sub msg.timestamp sent.chunk.timestamp) :
    Clock { player.setChunk (player.chunkid msg)
      { (rtmpMsgHeader sent.chunk msg sent.timestamp).2 with timestamp := msg.timestamp } with
        pstate := pstate } (after recv sent) (rebase base sent) := by
  have hchannel : sent.chunk.channel = player.chunkid msg := by
    rw [hchunk]
    exact (chunk_for_synced hc.tracks hm).1
  have hread := sent_timestamp hc hm hchunk hmsg hts
  have hheard := (@sent_heard _ _ _ hc.tracks hm hkey _ pstate hchunk hmsg).tracks
  have hnext := next_chunk hc.tracks hm sent.timestamp
  rw [← hchunk] at hnext
  have hstream : sent.chunk.streamid = player.netstream := by
    rw [hchunk]
    exact chunk_for_stream (clock_dated hc msg)
  have hclock := @clock_set player recv (after recv sent) base (rebase base sent) msg
    { (rtmpMsgHeader sent.chunk msg sent.timestamp).2 with timestamp := msg.timestamp } hc
    ⟨hheard.video, hheard.audio, hheard.apart⟩
    (fun id hid => by rw [after, hchannel, Function.update_of_ne hid])
    (fun id hid => rebase_ne (hchannel ▸ hid)) (hnext.2.2.trans hstream)
    (.inr (by
      rw [← hchannel, after, Function.update_self]
      exact hread))
  exact ⟨hheard, hclock.video, hclock.audio⟩

/-- A message that is not sent changes nothing. -/
theorem failed_clock (hc : Clock player recv base) (hm : Playable msg)
    (hkey : player.pstate = .keyframe → msg.key = true) :
    Clock (player.setChunk (player.chunkid msg) (player.chunkFor msg)) recv base := by
  refine clock_set hc (failed_silent hc.tracks hm hkey).tracks (fun _ _ => rfl) (fun _ _ => rfl)
    (chunk_for_stream (clock_dated hc msg)) ?_
  by_cases hf : (player.chunkFor msg).fmt = 0
  · exact .inl hf
  · exact .inr (chunk_for_dated hc hm hf)

end

theorem header_of_fmt {sent : Sent} (hf : sent.chunk.fmt < 3) :
    (headerOf sent).fmt = sent.chunk.fmt := by
  unfold headerOf
  obtain hfmt | hfmt | hfmt : sent.chunk.fmt = 0 ∨ sent.chunk.fmt = 1 ∨ sent.chunk.fmt = 2 := by
    omega
  · rw [hfmt]
    rfl
  · rw [hfmt]
    rfl
  · rw [hfmt]
    rfl

/-- The extended timestamp is where it is looked for, and need not be repeated. -/
structure Timely (size base : Nat) (sent : Sent) : Prop where
  once : sent.timestamp < 0xFFFFFF ∨ (sent.chunk.fmt ≠ 2 ∧ sent.msg.size ≤ size)
  agrees : Agrees (u32Sub sent.chunk.timestamp base) sent

theorem sent_bufs {player : Player} {store : Store} {msg : RtmpMsg} {sent : Sent}
    (hsome : (rtmpMsgSend player (some store) msg).2.1 = some sent) :
    sent.msg = msg ∧ sent.bufs = (rtmpMsgHeader sent.chunk msg sent.timestamp).1 ::
      (sendLoop store player.ochunksize (player.chunkid msg) sent.timestamp msg.size msg.offset
        msg.size 0).1 := by
  unfold rtmpMsgSend at hsome
  split at hsome
  · cases hsome
  · simp only at hsome
    split at hsome
    · obtain rfl := Option.some.inj hsome
      exact ⟨rfl, rfl⟩
    · obtain rfl := Option.some.inj hsome
      exact ⟨rfl, rfl⟩

/-- The bytes of a message are those of its chunks. -/
theorem sent_bytes {player : Player} {store : Store} {msg : RtmpMsg} {sent : Sent}
    {payload : List UInt8} {base : Nat}
    (hsome : (rtmpMsgSend player (some store) msg).2.1 = some sent)
    (hs : store.Has msg.offset payload) (hlen : payload.length = msg.size)
    (hchannel : sent.chunk.channel = player.chunkid msg) (hhigh : sent.chunk.channel < 320)
    (hf : sent.chunk.fmt < 3) (ht : Timely player.ochunksize base sent) :
    sent.bufs.flatten = (piecesOf player.ochunksize sent payload).flatMap Piece.wire := by
  obtain ⟨hmsg, hbufs⟩ := sent_bufs hsome
  have hfields := msg_fields_encode hf fun h2 => by
    rcases ht.once with hlt | ⟨hne, -⟩
    · exact hlt
    · exact absurd h2 hne
  have hmid : rtmpMidHeader sent.chunk.channel sent.timestamp ≠ [] := by
    rw [rtmpMidHeader, write_basic_short (by omega) hhigh, basicHeader]
    split
    · simp
    · simp
  have hloop := (@send_loop_bytes _ _ _ player.ochunksize _ _ msg.size (payload.length + 1) 0 hmid hs
    hlen.le (by omega) fun _ => player.positive).2
  have hshort : sent.timestamp < 0xFFFFFF ∨ payload.length ≤ player.ochunksize := by
    rcases ht.once with hlt | ⟨-, hle⟩
    · exact .inl hlt
    · exact .inr (by rw [hlen, ← hmsg]; exact hle)
  rw [Nat.sub_zero, chunked_pieces player.positive hhigh hshort (by omega) le_rfl, hchannel,
    hlen] at hloop
  rw [hbufs, List.flatten_cons, hloop, ← hmsg, rtmpMsgHeader, hfields, piecesOf, List.flatMap_cons,
    Piece.wire, header_of_fmt hf, write_basic_short (by omega) hhigh, hchannel, hlen, hmsg]
  simp only [List.append_assoc]

/-- Every message sent is stored, in full. -/
def Stored (events : List Event) : Prop :=
  ∀ store msg, .send (some store) msg ∈ events → msg.size < 2 ^ 24 ∧
    ∃ payload, payload ≠ [] ∧ payload.length = msg.size ∧ store.Has msg.offset payload

/-- The message that is read is the one that was sent, but for its timestamp. -/
structure Carried (chunksize : Nat) (events : List Event) (sent : Sent) (m : Message) : Prop where
  type : m.type = sent.msg.type
  size : m.size = sent.msg.size
  streamid : m.streamid = sent.chunk.streamid
  stored : ∃ store, .send (some store) sent.msg ∈ events ∧ store.Has sent.msg.offset m.payload ∧
    m.payload.length = sent.msg.size
  wire : sent.bufs.flatten = (piecesOf chunksize sent m.payload).flatMap Piece.wire

/-- The timestamp is counted from the one the chunk stream was begun with. -/
structure Played (chunksize : Nat) (events : List Event) (p : Sent × Nat) (m : Message) : Prop where
  carried : Carried chunksize events p.1 m
  timestamp : m.timestamp = u32Sub p.1.msg.timestamp p.2

/-- The chunks of the messages sent. -/
def chunksOf (size : Nat) (sent : List Sent) (payloads : List (List UInt8)) : List Piece :=
  (sent.zip payloads).flatMap fun p => piecesOf size p.1 p.2

/-- The receiver between two messages. -/
structure Between (player : Player) (recv : Nat → RtmpChunk) (base : Nat → Nat) (s : Channels) :
    Prop where
  clock : Clock player recv base
  alike : ∀ k, Alike (s.header k) (recv k)
  begun : ∀ k, s.begun k = none

/-- The chunk streams a player can have its messages on. -/
structure Short (player : Player) : Prop where
  video : 2 ≤ player.videochunk ∧ player.videochunk < 320
  audio : 2 ≤ player.audiochunk ∧ player.audiochunk < 320
  netstream : player.netstream < 2 ^ 32

section
variable {player : Player} {recv : Nat → RtmpChunk} {base : Nat → Nat} {s : Channels}

theorem step_keeps (player : Player) {event : Event} (hout : Outgoing [event]) :
    (player.step event).1.videochunk = player.videochunk ∧
      (player.step event).1.audiochunk = player.audiochunk ∧
      (player.step event).1.netstream = player.netstream ∧
      (player.step event).1.ochunksize = player.ochunksize := by
  cases event with
  | send store msg =>
    rcases send_cases player store msg with ⟨-, -, hsame, -⟩ | ⟨-, hset, -⟩ |
      ⟨-, sent, pstate, -, -, -, -, -, hnext⟩
    · simp only [Player.step, hsame, and_self]
    · simp only [Player.step, hset]
      exact ⟨rfl, rfl, rfl, rfl⟩
    · simp only [Player.step, hnext]
      exact ⟨rfl, rfl, rfl, rfl⟩
  | receive channel header => exact absurd (hout _ List.mem_cons_self) not_false
  | restart pstate => exact ⟨rfl, rfl, rfl, rfl⟩

/-- What a message sent is read as. -/
theorem sent_read {store : Store} {msg : RtmpMsg} {sent : Sent}
    (hb : Between player recv base s) (hshort : Short player) (hm : Playable msg)
    (hsome : (rtmpMsgSend player (some store) msg).2.1 = some sent)
    (hchunk : sent.chunk = player.chunkFor msg)
    (hts : sent.timestamp = u32Sub msg.timestamp sent.chunk.timestamp)
    (hstored : Stored [.send (some store) msg]) (hown : Own sent (readBy recv sent))
    (ht : Timely player.ochunksize (rebase base sent sent.chunk.channel) sent) :
    ∃ payload, Played player.ochunksize [.send (some store) msg]
        (sent, rebase base sent sent.chunk.channel) ((messageOf recv sent).add payload) ∧
      payload ≠ [] ∧ payload.length = sent.msg.size ∧
      Completes player.ochunksize player.netstream s (piecesOf player.ochunksize sent payload)
        (messageOf recv sent) payload ∧
      ∀ k, Alike ((s.run (piecesOf player.ochunksize sent payload)).header k) (after recv sent k) := by
  obtain ⟨hmsg, -⟩ := sent_bufs hsome
  obtain ⟨hsize, payload, hne, hlen, hhas⟩ := hstored store msg List.mem_cons_self
  have hchannel := (chunk_for_synced hb.clock.tracks hm).1
  have hlt := chunk_for_fmt hb.clock.tracks hm
  have hknown := chunk_for_dated hb.clock hm
  rw [← hchunk] at hchannel hlt hknown
  have hids : 2 ≤ sent.chunk.channel ∧ sent.chunk.channel < 320 := by
    rw [hchannel]
    rcases chunkid_either player msg with hid | hid
    · exact hid ▸ hshort.video
    · exact hid ▸ hshort.audio
  have hstream : sent.chunk.streamid = player.netstream := by
    rw [hchunk]
    exact chunk_for_stream (clock_dated hb.clock msg)
  have hagrees : Agrees (recv sent.chunk.channel).timestamp sent := by
    by_cases hf : sent.chunk.fmt = 0
    · exact .inl hf
    · have hag := ht.agrees
      rw [rebase_delta hf, hchannel, ← hknown hf] at hag
      rwa [hchannel]
  have htype : sent.msg.type < 256 := by
    rw [hmsg]
    rcases hm.media with ha | hv
    · rw [ha]
      decide
    · rw [hv]
      decide
  have hmsglen : sent.msg.len < 2 ^ 24 := by rw [hmsg, hm.complete]; exact hsize
  have hts32 : sent.timestamp < 2 ^ 32 := hts ▸ u32_sub_lt _ _
  have hfits : (headerOf sent).Fits := by
    unfold headerOf
    obtain hf | hf | hf : sent.chunk.fmt = 0 ∨ sent.chunk.fmt = 1 ∨ sent.chunk.fmt = 2 := by omega
    · rw [hf]
      exact ⟨hts32, hmsglen, htype, hstream ▸ hshort.netstream⟩
    · rw [hf]
      exact ⟨hts32, hmsglen, htype⟩
    · rw [hf]
      exact hts32
  rw [← hmsg] at hlen hhas
  obtain ⟨hcompletes, halike⟩ := pieces_completes player.positive hb.alike hb.begun hids.1
    (by omega) (header_of_fmt hlt) hlt hfits hown (hmsg ▸ hm.media) hstream hlen hne hagrees
  refine ⟨payload, ⟨⟨hown.msgtype, hown.msglen, hown.streamid, ⟨store, ?_, hhas, hlen⟩,
    sent_bytes hsome (hmsg ▸ hhas) (hmsg ▸ hlen) hchannel hids.2 hlt ht⟩, ?_⟩, hne, hlen, hcompletes,
    halike⟩
  · rw [hmsg]
    exact List.mem_cons_self
  · rw [hmsg]
    exact sent_timestamp hb.clock hm hchunk hmsg hts

/-- An event of a sender, and what is read of the message it sends, if it does. -/
theorem step_read (hb : Between player recv base s) (hshort : Short player) {event : Event}
    (hout : Outgoing [event]) (hstored : Stored [event]) :
    (sentOf (player.step event).2 = [] ∧ Between (player.step event).1 recv base s) ∨
      ∃ sent, sentOf (player.step event).2 = [sent] ∧ (Own sent (readBy recv sent) →
        Timely player.ochunksize (rebase base sent sent.chunk.channel) sent →
        ∃ payload, Played player.ochunksize [event] (sent, rebase base sent sent.chunk.channel)
            ((messageOf recv sent).add payload) ∧
          payload ≠ [] ∧ payload.length = sent.msg.size ∧
          Completes player.ochunksize player.netstream s (piecesOf player.ochunksize sent payload)
            (messageOf recv sent) payload ∧
          Between (player.step event).1 (after recv sent) (rebase base sent)
            (s.run (piecesOf player.ochunksize sent payload))) := by
  have hev := hout event List.mem_cons_self
  cases event with
  | send store msg =>
    have hm : Playable msg := hev
    have hseen : sentOf (player.step (.send store msg)).2 =
        (rtmpMsgSend player store msg).2.1.toList := by
      simp [sentOf, Player.step, List.filterMap_map]
    rw [hseen]
    rcases send_cases player store msg with ⟨-, -, hsame, hnone⟩ | ⟨hkey, hset, hnone⟩ |
      ⟨hkey, sent, pstate, hsome, hc, hmsg, hts, -, hnext⟩
    · refine .inl ⟨by rw [hnone]; rfl, ?_⟩
      simp only [Player.step, hsame]
      exact hb
    · refine .inl ⟨by rw [hnone]; rfl, ?_⟩
      simp only [Player.step, hset]
      exact ⟨failed_clock hb.clock hm hkey, hb.alike, hb.begun⟩
    · refine .inr ⟨sent, by rw [hsome]; rfl, fun hown ht => ?_⟩
      cases store with
      | none =>
        unfold rtmpMsgSend at hsome
        split at hsome
        · cases hsome
        · cases hsome
      | some store =>
        obtain ⟨payload, hplayed, hne, hlen, hcompletes, halike⟩ :=
          sent_read hb hshort hm hsome hc hts hstored hown ht
        refine ⟨payload, hplayed, hne, hlen, hcompletes, ?_, halike, hcompletes.begun⟩
        simp only [Player.step, hnext]
        exact sent_clock hb.clock hm hkey hc hmsg hts
  | receive channel header => exact absurd hev not_false
  | restart pstate =>
    exact .inl ⟨rfl, ⟨⟨hb.clock.tracks.video, hb.clock.tracks.audio, hb.clock.tracks.apart⟩,
      hb.clock.video, hb.clock.audio⟩, hb.alike, hb.begun⟩

/-- What is read of the messages sent: their chunks, and the messages these make up. -/
structure Reads (size streamid : Nat) (events : List Event) (base : Nat → Nat) (s : Channels)
    (sent : List Sent) (decoded : List Message) : Prop where
  bytes : sent.flatMap (·.bufs.flatten) = (chunksOf size sent (decoded.map (·.payload))).flatMap Piece.wire
  fits : Along (Media.Fits size streamid) s (chunksOf size sent (decoded.map (·.payload)))
  alone : Along Alone s (chunksOf size sent (decoded.map (·.payload)))
  length : bytesOf (chunksOf size sent (decoded.map (·.payload))) = (sent.map (·.msg.size)).sum
  complete : (s.run (chunksOf size sent (decoded.map (·.payload)))).complete = decoded.reverse ++ s.complete
  played : List.Forall₂ (Played size events) (rebased base sent) decoded

theorem played_mono {size : Nat} {events events' : List Event} {p : Sent × Nat} {m : Message}
    (hsub : ∀ event ∈ events, event ∈ events') (hp : Played size events p m) :
    Played size events' p m := by
  obtain ⟨⟨htype, hsize, hstream, ⟨store, hm, hstored⟩, hwire⟩, hts⟩ := hp
  exact ⟨⟨htype, hsize, hstream, ⟨store, hsub _ hm, hstored⟩, hwire⟩, hts⟩

/-- One message before the others. -/
theorem reads_cons {size streamid : Nat} {event : Event} {events : List Event} {sent : Sent}
    {later : List Sent} {payload : List UInt8} {decoded : List Message}
    (hplayed : Played size [event] (sent, rebase base sent sent.chunk.channel)
      ((messageOf recv sent).add payload))
    (hne : payload ≠ []) (hlen : payload.length = sent.msg.size)
    (hc : Completes size streamid s (piecesOf size sent payload) (messageOf recv sent) payload)
    (hr : Reads size streamid events (rebase base sent) (s.run (piecesOf size sent payload)) later
      decoded) :
    Reads size streamid (event :: events) base s (sent :: later)
      ((messageOf recv sent).add payload :: decoded) := by
  have hchunks : chunksOf size (sent :: later)
      (((messageOf recv sent).add payload :: decoded).map (·.payload)) =
        piecesOf size sent payload ++ chunksOf size later (decoded.map (·.payload)) := rfl
  refine ⟨?_, ?_, ?_, ?_, ?_, ?_⟩
  · rw [hchunks, List.flatMap_cons, List.flatMap_append, hr.bytes]
    exact congrArg (· ++ _) hplayed.carried.wire
  · rw [hchunks]
    exact along_append.mpr ⟨hc.fits, hr.fits⟩
  · rw [hchunks]
    exact along_append.mpr ⟨hc.alone, hr.alone⟩
  · rw [hchunks, bytes_of_append, hc.bytes, hr.length, hlen, List.map_cons, List.sum_cons]
  · have hrun : s.run (piecesOf size sent payload ++ chunksOf size later (decoded.map (·.payload))) =
        (s.run (piecesOf size sent payload)).run (chunksOf size later (decoded.map (·.payload))) :=
      List.foldl_append
    rw [hchunks, hrun, hr.complete, hc.complete, if_neg hne, List.reverse_cons, List.append_assoc]
    rfl
  · exact .cons (played_mono (fun _ hm => List.mem_cons.mpr (.inl (List.mem_singleton.mp hm))) hplayed)
      (hr.played.imp fun _ _ => played_mono fun _ => List.mem_cons_of_mem _)

/-- The messages of a run are read for what they are. -/
theorem messages_read {events : List Event} (hb : Between player recv base s)
    (hshort : Short player) (hout : Outgoing events) (hstored : Stored events)
    (hattr : Attributes recv (sentOf (player.run events)))
    (ht : ∀ p ∈ rebased base (sentOf (player.run events)), Timely player.ochunksize p.2 p.1) :
    ∃ decoded, Reads player.ochunksize player.netstream events base s (sentOf (player.run events))
      decoded := by
  induction events generalizing player recv base s with
  | nil => exact ⟨[], rfl, trivial, trivial, rfl, rfl, .nil⟩
  | cons event events ih =>
    obtain ⟨hone, hout⟩ := outgoing_cons.mp hout
    obtain ⟨hv, ha, hn, hsize⟩ := step_keeps player hone
    have hshort' : Short (player.step event).1 := by
      refine ⟨?_, ?_, ?_⟩
      · rw [hv]
        exact hshort.video
      · rw [ha]
        exact hshort.audio
      · rw [hn]
        exact hshort.netstream
    have hstored' : Stored events := fun store msg hm => hstored store msg (List.mem_cons_of_mem _ hm)
    have hfirst : Stored [event] := fun store msg hm =>
      hstored store msg (List.mem_cons.mpr (.inl (List.mem_singleton.mp hm)))
    rw [run_cons] at hattr ht ⊢
    rcases step_read hb hshort hone hfirst with ⟨hnone, hb'⟩ | ⟨sent, hsome, hread⟩
    · rw [hnone, List.nil_append] at hattr ht ⊢
      obtain ⟨decoded, hr⟩ := ih hb' hshort' hout hstored' hattr (by rw [hsize]; exact ht)
      rw [hsize, hn] at hr
      exact ⟨decoded, hr.bytes, hr.fits, hr.alone, hr.length, hr.complete,
        hr.played.imp fun _ _ => played_mono fun _ => List.mem_cons_of_mem _⟩
    · rw [hsome, List.singleton_append] at hattr ht ⊢
      obtain ⟨payload, hplayed, hne, hlen, hcompletes, hb'⟩ :=
        hread hattr.1 (ht _ List.mem_cons_self)
      obtain ⟨decoded, hr⟩ := ih hb' hshort' hout hstored' hattr.2
        (by rw [hsize]; exact fun p hp => ht p (List.mem_cons_of_mem _ hp))
      rw [hsize, hn] at hr
      exact ⟨_, reads_cons hplayed hne hlen hcompletes hr⟩

end

/-- A player that nothing has been sent to. -/
structure Starts (player : Player) : Prop where
  video : player.chunkstreams player.videochunk = none
  audio : player.chunkstreams player.audiochunk = none
  apart : player.videochunk ≠ player.audiochunk
  short : Short player

/-- A receiver with the chunk size of the player, between two chunks, and with no message. -/
structure Receives {ω : Type} (player : Player) (rconn : Conn ω) (stream : MsgStream) : Prop where
  state : rconn.state = .chunkFmt
  chunksize : rconn.ichunksize = player.ochunksize
  found : rconn.sess.nstreams player.netstream = some stream
  empty : stream.msgs = [] ∧ stream.videometa = none

/-- What is sent of the messages is read as the messages, chunk by chunk. -/
structure Decodes {ω : Type} (h : Handlers ω) (b : Behind) (player : Player) (events : List Event)
    (rconn : Conn ω) (ys : List UInt8) (decoded : List Message) : Prop where
  carried : List.Forall₂ (Carried player.ochunksize events) (sentOf (player.run events)) decoded
  bytes : (sentOf (player.run events)).flatMap (·.bufs.flatten) =
    (chunksOf player.ochunksize (sentOf (player.run events)) (decoded.map (·.payload))).flatMap
      Piece.wire
  finds : Finds h b (.start rconn) rconn
    (chunksOf player.ochunksize (sentOf (player.run events)) (decoded.map (·.payload))) ys
  complete : ((Channels.start rconn).run
    (chunksOf player.ochunksize (sentOf (player.run events)) (decoded.map (·.payload)))).complete =
      decoded.reverse

theorem rebased_fst (base : Nat → Nat) (sent : List Sent) :
    (rebased base sent).map Prod.fst = sent := by
  induction sent generalizing base with
  | nil => rfl
  | cons sent later ih => rw [rebased, List.map_cons, ih]

theorem u32_sub_cancel (a b c : Nat) : u32Sub (u32Sub a c) (u32Sub b c) = u32Sub a b := by
  simp only [u32Sub]
  omega

section
variable {ω : Type} {h : Handlers ω} {b : Behind} {player : Player} {events : List Event}
  {rconn : Conn ω} {stream : MsgStream}

/-- The messages are read, each with its timestamp. -/
theorem run_decodes (hp : Elsewhere h) (hstart : Starts player)
    (hrecv : Receives player rconn stream) (hout : Outgoing events) (hstored : Stored events)
    (hone : OneLength (sentOf (player.run events)))
    (htimely : ∀ p ∈ rebased (fun _ => 0) (sentOf (player.run events)),
      Timely player.ochunksize p.2 p.1)
    (hspace : ((sentOf (player.run events)).map (·.msg.size)).sum ≤ stream.store.space)
    (ys : List UInt8) :
    ∃ decoded, Decodes h b player events rconn ys decoded ∧
      List.Forall₂ (Played player.ochunksize events)
        (rebased (fun _ => 0) (sentOf (player.run events))) decoded := by
  obtain ⟨htracks, hopen⟩ := fresh_tracks (Channels.start rconn).header hstart.video hstart.audio
    hstart.apart
  have hdated {id : Nat} (hnone : player.chunkstreams id = none) :
      Dated player (Channels.start rconn).header (fun _ => 0) id := by
    intro chunk hc
    rw [hnone] at hc
    cases hc
  obtain ⟨decoded, hr⟩ := @messages_read player (Channels.start rconn).header
    (fun _ => 0) (.start rconn) events
    ⟨⟨htracks, hdated hstart.video, hdated hstart.audio⟩, fun k => ⟨_, _, rfl⟩, fun _ => rfl⟩
    hstart.short hout hstored ((closed_attributes htracks hout hopen).mpr hone) htimely
  have hholding : Holding player.ochunksize player.netstream rconn stream (.start rconn) := by
    refine ⟨hrecv.state, hrecv.chunksize, fun _ => rfl, hrecv.found, ?_, .inl ⟨fun _ => rfl, ?_⟩⟩
    · rintro msg (⟨hm, -⟩ | hm)
      · rw [hrecv.empty.1] at hm
        cases hm
      · rw [hrecv.empty.2] at hm
        cases hm
    · rw [MsgStream.Begins, hrecv.empty.1]
      simp
  refine ⟨decoded, ⟨?_, hr.bytes, ?_, ?_⟩, hr.played⟩
  · rw [← rebased_fst (fun _ => 0) (sentOf (player.run events)), List.forall₂_map_left_iff]
    exact hr.played.imp fun _ _ hplayed => hplayed.carried
  · exact pieces_found hp player.positive hholding hr.fits hr.alone (by rw [hr.length]; exact hspace) ys
  · rw [hr.complete]
    exact List.append_nil _

end

/-- The messages that are read are those sent, and the timestamps of those on a chunk stream
are as far apart as the stored ones, unless it is begun again between them. -/
theorem timestamps_rebased {ω : Type} {h : Handlers ω} (hp : Elsewhere h) (b : Behind)
    {player : Player} {events : List Event} {rconn : Conn ω} {stream : MsgStream}
    (hstart : Starts player) (hrecv : Receives player rconn stream) (hout : Outgoing events)
    (hstored : Stored events) (hone : OneLength (sentOf (player.run events)))
    (htimely : ∀ p ∈ rebased (fun _ => 0) (sentOf (player.run events)),
      Timely player.ochunksize p.2 p.1)
    (hspace : ((sentOf (player.run events)).map (·.msg.size)).sum ≤ stream.store.space)
    (ys : List UInt8) :
    ∃ decoded, Decodes h b player events rconn ys decoded ∧
      List.Forall₂ (fun p m => m.timestamp = u32Sub p.1.msg.timestamp p.2)
        (rebased (fun _ => 0) (sentOf (player.run events))) decoded ∧
      ∀ p m q n, (p, m) ∈ (rebased (fun _ => 0) (sentOf (player.run events))).zip decoded →
        (q, n) ∈ (rebased (fun _ => 0) (sentOf (player.run events))).zip decoded → p.2 = q.2 →
        u32Sub m.timestamp n.timestamp = u32Sub p.1.msg.timestamp q.1.msg.timestamp := by
  obtain ⟨decoded, hdecodes, hplayed⟩ := run_decodes hp hstart hrecv hout hstored hone htimely hspace
    ys
  refine ⟨decoded, hdecodes, hplayed.imp fun _ _ hm => hm.timestamp, ?_⟩
  intro p m q n hm hn hbase
  rw [(List.forall₂_zip hplayed hm).timestamp, (List.forall₂_zip hplayed hn).timestamp, hbase,
    u32_sub_cancel]

/-- One byte of audio and one of video, a second later. -/
def secondApart : List Event :=
  [.send (some oneByte) ⟨rtmpMsgtypeAudio, 1, 0, 1, 0, 1, false, 1⟩,
    .send (some oneByte) ⟨rtmpMsgtypeVideo, 1, 1000, 1, 0, 1, true, 1⟩]

theorem create_starts : Starts (.create 1) :=
  ⟨rfl, rfl, by decide, by decide, by decide, show 1 < 2 ^ 32 by omega⟩

theorem publisher_receives : Receives (.create 1) publisher MsgStream.fresh :=
  ⟨rfl, rfl, rfl, rfl, rfl⟩

theorem second_apart_outgoing : Outgoing secondApart := by
  intro event hm
  simp only [secondApart, List.mem_cons, List.not_mem_nil, or_false] at hm
  rcases hm with rfl | rfl
  · exact ⟨.inl rfl, rfl, nofun⟩
  · exact ⟨.inr rfl, rfl, fun _ => rfl⟩

theorem one_byte_has : oneByte.Has 0 [0x17] := by
  intro k hk
  obtain rfl : k = 0 := by simpa using hk
  rfl

theorem second_apart_stored : Stored secondApart := by
  intro store msg hm
  simp only [secondApart, List.mem_cons, List.not_mem_nil, or_false, Event.send.injEq,
    Option.some.injEq] at hm
  rcases hm with ⟨rfl, rfl⟩ | ⟨rfl, rfl⟩
  · exact ⟨show 1 < 2 ^ 24 by omega, [0x17], by simp, rfl, one_byte_has⟩
  · exact ⟨show 1 < 2 ^ 24 by omega, [0x17], by simp, rfl, one_byte_has⟩

/-- Both go out with a timestamp of their own, from which nothing is counted yet. -/
theorem second_apart_rebased :
    (rebased (fun _ => 0) (sentOf ((Player.create 1).run secondApart))).map
      (fun p => (p.1.msg.type, p.1.msg.size, p.1.msg.timestamp, p.1.chunk.fmt, p.1.timestamp, p.2)) =
      [(8, 1, 0, 0, 0, 0), (9, 1, 1000, 0, 0, 1000)] := by
  decide +kernel

theorem second_apart_timely (p : Sent × Nat)
    (hp : p ∈ rebased (fun _ => 0) (sentOf ((Player.create 1).run secondApart))) :
    p.1.msg.size = 1 ∧ Timely 128 p.2 p.1 := by
  have hm := List.mem_map_of_mem (f := fun p : Sent × Nat =>
    (p.1.msg.type, p.1.msg.size, p.1.msg.timestamp, p.1.chunk.fmt, p.1.timestamp, p.2)) hp
  rw [second_apart_rebased] at hm
  simp only [List.mem_cons, Prod.mk.injEq, List.not_mem_nil, or_false] at hm
  rcases hm with ⟨-, hsize, -, hfmt, hts, -⟩ | ⟨-, hsize, -, hfmt, hts, -⟩
  · exact ⟨hsize, .inl (by rw [hts]; decide), .inl hfmt⟩
  · exact ⟨hsize, .inl (by rw [hts]; decide), .inl hfmt⟩

theorem second_apart_size (sent : Sent) (hs : sent ∈ sentOf ((Player.create 1).run secondApart)) :
    sent.msg.size = 1 := by
  rw [← rebased_fst (fun _ => 0) (sentOf ((Player.create 1).run secondApart)), List.mem_map] at hs
  obtain ⟨p, hp, rfl⟩ := hs
  exact (second_apart_timely p hp).1

theorem second_apart_space :
    ((sentOf ((Player.create 1).run secondApart)).map (·.msg.size)).sum ≤
      MsgStream.fresh.store.space := by
  have hsizes : (sentOf ((Player.create 1).run secondApart)).map (·.msg.size) = [1, 1] := by
    decide +kernel
  rw [hsizes, fresh_space]
  exact show 2 ≤ 524288 by omega

theorem timestamps_rebased_second :
    ∃ decoded, Decodes .silent ⟨fun _ => 0, fun _ => 0⟩ (.create 1) secondApart publisher [] decoded ∧
      List.Forall₂ (fun p m => m.timestamp = u32Sub p.1.msg.timestamp p.2)
        (rebased (fun _ => 0) (sentOf ((Player.create 1).run secondApart))) decoded ∧
      ∀ p m q n,
        (p, m) ∈ (rebased (fun _ => 0) (sentOf ((Player.create 1).run secondApart))).zip decoded →
        (q, n) ∈ (rebased (fun _ => 0) (sentOf ((Player.create 1).run secondApart))).zip decoded →
        p.2 = q.2 → u32Sub m.timestamp n.timestamp = u32Sub p.1.msg.timestamp q.1.msg.timestamp :=
  timestamps_rebased (fun _ _ _ => rfl) ⟨fun _ => 0, fun _ => 0⟩ create_starts publisher_receives second_apart_outgoing
    second_apart_stored
    (fun s hs t ht _ _ => (second_apart_size s hs).trans (second_apart_size t ht).symm)
    (fun p hp => (second_apart_timely p hp).2) second_apart_space []

/-- What is read of either is the byte. -/
theorem second_apart_payload {sent : Sent} {m : Message} (hc : Carried 128 secondApart sent m)
    (hs : sent.msg.size = 1) : m.payload = [0x17] := by
  obtain ⟨store, hm, hhas, hlen⟩ := hc.stored
  rw [hs] at hlen
  obtain ⟨x, hx⟩ := List.length_eq_one_iff.mp hlen
  rw [hx] at hhas ⊢
  have hbyte := hhas 0 Nat.zero_lt_one
  simp only [secondApart, List.mem_cons, List.not_mem_nil, or_false, Event.send.injEq,
    Option.some.injEq] at hm
  rcases hm with ⟨rfl, hmsg⟩ | ⟨rfl, hmsg⟩
  · rw [hmsg] at hbyte
    exact congrArg (fun y => [y]) (Option.some.inj hbyte).symm
  · rw [hmsg] at hbyte
    exact congrArg (fun y => [y]) (Option.some.inj hbyte).symm

theorem second_apart_payloads {b : Behind} {decoded : List Message}
    (hd : Decodes .silent b (.create 1) secondApart publisher [] decoded) :
    decoded.map (·.payload) =
      (sentOf ((Player.create 1).run secondApart)).map fun _ => [0x17] := by
  have hlen := hd.carried.length_eq
  rw [List.map_const', hlen, List.map_eq_replicate_iff]
  intro m hm
  obtain ⟨k, hk, rfl⟩ := List.mem_iff_getElem.mp hm
  exact second_apart_payload (hd.carried.get (by omega) hk)
    (second_apart_size _ (List.getElem_mem _))

/-- The second between the audio and the video is lost. -/
theorem streams_drift : ¬ ∀ (h : Handlers Unit) (b : Behind) (player : Player) (events : List Event)
    (rconn : Conn Unit) (stream : MsgStream) (ys : List UInt8), Elsewhere h → Starts player →
    Receives player rconn stream → Outgoing events → Stored events →
    OneLength (sentOf (player.run events)) →
    ((sentOf (player.run events)).map (·.msg.size)).sum ≤ stream.store.space →
    ∃ decoded, Decodes h b player events rconn ys decoded ∧
      ∀ p m q n, (p, m) ∈ (sentOf (player.run events)).zip decoded →
        (q, n) ∈ (sentOf (player.run events)).zip decoded →
        u32Sub m.timestamp n.timestamp = u32Sub p.msg.timestamp q.msg.timestamp := by
  intro hall
  obtain ⟨b⟩ : Nonempty Behind := ⟨⟨fun _ => 0, fun _ => 0⟩⟩
  have hone : OneLength (sentOf ((Player.create 1).run secondApart)) := fun s hs t ht _ _ =>
    (second_apart_size s hs).trans (second_apart_size t ht).symm
  obtain ⟨decoded, hd, hdiff⟩ := hall .silent b (.create 1) secondApart publisher MsgStream.fresh []
    (fun _ _ _ => rfl) create_starts publisher_receives second_apart_outgoing second_apart_stored hone
    second_apart_space
  obtain ⟨decoded', hd', hplayed⟩ := @run_decodes _ .silent b _ _ _ _ (fun _ _ _ => rfl) create_starts
    publisher_receives second_apart_outgoing second_apart_stored hone
    (fun p hp => (second_apart_timely p hp).2) second_apart_space []
  have hsame : decoded = decoded' := by
    have hcomplete := hd.complete
    rw [second_apart_payloads hd, ← second_apart_payloads hd', hd'.complete] at hcomplete
    exact (List.reverse_injective hcomplete).symm
  subst hsame
  have hsent := rebased_fst (fun _ => 0) (sentOf ((Player.create 1).run secondApart))
  obtain ⟨p, later, hp, h1, hlater⟩ := List.map_eq_cons_iff.mp second_apart_rebased
  obtain ⟨q, last, hq, h2, hlast⟩ := List.map_eq_cons_iff.mp hlater
  obtain rfl := List.map_eq_nil_iff.mp hlast
  subst hq
  rw [hp] at hplayed hsent
  cases hplayed with
  | cons hm hrest =>
    cases hrest with
    | cons hn hnil =>
      cases hnil
      rw [← hsent] at hdiff
      have hlost := hdiff p.1 _ q.1 _ (.head _) (.tail _ (.head _))
      simp only [Prod.mk.injEq] at h1 h2
      rw [hm.timestamp, hn.timestamp, h1.2.2.1, h1.2.2.2.2.2, h2.2.2.1, h2.2.2.2.2.2] at hlost
      exact absurd hlost (by decide +kernel)

end Yclib.Rtmp.Timestamps
