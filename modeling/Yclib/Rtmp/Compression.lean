import Yclib.Rtmp.Sending

namespace Yclib.Rtmp.Compression
open Network Sending

/-! What a receiver that follows `rtmp_parse` takes the messages sent to a player to be. -/

/-- A message as it is handed to `rtmp_msg_send`: audio or video, stored to its end. Only
video has key frames. -/
structure Playable (msg : RtmpMsg) : Prop where
  media : Media msg.type
  complete : msg.len = msg.size
  key : msg.key = true → msg.type = rtmpMsgtypeVideo

/-- The header of a message sent. -/
def headerOf (sent : Sent) : MsgHeader :=
  match sent.chunk.fmt with
  | 0 => .full sent.timestamp sent.msg.len sent.msg.type sent.chunk.streamid
  | 1 => .same sent.timestamp sent.msg.len sent.msg.type
  | 2 => .later sent.timestamp
  | _ => .none

/-- The bytes behind the basic header are those of the header, unless the format has no
room for the extended timestamp. -/
theorem msg_fields_encode {sent : Sent} (hf : sent.chunk.fmt < 3)
    (ht : sent.chunk.fmt = 2 → sent.timestamp < 0xFFFFFF) :
    msgFields sent.chunk sent.msg sent.timestamp = (headerOf sent).encode := by
  have hfield : rnsHtob24 (if sent.timestamp ≥ 16777215 then 16777215 else sent.timestamp) =
      timestampField sent.timestamp := by
    rw [timestampField]
    split
    · rw [Nat.min_eq_right (by omega)]
    · rw [Nat.min_eq_left (by omega)]
  have hext : (if sent.timestamp ≥ 0xFFFFFF then rnsHtob32 sent.timestamp else []) =
      extendedField sent.timestamp := by
    rw [extendedField]
    split
    · rw [if_neg (by omega)]
    · rw [if_pos (by omega)]
  unfold msgFields headerOf
  simp only [hfield, hext]
  obtain hfmt | hfmt | hfmt : sent.chunk.fmt = 0 ∨ sent.chunk.fmt = 1 ∨ sent.chunk.fmt = 2 := by
    omega
  · simp [hfmt, MsgHeader.encode]
  · simp [hfmt, MsgHeader.encode]
  · simp [hfmt, MsgHeader.encode, extendedField, ht hfmt]

/-- The receiver's chunk stream once it has read the header. -/
def readBy (recv : Nat → RtmpChunk) (sent : Sent) : RtmpChunk :=
  { recv sent.chunk.channel with
    fmt := sent.chunk.fmt, channel := sent.chunk.channel }.read (headerOf sent)

/-- The receiver takes a message to have the length, the type and the stream that it has. -/
structure Own (sent : Sent) (chunk : RtmpChunk) : Prop where
  msglen : chunk.msglen = sent.msg.size
  msgtype : chunk.msgtype = sent.msg.type
  streamid : chunk.streamid = sent.chunk.streamid

/-- A receiver with the chunk streams `recv` takes every message for what it is. -/
def Attributes : (Nat → RtmpChunk) → List Sent → Prop
  | _, [] => True
  | recv, sent :: later =>
    Own sent (readBy recv sent) ∧
      Attributes (Function.update recv sent.chunk.channel (readBy recv sent)) later

/-- What `rtmp_msg_send` can do: drop the message, fail before the header, or send it. -/
theorem send_cases (player : Player) (store : Option Store) (msg : RtmpMsg) :
    (player.pstate = .keyframe ∧ msg.key = false ∧
      (rtmpMsgSend player store msg).1 = player ∧ (rtmpMsgSend player store msg).2.1 = none) ∨
    ((player.pstate = .keyframe → msg.key = true) ∧
      (rtmpMsgSend player store msg).1 = player.setChunk (player.chunkid msg) (player.chunkFor msg) ∧
      (rtmpMsgSend player store msg).2.1 = none) ∨
    ((player.pstate = .keyframe → msg.key = true) ∧ ∃ sent pstate,
      (rtmpMsgSend player store msg).2.1 = some sent ∧ sent.chunk = player.chunkFor msg ∧
      sent.msg = msg ∧ sent.timestamp = u32Sub msg.timestamp sent.chunk.timestamp ∧
      sent.bufs.head? = some (rtmpMsgHeader sent.chunk msg sent.timestamp).1 ∧
      (rtmpMsgSend player store msg).1 = { player.setChunk (player.chunkid msg)
        { (rtmpMsgHeader sent.chunk msg sent.timestamp).2 with timestamp := msg.timestamp } with
          pstate := pstate }) := by
  unfold rtmpMsgSend
  by_cases hdrop : player.pstate = .keyframe ∧ msg.key = false
  · rw [if_pos hdrop]
    exact .inl ⟨hdrop.1, hdrop.2, rfl, rfl⟩
  rw [if_neg hdrop]
  have hkey : player.pstate = .keyframe → msg.key = true := by
    intro hp
    by_contra hk
    exact hdrop ⟨hp, by simpa using hk⟩
  cases store with
  | none => exact .inr (.inl ⟨hkey, rfl, rfl⟩)
  | some store =>
    refine .inr (.inr ⟨hkey, ?_⟩)
    simp only
    split
    · exact ⟨_, player.pstate, rfl, rfl, rfl, rfl, rfl, rfl⟩
    · exact ⟨_, _, rfl, rfl, rfl, rfl, rfl, rfl⟩

/-- The receiver has what the next header on the chunk stream `id` leaves out: behind the
first message its format is `fmt`, and the receiver knows the type and the stream. -/
def Synced (player : Player) (recv : Nat → RtmpChunk) (id fmt msgtype : Nat) : Prop :=
  ∀ chunk, player.chunkstreams id = some chunk → chunk.channel = id ∧
    (chunk.fmt = 0 ∨ (chunk.fmt = fmt ∧ (recv id).msgtype = msgtype ∧
      (recv id).streamid = chunk.streamid))

/-- The chunk streams of the two kinds of messages. -/
structure Tracks (player : Player) (recv : Nat → RtmpChunk) : Prop where
  video : Synced player recv player.videochunk 1 rtmpMsgtypeVideo
  audio : Synced player recv player.audiochunk 2 rtmpMsgtypeAudio
  apart : player.videochunk ≠ player.audiochunk

/-- The format of a kind of messages behind the first. -/
def laterFmt (msgtype : Nat) : Nat := if msgtype = rtmpMsgtypeAudio then 2 else 1

section
variable {player : Player} {recv : Nat → RtmpChunk} {msg : RtmpMsg}

theorem tracks_synced (ht : Tracks player recv) (hm : Playable msg) :
    Synced player recv (player.chunkid msg) (laterFmt msg.type) msg.type := by
  unfold Player.chunkid laterFmt
  rcases hm.media with ha | hv
  · rw [if_pos ha, if_pos ha, ha]
    exact ht.audio
  · have hne : msg.type ≠ rtmpMsgtypeAudio := by
      rw [hv]
      decide
    rw [if_neg hne, if_neg hne, hv]
    exact ht.video

/-- The chunk stream a message goes out on. -/
theorem chunk_for_synced (ht : Tracks player recv) (hm : Playable msg) :
    (player.chunkFor msg).channel = player.chunkid msg ∧
      ((player.chunkFor msg).fmt = 0 ∨
        ((player.chunkFor msg).fmt = laterFmt msg.type ∧
          player.chunkstreams (player.chunkid msg) = some (player.chunkFor msg) ∧
          (recv (player.chunkid msg)).msgtype = msg.type ∧
          (recv (player.chunkid msg)).streamid = (player.chunkFor msg).streamid)) := by
  have hs := tracks_synced ht hm
  unfold Player.chunkFor
  cases hc : player.chunkstreams (player.chunkid msg) with
  | none =>
    simp only [Option.getD_none]
    split
    · exact ⟨rfl, .inl rfl⟩
    · exact ⟨rfl, .inl rfl⟩
  | some chunk =>
    obtain ⟨hchannel, hfmt⟩ := hs chunk hc
    simp only [Option.getD_some]
    split
    · exact ⟨hchannel, .inl rfl⟩
    · exact ⟨hchannel, hfmt.imp_right fun ⟨hf, hty, hsid⟩ => ⟨hf, rfl, hty, hsid⟩⟩

/-- A chunk stream that is set anew, and the others, stay in step. -/
theorem tracks_set (ht : Tracks player recv) (hm : Playable msg) {chunk : RtmpChunk}
    {recv' : Nat → RtmpChunk} (hother : ∀ id, id ≠ player.chunkid msg → recv' id = recv id)
    (hchannel : chunk.channel = player.chunkid msg)
    (hchunk : chunk.fmt = 0 ∨ (chunk.fmt = laterFmt msg.type ∧
      (recv' (player.chunkid msg)).msgtype = msg.type ∧
      (recv' (player.chunkid msg)).streamid = chunk.streamid)) :
    Tracks (player.setChunk (player.chunkid msg) chunk) recv' := by
  have hkeep {id fmt msgtype : Nat} (hid : id ≠ player.chunkid msg)
      (hs : Synced player recv id fmt msgtype) :
      Synced (player.setChunk (player.chunkid msg) chunk) recv' id fmt msgtype := by
    intro c hc
    rw [hother id hid]
    exact hs c (by simpa [Player.setChunk, Function.update_of_ne hid] using hc)
  have hset : Synced (player.setChunk (player.chunkid msg) chunk) recv' (player.chunkid msg)
      (laterFmt msg.type) msg.type := by
    intro c hc
    simp only [Player.setChunk, Function.update_self, Option.some.injEq] at hc
    subst hc
    exact ⟨hchannel, hchunk⟩
  rcases hm.media with ha | hv
  · have hid : player.chunkid msg = player.audiochunk := if_pos ha
    rw [hid, laterFmt, if_pos ha, ha] at hset
    refine ⟨hkeep ?_ ht.video, ?_, ht.apart⟩
    · rw [hid]
      exact ht.apart
    · rw [hid]
      exact hset
  · have hne : msg.type ≠ rtmpMsgtypeAudio := by
      rw [hv]
      decide
    have hid : player.chunkid msg = player.videochunk := if_neg hne
    rw [hid, laterFmt, if_neg hne, hv] at hset
    refine ⟨?_, hkeep ?_ ht.audio, ht.apart⟩
    · rw [hid]
      exact hset
    · rw [hid]
      exact ht.apart.symm

/-- An audio message has been sent, and the next leaves its length out. -/
def AudioOpen (player : Player) : Prop :=
  ∃ chunk, player.chunkstreams player.audiochunk = some chunk ∧ chunk.fmt = 2

/-- The receiver misses nothing but the length of an audio message. -/
theorem read_by_sent (ht : Tracks player recv) (hm : Playable msg) {sent : Sent}
    (hc : sent.chunk = player.chunkFor msg) (hmsg : sent.msg = msg) :
    (readBy recv sent).msgtype = msg.type ∧ (readBy recv sent).streamid = sent.chunk.streamid ∧
      (readBy recv sent).msglen =
        if sent.chunk.fmt = 2 then (recv (player.chunkid msg)).msglen else msg.size := by
  obtain ⟨hchannel, hfmt⟩ := chunk_for_synced ht hm
  rw [← hc] at hchannel hfmt
  have hlen := hm.complete
  unfold readBy headerOf
  rw [hchannel, hmsg]
  rcases hfmt with h0 | ⟨hf, -, hty, hsid⟩
  · simp [h0, RtmpChunk.read, hlen]
  · unfold laterFmt at hf
    split at hf
    · simp [hf, RtmpChunk.read, hty, hsid]
    · simp [hf, RtmpChunk.read, hsid, hlen]

/-- The chunk stream behind a message sent has the format of the next. -/
theorem next_chunk (ht : Tracks player recv) (hm : Playable msg) (timestamp : Nat) :
    (rtmpMsgHeader (player.chunkFor msg) msg timestamp).2.channel = player.chunkid msg ∧
      (rtmpMsgHeader (player.chunkFor msg) msg timestamp).2.fmt = laterFmt msg.type ∧
      (rtmpMsgHeader (player.chunkFor msg) msg timestamp).2.streamid =
        (player.chunkFor msg).streamid := by
  obtain ⟨hchannel, hfmt⟩ := chunk_for_synced ht hm
  have hne : rtmpMsgtypeVideo ≠ rtmpMsgtypeAudio := by decide
  unfold rtmpMsgHeader
  simp only
  rcases hfmt with h0 | ⟨hf, -, -, -⟩
  · rw [if_pos h0]
    unfold laterFmt
    rcases hm.media with ha | hv
    · rw [if_neg (by rw [ha]; decide), if_pos ha, if_pos ha]
      exact ⟨hchannel, rfl, rfl⟩
    · rw [if_pos hv, if_neg (by rw [hv]; decide)]
      exact ⟨hchannel, rfl, rfl⟩
  · rw [if_neg (by rw [hf, laterFmt]; split <;> omega)]
    exact ⟨hchannel, hf, rfl⟩

/-- The audio chunk stream as it is sent on, where that is not waiting for a key frame. -/
theorem audio_chunk (ht : Tracks player recv) (hm : Playable msg)
    (ha : msg.type = rtmpMsgtypeAudio) (hp : player.pstate ≠ .keyframe) :
    (player.chunkFor msg).fmt = 2 ↔ AudioOpen player := by
  have hid : player.chunkid msg = player.audiochunk := if_pos ha
  constructor
  · intro hf
    obtain ⟨-, h0 | ⟨-, hc, -, -⟩⟩ := chunk_for_synced ht hm
    · omega
    · exact ⟨_, hid ▸ hc, hf⟩
  · rintro ⟨chunk, hc, hf⟩
    unfold Player.chunkFor
    rw [hid, hc]
    simp only [Option.getD_some]
    rw [if_neg (by rw [hf]; simp [hp]), hf]

/-- The receiver once it has read the header of the message. -/
def after (recv : Nat → RtmpChunk) (sent : Sent) : Nat → RtmpChunk :=
  Function.update recv sent.chunk.channel (readBy recv sent)

/-- What a message that is not sent leaves. -/
structure Silent (player next : Player) (recv : Nat → RtmpChunk) : Prop where
  tracks : Tracks next recv
  audio : AudioOpen next ↔ AudioOpen player
  audiochunk : next.audiochunk = player.audiochunk

/-- What a message that is sent leaves, and when it is taken for what it is. -/
structure Heard (player next : Player) (recv : Nat → RtmpChunk) (sent : Sent) : Prop where
  tracks : Tracks next (after recv sent)
  own : Own sent (readBy recv sent) ↔ (sent.msg.type = rtmpMsgtypeAudio → AudioOpen player →
    sent.msg.size = (recv player.audiochunk).msglen)
  first : sent.msg.type = rtmpMsgtypeAudio → ¬ AudioOpen player →
    (after recv sent player.audiochunk).msglen = sent.msg.size
  later : sent.msg.type ≠ rtmpMsgtypeAudio ∨ AudioOpen player →
    (after recv sent player.audiochunk).msglen = (recv player.audiochunk).msglen
  audio : AudioOpen next ↔ AudioOpen player ∨ sent.msg.type = rtmpMsgtypeAudio
  audiochunk : next.audiochunk = player.audiochunk

theorem audio_open_set (ht : Tracks player recv) {chunk : RtmpChunk}
    (hv : msg.type ≠ rtmpMsgtypeAudio) :
    AudioOpen (player.setChunk (player.chunkid msg) chunk) ↔ AudioOpen player := by
  have hid : player.chunkid msg = player.videochunk := if_neg hv
  unfold AudioOpen
  simp only [Player.setChunk, hid, Function.update_of_ne ht.apart.symm]

/-- A message that fails before its header. -/
theorem failed_silent (ht : Tracks player recv) (hm : Playable msg)
    (hkey : player.pstate = .keyframe → msg.key = true) :
    Silent player (player.setChunk (player.chunkid msg) (player.chunkFor msg)) recv := by
  obtain ⟨hchannel, hfmt⟩ := chunk_for_synced ht hm
  refine ⟨tracks_set ht hm (fun _ _ => rfl) hchannel
    (hfmt.imp_right fun ⟨hf, _, hty, hsid⟩ => ⟨hf, hty, hsid⟩), ?_, rfl⟩
  by_cases ha : msg.type = rtmpMsgtypeAudio
  · have hp : player.pstate ≠ .keyframe := by
      intro hp
      have hv := hm.key (hkey hp)
      rw [ha] at hv
      exact absurd hv (by decide)
    rw [← audio_chunk ht hm ha hp]
    have hid : player.chunkid msg = player.audiochunk := if_pos ha
    unfold AudioOpen
    simp [Player.setChunk, hid]
  · exact audio_open_set ht ha

/-- A message that is sent. -/
theorem sent_heard (ht : Tracks player recv) (hm : Playable msg)
    (hkey : player.pstate = .keyframe → msg.key = true) {sent : Sent} {pstate : PState}
    (hc : sent.chunk = player.chunkFor msg) (hmsg : sent.msg = msg) :
    Heard player { player.setChunk (player.chunkid msg)
      { (rtmpMsgHeader sent.chunk msg sent.timestamp).2 with timestamp := msg.timestamp } with
        pstate := pstate } recv sent := by
  obtain ⟨htype, hstream, hlen⟩ := read_by_sent ht hm hc hmsg
  obtain ⟨hchannel, hfmt, hsid⟩ := next_chunk ht hm sent.timestamp
  have hid : sent.chunk.channel = player.chunkid msg := by
    rw [hc]
    exact (chunk_for_synced ht hm).1
  have hhere : after recv sent (player.chunkid msg) = readBy recv sent := by
    rw [after, hid, Function.update_self]
  have hother : ∀ id, id ≠ player.chunkid msg → after recv sent id = recv id := by
    intro id hne
    rw [after, hid, Function.update_of_ne hne]
  rw [← hc] at hchannel hfmt hsid
  have htracks := @tracks_set _ _ _ ht hm { (rtmpMsgHeader sent.chunk msg sent.timestamp).2 with
    timestamp := msg.timestamp } _ hother hchannel (.inr ⟨hfmt, by rw [hhere, htype], by
      rw [hhere, hstream, hsid]⟩)
  have howns : Own sent (readBy recv sent) ↔
      (readBy recv sent).msglen = sent.msg.size :=
    ⟨fun ho => ho.msglen, fun hl => ⟨hl, by rw [htype, hmsg], hstream⟩⟩
  by_cases ha : msg.type = rtmpMsgtypeAudio
  · have hp : player.pstate ≠ .keyframe := by
      intro hp
      have hv := hm.key (hkey hp)
      rw [ha] at hv
      exact absurd hv (by decide)
    have haid : player.chunkid msg = player.audiochunk := if_pos ha
    have hopen := audio_chunk ht hm ha hp
    rw [← hc] at hopen
    refine ⟨⟨htracks.video, htracks.audio, htracks.apart⟩, ?_, fun _ ho => ?_, fun ho => ?_, ?_, rfl⟩
    · rw [howns, hlen, hmsg, haid]
      by_cases ho : AudioOpen player
      · rw [if_pos (hopen.mpr ho)]
        exact ⟨fun he _ _ => he.symm, fun he => (he ha ho).symm⟩
      · rw [if_neg fun hf => ho (hopen.mp hf)]
        exact iff_of_true rfl fun _ ho' => absurd ho' ho
    · rw [← haid, hhere, hlen, hmsg, if_neg fun hf => ho (hopen.mp hf)]
    · rcases ho with hne | ho
      · exact absurd (hmsg ▸ ha) hne
      · rw [← haid, hhere, hlen, if_pos (hopen.mpr ho)]
    · refine iff_of_true ⟨{ (rtmpMsgHeader sent.chunk msg sent.timestamp).2 with
        timestamp := msg.timestamp }, ?_, ?_⟩ (.inr (hmsg ▸ ha))
      · simp only [Player.setChunk, ← haid, Function.update_self]
      · simp only [hfmt, laterFmt, ha, if_true]
  · have hvid : player.chunkid msg = player.videochunk := if_neg ha
    have hne : sent.chunk.fmt ≠ 2 := by
      intro h2
      rw [hc] at h2
      obtain ⟨-, h0 | ⟨hf, -⟩⟩ := chunk_for_synced ht hm
      · omega
      · rw [laterFmt, if_neg ha] at hf
        omega
    rw [if_neg hne] at hlen
    refine ⟨⟨htracks.video, htracks.audio, htracks.apart⟩, ?_, fun ha' => absurd (hmsg ▸ ha') ha,
      fun _ => ?_, ?_, rfl⟩
    · rw [howns, hlen, hmsg]
      exact iff_of_true rfl fun ha' => absurd ha' ha
    · rw [hother _ (by rw [hvid]; exact ht.apart.symm)]
    · rw [hmsg]
      exact (audio_open_set ht ha).trans (or_iff_left ha).symm

/-- Messages to be sent and restarts of the player, and nothing that comes in. -/
def Outgoing (events : List Event) : Prop :=
  ∀ event ∈ events, match event with
    | .send _ msg => Playable msg
    | .receive .. => False
    | .restart _ => True

/-- An event of a sender: nothing is sent, or one message is. -/
theorem step_heard (ht : Tracks player recv) {event : Event}
    (hout : Outgoing [event]) :
    (sentOf (player.step event).2 = [] ∧ Silent player (player.step event).1 recv) ∨
      ∃ sent, sentOf (player.step event).2 = [sent] ∧
        Heard player (player.step event).1 recv sent := by
  have hev := hout event List.mem_cons_self
  cases event with
  | send store msg =>
    have hm : Playable msg := hev
    have hseen : sentOf (player.step (.send store msg)).2 =
        (rtmpMsgSend player store msg).2.1.toList := by
      simp [sentOf, Player.step, List.filterMap_map]
    rw [hseen]
    rcases send_cases player store msg with ⟨-, -, hsame, hnone⟩ | ⟨hkey, hset, hnone⟩ |
      ⟨hkey, sent, pstate, hsome, hc, hmsg, -, -, hnext⟩
    · refine .inl ⟨by rw [hnone]; rfl, ?_⟩
      simp only [Player.step, hsame]
      exact ⟨ht, Iff.rfl, rfl⟩
    · refine .inl ⟨by rw [hnone]; rfl, ?_⟩
      simp only [Player.step, hset]
      exact failed_silent ht hm hkey
    · refine .inr ⟨sent, by rw [hsome]; rfl, ?_⟩
      simp only [Player.step, hnext]
      exact sent_heard ht hm hkey hc hmsg
  | receive channel header => exact absurd hev not_false
  | restart pstate => exact .inl ⟨rfl, ⟨ht.video, ht.audio, ht.apart⟩, Iff.rfl, rfl⟩

theorem outgoing_cons {event : Event} {events : List Event} :
    Outgoing (event :: events) ↔ Outgoing [event] ∧ Outgoing events := by
  simp [Outgoing]

theorem run_cons (event : Event) (events : List Event) :
    sentOf (player.run (event :: events)) =
      sentOf (player.step event).2 ++ sentOf ((player.step event).1.run events) := by
  rw [Player.run, sent_of_append]

/-- Behind an audio message, the messages are taken for what they are as long as the audio
ones have the length the receiver has. -/
theorem open_attributes {events : List Event} (ht : Tracks player recv)
    (hout : Outgoing events) (ho : AudioOpen player) :
    Attributes recv (sentOf (player.run events)) ↔
      ∀ sent ∈ sentOf (player.run events), sent.msg.type = rtmpMsgtypeAudio →
        sent.msg.size = (recv player.audiochunk).msglen := by
  induction events generalizing player recv with
  | nil => simp [Player.run, sentOf, Attributes]
  | cons event events ih =>
    obtain ⟨hone, hout⟩ := outgoing_cons.mp hout
    rw [run_cons]
    rcases step_heard ht hone with ⟨hnone, hs⟩ | ⟨sent, hsome, hh⟩
    · rw [hnone, List.nil_append, ih hs.tracks hout (hs.audio.mpr ho), hs.audiochunk]
    · have hrest := ih hh.tracks hout (hh.audio.mpr (.inl ho))
      rw [hh.audiochunk, hh.later (.inr ho)] at hrest
      rw [hsome, List.singleton_append, Attributes, ← after, hrest, hh.own]
      simp only [List.mem_cons, forall_eq_or_imp, ho, true_imp_iff]

/-- The audio messages have one length. -/
def OneLength (sent : List Sent) : Prop :=
  ∀ s ∈ sent, ∀ t ∈ sent, s.msg.type = rtmpMsgtypeAudio → t.msg.type = rtmpMsgtypeAudio →
    s.msg.size = t.msg.size

theorem one_length_cons {s : Sent} {later : List Sent} : OneLength (s :: later) ↔
    (s.msg.type = rtmpMsgtypeAudio → ∀ t ∈ later, t.msg.type = rtmpMsgtypeAudio →
      t.msg.size = s.msg.size) ∧ OneLength later := by
  constructor
  · intro hone
    exact ⟨fun hs t htm hta => hone t (List.mem_cons_of_mem _ htm) s List.mem_cons_self hta hs,
      fun t htm u hum => hone t (List.mem_cons_of_mem _ htm) u (List.mem_cons_of_mem _ hum)⟩
  · rintro ⟨hfirst, hlater⟩ t htm u hum hta hua
    rcases List.mem_cons.mp htm with rfl | ht
    · rcases List.mem_cons.mp hum with rfl | hu
      · rfl
      · exact (hfirst hta u hu hua).symm
    · rcases List.mem_cons.mp hum with rfl | hu
      · exact hfirst hua t ht hta
      · exact hlater t ht u hu hta hua

theorem closed_attributes {events : List Event} (ht : Tracks player recv)
    (hout : Outgoing events) (ho : ¬ AudioOpen player) :
    Attributes recv (sentOf (player.run events)) ↔ OneLength (sentOf (player.run events)) := by
  induction events generalizing player recv with
  | nil => simp [Player.run, sentOf, Attributes, OneLength]
  | cons event events ih =>
    obtain ⟨hone, hout⟩ := outgoing_cons.mp hout
    rw [run_cons]
    rcases step_heard ht hone with ⟨hnone, hs⟩ | ⟨sent, hsome, hh⟩
    · rw [hnone, List.nil_append, ih hs.tracks hout (fun h => ho (hs.audio.mp h))]
    · have hown : Own sent (readBy recv sent) := hh.own.mpr fun _ h => absurd h ho
      rw [hsome, List.singleton_append, Attributes, ← after, and_iff_right hown, one_length_cons]
      by_cases ha : sent.msg.type = rtmpMsgtypeAudio
      · have hrest := open_attributes hh.tracks hout (hh.audio.mpr (.inr ha))
        rw [hh.audiochunk, hh.first ha ho] at hrest
        rw [hrest]
        simp only [ha, true_imp_iff]
        refine (and_iff_left_of_imp fun hall => ?_).symm
        intro s hs t ht' hsa hta
        rw [hall s hs hsa, hall t ht' hta]
      · have hrest := ih hh.tracks hout fun h => (hh.audio.mp h).elim ho ha
        rw [hrest]
        simp only [ha, false_imp_iff, true_and]

end

theorem fresh_tracks {player : Player} (recv : Nat → RtmpChunk)
    (hvideo : player.chunkstreams player.videochunk = none)
    (haudio : player.chunkstreams player.audiochunk = none)
    (hapart : player.videochunk ≠ player.audiochunk) :
    Tracks player recv ∧ ¬ AudioOpen player := by
  refine ⟨⟨?_, ?_, hapart⟩, ?_⟩
  · intro chunk hc
    rw [hvideo] at hc
    cases hc
  · intro chunk hc
    rw [haudio] at hc
    cases hc
  · rintro ⟨chunk, hc, -⟩
    rw [haudio] at hc
    cases hc

/-- From the first message on, a receiver takes every message to have its own length, type
and stream exactly if the audio messages sent all have one length. -/
theorem compression_sound (player : Player) (recv : Nat → RtmpChunk) {events : List Event}
    (hvideo : player.chunkstreams player.videochunk = none)
    (haudio : player.chunkstreams player.audiochunk = none)
    (hapart : player.videochunk ≠ player.audiochunk) (hout : Outgoing events) :
    Attributes recv (sentOf (player.run events)) ↔ OneLength (sentOf (player.run events)) := by
  obtain ⟨htracks, hopen⟩ := fresh_tracks recv hvideo haudio hapart
  exact closed_attributes htracks hout hopen

/-- Two bytes of audio, and a message of the first of them or of both. -/
def twoBytes : Store := ⟨fun _ => some [0xAF, 1], 0, 2⟩

def audioOf (size : Nat) : RtmpMsg := ⟨rtmpMsgtypeAudio, size, 0, 1, 0, size, false, 1⟩

theorem audio_playable (size : Nat) : Playable (audioOf size) := ⟨.inl rfl, rfl, nofun⟩

theorem outgoing_audio (sizes : List Nat) :
    Outgoing (sizes.map fun size => .send (some twoBytes) (audioOf size)) := by
  intro event hm
  obtain ⟨size, -, rfl⟩ := List.mem_map.mp hm
  exact audio_playable size

theorem compression_sound_audio :
    Attributes (fun _ => {}) (sentOf ((Player.create 1).run
      [.send (some twoBytes) (audioOf 2), .send (some twoBytes) (audioOf 2)])) ↔
    OneLength (sentOf ((Player.create 1).run
      [.send (some twoBytes) (audioOf 2), .send (some twoBytes) (audioOf 2)])) :=
  compression_sound (.create 1) _ rfl rfl (by decide) (outgoing_audio [2, 2])

/-- The second of two audio messages is taken to have the length of the first. -/
theorem audio_length_stale : ¬ ∀ (player : Player) (recv : Nat → RtmpChunk) (events : List Event),
    player.chunkstreams player.videochunk = none → player.chunkstreams player.audiochunk = none →
    player.videochunk ≠ player.audiochunk → Outgoing events →
    Attributes recv (sentOf (player.run events)) := by
  intro hall
  have hattr := hall (.create 1) (fun _ => {}) _ rfl rfl (by decide) (outgoing_audio [1, 2])
  have hsizes : (sentOf ((Player.create 1).run
      [.send (some twoBytes) (audioOf 1), .send (some twoBytes) (audioOf 2)])).map
        (fun sent => (sent.msg.type, sent.msg.size)) = [(8, 1), (8, 2)] := by decide
  obtain ⟨htracks, hopen⟩ := @fresh_tracks (.create 1) (fun _ => {}) rfl rfl (by decide)
  rw [closed_attributes htracks (outgoing_audio [1, 2]) hopen] at hattr
  obtain ⟨s, later, hs, h1, hlater⟩ := List.map_eq_cons_iff.mp hsizes
  obtain ⟨t, last, ht, h2, -⟩ := List.map_eq_cons_iff.mp hlater
  simp only [List.map_cons, List.map_nil, hs, ht] at hattr
  simp only [Prod.mk.injEq] at h1 h2
  have hsame := hattr s List.mem_cons_self t (List.mem_cons_of_mem _ List.mem_cons_self) h1.1 h2.1
  omega

end Yclib.Rtmp.Compression
