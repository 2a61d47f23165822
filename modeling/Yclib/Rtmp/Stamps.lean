import Yclib.Rtmp.Media
import Yclib.Feed.Items

namespace Yclib.Rtmp.Stamps
open Network Rtmp.Media

/-! The timestamps of the messages on one chunk stream: what is stored, and what the headers
that begin the messages stand for. -/

variable {ω : Type}

/-- The timestamp of a message, and the one in force for the next. -/
structure Stamp where
  timestamp : Nat
  delta : Nat

/-- What the header of a message stands for behind the message before. That of format 0 says
the delta as well. -/
def Stamp.next (stamp : Stamp) : MsgHeader → Stamp
  | .full timestamp .. => ⟨timestamp, timestamp⟩
  | .same delta .. => ⟨u32 (stamp.timestamp + delta), delta⟩
  | .later delta => ⟨u32 (stamp.timestamp + delta), delta⟩
  | .none => ⟨u32 (stamp.timestamp + stamp.delta), stamp.delta⟩

/-- The timestamp field of a header. -/
def field : MsgHeader → Nat
  | .full timestamp .. => timestamp
  | .same delta .. => delta
  | .later delta => delta
  | .none => 0

/-- The timestamp that is stored for a message that begins with this header read. -/
def stampOf (chunk : RtmpChunk) : Nat :=
  u32 (if chunk.fmt = 3 then chunk.timestamp + 10 else chunk.timestamp)

/-- The chunk stream: its header, whether a message has begun, what is missing of the one begun
last, the timestamp that is stored for it and the one its header stands for, whether that was of
format 3, and the bytes that there is room for. -/
structure Track where
  header : RtmpChunk
  begun : Bool
  missing : Nat
  stored : Nat
  stamp : Stamp
  again : Bool
  space : Nat

/-- The header of the chunk stream as the chunk finds it. -/
def Track.before (t : Track) (c : Piece) : RtmpChunk :=
  { t.header with fmt := c.header.fmt, channel := c.channel }

def Track.read (t : Track) (c : Piece) : RtmpChunk := (t.before c).read c.header

/-- The bytes missing of the message that the chunk is for. -/
def Track.due (t : Track) (c : Piece) : Nat := if t.missing = 0 then (t.read c).msglen else t.missing

def Track.add (t : Track) (c : Piece) : Track where
  header := t.read c
  begun := true
  missing := t.due c - c.bytes.length
  stored := if t.missing = 0 then stampOf (t.read c) else t.stored
  stamp := if t.missing = 0 then t.stamp.next c.header else t.stamp
  again := if t.missing = 0 then c.header.fmt == 3 else t.again
  space := t.space - c.bytes.length

/-- A chunk of audio or video on the chunk stream, as long as the chunk size and its message
have it; what goes on with a message is of format 3. -/
structure Fits (size streamid channel : Nat) (t : Track) (c : Piece) : Prop where
  channel : c.channel = channel
  header : c.header.Fits
  small : field c.header < 0xFFFFFF
  continues : t.missing ≠ 0 → c.header.fmt = 3
  media : Media (t.read c).msgtype
  streamid : (t.read c).streamid = streamid
  length : c.bytes.length = min size (t.due c)

/-- The message has bytes, there is room for them, and no sum of timestamps looks extended. -/
structure Sound (t : Track) (c : Piece) : Prop where
  some : 0 < t.due c
  room : c.bytes.length ≤ t.space
  reads : (t.before c).Reads c.header

/-- A message begun with format 3 comes right behind one with another format, and the delta in
force is 10; behind it comes one with format 0. -/
def Tens (t : Track) (c : Piece) : Prop :=
  t.missing = 0 → c.header.fmt ≠ 0 → t.again = false ∧ (c.header.fmt = 3 → t.stamp.delta = 10)

/-- The message begun last has the timestamp. -/
def Head (stream : MsgStream) (timestamp : Nat) : Prop :=
  ∃ msg others, stream.msgs = msg :: others ∧ msg.timestamp = timestamp

/-- The connection between two chunks. -/
structure Stamped (size streamid channel : Nat) (rconn : Conn ω) (stream : MsgStream) (t : Track) :
    Prop where
  state : rconn.state = .chunkFmt
  chunksize : rconn.ichunksize = size
  header : (rconn.sess.chunkstreams channel).getD {} = t.header
  found : rconn.sess.nstreams streamid = some stream
  space : stream.store.space = t.space
  begun : (t.missing = 0 ∧ stream.Begins) ∨ ∃ msg others, stream.msgs = msg :: others ∧
    msg.size - msg.len = t.missing ∧ 0 < t.missing ∧ msg.timestamp = t.stored

section
variable {h : Handlers ω} {b : Behind} {rconn : Conn ω} {stream : MsgStream} {t : Track} {c : Piece}
  {size streamid channel : Nat} {ys : List UInt8}

/-- The connection once it has read the header of the chunk. -/
def headed (rconn : Conn ω) (t : Track) (c : Piece) : Conn ω :=
  { rconn with
    state := .chunkPayload, curfmt := c.header.fmt, curchunk := c.channel
    sess := rconn.sess.setChunk c.channel (t.read c) }

theorem header_passed (h2 : 2 ≤ channel) (hc : channel < 65600)
    (hh : Stamped size streamid channel rconn stream t) (hf : Fits size streamid channel t c)
    (hs : Sound t c) (hne : ys ≠ []) :
    Feed.Passes (rtmpStep cbufHolds h) b rconn
      (basicHeader c.header.fmt c.channel ++ (c.header.encode ++ ys)) (headed rconn t c) ys := by
  have hchannel := hf.channel
  subst hchannel
  have hbefore : rconn.sess.channel c.channel c.header.fmt = t.before c := by
    rw [Sess.channel, hh.header, Track.before]
  have hpass := @chunk_passes _ cbufHolds h b rconn ys c.header c.channel hh.state h2 hc hf.header
    (by rw [hbefore]; exact hs.reads) hne
  rwa [hbefore] at hpass

/-- Once the message is selected, the bytes of the chunk are stored for it. -/
theorem piece_stored (hN : 0 < size) (hh : Stamped size streamid channel rconn stream t)
    (hf : Fits size streamid channel t c) (hs : Sound t c) {target : Target ω}
    (ht : target.Selected h (rconn.sess.setChunk c.channel (t.read c)) c.channel (t.read c) stream)
    (hrem : stream.rem (t.read c) = t.due c)
    (htable : target.sess.chunkstreams c.channel = some (t.read c))
    (hstamp : (target.msg (memOf (c.bytes ++ ys) b.past)).timestamp = (t.add c).stored) :
    ∃ r stream', Feed.Passes (rtmpStep cbufHolds h) b (headed rconn t c) (c.bytes ++ ys) r ys ∧
      Stamped size streamid channel r stream' (t.add c) ∧ Head stream' (t.add c).stored := by
  have hlevel : stream.store.Level := stream.level
  have hroom : c.bytes.length ≤ stream.store.space := by
    rw [hh.space]
    exact hs.room
  have hpay := @payload_passes _ h b (headed rconn t c) (t.read c) stream target c.bytes ys rfl
    (set_chunk_self _ _ _) hf.media (by rw [hf.streamid, ← hh.found]; rfl) ht
    (by rw [hrem, hf.length]; simp only [headed, hh.chunksize])
    (by simp only [headed, hh.chunksize]; exact hN) hroom
  obtain ⟨hmissing, hless⟩ := ht.missing (memOf (c.bytes ++ ys) b.past)
  rw [hrem] at hmissing
  refine ⟨_, target.stream.wrote (target.msg (memOf (c.bytes ++ ys) b.past)) target.others c.bytes,
    hpay, ⟨rfl, hh.chunksize, ?_, ?_, ?_, ?_⟩, ?_⟩
  · rw [← hf.channel]
    simp only [Sess.setStream, htable, Option.getD_some]
    rfl
  · rw [hf.streamid]
    exact Function.update_self _ _ _
  · simp only [MsgStream.wrote, ht.store, Track.add]
    rw [pushes_space hlevel c.bytes hroom, hh.space]
  · have hleft : (t.add c).missing = t.due c - c.bytes.length := rfl
    by_cases hzero : (t.add c).missing = 0
    · refine .inl ⟨hzero, ?_⟩
      intro msg hmsg
      simp only [MsgStream.wrote, List.head?_cons, Option.mem_def, Option.some.injEq] at hmsg
      subst hmsg
      simp only [RtmpMsg.Done]
      omega
    · refine .inr ⟨_, _, rfl, ?_, Nat.pos_of_ne_zero hzero, hstamp⟩
      simp only
      omega
  · exact ⟨_, _, rfl, hstamp⟩

/-- A chunk is read and stored, and the message it is for has the timestamp of its header. -/
theorem piece_passes (hp : Elsewhere h) (hN : 0 < size) (h2 : 2 ≤ channel) (hc : channel < 65600)
    (hh : Stamped size streamid channel rconn stream t) (hf : Fits size streamid channel t c)
    (hs : Sound t c) (ys : List UInt8) :
    ∃ r stream', Feed.Passes (rtmpStep cbufHolds h) b rconn (c.wire ++ ys) r ys ∧
      Stamped size streamid channel r stream' (t.add c) ∧ Head stream' (t.add c).stored := by
  have hbytes : c.bytes ++ ys ≠ [] := by
    have hlen := hf.length
    have hsome := hs.some
    rw [← List.length_pos_iff, List.length_append]
    omega
  have hself := set_chunk_self rconn.sess c.channel (t.read c)
  have hstored : ∃ r stream', Feed.Passes (rtmpStep cbufHolds h) b (headed rconn t c) (c.bytes ++ ys) r ys ∧
      Stamped size streamid channel r stream' (t.add c) ∧ Head stream' (t.add c).stored := by
    rcases hh.begun with ⟨hzero, hb⟩ | ⟨msg, others, hmsgs, hleft, hpos, hstamp⟩
    · have hdue : t.due c = (t.read c).msglen := if_pos hzero
      have hsome := hs.some
      obtain ⟨sess', stream', htable, hstore, -, ht⟩ := begins_selected (h := h) hp hself
        (by rw [hf.streamid, ← hh.found]; rfl) hb (by omega)
      refine piece_stored hN hh hf hs ht ?_ (by rw [htable]; exact hself) ?_
      · rw [hdue]
        cases hmsgs : stream.msgs with
        | nil => simp [MsgStream.rem, hmsgs]
        | cons msg others =>
          have hd : msg.Done := hb msg (by simp [hmsgs])
          simp [MsgStream.rem, hmsgs, hd]
      · simp only [Track.add, if_pos hzero]
        rfl
    · have hne : t.missing ≠ 0 := by omega
      have hdue : t.due c = t.missing := if_neg hne
      have hless : msg.len < msg.size := by omega
      have ht := @open_selected _ h (rconn.sess.setChunk c.channel (t.read c)) c.channel (t.read c)
        stream msg others ⟨_, _, hself⟩ hmsgs hless
      refine piece_stored hN hh hf hs ht ?_ hself ?_
      · rw [hdue, ← hleft]
        have hopen : ¬ msg.Done := Nat.not_le.mpr hless
        simp only [MsgStream.rem, hmsgs, if_neg hopen]
      · simp only [Track.add, if_neg hne]
        exact hstamp
  obtain ⟨r, stream', hpass, hrest⟩ := hstored
  refine ⟨r, stream', ?_, hrest⟩
  rw [Piece.wire, List.append_assoc, List.append_assoc]
  exact Feed.passes_trans _ (header_passed h2 hc hh hf hs hbytes) hpass

end

/-! What the timestamps stored have to do with those the headers stand for. -/

section
variable {t : Track} {c : Piece} {size streamid channel : Nat}

/-- The chunk stream has the timestamp of the message before, or ten less. -/
structure InStep (t : Track) : Prop where
  plain : t.again = false → t.header.timestamp = t.stamp.timestamp
  again : t.again = true → u32 (t.header.timestamp + 10) = t.stamp.timestamp ∧ t.stamp.delta = 10
  small : t.stamp.delta < 0xFFFFFF

theorem add_begin (hzero : t.missing = 0) :
    (t.add c).stored = stampOf (t.read c) ∧ (t.add c).stamp = t.stamp.next c.header ∧
      (t.add c).again = (c.header.fmt == 3) :=
  ⟨if_pos hzero, if_pos hzero, if_pos hzero⟩

theorem add_more (hne : t.missing ≠ 0) :
    (t.add c).stored = t.stored ∧ (t.add c).stamp = t.stamp ∧ (t.add c).again = t.again :=
  ⟨if_neg hne, if_neg hne, if_neg hne⟩

/-- A message that is begun is stored with its timestamp exactly when it may be. -/
theorem begin_stamp (hi : InStep t) (hzero : t.missing = 0) (hsmall : field c.header < 0xFFFFFF) :
    (t.add c).stored = (t.add c).stamp.timestamp ↔ Tens t c := by
  obtain ⟨hplain, hagain, hdelta⟩ := hi
  rw [(add_begin hzero).1, (add_begin hzero).2.1]
  obtain ⟨channel, header, bytes⟩ := c
  simp only [Tens, hzero, forall_const, stampOf, Track.read, Track.before]
  cases header with
  | full timestamp msglen msgtype streamid =>
    simp [MsgHeader.fmt, RtmpChunk.read, Stamp.next, field, u32] at hsmall ⊢
    omega
  | same delta msglen msgtype =>
    simp only [MsgHeader.fmt, RtmpChunk.read, Stamp.next]
    cases hcase : t.again with
    | false => simp [hplain hcase, u32]
    | true =>
      obtain ⟨hten, -⟩ := hagain hcase
      simp [u32] at hten ⊢
      omega
  | later delta =>
    simp only [MsgHeader.fmt, RtmpChunk.read, Stamp.next]
    cases hcase : t.again with
    | false => simp [hplain hcase, u32]
    | true =>
      obtain ⟨hten, -⟩ := hagain hcase
      simp [u32] at hten ⊢
      omega
  | none =>
    simp only [MsgHeader.fmt, RtmpChunk.read, Stamp.next]
    cases hcase : t.again with
    | false =>
      simp [hplain hcase, u32]
      omega
    | true =>
      obtain ⟨hten, hdelta⟩ := hagain hcase
      simp [u32, hdelta] at hten ⊢
      omega

/-- The next message finds the chunk stream in step again. -/
theorem begin_step (hi : InStep t) (hzero : t.missing = 0) (hsmall : field c.header < 0xFFFFFF)
    (ht : Tens t c) : InStep (t.add c) := by
  obtain ⟨hplain, hagain, hdelta⟩ := hi
  have htens := ht hzero
  obtain ⟨-, hstamp, hadded⟩ := @add_begin t c hzero
  have hheader : (t.add c).header = t.read c := rfl
  refine ⟨?_, ?_, ?_⟩ <;> rw [hstamp]
  · rw [hadded, hheader, Track.read, Track.before]
    intro hfmt
    generalize c.header = header at *
    cases header with
    | full timestamp msglen msgtype streamid => rfl
    | same delta msglen msgtype =>
      have hsame := hplain (htens (by simp [MsgHeader.fmt])).1
      simp only [RtmpChunk.read, Stamp.next, hsame]
    | later delta =>
      have hsame := hplain (htens (by simp [MsgHeader.fmt])).1
      simp only [RtmpChunk.read, Stamp.next, hsame]
    | none => simp [MsgHeader.fmt] at hfmt
  · rw [hadded, hheader, Track.read, Track.before]
    intro hfmt
    generalize c.header = header at *
    cases header with
    | none =>
      obtain ⟨hcase, hten⟩ := htens (by simp [MsgHeader.fmt])
      simp only [RtmpChunk.read, Stamp.next, hplain hcase, hten rfl, and_self]
    | full timestamp msglen msgtype streamid => simp [MsgHeader.fmt] at hfmt
    | same delta msglen msgtype => simp [MsgHeader.fmt] at hfmt
    | later delta => simp [MsgHeader.fmt] at hfmt
  · generalize c.header = header at *
    cases header with
    | none => exact hdelta
    | full timestamp msglen msgtype streamid => exact hsmall
    | same delta msglen msgtype => exact hsmall
    | later delta => exact hsmall

/-- A chunk that goes on with a message leaves its timestamps. -/
theorem more_step (hi : InStep t) (hne : t.missing ≠ 0) (hfmt : c.header.fmt = 3) : InStep (t.add c) := by
  obtain ⟨-, hstamp, hadded⟩ := @add_more t c hne
  have hheader : (t.add c).header.timestamp = t.header.timestamp := by
    have hread : (t.add c).header = t.read c := rfl
    rw [hread, Track.read, Track.before]
    generalize c.header = header at *
    cases header with
    | none => rfl
    | full timestamp msglen msgtype streamid => simp [MsgHeader.fmt] at hfmt
    | same delta msglen msgtype => simp [MsgHeader.fmt] at hfmt
    | later delta => simp [MsgHeader.fmt] at hfmt
  refine ⟨?_, ?_, ?_⟩ <;> rw [hstamp]
  · rw [hadded, hheader]
    exact hi.plain
  · rw [hadded, hheader]
    exact hi.again
  · exact hi.small

/-- In step, and a message that is open is stored with its timestamp. -/
structure Right (t : Track) : Prop where
  step : InStep t
  stored : t.missing ≠ 0 → t.stored = t.stamp.timestamp

/-- A chunk leaves the timestamps right exactly when it may come. -/
theorem right_add (hr : Right t) (hf : Fits size streamid channel t c) (ht : Tens t c) :
    Right (t.add c) ∧ (t.add c).stored = (t.add c).stamp.timestamp := by
  by_cases hzero : t.missing = 0
  · have hstored := (begin_stamp hr.step hzero hf.small).mpr ht
    exact ⟨⟨begin_step hr.step hzero hf.small ht, fun _ => hstored⟩, hstored⟩
  · have hstored : (t.add c).stored = (t.add c).stamp.timestamp := by
      obtain ⟨hsame, hstamp, -⟩ := @add_more t c hzero
      rw [hsame, hstamp]
      exact hr.stored hzero
    exact ⟨⟨more_step hr.step hzero (hf.continues hzero), fun _ => hstored⟩, hstored⟩

theorem tens_of_stored (hr : Right t) (hf : Fits size streamid channel t c)
    (hstored : (t.add c).stored = (t.add c).stamp.timestamp) : Tens t c := by
  by_cases hzero : t.missing = 0
  · exact (begin_stamp hr.step hzero hf.small).mp hstored
  · intro hmissing
    exact absurd hmissing hzero

/-- Along chunks that may come the timestamps stay right. -/
theorem right_along {chunks : List Piece} (hr : Right t)
    (hf : Feed.Along Track.add (Fits size streamid channel) t chunks)
    (ht : Feed.Along Track.add Tens t chunks) : Right (chunks.foldl Track.add t) := by
  induction chunks generalizing t with
  | nil => exact hr
  | cons c chunks ih => exact ih (right_add hr hf.1 ht.1).1 hf.2 ht.2

/-- If every message so far is stored with its timestamp, all chunks so far might come. -/
theorem along_tens {chunks : List Piece} (hr : Right t)
    (hf : Feed.Along Track.add (Fits size streamid channel) t chunks)
    (hstored : ∀ front, front <+: chunks → front ≠ [] →
      (front.foldl Track.add t).stored = (front.foldl Track.add t).stamp.timestamp) :
    Feed.Along Track.add Tens t chunks := by
  induction chunks generalizing t with
  | nil => trivial
  | cons c chunks ih =>
    have hfirst : Tens t c := tens_of_stored hr hf.1 (hstored [c] (by simp) (by simp))
    refine ⟨hfirst, ih (right_add hr hf.1 hfirst).1 hf.2 ?_⟩
    intro front hfront hne
    exact hstored (c :: front) ((List.prefix_cons_inj c).mpr hfront) (by simp)

end

/-- The chunk stream before the messages, with the delta that is in force. -/
def Track.start (rconn : Conn ω) (channel delta : Nat) (stream : MsgStream) : Track where
  header := (rconn.sess.chunkstreams channel).getD {}
  begun := false
  missing := 0
  stored := 0
  stamp := ⟨((rconn.sess.chunkstreams channel).getD {}).timestamp, delta⟩
  again := false
  space := stream.store.space

theorem start_right {rconn : Conn ω} {channel delta : Nat} {stream : MsgStream}
    (hdelta : delta < 0xFFFFFF) : Right (Track.start rconn channel delta stream) :=
  ⟨⟨fun _ => rfl, fun hagain => (nomatch hagain), hdelta⟩, fun hmissing => absurd rfl hmissing⟩

section
variable {h : Handlers ω} {rconn : Conn ω} {stream : MsgStream} {size streamid channel : Nat}

/-- The connection between two chunks, the message begun last with the timestamp stored. -/
def Follows (size streamid channel : Nat) (rconn : Conn ω) (t : Track) : Prop :=
  ∃ stream, Stamped size streamid channel rconn stream t ∧ (t.begun = true → Head stream t.stored)

theorem follows_takes (hp : Elsewhere h) (hN : 0 < size) (h2 : 2 ≤ channel) (hc : channel < 65600) :
    Feed.Takes Track.add (rtmpStep cbufHolds h) Piece.wire
      (fun t c => Fits size streamid channel t c ∧ Sound t c) (Follows size streamid channel) := by
  intro b rconn t c ys hinv hfits
  obtain ⟨stream, hh, -⟩ := hinv
  obtain ⟨r, stream', hpass, hh', hhead⟩ := piece_passes (b := b) hp hN h2 hc hh hfits.1 hfits.2 ys
  exact ⟨r, hpass, stream', hh', fun _ => hhead⟩

theorem begun_run {t : Track} {chunks : List Piece} (hne : chunks ≠ []) :
    (chunks.foldl Track.add t).begun = true := by
  rcases List.eq_nil_or_concat chunks with rfl | ⟨front, c, rfl⟩
  · exact absurd rfl hne
  · rw [List.concat_eq_append, List.foldl_concat]
    rfl

/-- After these chunks the message begun last is stored with the timestamp its header stands
for, however the reads group them. -/
def Dated (h : Handlers ω) (rconn : Conn ω) (streamid : Nat) (t : Track) (chunks : List Piece) : Prop :=
  ∀ reads : List (Behind × List Piece), reads.flatMap Prod.snd = chunks →
    ∃ r stream', Feed.Runs (rtmpStep cbufHolds h) rconn
        (reads.map fun read => (read.1, read.2.flatMap Piece.wire)) r ∧
      r.sess.nstreams streamid = some stream' ∧
      Head stream' (chunks.foldl Track.add t).stamp.timestamp

/-- What is stored is what the code makes of the headers. -/
theorem dated_iff (hp : Elsewhere h) (hN : 0 < size) (h2 : 2 ≤ channel) (hc : channel < 65600)
    {t : Track} (hh : Stamped size streamid channel rconn stream t) (hbegun : t.begun = false)
    {chunks : List Piece}
    (hf : Feed.Along Track.add (fun t c => Fits size streamid channel t c ∧ Sound t c) t chunks)
    (hne : chunks ≠ []) :
    Dated h rconn streamid t chunks ↔
      (chunks.foldl Track.add t).stored = (chunks.foldl Track.add t).stamp.timestamp := by
  have hfollows : Follows size streamid channel rconn t := by
    refine ⟨stream, hh, fun htrue => ?_⟩
    rw [hbegun] at htrue
    cases htrue
  have hrun (reads : List (Behind × List Piece)) (hreads : reads.flatMap Prod.snd = chunks) :
      ∃ r stream', Feed.Runs (rtmpStep cbufHolds h) rconn
          (reads.map fun read => (read.1, read.2.flatMap Piece.wire)) r ∧
        r.sess.nstreams streamid = some stream' ∧ Head stream' (chunks.foldl Track.add t).stored := by
    subst hreads
    obtain ⟨r, hruns, stream', hh', hhead⟩ := Feed.items_run (follows_takes hp hN h2 hc) hfollows hf
    exact ⟨r, stream', hruns, hh'.found, hhead (begun_run hne)⟩
  constructor
  · intro hdated
    have hone : [((⟨fun _ => 0, fun _ => 0⟩ : Behind), chunks)].flatMap Prod.snd = chunks := by simp
    obtain ⟨r, stream', hruns, hfound, msg, others, hmsgs, hstored⟩ := hrun _ hone
    obtain ⟨r', stream'', hruns', hfound', msg', others', hmsgs', hstamp⟩ := hdated _ hone
    obtain rfl := Feed.runs_unique _ hruns hruns'
    rw [hfound] at hfound'
    cases hfound'
    rw [hmsgs] at hmsgs'
    cases hmsgs'
    rw [← hstored, hstamp]
  · intro hsame reads hreads
    rw [← hsame]
    exact hrun reads hreads

/-- The messages of a chunk stream are all stored with the timestamps their headers stand for
exactly if format 3 begins a message only right behind one with another format and a delta of
ten, and format 0 the one behind it. -/
theorem stamps_iff (hp : Elsewhere h) {delta : Nat} (hst : rconn.state = .chunkFmt)
    (hN : 0 < rconn.ichunksize) (h2 : 2 ≤ channel) (hc : channel < 65600)
    (hs : rconn.sess.nstreams streamid = some stream) (hb : stream.Begins) (hdelta : delta < 0xFFFFFF)
    {chunks : List Piece}
    (hf : Feed.Along Track.add (fun t c => Fits rconn.ichunksize streamid channel t c ∧ Sound t c)
      (.start rconn channel delta stream) chunks) :
    (∀ front, front <+: chunks → front ≠ [] →
        Dated h rconn streamid (.start rconn channel delta stream) front) ↔
      Feed.Along Track.add Tens (.start rconn channel delta stream) chunks := by
  have hh : Stamped rconn.ichunksize streamid channel rconn stream (.start rconn channel delta stream) :=
    ⟨hst, rfl, rfl, hs, rfl, .inl ⟨rfl, hb⟩⟩
  have hright := @start_right _ rconn channel delta stream hdelta
  have hfits := Feed.along_mono Track.add (fun _ _ hboth => hboth.1) hf
  have hfront (front : List Piece) (hpre : front <+: chunks) : Feed.Along Track.add
      (fun t c => Fits rconn.ichunksize streamid channel t c ∧ Sound t c)
      (.start rconn channel delta stream) front := by
    obtain ⟨later, rfl⟩ := hpre
    exact ((Feed.along_append Track.add).mp hf).1
  constructor
  · intro hdated
    apply along_tens hright hfits
    intro front hpre hne
    exact (dated_iff hp hN h2 hc hh rfl (hfront front hpre) hne).mp (hdated front hpre hne)
  · intro htens front hpre hne
    apply (dated_iff hp hN h2 hc hh rfl (hfront front hpre) hne).mpr
    obtain ⟨later, rfl⟩ := hpre
    rcases List.eq_nil_or_concat front with rfl | ⟨init, c, rfl⟩
    · exact absurd rfl hne
    · rw [List.concat_eq_append] at *
      obtain ⟨hfits', -⟩ := (Feed.along_append Track.add).mp hfits
      obtain ⟨htens', -⟩ := (Feed.along_append Track.add).mp htens
      obtain ⟨hinit, hlast⟩ := (Feed.along_append Track.add).mp hfits'
      obtain ⟨hinit', hlast'⟩ := (Feed.along_append Track.add).mp htens'
      rw [List.foldl_concat]
      exact (right_add (right_along hright hinit hinit') hlast.1 hlast'.1).2

end

/-- An audio message of one byte, and another that begins with format 3. -/
def twice (timestamp : Nat) : List Piece :=
  [⟨4, .full timestamp 1 rtmpMsgtypeAudio 1, [0]⟩, ⟨4, .none, [0]⟩]

theorem twice_fits {timestamp : Nat} (hsmall : timestamp < 0xFFFFFF) :
    Feed.Along Track.add (fun t c => Fits publisher.ichunksize 1 4 t c ∧ Sound t c)
      (.start publisher 4 0 MsgStream.fresh) (twice timestamp) := by
  have hroom : ∀ n, n ≤ 2 → n ≤ MsgStream.fresh.store.space := by
    intro n hn
    rw [fresh_space]
    omega
  refine ⟨⟨⟨rfl, ?_, hsmall, ?_, ?_, rfl, rfl⟩, ⟨Nat.zero_lt_one, hroom 1 (by decide), trivial⟩⟩,
    ⟨⟨rfl, trivial, by decide, fun _ => rfl, ?_, rfl, rfl⟩, ⟨Nat.zero_lt_one, ?_, trivial⟩⟩, trivial⟩
  · exact ⟨by omega, by decide, by decide, by decide⟩
  · intro hmissing
    exact absurd rfl hmissing
  · exact .inl rfl
  · exact .inl rfl
  · have htwo := hroom 2 (by decide)
    simp only [Track.add, Track.start, List.length_singleton]
    omega

theorem fresh_begins : MsgStream.fresh.Begins := by
  simp [MsgStream.Begins, MsgStream.fresh]

theorem stamps_iff_ten : Dated .silent publisher 1 (.start publisher 4 0 MsgStream.fresh) (twice 10) := by
  have htens : Feed.Along Track.add Tens (.start publisher 4 0 MsgStream.fresh) (twice 10) :=
    ⟨fun _ hfmt => absurd rfl hfmt, fun _ _ => ⟨rfl, fun _ => rfl⟩, trivial⟩
  exact (stamps_iff (fun _ _ _ => rfl) rfl (by decide) (by decide) (by decide) rfl fresh_begins
    (by decide) (twice_fits (by decide))).mpr htens (twice 10) List.prefix_rfl (by simp [twice])

/-- Behind a message at 20, format 3 begins one at 40, and 30 is stored. -/
theorem twenty_stored_wrong :
    ¬ Dated .silent publisher 1 (.start publisher 4 0 MsgStream.fresh) (twice 20) := by
  have hh : Stamped publisher.ichunksize 1 4 publisher MsgStream.fresh (.start publisher 4 0 MsgStream.fresh) :=
    ⟨rfl, rfl, rfl, rfl, rfl, .inl ⟨rfl, fresh_begins⟩⟩
  intro hdated
  have hsame := (dated_iff (fun _ _ _ => rfl) (by decide) (by decide) (by decide) hh rfl
    (twice_fits (by decide)) (by simp [twice])).mp hdated
  exact absurd hsame (by decide)

end Yclib.Rtmp.Stamps
