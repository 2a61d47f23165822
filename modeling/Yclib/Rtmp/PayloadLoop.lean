import Yclib.Rtmp.Media
import Yclib.Util.Loop

namespace Yclib.Rtmp.PayloadLoop
open Network Loop

/-! The loop of `rtmp_msg_payload`, round by round. -/

variable {ω : Type}

/-- What the loop that copies has come to: the stream and the message it writes to, the
messages before that one, what is still to be copied and how much was. -/
structure Copying where
  stream : MsgStream
  msg : RtmpMsg
  others : List RtmpMsg
  rest : List UInt8
  written : Nat

theorem fill_level {st st' : Store} {bs rest : List UInt8} (hl : st.Level) (hne : bs ≠ [])
    (h : st.fill bs = some (st', rest)) : st'.Level ∧ rest.length < bs.length := by
  obtain ⟨len, hpos, hlen, hfill⟩ := fill_pushes hl hne (fill_room h)
  rw [h] at hfill
  cases hfill
  refine ⟨pushes_level hl _, ?_⟩
  rw [List.length_drop]
  omega

/-- A round of the loop that copies: a block is filled. There is no other round once all is
copied, or without a block. -/
def Copying.round (c : Copying) : Option Copying :=
  if hne : c.rest = [] then none
  else match hfill : c.stream.store.fill c.rest with
    | none => none
    | some (store, rest) =>
      let len := c.rest.length - rest.length
      some { c with
        stream := { c.stream with store := store, level := (fill_level c.stream.level hne hfill).1 }
        msg := { c.msg with len := c.msg.len + len }
        rest := rest
        written := c.written + len }

/-- What `rtmp_msg_payload` returns once the loop that copies is over: `walker` goes back to
`buf` unless the message is complete. -/
def Copying.result (c : Copying) (streamid : Nat) (sess : Sess ω) : Sess ω × Nat :=
  (sess.setStream streamid { c.stream with msgs := c.msg :: c.others },
    if c.msg.len < c.msg.size then 0 else c.written)

/-- The state of the loop, and how many messages were allocated before. -/
inductive Stage (ω : Type)
  /-- `RTMP_MSG_INIT`, with the message that was found. -/
  | init (sess : Sess ω) (msg : Option RtmpMsg) (made : Nat)
  /-- `RTMP_MSG_WRITE`. -/
  | write (sess : Sess ω) (made : Nat)
  /-- The loop inside `RTMP_MSG_WRITE`. -/
  | copy (sess : Sess ω) (copying : Copying)
  /-- `RTMP_MSG_ERROR`. -/
  | error (sess : Sess ω)

section

-- `alloc k` tells whether memory is found for the message after `k` others. The two nodes
-- were found under `curchunk` and under the stream id of `chunk`.
variable (h : Handlers ω) (alloc : Nat → Bool) (curchunk : Nat) (chunk : RtmpChunk)
  (stream : MsgStream) (m : Mem) (size : Nat)

/-- What `stream` points to. -/
def streamAt (sess : Sess ω) : MsgStream := (sess.nstreams chunk.streamid).getD stream

/-- What `RTMP_MSG_INIT` does with the message before. -/
def initSess (sess : Sess ω) : Option RtmpMsg → Sess ω
  | none => sess
  | some msg =>
    if msg.Done then msgComplete h sess chunk.streamid (streamAt chunk stream sess) msg else sess

/-- The message is added to the stream. -/
def addMsg (sess : Sess ω) : Sess ω :=
  let header := (sess.chunkstreams curchunk).getD chunk
  let stream := streamAt chunk stream sess
  sess.setStream chunk.streamid { stream with
    msgs := .create header stream.store.offset m :: stream.msgs }

/-- One round of the loop, and the result if it was the last one. Where no block is left, the
state ERROR is set, and not looked at any more. -/
def payloadRound : Stage ω → Round (Stage ω) (Sess ω × Nat)
  | .init sess msg made =>
    let sess := initSess h chunk stream sess msg
    if alloc made then .go (.write (addMsg curchunk chunk stream m sess) (made + 1))
    else .go (.error sess)
  | .write sess made =>
    let stream := streamAt chunk stream sess
    match stream.msgs with
    | [] => .go (.init sess none made)
    | msg :: others =>
      if msg.Done then .go (.init sess (some msg) made)
      else .go (.copy sess ⟨stream, msg, others, slice m 0 (min size (msg.size - msg.len)), 0⟩)
  | .copy sess c =>
    match c.round with
    | some c => .go (.copy sess c)
    | none => .exit (c.result chunk.streamid sess)
  | .error sess => .exit (sess, size)

/-- `rtmp_msg_payload` returns with `r`: at once if the stream is not there. -/
def Returns (sess : Sess ω) (r : Sess ω × Nat) : Prop :=
  match sess.nstreams chunk.streamid with
  | none => r = (sess, size)
  | some stream => Ends (payloadRound h alloc curchunk chunk stream m size) (.write sess 0) r

end

/-- The payload begins a message without bytes. -/
def BeginsEmpty (sess : Sess ω) (chunk : RtmpChunk) : Prop :=
  chunk.msglen = 0 ∧ ∃ stream, sess.nstreams chunk.streamid = some stream ∧ stream.Begins

section
variable {h : Handlers ω} {alloc : Nat → Bool} {curchunk : Nat} {chunk : RtmpChunk}
  {stream : MsgStream} {m : Mem} {size : Nat} {sess : Sess ω} {r : Sess ω × Nat}

theorem round_less {c c' : Copying} (hr : c.round = some c') : c'.rest.length < c.rest.length := by
  unfold Copying.round at hr
  split at hr
  · cases hr
  · rename_i hne
    split at hr
    · cases hr
    · rename_i store rest hfill
      cases hr
      exact (fill_level c.stream.level hne hfill).2

theorem copy_goes {c c' : Copying} (hr : c.round = some c') :
    payloadRound h alloc curchunk chunk stream m size (.copy sess c) = .go (.copy sess c') := by
  simp only [payloadRound, hr]

theorem copy_exits {c : Copying} (hr : c.round = none) :
    payloadRound h alloc curchunk chunk stream m size (.copy sess c) =
      .exit (c.result chunk.streamid sess) := by
  simp only [payloadRound, hr]

/-- The bytes that are still to be copied. -/
def Stage.left : Stage ω → Nat
  | .copy _ c => c.rest.length
  | _ => 0

/-- The loop that copies ends: every round takes a byte at least, wherever in a block it is. -/
theorem copy_ends (c : Copying) :
    ∃ r, Ends (payloadRound h alloc curchunk chunk stream m size) (.copy sess c) r := by
  refine @ends_of_rank _ _ _ _ (fun s => ∃ c, s = .copy sess c) Stage.left ?_ ⟨c, rfl⟩
  intro s hs
  obtain ⟨c, rfl⟩ := hs
  cases hr : c.round with
  | none => exact .inl ⟨_, copy_exits hr⟩
  | some c' => exact .inr ⟨_, copy_goes hr, ⟨c', rfl⟩, round_less hr⟩

/-- The header is the one the payload came with, up to what a message sent sets. -/
def Headed (curchunk : Nat) (chunk : RtmpChunk) (sess : Sess ω) : Prop :=
  ∃ fmt timestamp, sess.chunkstreams curchunk = some { chunk with fmt, timestamp }

theorem init_headed (h : Handlers ω) (stream : MsgStream) (hc : Headed curchunk chunk sess)
    (msg : Option RtmpMsg) :
    Headed curchunk chunk (initSess h chunk stream sess msg) := by
  obtain ⟨fmt, timestamp, hc⟩ := hc
  cases msg with
  | none => exact ⟨fmt, timestamp, hc⟩
  | some msg =>
    by_cases hd : msg.Done
    · have hkept := @msg_complete_chunk _ h sess chunk.streamid curchunk (streamAt chunk stream sess)
        msg _ hc
      rwa [Headed, initSess, if_pos hd]
    · rw [Headed, initSess, if_neg hd]
      exact ⟨fmt, timestamp, hc⟩

/-- The message that is added has the length that the header says, and no bytes yet. -/
theorem add_begins (hc : Headed curchunk chunk sess) :
    Headed curchunk chunk (addMsg curchunk chunk stream m sess) ∧
      ∃ msg others, (streamAt chunk stream (addMsg curchunk chunk stream m sess)).msgs = msg :: others ∧
        msg.size = chunk.msglen ∧ msg.len = 0 := by
  obtain ⟨fmt, timestamp, hc⟩ := hc
  have hadd : streamAt chunk stream (addMsg curchunk chunk stream m sess) =
      { streamAt chunk stream sess with
        msgs := .create { chunk with fmt, timestamp } (streamAt chunk stream sess).store.offset m ::
          (streamAt chunk stream sess).msgs } := by
    simp only [addMsg, streamAt, hc, Sess.setStream, Function.update_self, Option.getD_some]
  exact ⟨⟨fmt, timestamp, hc⟩, _, _, by rw [hadd], rfl, rfl⟩

theorem write_copies {msg : RtmpMsg} {others : List RtmpMsg} {made : Nat}
    (hmsgs : (streamAt chunk stream sess).msgs = msg :: others) (hd : ¬ msg.Done) :
    ∃ r, Ends (payloadRound h alloc curchunk chunk stream m size) (.write sess made) r := by
  obtain ⟨r, he⟩ := @copy_ends _ h alloc curchunk chunk stream m size sess
    ⟨streamAt chunk stream sess, msg, others, slice m 0 (min size (msg.size - msg.len)), 0⟩
  exact ⟨r, .go (by simp only [payloadRound, hmsgs, if_neg hd]) he⟩

/-- The payload of a message that is open is copied to it. -/
theorem write_goes_on {made : Nat} (hb : ¬ (streamAt chunk stream sess).Begins) :
    ∃ r, Ends (payloadRound h alloc curchunk chunk stream m size) (.write sess made) r := by
  simp only [MsgStream.Begins, Option.mem_def, not_forall] at hb
  obtain ⟨msg, hmsg, hd⟩ := hb
  obtain ⟨others, hmsgs⟩ := List.head?_eq_some_iff.mp hmsg
  exact write_copies hmsgs hd

/-- Where no message is open, the loop goes on with `RTMP_MSG_INIT`. -/
theorem write_inits {made : Nat} (hb : (streamAt chunk stream sess).Begins) :
    ∃ msg, payloadRound h alloc curchunk chunk stream m size (.write sess made) =
      .go (.init sess msg made) := by
  cases hmsgs : (streamAt chunk stream sess).msgs with
  | nil => exact ⟨none, by simp only [payloadRound, hmsgs]⟩
  | cons msg others =>
    have hd : msg.Done := hb msg (by simp [hmsgs])
    exact ⟨some msg, by simp only [payloadRound, hmsgs, if_pos hd]⟩

theorem init_adds {made : Nat} (msg : Option RtmpMsg) (ha : alloc made = true) :
    payloadRound h alloc curchunk chunk stream m size (.init sess msg made) =
      .go (.write (addMsg curchunk chunk stream m (initSess h chunk stream sess msg)) (made + 1)) := by
  simp only [payloadRound, ha, if_true]

theorem init_fails {made : Nat} (msg : Option RtmpMsg) (ha : alloc made = false) :
    ∃ r, Ends (payloadRound h alloc curchunk chunk stream m size) (.init sess msg made) r := by
  have herror : payloadRound h alloc curchunk chunk stream m size (.init sess msg made) =
      .go (.error (initSess h chunk stream sess msg)) := by
    simp only [payloadRound, ha, Bool.false_eq_true, if_false]
  exact ⟨_, .go herror (.exit rfl)⟩

/-- Without memory for a message nothing is begun. -/
theorem write_out {made : Nat} (ha : alloc made = false) :
    ∃ r, Ends (payloadRound h alloc curchunk chunk stream m size) (.write sess made) r := by
  by_cases hb : (streamAt chunk stream sess).Begins
  · obtain ⟨msg, hinit⟩ := @write_inits _ h alloc curchunk chunk stream m size sess made hb
    obtain ⟨r, he⟩ := @init_fails _ h alloc curchunk chunk stream m size sess made msg ha
    exact ⟨r, .go hinit he⟩
  · exact write_goes_on hb

/-- A message with bytes is begun once. -/
theorem write_ends {made : Nat} (hc : Headed curchunk chunk sess)
    (hlen : (streamAt chunk stream sess).Begins → chunk.msglen ≠ 0) :
    ∃ r, Ends (payloadRound h alloc curchunk chunk stream m size) (.write sess made) r := by
  cases ha : alloc made with
  | false => exact write_out ha
  | true =>
    by_cases hb : (streamAt chunk stream sess).Begins
    · obtain ⟨msg, hinit⟩ := @write_inits _ h alloc curchunk chunk stream m size sess made hb
      obtain ⟨-, new, others, hmsgs, hsize, hzero⟩ :=
        @add_begins _ _ _ stream m _ (init_headed h stream hc msg)
      have hopen : ¬ new.Done := by
        have hpos := hlen hb
        simp only [RtmpMsg.Done, hsize, hzero]
        omega
      obtain ⟨r, he⟩ := @write_copies _ h alloc curchunk chunk stream m size _ new others (made + 1)
        hmsgs hopen
      exact ⟨r, .go hinit (.go (init_adds msg ha) he)⟩
    · exact write_goes_on hb

/-- Messages are begun no longer than there is memory for them. -/
theorem write_fails {k made : Nat} (hk : made ≤ k) (ha : alloc k = false) :
    ∃ r, Ends (payloadRound h alloc curchunk chunk stream m size) (.write sess made) r := by
  induction hn : k - made generalizing made sess with
  | zero =>
    obtain rfl : made = k := by omega
    exact write_out ha
  | succ n ih =>
    cases hmade : alloc made with
    | false => exact write_out hmade
    | true =>
      by_cases hb : (streamAt chunk stream sess).Begins
      · obtain ⟨msg, hinit⟩ := @write_inits _ h alloc curchunk chunk stream m size sess made hb
        obtain ⟨r, he⟩ := @ih (addMsg curchunk chunk stream m (initSess h chunk stream sess msg))
          (made + 1) (by omega) (by omega)
        exact ⟨r, .go hinit (.go (init_adds msg hmade) he)⟩
      · exact write_goes_on hb

/-- Between two messages without bytes. -/
def Spins (curchunk : Nat) (chunk : RtmpChunk) (stream : MsgStream) : Stage ω → Prop
  | .init sess _ _ => Headed curchunk chunk sess
  | .write sess _ => Headed curchunk chunk sess ∧ (streamAt chunk stream sess).Begins
  | _ => False

/-- Every message without bytes is complete at once, and the next one is begun. -/
theorem spins_round (halloc : ∀ k, alloc k = true) (hlen : chunk.msglen = 0) (s : Stage ω)
    (hs : Spins curchunk chunk stream s) :
    ∃ s', payloadRound h alloc curchunk chunk stream m size s = .go s' ∧
      Spins curchunk chunk stream s' := by
  cases s with
  | init sess msg made =>
    obtain ⟨hheaded, new, others, hmsgs, hsize, hzero⟩ :=
      @add_begins _ _ _ stream m _ (init_headed h stream hs msg)
    refine ⟨_, init_adds msg (halloc made), hheaded, ?_⟩
    intro x hx
    rw [hmsgs] at hx
    cases hx
    rw [RtmpMsg.Done, hsize, hzero, hlen]
  | write sess made =>
    obtain ⟨hheaded, hb⟩ := hs
    obtain ⟨msg, hinit⟩ := @write_inits _ h alloc curchunk chunk stream m size sess made hb
    exact ⟨_, hinit, hheaded⟩
  | copy sess c => exact absurd hs id
  | error sess => exact absurd hs id

/-- What the loop that copies comes to. -/
def Copying.copied (c : Copying) (rounds : Nat) : Copying :=
  let copied := c.stream.store.copy rounds c.rest
  let len := c.rest.length - copied.2.length
  { c with
    stream := { c.stream with store := copied.1, level := copy_level c.stream.level _ _ }
    msg := { c.msg with len := c.msg.len + len }
    rest := copied.2
    written := c.written + len }

theorem copied_done {c : Copying} (hr : c.round = none) (rounds : Nat) : c.copied rounds = c := by
  have hsame : c.stream.store.copy rounds c.rest = (c.stream.store, c.rest) := by
    cases rounds with
    | zero => rfl
    | succ rounds =>
      by_cases hne : c.rest = []
      · rw [Store.copy, if_pos hne]
      · unfold Copying.round at hr
        rw [dif_neg hne] at hr
        split at hr
        · rename_i hfill
          rw [Store.copy, if_neg hne, hfill]
        · cases hr
  simp only [Copying.copied, hsame, Nat.sub_self, Nat.add_zero]

theorem copied_round {c c' : Copying} (hr : c.round = some c') (rounds : Nat) :
    c.copied (rounds + 1) = c'.copied rounds := by
  unfold Copying.round at hr
  split at hr
  · cases hr
  · rename_i hne
    split at hr
    · cases hr
    · rename_i store rest hfill
      obtain ⟨hlevel, hless⟩ := fill_level c.stream.level hne hfill
      obtain ⟨n, hn, hcopy⟩ := copy_prefix hlevel rounds rest
      have hsame : c.stream.store.copy (rounds + 1) c.rest = store.copy rounds rest := by
        rw [Store.copy, if_neg hne, hfill]
      have hleft : (store.copy rounds rest).2.length ≤ rest.length := by
        rw [hcopy, List.length_drop]
        omega
      cases hr
      have hlen : c.rest.length - (store.copy rounds rest).2.length =
          c.rest.length - rest.length + (rest.length - (store.copy rounds rest).2.length) := by
        omega
      simp only [Copying.copied, hsame, hlen, Nat.add_assoc]

theorem copy_ends_iff {rounds : Nat} {c : Copying} (hn : c.rest.length ≤ rounds) :
    Ends (payloadRound h alloc curchunk chunk stream m size) (.copy sess c) r ↔
      r = (c.copied rounds).result chunk.streamid sess := by
  induction rounds generalizing c with
  | zero =>
    have hr : c.round = none := by
      rw [Copying.round, dif_pos (List.length_eq_zero_iff.mp (Nat.le_zero.mp hn))]
    rw [ends_exit (copy_exits hr), copied_done hr]
  | succ rounds ih =>
    cases hr : c.round with
    | none => rw [ends_exit (copy_exits hr), copied_done hr]
    | some c' =>
      have hless := round_less hr
      rw [ends_go (copy_goes hr), ih (by omega), copied_round hr]

/-- The rounds that copy do what `RTMP_MSG_WRITE` does at once. -/
theorem copied_write {msg : RtmpMsg} {others : List RtmpMsg} :
    (Copying.copied ⟨stream, msg, others, slice m 0 (min size (msg.size - msg.len)), 0⟩
        (min size (msg.size - msg.len))).result chunk.streamid sess =
      msgWrite sess chunk.streamid stream msg others m size := by
  simp only [Copying.copied, Copying.result, msgWrite, slice_length, Nat.zero_add]

theorem write_iff {msg : RtmpMsg} {others : List RtmpMsg} {made : Nat}
    (hmsgs : (streamAt chunk stream sess).msgs = msg :: others) (hd : ¬ msg.Done) :
    Ends (payloadRound h alloc curchunk chunk stream m size) (.write sess made) r ↔
      r = msgWrite sess chunk.streamid (streamAt chunk stream sess) msg others m size := by
  have hgo : payloadRound h alloc curchunk chunk stream m size (.write sess made) =
      .go (.copy sess ⟨streamAt chunk stream sess, msg, others,
        slice m 0 (min size (msg.size - msg.len)), 0⟩) := by
    simp only [payloadRound, hmsgs, if_neg hd]
  rw [ends_go hgo, copy_ends_iff (by rw [slice_length]), copied_write]

/-- Where a message is begun, the loop goes through `RTMP_MSG_INIT` as `msgSelect` does. -/
theorem begin_selects (hb : stream.Begins) (hat : streamAt chunk stream sess = stream) :
    ∃ msg, payloadRound h alloc curchunk chunk stream m size (.write sess 0) = .go (.init sess msg 0) ∧
      msgSelect h sess curchunk chunk stream m =
        msgInit (initSess h chunk stream sess msg) curchunk chunk stream m := by
  cases hmsgs : stream.msgs with
  | nil =>
    refine ⟨none, ?_, ?_⟩
    · simp only [payloadRound, hat, hmsgs]
    · simp only [msgSelect, initSess, hmsgs]
  | cons msg others =>
    have hd : msg.Done := hb msg (by simp [hmsgs])
    refine ⟨some msg, ?_, ?_⟩
    · simp only [payloadRound, hat, hmsgs, if_pos hd]
    · simp only [msgSelect, initSess, hat, hmsgs, if_pos hd]

/-- What the message that is added is written to is the stream as `msgInit` has it. -/
theorem add_init (hc : Headed curchunk chunk sess) :
    msgInit sess curchunk chunk stream m =
        (if chunk.msglen = 0 then none
        else some (sess, streamAt chunk stream sess,
          .create ((sess.chunkstreams curchunk).getD chunk) (streamAt chunk stream sess).store.offset m,
          (streamAt chunk stream sess).msgs)) ∧
      streamAt chunk stream (addMsg curchunk chunk stream m sess) =
        { streamAt chunk stream sess with
          msgs := .create ((sess.chunkstreams curchunk).getD chunk)
              (streamAt chunk stream sess).store.offset m :: (streamAt chunk stream sess).msgs } := by
  obtain ⟨fmt, timestamp, hc⟩ := hc
  constructor
  · simp only [msgInit, hc, Option.getD_some, streamAt]
  · simp only [addMsg, streamAt, Sess.setStream, Function.update_self, Option.getD_some]

/-- While there is memory for messages, what the loop ends with is what `rtmpMsgPayload`
computes, and it does not end where that has no result. -/
theorem returns_iff (halloc : ∀ k, alloc k = true) (hc : sess.chunkstreams curchunk = some chunk) :
    Returns h alloc curchunk chunk m size sess r ↔
      rtmpMsgPayload h sess curchunk chunk m size = some r := by
  have hheaded : Headed curchunk chunk sess := ⟨chunk.fmt, chunk.timestamp, hc⟩
  cases hs : sess.nstreams chunk.streamid with
  | none =>
    simp only [Returns, rtmpMsgPayload, hs, Option.some.injEq]
    exact eq_comm
  | some stream =>
    have hat : streamAt chunk stream sess = stream := by simp only [streamAt, hs, Option.getD_some]
    simp only [Returns, rtmpMsgPayload, hs]
    by_cases hb : stream.Begins
    · obtain ⟨msg, hinit, hselect⟩ := @begin_selects _ h alloc curchunk chunk stream m size sess hb hat
      have hheaded' := init_headed h stream hheaded msg
      obtain ⟨hmsg, hadd⟩ := @add_init _ _ _ stream m _ hheaded'
      rw [hselect, hmsg, ends_go hinit, ends_go (init_adds msg (halloc 0))]
      by_cases hlen : chunk.msglen = 0
      · have hspins : Spins curchunk chunk stream (.init sess msg 0) := hheaded
        have hround := @spins_round _ h alloc curchunk chunk stream m size halloc hlen
        have hnever := @never_ends _ _ _ _ r _ hround hspins
        rw [ends_go (init_adds msg (halloc 0))] at hnever
        rw [if_pos hlen]
        simpa using hnever
      · obtain ⟨fmt, timestamp, hheader⟩ := hheaded'
        rw [if_neg hlen]
        simp only [hheader, Option.getD_some] at hadd ⊢
        rw [write_iff (congrArg MsgStream.msgs hadd)
          (show ¬ chunk.msglen ≤ 0 by omega), hadd, Option.some.injEq, eq_comm]
        simp only [msgWrite, addMsg, set_stream_twice]
    · simp only [MsgStream.Begins, Option.mem_def, not_forall] at hb
      obtain ⟨msg, hmsg, hd⟩ := hb
      obtain ⟨others, hmsgs⟩ := List.head?_eq_some_iff.mp hmsg
      rw [write_iff (hat.symm ▸ hmsgs) hd, hat]
      simp only [msgSelect, hmsgs, if_neg hd, Option.some.injEq]
      exact eq_comm

/-- The loop ends exactly when it does not begin a message without bytes, or memory for
messages runs out. -/
theorem payload_ends_iff (h : Handlers ω) (alloc : Nat → Bool) (m : Mem) (size : Nat) {sess : Sess ω}
    {curchunk : Nat} {chunk : RtmpChunk} (hc : sess.chunkstreams curchunk = some chunk) :
    (∃ r, Returns h alloc curchunk chunk m size sess r) ↔
      ¬ (BeginsEmpty sess chunk ∧ ∀ k, alloc k = true) := by
  have hheaded : Headed curchunk chunk sess := ⟨chunk.fmt, chunk.timestamp, hc⟩
  cases hs : sess.nstreams chunk.streamid with
  | none =>
    simp only [Returns, BeginsEmpty, hs]
    simp
  | some stream =>
    have hat : streamAt chunk stream sess = stream := by simp only [streamAt, hs, Option.getD_some]
    simp only [Returns, BeginsEmpty, hs, Option.some.injEq, exists_eq_left']
    constructor
    · intro hr hspin
      obtain ⟨r, he⟩ := hr
      obtain ⟨⟨hlen, hb⟩, halloc⟩ := hspin
      exact never_ends (spins_round halloc hlen) (show Spins curchunk chunk stream (.write sess 0) from
        ⟨hheaded, hat.symm ▸ hb⟩) he
    · intro hspin
      by_cases halloc : ∀ k, alloc k = true
      · apply write_ends hheaded
        intro hb hlen
        exact hspin ⟨⟨hlen, hat ▸ hb⟩, halloc⟩
      · simp only [not_forall, Bool.not_eq_true] at halloc
        obtain ⟨k, hk⟩ := halloc
        exact write_fails (Nat.zero_le k) hk

end

/-- A session whose chunk stream 4 has read the header of a video message. -/
def headed (msglen : Nat) : Sess Unit where
  chunkstreams := fun k => if k = 4 then some ⟨0, 4, 0, msglen, rtmpMsgtypeVideo, 1⟩ else none
  nstreams := fun k => if k = 1 then some Media.MsgStream.fresh else none
  world := ()

theorem payload_ends_iff_byte :
    (∃ r, Returns .silent (fun _ => true) 4 ⟨0, 4, 0, 1, rtmpMsgtypeVideo, 1⟩ (fun _ => 0) 1 (headed 1) r) ↔
      ¬ (BeginsEmpty (headed 1) ⟨0, 4, 0, 1, rtmpMsgtypeVideo, 1⟩ ∧ ∀ _ : Nat, true = true) :=
  payload_ends_iff .silent (fun _ => true) (fun _ => 0) 1 rfl

/-- A message of length zero is begun over and over. -/
theorem empty_message_spins : ¬ ∀ (h : Handlers Unit) (alloc : Nat → Bool) (m : Mem) (size : Nat)
    (sess : Sess Unit) (curchunk : Nat) (chunk : RtmpChunk),
    sess.chunkstreams curchunk = some chunk → ∃ r, Returns h alloc curchunk chunk m size sess r := by
  intro hall
  obtain ⟨r, hr⟩ := hall .silent (fun _ => true) (fun _ => 0) 1 (headed 0) 4
    ⟨0, 4, 0, 0, rtmpMsgtypeVideo, 1⟩ rfl
  have hnone := (returns_iff (fun _ => rfl) rfl).mp hr
  have hempty : rtmpMsgPayload Handlers.silent (headed 0) 4 ⟨0, 4, 0, 0, rtmpMsgtypeVideo, 1⟩
      (fun _ => 0) 1 = none := rfl
  rw [hempty] at hnone
  cases hnone

end Yclib.Rtmp.PayloadLoop
