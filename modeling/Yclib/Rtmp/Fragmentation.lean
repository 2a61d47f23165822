import Yclib.Rtmp.Ready

namespace Yclib.Rtmp
open Network Amf

variable {ω : Type}

section
variable {room : Nat → Bool} {h : Handlers ω} {rconn : Conn ω} {chunk : RtmpChunk} {xs : List UInt8}

/-- A piece that ends within its chunk. -/
theorem payload_part {stale m : Mem} {size : Nat} {r : Conn ω} (hcur : r.curlen = 0)
    (hp : rtmpMsgParse room h rconn m (min rconn.ichunksize size) stale = .ret r 0)
    (hN : r.ichunksize = rconn.ichunksize) (hsize : size < rconn.ichunksize) :
    rtmpPayloadStep room h stale rconn m size = .next r size := by
  have hmin : min rconn.ichunksize size = size := by omega
  have hcurlen : u32 (0 + 0) = 0 := rfl
  rw [hmin] at hp
  have hpart : size < r.ichunksize ∧ 0 < r.ichunksize := by omega
  simp only [rtmpPayloadStep, hmin, hp, hcur, hcurlen, hpart, and_self, if_true, lt_irrefl, if_false]
  congr 1
  cases r
  simp only at hcur
  rw [hcur]

theorem payload_rank (hst : rconn.state = .chunkPayload) (r : Conn ω) :
    ({ r with state := .chunkFmt, curlen := 0 } : Conn ω).rank < rconn.rank := by
  simp [Conn.rank, ConnState.rank, hst]

theorem four_bytes_settles (hst : rconn.state = .chunkPayload)
    (hc : rconn.sess.chunkstreams rconn.curchunk = some chunk) (ht : FourBytes chunk.msgtype)
    (hlen : min 4 rconn.ichunksize ≤ xs.length)
    (hready : ∀ ys, Steady h rconn (xs ++ ys)) :
    Feed.Settles (rtmpStep room h) (Steady h) Conn.rank rconn xs := by
  obtain ⟨read, hparse, -⟩ := four_bytes_parse (h := h) ht hc
  by_cases hN : rconn.ichunksize < 4
  · refine ⟨_, rconn.ichunksize, by omega, .inr (payload_rank hst rconn), fun b ys => ⟨hready ys, ?_⟩⟩
    rw [payload_step hst hc]
    refine payload_over ?_ (.inr ⟨rfl, rfl, ?_, rfl⟩)
    · rw [hparse, if_pos (by omega)]
    · rw [List.length_append]
      omega
  · refine ⟨{ read (rnsBtoh32 (memOf xs fun _ => 0) 0) with state := .chunkFmt, curlen := 0 }, 4,
      by omega, .inl (by omega), fun b ys => ⟨hready ys, ?_⟩⟩
    rw [payload_step hst hc]
    refine payload_over ?_ (.inl ⟨by omega, rfl⟩)
    rw [hparse, if_neg (by rw [List.length_append]; omega), rnsBtoh32, rnsBtoh32,
      btoh_congr fun i hi => mem_of_append (by omega)]

theorem other_settles (hst : rconn.state = .chunkPayload)
    (hc : rconn.sess.chunkstreams rconn.curchunk = some chunk)
    (ht : cbufParser h chunk.msgtype = none) (hf : ¬ FourBytes chunk.msgtype)
    (hm : ¬ Media chunk.msgtype) (hlen : rconn.ichunksize ≤ xs.length)
    (hready : ∀ ys, Steady h rconn (xs ++ ys)) :
    Feed.Settles (rtmpStep room h) (Steady h) Conn.rank rconn xs := by
  refine ⟨_, rconn.ichunksize, hlen, .inr (payload_rank hst rconn), fun b ys => ⟨hready ys, ?_⟩⟩
  rw [payload_step hst hc]
  exact payload_over (other_parse ht hf hm hc _ _ _) (.inr ⟨rfl, rfl, by
    rw [List.length_append]; omega, rfl⟩)

/-- What a message that begins sees of its first bytes stays when more follow. -/
theorem peeks_append (hne : xs ≠ [])
    (h2 : chunk.msgtype = rtmpMsgtypeVideo → xs.head? = some 0x17 → 2 ≤ xs.length)
    (ys : List UInt8) (m m' : Mem) : Peeks chunk (memOf (xs ++ ys) m) (memOf xs m') := by
  have hpos := List.length_pos_iff.mpr hne
  refine ⟨mem_of_append hpos, fun hv hk => mem_of_append (h2 hv ?_)⟩
  rw [@mem_of_append _ _ _ m' _ hpos] at hk
  rw [List.head?_eq_getElem?, List.getElem?_eq_getElem hpos, ← hk]
  simp [memOf, hpos]

theorem media_none_settles (hst : rconn.state = .chunkPayload)
    (hc : rconn.sess.chunkstreams rconn.curchunk = some chunk) (ht : Media chunk.msgtype)
    (hs : rconn.sess.nstreams chunk.streamid = none) (hlen : rconn.ichunksize ≤ xs.length)
    (hready : ∀ ys, Steady h rconn (xs ++ ys)) :
    Feed.Settles (rtmpStep room h) (Steady h) Conn.rank rconn xs := by
  refine ⟨_, rconn.ichunksize, hlen, .inr (payload_rank hst rconn), fun b ys => ⟨hready ys, ?_⟩⟩
  have hsize : rconn.ichunksize ≤ (xs ++ ys).length := by
    rw [List.length_append]
    omega
  rw [payload_step hst hc]
  refine payload_over (s := rconn.ichunksize) ?_ ?_
  · rw [media_parse ht hc, Nat.min_eq_left hsize]
    simp only [rtmpMsgPayload, hs]
  · by_cases hN : rconn.ichunksize = 0
    · exact .inr ⟨hN, rfl, hsize, rfl⟩
    · exact .inl ⟨by omega, rfl⟩

section
variable {stream : MsgStream} {t : Target ω}

/-- The payload of a chunk up to the end of the chunk or of the message. -/
theorem media_over (hst : rconn.state = .chunkPayload)
    (hc : rconn.sess.chunkstreams rconn.curchunk = some chunk) (ht : Media chunk.msgtype)
    (hs : rconn.sess.nstreams chunk.streamid = some stream)
    (hsel : t.Selected h rconn.sess rconn.curchunk chunk stream) (hne : xs ≠ [])
    (hpeek : stream.Begins → chunk.msgtype = rtmpMsgtypeVideo → xs.head? = some 0x17 → 2 ≤ xs.length)
    (hlen : min rconn.ichunksize (stream.rem chunk) ≤ xs.length)
    (hspace : min rconn.ichunksize (stream.rem chunk) ≤ stream.store.space) (b : Behind) :
    rtmpStep room h b rconn xs = .next { rconn with
      sess := t.sess.setStream chunk.streamid (t.stream.wrote (t.msg (memOf xs fun _ => 0)) t.others
        (xs.take (min rconn.ichunksize (stream.rem chunk))))
      state := .chunkFmt, curlen := 0 } (min rconn.ichunksize (stream.rem chunk)) := by
  have hmsg : t.msg (memOf xs b.past) = t.msg (memOf xs fun _ => 0) := by
    have := hsel.peeks _ _ fun hb => peeks_append hne (hpeek hb) [] b.past (fun _ => 0)
    rwa [List.append_nil] at this
  have hmin : min (min rconn.ichunksize xs.length) (stream.rem chunk) =
      min rconn.ichunksize (stream.rem chunk) := by omega
  have hslice : slice (memOf xs b.past) 0 (min rconn.ichunksize (stream.rem chunk)) =
      xs.take (min rconn.ichunksize (stream.rem chunk)) := by
    rw [slice_mem_of (by omega), List.drop_zero]
  have hrem := hsel.missing (memOf xs fun _ => 0)
  have hparse := @media_parse _ room h _ _ ht hc (memOf xs b.past) (min rconn.ichunksize xs.length)
    b.stale
  rw [msg_payload h hs hsel _ (by rw [hmin]; exact hspace), hmin, hslice, hmsg] at hparse
  rw [payload_step hst hc]
  by_cases hN : rconn.ichunksize < stream.rem chunk
  · simp only [if_pos (show min rconn.ichunksize xs.length < stream.rem chunk by omega)] at hparse
    exact payload_over hparse (.inr ⟨rfl, rfl, by omega, Nat.min_eq_left (Nat.le_of_lt hN)⟩)
  · simp only [if_neg (show ¬ min rconn.ichunksize xs.length < stream.rem chunk by omega)] at hparse
    exact payload_over hparse (.inl ⟨by omega, Nat.min_eq_right (Nat.not_lt.mp hN)⟩)

theorem peek_append {xs : List UInt8} (hne : xs ≠ [])
    (h2 : xs.head? = some 0x17 → 2 ≤ xs.length) (ys : List UInt8)
    (hk : (xs ++ ys).head? = some 0x17) : 2 ≤ (xs ++ ys).length := by
  rw [List.head?_append_of_ne_nil xs hne] at hk
  have := h2 hk
  rw [List.length_append]
  omega

theorem media_settles (hst : rconn.state = .chunkPayload)
    (hc : rconn.sess.chunkstreams rconn.curchunk = some chunk) (ht : Media chunk.msgtype)
    (hs : rconn.sess.nstreams chunk.streamid = some stream)
    (hsel : t.Selected h rconn.sess rconn.curchunk chunk stream) (hne : xs ≠ [])
    (hpeek : stream.Begins → chunk.msgtype = rtmpMsgtypeVideo → xs.head? = some 0x17 → 2 ≤ xs.length)
    (hlen : min rconn.ichunksize (stream.rem chunk) ≤ xs.length)
    (hspace : min rconn.ichunksize (stream.rem chunk) ≤ stream.store.space)
    (hready : ∀ ys, Steady h rconn (xs ++ ys)) :
    Feed.Settles (rtmpStep room h) (Steady h) Conn.rank rconn xs := by
  refine ⟨_, min rconn.ichunksize (stream.rem chunk), hlen, .inr (payload_rank hst
    { rconn with sess := t.sess.setStream chunk.streamid (t.stream.wrote (t.msg (memOf xs fun _ => 0))
      t.others (xs.take (min rconn.ichunksize (stream.rem chunk)))) }),
    fun b ys => ⟨hready ys, ?_⟩⟩
  have hmsg : t.msg (memOf (xs ++ ys) fun _ => 0) = t.msg (memOf xs fun _ => 0) :=
    hsel.peeks _ _ fun hb => peeks_append hne (hpeek hb) ys _ _
  rw [media_over hst hc ht hs hsel (by simp [hne])
    (fun hb hv => peek_append hne (hpeek hb hv) ys) (by rw [List.length_append]; omega) hspace b,
    hmsg, List.take_append_of_le_length hlen]

/-- A part of the last chunk of a message, and what the stream is left with. -/
theorem media_part (hst : rconn.state = .chunkPayload) (hcur : rconn.curlen = 0)
    (hc : rconn.sess.chunkstreams rconn.curchunk = some chunk) (ht : Media chunk.msgtype)
    (hs : rconn.sess.nstreams chunk.streamid = some stream)
    (hsel : t.Selected h rconn.sess rconn.curchunk chunk stream) (hne : xs ≠ [])
    (hpeek : stream.Begins → chunk.msgtype = rtmpMsgtypeVideo → xs.head? = some 0x17 → 2 ≤ xs.length)
    (hlen : xs.length < stream.rem chunk) (hN : stream.rem chunk ≤ rconn.ichunksize)
    (hspace : xs.length ≤ stream.store.space) (b : Behind) :
    rtmpStep room h b rconn xs = .next { rconn with
      sess := t.sess.setStream chunk.streamid
        (t.stream.wrote (t.msg (memOf xs fun _ => 0)) t.others xs) } xs.length := by
  have hmin : min (min rconn.ichunksize xs.length) (stream.rem chunk) = xs.length := by omega
  have hmsg : t.msg (memOf xs b.past) = t.msg (memOf xs fun _ => 0) := by
    have := hsel.peeks _ _ fun hb => peeks_append hne (hpeek hb) [] b.past (fun _ => 0)
    rwa [List.append_nil] at this
  have hslice : slice (memOf xs b.past) 0 xs.length = xs := by
    rw [slice_mem_of (by omega), List.drop_zero, List.take_length]
  rw [payload_step hst hc]
  refine payload_part hcur ?_ rfl (by omega)
  rw [media_parse ht hc, msg_payload h hs hsel _ (by rw [hmin]; exact hspace), hmin, hslice, hmsg,
    if_pos (by omega)]

theorem media_ready (hst : rconn.state = .chunkPayload)
    (hc : rconn.sess.chunkstreams rconn.curchunk = some chunk) (ht : Media chunk.msgtype)
    (xs : List UInt8) : Ready h rconn xs ↔ MediaReady rconn chunk xs := by
  have hf : ¬ FourBytes chunk.msgtype := by
    rcases ht with ht | ht <;> rw [ht] <;> decide
  simp [Ready, hst, hc, PayloadReady, hf, ht]

theorem media_ready_some (hst : rconn.state = .chunkPayload)
    (hc : rconn.sess.chunkstreams rconn.curchunk = some chunk) (ht : Media chunk.msgtype)
    (hs : rconn.sess.nstreams chunk.streamid = some stream) (xs : List UInt8) :
    Ready h rconn xs ↔
      (stream.Begins → chunk.msglen ≠ 0 ∧
        (chunk.msgtype = rtmpMsgtypeVideo → xs.head? = some 0x17 → 2 ≤ xs.length)) ∧
      (stream.rem chunk ≤ rconn.ichunksize ∨ rconn.ichunksize ≤ xs.length) ∧
      min (min rconn.ichunksize xs.length) (stream.rem chunk) ≤ stream.store.space := by
  rw [media_ready hst hc ht, MediaReady, hs]

/-- What is stored of a message so far, and the rest of it in the next piece. -/
theorem media_continues (hst : rconn.state = .chunkPayload) (hcur : rconn.curlen = 0)
    (hc : rconn.sess.chunkstreams rconn.curchunk = some chunk) (ht : Media chunk.msgtype)
    (hs : rconn.sess.nstreams chunk.streamid = some stream)
    (hsel : t.Selected h rconn.sess rconn.curchunk chunk stream) (hne : xs ≠ [])
    (hr : Ready h rconn xs) (hlen : xs.length < stream.rem chunk)
    (hN : stream.rem chunk ≤ rconn.ichunksize) :
    Feed.Continues (rtmpStep room h) (Steady h) rconn xs := by
  obtain ⟨hbegins, -, hspace⟩ := (media_ready_some hst hc ht hs xs).mp hr
  have hspace : xs.length ≤ stream.store.space := by omega
  have hpeek := fun hb => (hbegins hb).2
  obtain ⟨msg, hmsg⟩ : ∃ msg, t.msg (memOf xs fun _ => 0) = msg := ⟨_, rfl⟩
  have hpart := @media_part _ room _ _ _ _ _ _ hst hcur hc ht hs hsel hne hpeek hlen hN hspace
  obtain ⟨fmt, timestamp, hc'⟩ := hsel.header
  obtain ⟨hsize, hlt⟩ := hsel.missing (memOf xs fun _ => 0)
  rw [hmsg] at hpart hsize hlt
  refine ⟨_, hpart, fun b ys u n hys hready hstep => ?_⟩
  -- the message that the next piece goes on with
  have hbegun := @open_selected _ h (t.sess.setStream chunk.streamid (t.stream.wrote msg t.others xs)) _ { chunk with fmt, timestamp } (t.stream.wrote msg t.others xs) _ _
    ⟨fmt, timestamp, hc'⟩ rfl (by simp only; omega)
  have hs' : (t.sess.setStream chunk.streamid (t.stream.wrote msg t.others xs)).nstreams
      chunk.streamid = some (t.stream.wrote msg t.others xs) := Function.update_self _ _ _
  have hopen : ¬ (t.stream.wrote msg t.others xs).Begins := by
    intro hb
    have := hb _ rfl
    simp only [RtmpMsg.Done] at this
    omega
  have hrem : (t.stream.wrote msg t.others xs).rem { chunk with fmt, timestamp } =
      stream.rem chunk - xs.length := by
    have := (hbegun.missing fun _ => 0).1
    simp only at this
    omega
  have hroom : (t.stream.wrote msg t.others xs).store.space = stream.store.space - xs.length := by
    simp only [MsgStream.wrote, hsel.store]
    exact pushes_space stream.level xs hspace
  obtain ⟨-, -, hspace'⟩ := (@media_ready_some ω h
    { rconn with sess := t.sess.setStream chunk.streamid (t.stream.wrote msg t.others xs) } _ _ hst hc' ht hs' ys).mp hready.2
  rw [hrem, hroom] at hspace'
  simp only at hspace'
  have hwhole : t.msg (memOf (xs ++ ys) fun _ => 0) = msg := by
    rw [← hmsg]
    exact hsel.peeks _ _ fun hb => peeks_append hne (hpeek hb) ys _ _
  have hlength : (xs ++ ys).length = xs.length + ys.length := List.length_append
  have hpeek' := fun hb hv => peek_append hne (hpeek hb hv) ys
  have hready' : Ready h rconn (xs ++ ys) := by
    rw [media_ready_some hst hc ht hs]
    exact ⟨fun hb => ⟨(hbegins hb).1, hpeek' hb⟩, .inl hN, by omega⟩
  refine ⟨⟨hcur, hready'⟩, ?_⟩
  by_cases hover : stream.rem chunk - xs.length ≤ ys.length
  · have hrest := @media_over _ room _ { rconn with sess := t.sess.setStream chunk.streamid (t.stream.wrote msg t.others xs) } _ _ _ _
      hst hc' ht hs' hbegun hys (fun hb => absurd hb hopen) (by rw [hrem]; simp only; omega)
      (by rw [hrem, hroom]; simp only; omega) b
    rw [hrest] at hstep
    rw [media_over hst hc ht hs hsel (by simp [hne]) hpeek' (by omega) (by omega) b]
    cases hstep
    rw [hwhole, wrote_wrote, set_stream_twice, hrem, Nat.min_eq_right hN,
      Nat.min_eq_right (show stream.rem chunk - xs.length ≤ rconn.ichunksize by omega),
      List.take_append, List.take_of_length_le (by omega)]
    congr 1
    omega
  · have hrest := @media_part _ room _ { rconn with sess := t.sess.setStream chunk.streamid (t.stream.wrote msg t.others xs) } _ _ _ _
      hst hcur hc' ht hs' hbegun hys (fun hb => absurd hb hopen) (by rw [hrem]; omega)
      (by rw [hrem]; simp only; omega) (by rw [hroom]; omega) b
    rw [hrest] at hstep
    rw [media_part hst hcur hc ht hs hsel (by simp [hne]) hpeek' (by omega) hN (by omega) b]
    cases hstep
    rw [hwhole, wrote_wrote, set_stream_twice, hlength]

/-- A piece of a media chunk is settled or goes on. -/
theorem media_resumes (hst : rconn.state = .chunkPayload) (hcur : rconn.curlen = 0)
    (hc : rconn.sess.chunkstreams rconn.curchunk = some chunk) (ht : Media chunk.msgtype)
    (hr : Ready h rconn xs) (hne : xs ≠ []) :
    Feed.Settles (rtmpStep room h) (Steady h) Conn.rank rconn xs ∨
      Feed.Continues (rtmpStep room h) (Steady h) rconn xs := by
  cases hs : rconn.sess.nstreams chunk.streamid with
  | none =>
    rw [media_ready hst hc ht, MediaReady, hs] at hr
    refine .inl (media_none_settles hst hc ht hs hr fun ys => ⟨hcur, ?_⟩)
    rw [media_ready hst hc ht, MediaReady, hs]
    simp only [List.length_append]
    exact Nat.le_add_right_of_le hr
  | some stream =>
    have hready := hr
    rw [media_ready_some hst hc ht hs] at hready
    obtain ⟨hbegins, hN, hspace⟩ := hready
    obtain ⟨t, hsel⟩ := msg_select h hc hs fun hb => (hbegins hb).1
    by_cases hover : min rconn.ichunksize (stream.rem chunk) ≤ xs.length
    · refine .inl (media_settles hst hc ht hs hsel hne (fun hb => (hbegins hb).2) hover (by omega)
        fun ys => ⟨hcur, ?_⟩)
      rw [media_ready_some hst hc ht hs]
      refine ⟨fun hb => ⟨(hbegins hb).1, fun hv => peek_append hne ((hbegins hb).2 hv) ys⟩, ?_⟩
      rw [List.length_append]
      omega
    · exact .inr (media_continues hst hcur hc ht hs hsel hne hr (by omega) (by omega))

end

section
variable {parse : CbufParser ω} {skip k : Nat} {sess : Sess ω}

theorem ends_append {msglen : Nat} (he : CbufEnds parse skip rconn msglen xs k sess)
    (ys : List UInt8) : CbufEnds parse skip rconn msglen (xs ++ ys) k sess := by
  have hpiece := he.piece
  exact { he with
    piece := by
      rw [List.length_append]
      omega
    answers := by
      rw [List.drop_append_of_le_length (by omega), List.take_append_of_le_length (by
        rw [List.length_drop]; omega)]
      exact he.answers }

theorem chunk_append {msglen : Nat} (hk : CbufChunk parse rconn msglen xs) (ys : List UInt8) :
    CbufChunk parse rconn msglen (xs ++ ys) where
  message := hk.message
  piece := by
    rw [List.length_append]
    exact Nat.le_add_right_of_le hk.piece
  asks := by
    rw [List.take_append_of_le_length hk.piece]
    exact hk.asks

/-- The step that ends a message in `cbuf`. -/
theorem ends_step (hst : rconn.state = .chunkPayload)
    (hc : rconn.sess.chunkstreams rconn.curchunk = some chunk)
    (ht : cbufParser h chunk.msgtype = some (parse, skip))
    (he : CbufEnds parse skip rconn chunk.msglen xs k sess)
    (hroom : room (rconn.cbuf.length + copySize skip (min rconn.ichunksize xs.length)) = true)
    (b : Behind) :
    rtmpStep room h b rconn xs =
      .next { rconn with sess := sess, cbuf := [], state := .chunkFmt, curlen := 0 } (skip + k) := by
  obtain ⟨hpos, hpiece, hchunk, -, hsmall, hanswers⟩ := he
  have hcopy : copySize skip (min rconn.ichunksize xs.length) =
      min rconn.ichunksize xs.length - skip := if_pos (by omega)
  have hslice : slice (memOf xs b.past) skip (min rconn.ichunksize xs.length - skip) =
      (xs.drop skip).take k ++ ((xs.drop skip).take (min rconn.ichunksize xs.length - skip)).drop k := by
    have hsplit := List.take_append_drop k ((xs.drop skip).take (min rconn.ichunksize xs.length - skip))
    rw [List.take_take, Nat.min_eq_left (by omega)] at hsplit
    rw [slice_mem_of (by omega), hsplit]
  have hlen : (rconn.cbuf ++ (xs.drop skip).take k).length = rconn.cbuf.length + k := by
    simp only [List.length_append, List.length_take, List.length_drop]
    omega
  have hp := hanswers (((xs.drop skip).take (min rconn.ichunksize xs.length - skip)).drop k) b.stale (by
    simp only [List.length_drop, List.length_take]
    omega)
  have hused : u32 (skip + u32Sub (rconn.cbuf.length + k) rconn.cbuf.length) = skip + k := by
    simp only [u32, u32Sub]
    omega
  have hparse : rtmpMsgParse room h rconn (memOf xs b.past) (min rconn.ichunksize xs.length) b.stale =
      .ret { rconn with sess := sess, cbuf := [] } (skip + k) := by
    rw [cbuf_parse ht hc]
    rw [List.append_assoc] at hp
    rw [hcopy] at hroom
    simp only [cbufParse, hcopy, hroom, if_true, hslice, hp, hlen, hused]
    rw [if_pos (by omega)]
  rw [payload_step hst hc]
  exact payload_over hparse (.inl ⟨by omega, rfl⟩)

/-- A parser that asks for more leaves what it has seen in `cbuf`. -/
theorem asks_parse (hc : rconn.sess.chunkstreams rconn.curchunk = some chunk)
    (ht : cbufParser h chunk.msgtype = some (parse, 0)) {n : Nat}
    (hn : min rconn.ichunksize xs.length = n) (ha : Asks parse rconn (xs.take n))
    (hroom : room (rconn.cbuf.length + min rconn.ichunksize xs.length) = true) (b : Behind) :
    rtmpMsgParse room h rconn (memOf xs b.past) (min rconn.ichunksize xs.length) b.stale =
      .ret { rconn with cbuf := rconn.cbuf ++ xs.take n } 0 := by
  rw [hn] at hroom ⊢
  have hcopy : copySize 0 n = n := by
    simp only [copySize, Nat.zero_le, if_true]
    omega
  have hslice : slice (memOf xs b.past) 0 n = xs.take n := by
    rw [slice_mem_of (by omega), List.drop_zero]
  rw [cbuf_parse ht hc]
  simp only [cbufParse, hcopy, hroom, if_true, hslice, ha b.stale, lt_irrefl, if_false]

theorem chunk_step (hst : rconn.state = .chunkPayload)
    (hc : rconn.sess.chunkstreams rconn.curchunk = some chunk)
    (ht : cbufParser h chunk.msgtype = some (parse, 0))
    (hk : CbufChunk parse rconn chunk.msglen xs)
    (hroom : room (rconn.cbuf.length + min rconn.ichunksize xs.length) = true) (b : Behind) :
    rtmpStep room h b rconn xs =
      .next { rconn with
        cbuf := rconn.cbuf ++ xs.take rconn.ichunksize, state := .chunkFmt, curlen := 0 }
        rconn.ichunksize := by
  have hparse := asks_parse hc ht (Nat.min_eq_left hk.piece) hk.asks hroom b
  rw [payload_step hst hc]
  exact payload_over hparse (.inr ⟨rfl, rfl, hk.piece, rfl⟩)

theorem part_step (hst : rconn.state = .chunkPayload) (hcur : rconn.curlen = 0)
    (hc : rconn.sess.chunkstreams rconn.curchunk = some chunk)
    (ht : cbufParser h chunk.msgtype = some (parse, 0))
    (hp : CbufPart parse rconn chunk.msglen xs)
    (hroom : room (rconn.cbuf.length + min rconn.ichunksize xs.length) = true) (b : Behind) :
    rtmpStep room h b rconn xs = .next { rconn with cbuf := rconn.cbuf ++ xs } xs.length := by
  obtain ⟨hmessage, hchunk, hasks⟩ := hp
  have hparse := asks_parse hc ht (Nat.min_eq_right (by omega)) (by rwa [List.take_length]) hroom b
  rw [List.take_length] at hparse
  rw [payload_step hst hc]
  exact payload_part hcur hparse rfl (by omega)

end

section
variable {parse : CbufParser ω}

theorem cbuf_ready {skip : Nat} (hst : rconn.state = .chunkPayload)
    (hc : rconn.sess.chunkstreams rconn.curchunk = some chunk)
    (ht : cbufParser h chunk.msgtype = some (parse, skip)) (hf : ¬ FourBytes chunk.msgtype)
    (hm : ¬ Media chunk.msgtype) (xs : List UInt8) :
    Ready h rconn xs ↔ (∃ k sess, CbufEnds parse skip rconn chunk.msglen xs k sess) ∨
      (skip = 0 ∧
        (CbufChunk parse rconn chunk.msglen xs ∨ CbufPart parse rconn chunk.msglen xs)) := by
  simp [Ready, hst, hc, PayloadReady, hf, hm, ht]

/-- `cbuf` keeps what a message has brought so far, and the next piece goes on. -/
theorem part_continues (hst : rconn.state = .chunkPayload) (hcur : rconn.curlen = 0)
    (hc : rconn.sess.chunkstreams rconn.curchunk = some chunk)
    (ht : cbufParser h chunk.msgtype = some (parse, 0)) (hf : ¬ FourBytes chunk.msgtype)
    (hm : ¬ Media chunk.msgtype) (hp : CbufPart parse rconn chunk.msglen xs) (hne : xs ≠ []) :
    Feed.Continues (rtmpStep (fun _ => true) h) (Steady h) rconn xs := by
  refine ⟨_, part_step hst hcur hc ht hp rfl, fun b ys u n hys hready hstep => ?_⟩
  obtain ⟨hmessage, hchunk, -⟩ := hp
  obtain ⟨-, hready⟩ := hready
  have hpos := List.length_pos_iff.mpr hne
  rw [Steady, cbuf_ready hst hc ht hf hm, and_assoc]
  refine ⟨hcur, ?_⟩
  rw [@cbuf_ready _ _ { rconn with cbuf := rconn.cbuf ++ xs } _ _ _ hst hc ht hf hm] at hready
  rcases hready with ⟨k, sess, he⟩ | ⟨-, hk | hp⟩
  · have hwith : CbufEnds parse 0 rconn chunk.msglen (xs ++ ys) (xs.length + k) sess := by
      obtain ⟨h1, h2, h3, h4, h5, h6⟩ := he
      simp only [List.length_append, Nat.zero_add, List.drop_zero] at h2 h3 h4 h5 h6
      refine ⟨by omega, by rw [List.length_append]; omega, by omega, by omega, by omega, ?_⟩
      rw [List.drop_zero, List.take_length_add_append]
      intro ext stale hext
      have := h6 ext stale (by omega)
      simpa only [List.append_assoc] using this
    refine ⟨.inl ⟨_, _, hwith⟩, ?_⟩
    rw [@ends_step _ _ _ { rconn with cbuf := rconn.cbuf ++ xs } _ _ _ _ _ _ hst hc ht he rfl b] at hstep
    rw [ends_step hst hc ht hwith rfl b]
    cases hstep
    simp only [Nat.zero_add]
  · have := hk.message
    simp only [List.length_append] at this
    omega
  · have hwith : CbufPart parse rconn chunk.msglen (xs ++ ys) := by
      obtain ⟨h1, h2, h3⟩ := hp
      simp only [List.length_append] at h1 h2
      refine ⟨by rw [List.length_append]; omega, hchunk, fun stale => ?_⟩
      have := h3 stale
      simpa only [List.append_assoc] using this
    refine ⟨.inr ⟨rfl, .inr hwith⟩, ?_⟩
    rw [@part_step _ _ _ { rconn with cbuf := rconn.cbuf ++ xs } _ _ _ hst hcur hc ht hp rfl b] at hstep
    rw [part_step hst hcur hc ht hwith rfl b]
    cases hstep
    simp only [List.append_assoc, List.length_append]

/-- A piece of a chunk that goes through `cbuf` is settled or goes on. -/
theorem cbuf_resumes {skip : Nat} (hst : rconn.state = .chunkPayload) (hcur : rconn.curlen = 0)
    (hc : rconn.sess.chunkstreams rconn.curchunk = some chunk)
    (ht : cbufParser h chunk.msgtype = some (parse, skip)) (hf : ¬ FourBytes chunk.msgtype)
    (hm : ¬ Media chunk.msgtype) (hr : Ready h rconn xs) (hne : xs ≠ []) :
    Feed.Settles (rtmpStep (fun _ => true) h) (Steady h) Conn.rank rconn xs ∨
      Feed.Continues (rtmpStep (fun _ => true) h) (Steady h) rconn xs := by
  have hready := cbuf_ready hst hc ht hf hm
  rcases (hready xs).mp hr with ⟨k, sess, he⟩ | ⟨rfl, hk | hp⟩
  · have hpos := he.some
    refine .inl ⟨{ rconn with sess := sess, cbuf := [], state := .chunkFmt, curlen := 0 }, skip + k,
      he.piece, .inl (by omega), fun b ys =>
      ⟨⟨hcur, (hready _).mpr (.inl ⟨k, sess, ends_append he ys⟩)⟩, ?_⟩⟩
    exact ends_step hst hc ht (ends_append he ys) rfl b
  · refine .inl ⟨_, rconn.ichunksize, hk.piece, .inr (payload_rank hst
      { rconn with cbuf := rconn.cbuf ++ xs.take rconn.ichunksize }), fun b ys =>
      ⟨⟨hcur, (hready _).mpr (.inr ⟨rfl, .inl (chunk_append hk ys)⟩)⟩, ?_⟩⟩
    rw [chunk_step hst hc ht (chunk_append hk ys) rfl b, List.take_append_of_le_length hk.piece]
  · exact .inr (part_continues hst hcur hc ht hf hm hp hne)

end

theorem payload_resumes (hst : rconn.state = .chunkPayload) (hr : Steady h rconn xs) (hne : xs ≠ []) :
    Feed.Settles (rtmpStep (fun _ => true) h) (Steady h) Conn.rank rconn xs ∨
      Feed.Continues (rtmpStep (fun _ => true) h) (Steady h) rconn xs := by
  obtain ⟨hcur, hready⟩ := hr
  obtain ⟨chunk, hc, hp⟩ : ∃ chunk, rconn.sess.chunkstreams rconn.curchunk = some chunk ∧
      PayloadReady h rconn chunk xs := by simpa only [Ready, hst] using hready
  have hmore {ys : List UInt8} (hp : PayloadReady h rconn chunk ys) : Steady h rconn ys :=
    ⟨hcur, by simp only [Ready, hst]; exact ⟨chunk, hc, hp⟩⟩
  have hle (ys : List UInt8) : xs.length ≤ (xs ++ ys).length := by
    rw [List.length_append]
    omega
  by_cases hf : FourBytes chunk.msgtype
  · rw [PayloadReady, if_pos hf] at hp
    exact .inl (four_bytes_settles hst hc hf hp fun ys => hmore (by
      rw [PayloadReady, if_pos hf]
      exact hp.trans (hle ys)))
  by_cases hm : Media chunk.msgtype
  · exact media_resumes hst hcur hc hm hready hne
  cases ht : cbufParser h chunk.msgtype with
  | none =>
    simp only [PayloadReady, if_neg hf, if_neg hm, ht] at hp
    exact .inl (other_settles hst hc ht hf hm hp fun ys => hmore (by
      simp only [PayloadReady, if_neg hf, if_neg hm, ht]
      exact hp.trans (hle ys)))
  | some p => exact cbuf_resumes hst hcur hc ht hf hm hready hne

/-- With a control buffer without an end, no step depends on where its piece ends. -/
theorem rtmp_resumable (h : Handlers ω) :
    Feed.Resumable (rtmpStep (fun _ => true) h) (Steady h) Conn.rank := by
  intro rconn xs hr hne
  by_cases hst : rconn.state = .chunkPayload
  · exact payload_resumes hst hr hne
  · exact .inl (header_settles hst hr hne)

theorem cbuf_parse_room {parse : CbufParser ω} {skip size : Nat} {m stale : Mem}
    (hne : cbufParse room parse skip rconn m size stale ≠ .overrun) :
    cbufParse room parse skip rconn m size stale =
      cbufParse (fun _ => true) parse skip rconn m size stale := by
  cases hroom : room (rconn.cbuf.length + copySize skip size) with
  | true => simp only [cbufParse, hroom]
  | false => simp [cbufParse, hroom] at hne

/-- What does not overrun on either side of a choice. -/
theorem ite_room {p : Prop} [Decidable p] {parsed parsed' other other' : Parsed ω}
    (hp : parsed ≠ .overrun → parsed = parsed') (ho : other ≠ .overrun → other = other') :
    (if p then parsed else other) ≠ .overrun → (if p then parsed else other) = if p then parsed' else other' := by
  split
  · exact hp
  · exact ho

theorem msg_parse_room {m stale : Mem} {size : Nat}
    (hne : rtmpMsgParse room h rconn m size stale ≠ .overrun) :
    rtmpMsgParse room h rconn m size stale = rtmpMsgParse (fun _ => true) h rconn m size stale := by
  cases hc : rconn.sess.chunkstreams rconn.curchunk with
  | none => simp only [rtmpMsgParse, hc]
  | some chunk =>
    simp only [rtmpMsgParse, hc] at hne ⊢
    revert hne
    -- Only the user control, data and command messages go through `cbuf`.
    refine ite_room (fun _ => rfl) (ite_room (fun _ => rfl) (ite_room (fun _ => rfl) ?_))
    refine ite_room cbuf_parse_room (ite_room (fun _ => rfl) ?_)
    exact ite_room cbuf_parse_room (ite_room cbuf_parse_room (ite_room cbuf_parse_room fun _ => rfl))

theorem step_room (b : Behind)
    (hne : rconn.state = .chunkPayload → rtmpMsgParse room h rconn (memOf xs b.past)
      (min rconn.ichunksize xs.length) b.stale ≠ .overrun) :
    rtmpStep room h b rconn xs = rtmpStep (fun _ => true) h b rconn xs := by
  cases hst : rconn.state
  case chunkPayload =>
    cases hc : rconn.sess.chunkstreams rconn.curchunk with
    | none => simp only [rtmpStep, hst, hc]
    | some chunk =>
      rw [payload_step hst hc, payload_step hst hc, rtmpPayloadStep, rtmpPayloadStep,
        msg_parse_room (hne hst)]
  all_goals simp only [rtmpStep, hst]

end

/-- The condition on a step: what it needs next is in the piece, and fits into `cbuf`. -/
def Undisturbed (h : Handlers ω) (rconn : Conn ω) (xs : List UInt8) : Prop :=
  Ready h rconn xs ∧ (rconn.state = .chunkPayload → CbufFits rconn xs.length)

theorem undisturbed_runs (h : Handlers ω) {CS1 : List UInt8} {nstreams : Nat → Option MsgStream}
    {world : ω} {ps : List (Behind × List UInt8)}
    (hp : Feed.Meets (rtmpStep cbufHolds h) (Undisturbed h) (Conn.create CS1 nstreams world) ps) :
    Feed.Meets (rtmpStep (fun _ => true) h) (Steady h) (Conn.create CS1 nstreams world) ps ∧
      ∀ t, Feed.Runs (rtmpStep (fun _ => true) h) (Conn.create CS1 nstreams world) ps t →
        Feed.Runs (rtmpStep cbufHolds h) (Conn.create CS1 nstreams world) ps t := by
  have hmeets : Feed.Meets (rtmpStep cbufHolds h) (fun rconn xs => rconn.curlen = 0 ∧
      rconn.cbuf.length ≤ cbufSize ∧ Undisturbed h rconn xs) (Conn.create CS1 nstreams world) ps :=
    fun r rest hv hne => ⟨curlen_zero hv, create_safe h hv, hp r rest hv hne⟩
  refine Feed.meets_agree ?_ ?_ hmeets
  · rintro b rconn xs ⟨-, hlen, -, hfits⟩ hne
    exact (step_room b fun hst => (cbuf_fits_iff hlen hne b).mp (hfits hst)).symm
  · rintro rconn xs ⟨hcur, -, hready, -⟩
    exact ⟨hcur, hready⟩

/-- However the stream is cut, a run that is undisturbed ends in the same state. -/
theorem cut_makes_no_difference (h : Handlers ω) (CS1 : List UInt8)
    (nstreams : Nat → Option MsgStream) (world : ω) {ps qs : List (Behind × List UInt8)}
    (hcut : Feed.stream ps = Feed.stream qs)
    (hp : Feed.Meets (rtmpStep cbufHolds h) (Undisturbed h) (Conn.create CS1 nstreams world) ps)
    (hq : Feed.Meets (rtmpStep cbufHolds h) (Undisturbed h) (Conn.create CS1 nstreams world) qs) :
    ∃ t, ∀ u, (readFunc cbufHolds h (Conn.create CS1 nstreams world) ps u ↔ u = t) ∧
      (readFunc cbufHolds h (Conn.create CS1 nstreams world) qs u ↔ u = t) := by
  obtain ⟨hp', hpback⟩ := undisturbed_runs h hp
  obtain ⟨hq', hqback⟩ := undisturbed_runs h hq
  obtain ⟨t, hpt, hqt⟩ := Feed.cut_invariant (rtmp_resumable h) hcut hp' hq'
  have hps := hpback t hpt
  have hqs := hqback t hqt
  refine ⟨t, fun u => ⟨⟨fun hu => Feed.runs_unique _ hu hps, ?_⟩,
    ⟨fun hu => Feed.runs_unique _ hu hqs, ?_⟩⟩⟩
  · rintro rfl
    exact hps
  · rintro rfl
    exact hqs

/-- The first byte and the first packet of the handshake, in one read or in two. -/
theorem handshake_cut :
    ∃ t, ∀ u, (readFunc cbufHolds .silent (Conn.create [] (fun _ => none) ())
        [(⟨fun _ => 0, fun _ => 0⟩, 3 :: List.replicate 1536 0)] u ↔ u = t) ∧
      (readFunc cbufHolds .silent (Conn.create [] (fun _ => none) ())
        [(⟨fun _ => 0, fun _ => 0⟩, [3]), (⟨fun _ => 0, fun _ => 0⟩, List.replicate 1536 0)] u ↔
          u = t) := by
  have hlen : (List.replicate 1536 (0 : UInt8)).length = 1536 := List.length_replicate
  generalize List.replicate 1536 (0 : UInt8) = c1 at hlen
  have hne : c1 ≠ [] := List.length_pos_iff.mp (by omega)
  have hnil (b : Behind) (rconn : Conn Unit) :
      Feed.Meets (rtmpStep cbufHolds .silent) (Undisturbed .silent) rconn [(b, [])] :=
    Feed.meets_done _ (Feed.meets_nil _ _ _)
  have hpacket (b : Behind) : Feed.Meets (rtmpStep cbufHolds .silent) (Undisturbed .silent)
      { Conn.create [] (fun _ => none) () with state := .handshakeC1 } [(b, c1)] := by
    refine Feed.meets_next _ hne ⟨by simp [Ready, hlen], fun hc => by cases hc⟩ (show _ = Feed.Verdict.next
      { Conn.create [] (fun _ => none) () with state := .handshakeC2 } 1536 from ?_) ?_
    · simp only [rtmpStep]
      rw [if_neg (by omega)]
    · rw [List.drop_eq_nil_of_le (by omega)]
      exact hnil _ _
  have hbyte (b : Behind) (xs : List UInt8) (ps : List (Behind × List UInt8))
      (h : Feed.Meets (rtmpStep cbufHolds .silent) (Undisturbed .silent)
        { Conn.create [] (fun _ => none) () with state := .handshakeC1 } ((b, xs) :: ps)) :
      Feed.Meets (rtmpStep cbufHolds .silent) (Undisturbed .silent)
        (Conn.create [] (fun _ => none) ()) ((b, 3 :: xs) :: ps) :=
    Feed.meets_next _ (n := 1) (by simp) ⟨trivial, fun hc => by cases hc⟩ (by simp [rtmpStep, Conn.create]) h
  exact cut_makes_no_difference .silent [] (fun _ => none) () (by simp [Feed.stream])
    (hbyte _ _ _ (hpacket _)) (hbyte _ _ _ (Feed.meets_done _ (hpacket _)))

/-- A packet of the handshake that comes in two reads is lost. -/
theorem cut_handshake_lost :
    ¬ ∀ (h : Handlers Unit) (CS1 : List UInt8) (nstreams : Nat → Option MsgStream) (world : Unit)
      (ps qs : List (Behind × List UInt8)), Feed.stream ps = Feed.stream qs →
      ∀ t u, readFunc cbufHolds h (Conn.create CS1 nstreams world) ps t →
        readFunc cbufHolds h (Conn.create CS1 nstreams world) qs u → t = u := by
  intro hall
  obtain ⟨b⟩ : Nonempty Behind := ⟨⟨fun _ => 0, fun _ => 0⟩⟩
  obtain ⟨c1, hlen⟩ : ∃ c1 : List UInt8, c1.length = 1536 :=
    ⟨_, List.length_replicate (a := (0 : UInt8))⟩
  obtain ⟨CS2, hwhole⟩ := @fed_c1 _ _ .silent b { Conn.create [] (fun _ => none) () with state := .handshakeC1 } _ rfl hlen
  have hpart {xs : List UInt8} (hne : xs ≠ []) (hshort : xs.length < 1536) :
      Feed.Fed (rtmpStep cbufHolds .silent) b
        { Conn.create [] (fun _ => none) () with state := .handshakeC1 } xs
        { Conn.create [] (fun _ => none) () with state := .handshakeC1 } :=
    .leave hne (by simp only [rtmpStep]; rw [if_pos hshort])
  have hfirst := @fed_c0 _ cbufHolds .silent b (Conn.create [] (fun _ => none) ()) rfl 3
  have := hall .silent [] (fun _ => none) () [(b, [3]), (b, c1)]
    [(b, [3]), (b, c1.take 1000), (b, c1.drop 1000)] (by simp [Feed.stream]) _ _
    (.cons hfirst (.cons hwhole .nil))
    (.cons hfirst (.cons (hpart (by rw [← List.length_pos_iff, List.length_take]; omega)
      (by rw [List.length_take]; omega)) (.cons (hpart (by
        rw [← List.length_pos_iff, List.length_drop]; omega) (by rw [List.length_drop]; omega)) .nil)))
  cases this

end Yclib.Rtmp
