import Yclib.Rtmp.Chunk

namespace Yclib.Rtmp
open Network Amf

/-! The control buffer `cbuf`, and when `rtmp_msg_parse` copies past its end. -/

variable {ω : Type}

abbrev CbufParser (ω : Type) := Sess ω → Nat → Mem → Nat → Option (Sess ω × Nat)

/-- The parsers behind `cbuf`, with the bytes their message type leaves out in front. -/
def cbufParser (h : Handlers ω) (msgtype : Nat) : Option (CbufParser ω × Nat) :=
  if msgtype = rtmpMsgtypeUc then
    some (fun sess curchunk m size => some (sess, rtmpUcParse sess curchunk m size), 0)
  else if msgtype = rtmpMsgtypeDatamsg then some (rtmpDatamsgParse, 0)
  else if msgtype = rtmpMsgtypeCommandAmf3 then some (rtmpCommandParse h, 1)
  else if msgtype = rtmpMsgtypeCommandAmf0 then some (rtmpCommandParse h, 0)
  else none

/-- The bytes that a message through `cbuf` leaves out, and which messages go through it. -/
def cbufSkip (msgtype : Nat) : Option Nat :=
  if msgtype = rtmpMsgtypeUc ∨ msgtype = rtmpMsgtypeDatamsg ∨ msgtype = rtmpMsgtypeCommandAmf0 then
    some 0
  else if msgtype = rtmpMsgtypeCommandAmf3 then some 1
  else none

/-- The control messages that are read in place. -/
def FourBytes (msgtype : Nat) : Prop :=
  msgtype = rtmpMsgtypeSize ∨ msgtype = rtmpMsgtypeAck ∨ msgtype = rtmpMsgtypeWack ∨
    msgtype = rtmpMsgtypeBw

instance (msgtype : Nat) : Decidable (FourBytes msgtype) := inferInstanceAs (Decidable (_ ∨ _))

def Media (msgtype : Nat) : Prop := msgtype = rtmpMsgtypeAudio ∨ msgtype = rtmpMsgtypeVideo

instance (msgtype : Nat) : Decidable (Media msgtype) := inferInstanceAs (Decidable (_ ∨ _))

theorem cbuf_parser_skip (h : Handlers ω) (msgtype : Nat) :
    (cbufParser h msgtype).map Prod.snd = cbufSkip msgtype := by
  unfold cbufParser cbufSkip
  by_cases hu : msgtype = rtmpMsgtypeUc
  · simp [hu]
  by_cases hd : msgtype = rtmpMsgtypeDatamsg
  · rw [hd]
    rfl
  by_cases h3 : msgtype = rtmpMsgtypeCommandAmf3
  · rw [h3]
    rfl
  by_cases h0 : msgtype = rtmpMsgtypeCommandAmf0
  · rw [h0]
    rfl
  · simp [hu, hd, h3, h0]

section
variable {room : Nat → Bool} {h : Handlers ω} {rconn : Conn ω} {chunk : RtmpChunk}

theorem cbuf_parse {parse : CbufParser ω} {skip : Nat}
    (ht : cbufParser h chunk.msgtype = some (parse, skip))
    (hc : rconn.sess.chunkstreams rconn.curchunk = some chunk) (m : Mem) (size : Nat) (stale : Mem) :
    rtmpMsgParse room h rconn m size stale = cbufParse room parse skip rconn m size stale := by
  unfold cbufParser at ht
  simp only [rtmpMsgParse, hc]
  split at ht
  · rename_i hm
    obtain ⟨rfl, rfl⟩ := Prod.mk.inj (Option.some.inj ht)
    rw [hm, if_neg (by decide), if_neg (by decide), if_neg (by decide), if_pos rfl]
  split at ht
  · rename_i hm
    obtain ⟨rfl, rfl⟩ := Prod.mk.inj (Option.some.inj ht)
    rw [hm, if_neg (by decide), if_neg (by decide), if_neg (by decide), if_neg (by decide),
      if_neg (by decide), if_pos rfl]
  split at ht
  · rename_i hm
    obtain ⟨rfl, rfl⟩ := Prod.mk.inj (Option.some.inj ht)
    rw [hm, if_neg (by decide), if_neg (by decide), if_neg (by decide), if_neg (by decide),
      if_neg (by decide), if_neg (by decide), if_pos rfl]
  split at ht
  · rename_i hm
    obtain ⟨rfl, rfl⟩ := Prod.mk.inj (Option.some.inj ht)
    rw [hm, if_neg (by decide), if_neg (by decide), if_neg (by decide), if_neg (by decide),
      if_neg (by decide), if_neg (by decide), if_neg (by decide), if_pos rfl]
  · cases ht

theorem other_parse (ht : cbufParser h chunk.msgtype = none) (hf : ¬ FourBytes chunk.msgtype)
    (hm : ¬ Media chunk.msgtype) (hc : rconn.sess.chunkstreams rconn.curchunk = some chunk) (m : Mem)
    (size : Nat) (stale : Mem) : rtmpMsgParse room h rconn m size stale = .ret rconn 0 := by
  simp only [FourBytes, not_or] at hf
  simp only [Media, not_or] at hm
  unfold cbufParser at ht
  split_ifs at ht with h1 h2 h3 h4
  simp [rtmpMsgParse, hc, hf, hm, h1, h2, h3, h4]

theorem four_bytes_parse (ht : FourBytes chunk.msgtype)
    (hc : rconn.sess.chunkstreams rconn.curchunk = some chunk) :
    ∃ read : Nat → Conn ω, (∀ m size stale, rtmpMsgParse room h rconn m size stale =
      if size < 4 then .ret rconn 0 else .ret (read (rnsBtoh32 m 0)) 4) ∧
        ∀ n, (read n).cbuf = rconn.cbuf ∧ (read n).curlen = rconn.curlen := by
  rcases ht with ht | ht | ht | ht
  · exact ⟨fun n => { rconn with ichunksize := n }, fun m size stale => by
      simp [rtmpMsgParse, hc, ht, rtmpMsgtypeSize], fun _ => ⟨rfl, rfl⟩⟩
  · exact ⟨fun _ => rconn, fun m size stale => by
      simp [rtmpMsgParse, hc, ht, rtmpMsgtypeSize, rtmpMsgtypeAck], fun _ => ⟨rfl, rfl⟩⟩
  · exact ⟨fun _ => rconn, fun m size stale => by
      simp [rtmpMsgParse, hc, ht, rtmpMsgtypeSize, rtmpMsgtypeAck, rtmpMsgtypeWack],
      fun _ => ⟨rfl, rfl⟩⟩
  · exact ⟨fun n => { rconn with bw := n }, fun m size stale => by
      simp [rtmpMsgParse, hc, ht, rtmpMsgtypeSize, rtmpMsgtypeAck, rtmpMsgtypeWack, rtmpMsgtypeBw],
      fun _ => ⟨rfl, rfl⟩⟩

theorem media_parse (ht : Media chunk.msgtype)
    (hc : rconn.sess.chunkstreams rconn.curchunk = some chunk) (m : Mem) (size : Nat) (stale : Mem) :
    rtmpMsgParse room h rconn m size stale =
      match rtmpMsgPayload h rconn.sess rconn.curchunk chunk m size with
      | none => .lost
      | some (sess, used) => .ret { rconn with sess := sess } used := by
  cases hpay : rtmpMsgPayload h rconn.sess rconn.curchunk chunk m size with
  | none =>
    rcases ht with ht | ht
    · simp [rtmpMsgParse, hc, ht, hpay, rtmpMsgtypeSize, rtmpMsgtypeAck, rtmpMsgtypeWack,
        rtmpMsgtypeBw, rtmpMsgtypeUc, rtmpMsgtypeAudio]
    · simp [rtmpMsgParse, hc, ht, hpay, rtmpMsgtypeSize, rtmpMsgtypeAck, rtmpMsgtypeWack,
        rtmpMsgtypeBw, rtmpMsgtypeUc, rtmpMsgtypeAudio, rtmpMsgtypeVideo]
  | some p =>
    rcases ht with ht | ht
    · simp [rtmpMsgParse, hc, ht, hpay, rtmpMsgtypeSize, rtmpMsgtypeAck, rtmpMsgtypeWack,
        rtmpMsgtypeBw, rtmpMsgtypeUc, rtmpMsgtypeAudio]
    · simp [rtmpMsgParse, hc, ht, hpay, rtmpMsgtypeSize, rtmpMsgtypeAck, rtmpMsgtypeWack,
        rtmpMsgtypeBw, rtmpMsgtypeUc, rtmpMsgtypeAudio, rtmpMsgtypeVideo]

/-- What a message that is parsed leaves alone, and what it may do to `cbuf`. -/
theorem msg_parse_ret {m stale : Mem} {size used : Nat} {r : Conn ω}
    (hp : rtmpMsgParse room h rconn m size stale = .ret r used) :
    r.curlen = rconn.curlen ∧ (r.cbuf = rconn.cbuf ∨ r.cbuf = [] ∨
      ∃ skip, room (rconn.cbuf.length + copySize skip size) = true ∧
        r.cbuf = rconn.cbuf ++ slice m skip (copySize skip size)) := by
  cases hc : rconn.sess.chunkstreams rconn.curchunk with
  | none =>
    simp only [rtmpMsgParse, hc, Parsed.ret.injEq] at hp
    rw [← hp.1]
    exact ⟨rfl, .inl rfl⟩
  | some chunk =>
    cases ht : cbufParser h chunk.msgtype with
    | some p =>
      obtain ⟨parse, k⟩ := p
      rw [cbuf_parse ht hc] at hp
      simp only [cbufParse] at hp
      split at hp
      · rename_i hroom
        split at hp
        · cases hp
        · split at hp
          · cases hp
            exact ⟨rfl, .inr (.inl rfl)⟩
          · cases hp
            exact ⟨rfl, .inr (.inr ⟨_, hroom, rfl⟩)⟩
      · cases hp
    | none =>
      by_cases hf : FourBytes chunk.msgtype
      · obtain ⟨read, hread, hkeeps⟩ := four_bytes_parse (h := h) hf hc
        rw [hread] at hp
        split at hp
        · cases hp
          exact ⟨rfl, .inl rfl⟩
        · cases hp
          exact ⟨(hkeeps _).2, .inl (hkeeps _).1⟩
      by_cases hm : Media chunk.msgtype
      · rw [media_parse hm hc] at hp
        split at hp
        · cases hp
        · cases hp
          exact ⟨rfl, .inl rfl⟩
      · rw [other_parse ht hf hm hc] at hp
        cases hp
        exact ⟨rfl, .inl rfl⟩

/-- Where `rtmp_msg_parse` would write past the end of `cbuf`. -/
theorem msg_parse_overrun {m stale : Mem} {size : Nat} :
    rtmpMsgParse room h rconn m size stale = .overrun ↔
      ∃ chunk skip, rconn.sess.chunkstreams rconn.curchunk = some chunk ∧
        cbufSkip chunk.msgtype = some skip ∧
        room (rconn.cbuf.length + copySize skip size) = false := by
  cases hc : rconn.sess.chunkstreams rconn.curchunk with
  | none => simp [rtmpMsgParse, hc]
  | some chunk =>
    simp only [Option.some.injEq, exists_and_left, exists_eq_left']
    rw [← cbuf_parser_skip h]
    cases ht : cbufParser h chunk.msgtype with
    | some p =>
      obtain ⟨parse, skip⟩ := p
      rw [cbuf_parse ht hc]
      simp only [cbufParse, Option.map_some, Option.some.injEq, exists_eq_left']
      cases hroom : room (rconn.cbuf.length + copySize skip size) with
      | false => simp
      | true =>
        simp only [if_true, Bool.true_eq_false, iff_false]
        split
        · simp
        · split <;> simp
    | none =>
      simp only [Option.map_none, reduceCtorEq, false_and, exists_false, iff_false]
      by_cases hf : FourBytes chunk.msgtype
      · obtain ⟨read, hread, -⟩ := four_bytes_parse (h := h) hf hc
        rw [hread]
        split <;> simp
      by_cases hm : Media chunk.msgtype
      · rw [media_parse hm hc]
        split <;> simp
      · rw [other_parse ht hf hm hc]
        simp

/-- A step that is not of a payload leaves `cbuf` and `curlen` alone. -/
theorem header_keeps {b : Behind} {xs : List UInt8} {r : Conn ω} {n : Nat}
    (hst : rconn.state ≠ .chunkPayload) (hstep : rtmpStep room h b rconn xs = .next r n) :
    r.cbuf = rconn.cbuf ∧ r.curlen = rconn.curlen := by
  cases hs : rconn.state <;> simp only [rtmpStep, hs] at hstep
  case chunkPayload => exact absurd hs hst
  case handshakeC2 =>
    split at hstep
    · cases hstep
    split at hstep
    · cases hstep
      exact ⟨rfl, rfl⟩
    split at hstep
    · cases hstep
      exact ⟨rfl, rfl⟩
    · cases hstep
      exact ⟨rfl, rfl⟩
  case chunkTimestamp | chunkMsgLen | chunkMsgType | chunkMsgStreamid =>
    split at hstep
    · cases hstep
    · split at hstep
      · cases hstep
      · cases hstep
        exact ⟨rfl, rfl⟩
  case chunkExtraTimestamp =>
    split at hstep
    · cases hstep
    · split at hstep
      · cases hstep
      split at hstep
      · split at hstep
        · cases hstep
        · cases hstep
          exact ⟨rfl, rfl⟩
      · cases hstep
        exact ⟨rfl, rfl⟩
  case handshakeS0 | handshakeS1 | handshakeS2 | chunkChannel =>
    cases hstep
    exact ⟨rfl, rfl⟩
  all_goals
    split at hstep
    · cases hstep
    · cases hstep
      exact ⟨rfl, rfl⟩

/-- What a step of a payload does to `cbuf`, and that it keeps `curlen` at zero. -/
theorem payload_keeps {b : Behind} {xs : List UInt8} {r : Conn ω} {n : Nat}
    (hst : rconn.state = .chunkPayload) (hstep : rtmpStep room h b rconn xs = .next r n) :
    (rconn.curlen = 0 → r.curlen = 0) ∧ (r.cbuf = rconn.cbuf ∨ r.cbuf = [] ∨
      ∃ bs, room (rconn.cbuf.length + bs.length) = true ∧ r.cbuf = rconn.cbuf ++ bs) := by
  cases hc : rconn.sess.chunkstreams rconn.curchunk with
  | none => simp [rtmpStep, hst, hc] at hstep
  | some chunk =>
    simp only [rtmpStep, hst, hc, Nat.not_lt_zero, if_false, rtmpPayloadStep] at hstep
    split at hstep
    · cases hstep
    · cases hstep
    · rename_i r' s hret
      obtain ⟨hcur, hcbuf⟩ := msg_parse_ret hret
      have hkept : r'.cbuf = rconn.cbuf ∨ r'.cbuf = [] ∨
          ∃ bs, room (rconn.cbuf.length + bs.length) = true ∧ r'.cbuf = rconn.cbuf ++ bs := by
        rcases hcbuf with he | he | ⟨skip, hroom, he⟩
        · exact .inl he
        · exact .inr (.inl he)
        · exact .inr (.inr ⟨_, by rwa [slice_length], he⟩)
      split at hstep
      · rename_i hpart
        cases hstep
        refine ⟨fun h0 => ?_, hkept⟩
        simp only [hpart.1, hcur, h0]
        rfl
      · cases hstep
        exact ⟨fun _ => rfl, hkept⟩

/-- In a run from `rns_rconnserver_create` on, `curlen` counts nothing. -/
theorem curlen_zero {CS1 : List UInt8} {nstreams : Nat → Option MsgStream} {world : ω}
    {ps : List (Behind × List UInt8)} {r : Conn ω} {rest : List UInt8}
    (hv : Feed.Visits (rtmpStep room h) (Conn.create CS1 nstreams world) ps r rest) :
    r.curlen = 0 := by
  refine @Feed.visits_invariant _ (Conn ω) _ _ (fun _ _ => True) (fun r => r.curlen = 0) ?_ _ _
    (fun _ _ _ _ => trivial) rfl _ _ hv
  intro b r xs r' n hcur _ hstep
  by_cases hst : r.state = .chunkPayload
  · exact (payload_keeps hst hstep).1 hcur
  · rw [(header_keeps hst hstep).2, hcur]

end

/-- The part of the chunk that the parser has before it fits into `cbuf`: the type does
not go through it, or the chunk size and the room left allow for the part. -/
def CbufFits (rconn : Conn ω) (avail : Nat) : Prop :=
  ∀ chunk skip, rconn.sess.chunkstreams rconn.curchunk = some chunk →
    cbufSkip chunk.msgtype = some skip → skip ≤ rconn.ichunksize ∧
      min rconn.ichunksize avail ≤ cbufSize + skip - rconn.cbuf.length

/-- No write goes past the end of `cbuf`, and none has. -/
def CbufSafe (h : Handlers ω) (rconn : Conn ω) (rest : List UInt8) : Prop :=
  rconn.cbuf.length ≤ cbufSize ∧ (rconn.state = .chunkPayload → ∀ b : Behind,
    rtmpMsgParse cbufHolds h rconn (memOf rest b.past) (min rconn.ichunksize rest.length) b.stale ≠
      .overrun)

theorem cbuf_skip_le {msgtype skip : Nat} (h : cbufSkip msgtype = some skip) : skip ≤ 1 := by
  unfold cbufSkip at h
  split at h
  · cases h
    omega
  · split at h
    · cases h
      omega
    · cases h

theorem cbuf_fits_iff {h : Handlers ω} {rconn : Conn ω} {rest : List UInt8}
    (hlen : rconn.cbuf.length ≤ cbufSize) (hne : rest ≠ []) (b : Behind) :
    CbufFits rconn rest.length ↔ rtmpMsgParse cbufHolds h rconn (memOf rest b.past)
      (min rconn.ichunksize rest.length) b.stale ≠ .overrun := by
  have hpos := List.length_pos_iff.mpr hne
  have hsize : cbufSize = 1024 := rfl
  rw [ne_eq, msg_parse_overrun]
  simp only [not_exists, not_and, Bool.not_eq_false, cbufHolds, decide_eq_true_eq]
  refine forall_congr' fun chunk => forall_congr' fun skip => imp_congr_right fun _ =>
    imp_congr_right fun hskip => ?_
  have hle := cbuf_skip_le hskip
  unfold copySize
  split <;> omega

theorem create_safe (h : Handlers ω) {CS1 : List UInt8} {nstreams : Nat → Option MsgStream}
    {world : ω} {ps : List (Behind × List UInt8)} {r : Conn ω} {rest : List UInt8}
    (hv : Feed.Visits (rtmpStep cbufHolds h) (Conn.create CS1 nstreams world) ps r rest) :
    r.cbuf.length ≤ cbufSize := by
  refine @Feed.visits_invariant _ (Conn ω) _ _ (fun _ _ => True) (fun r => r.cbuf.length ≤ cbufSize) ?_
    _ _ (fun _ _ _ _ => trivial) (Nat.zero_le _) _ _ hv
  intro b r xs r' n hlen _ hstep
  by_cases hst : r.state = .chunkPayload
  · rcases (payload_keeps hst hstep).2 with he | he | ⟨bs, hroom, he⟩
    · rwa [he]
    · rw [he]
      exact Nat.zero_le _
    · rw [he, List.length_append]
      simpa [cbufHolds] using hroom
  · rwa [(header_keeps hst hstep).1]

/-- The control buffer is kept within its bounds in those runs, and only those, in which
every part of a chunk fits. -/
theorem control_buffer_bound (h : Handlers ω) (CS1 : List UInt8)
    (nstreams : Nat → Option MsgStream) (world : ω) (ps : List (Behind × List UInt8)) :
    Feed.Meets (rtmpStep cbufHolds h) (CbufSafe h) (Conn.create CS1 nstreams world) ps ↔
      Feed.Meets (rtmpStep cbufHolds h)
        (fun rconn rest => rconn.state = .chunkPayload → CbufFits rconn rest.length)
        (Conn.create CS1 nstreams world) ps := by
  refine forall_congr' fun r => forall_congr' fun rest => forall_congr' fun hv =>
    forall_congr' fun hne => ?_
  have hlen := create_safe h hv
  constructor
  · intro hsafe hst
    exact (cbuf_fits_iff hlen hne ⟨fun _ => 0, fun _ => 0⟩).mpr (hsafe.2 hst _)
  · intro hfits
    exact ⟨hlen, fun hst b => (cbuf_fits_iff hlen hne b).mp (hfits hst)⟩

/-- A set chunk size message sets the chunk size. -/
theorem size_passes {room : Nat → Bool} {h : Handlers ω} {b : Behind} {rconn : Conn ω}
    {chunk : RtmpChunk} {n : Nat} (hst : rconn.state = .chunkPayload)
    (hc : rconn.sess.chunkstreams rconn.curchunk = some chunk)
    (ht : chunk.msgtype = rtmpMsgtypeSize) (hN : 4 ≤ rconn.ichunksize) (hn : n < 2 ^ 32)
    (ys : List UInt8) :
    Feed.Passes (rtmpStep room h) b rconn (rnsHtob32 n ++ ys)
      { rconn with ichunksize := n, state := .chunkFmt, curlen := 0 } ys := by
  have hlen : (rnsHtob32 n).length = 4 := by simp [rnsHtob32]
  have hread : rnsBtoh32 (memOf (rnsHtob32 n ++ ys) b.past) 0 = n :=
    btoh32_of_bytes (mem_of_holds _ _ _) hn
  have hparse : rtmpMsgParse room h rconn (memOf (rnsHtob32 n ++ ys) b.past)
      (min rconn.ichunksize (rnsHtob32 n ++ ys).length) b.stale =
        .ret { rconn with ichunksize := n } 4 := by
    simp only [rtmpMsgParse, hc, ht, if_true, hread]
    rw [if_neg (by rw [List.length_append]; omega)]
  refine took _ hlen (by rw [← List.length_pos_iff, List.length_append]; omega) ?_
  rw [payload_step hst hc]
  exact payload_over hparse (.inl ⟨by omega, rfl⟩)

/-- A chunk size of 4096 lets a command of 1025 bytes in one read past the end. -/
theorem wide_chunk_overruns :
    ¬ ∀ (h : Handlers Unit) (CS1 : List UInt8) (nstreams : Nat → Option MsgStream) (world : Unit)
      (ps : List (Behind × List UInt8)),
      Feed.Meets (rtmpStep cbufHolds h) (CbufSafe h) (Conn.create CS1 nstreams world) ps := by
  intro hall
  obtain ⟨b⟩ : Nonempty Behind := ⟨⟨fun _ => 0, fun _ => 0⟩⟩
  have hlen : (List.replicate 1536 (0 : UInt8)).length = 1536 := List.length_replicate
  obtain ⟨world, hvisits⟩ := handshake_visits (h := .silent) (fun _ => none) ()
    hlen hlen 3 b
  obtain ⟨command, hcommand⟩ : ∃ bs : List UInt8, bs.length = 1025 :=
    ⟨_, List.length_replicate (a := (0 : UInt8))⟩
  have hne : command ≠ [] := List.length_pos_iff.mp (by omega)
  have hsize := @chunk_passes _ cbufHolds .silent b { Conn.create (List.replicate 1536 0) (fun _ => none) world with state := .chunkFmt } (rnsHtob32 4096 ++ (basicHeader 0 3 ++
      (MsgHeader.encode (.full 0 2000 rtmpMsgtypeCommandAmf0 0) ++ command))) (.full 0 4 rtmpMsgtypeSize 0) 2
    rfl (by decide) (by decide) (by decide) trivial (by simp [hne])
  have hset := Feed.passes_trans _ hsize (size_passes rfl (set_chunk_self _ _ _) rfl
    (show 4 ≤ 128 by omega) (by omega) _)
  have hcmd := Feed.passes_trans _ hset (@chunk_passes _ _ _ _ _ _ (.full 0 2000 rtmpMsgtypeCommandAmf0 0) _
    rfl (by decide) (by decide) (by decide) trivial hne)
  have hsafe := hall .silent (List.replicate 1536 0) (fun _ => none) () _ _ command
    (hvisits [(b, _)] _ _ (.here hcmd)) hne
  refine hsafe.2 rfl b (msg_parse_overrun.mpr ⟨_, 0, set_chunk_self _ _ _, rfl, ?_⟩)
  simp only [hcommand]
  exact (by decide : cbufHolds (0 + copySize 0 (min 4096 1025)) = false)

end Yclib.Rtmp
