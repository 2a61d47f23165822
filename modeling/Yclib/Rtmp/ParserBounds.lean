import Yclib.Rtmp.MessageBounds

namespace Yclib.Rtmp.Bounds
open Network Amf Commands

/-! The rounds of `rtmp_parse`. -/

variable {ω : Type}

section
variable (h : Handlers ω) (e : Effects ω)

/-- What one round of the loop of `rtmp_parse` inspects. -/
def roundNotes (b : Behind) (rconn : Conn ω) (rest : List UInt8) : List Note :=
  let m := memOf rest b.past
  let size := rest.length
  let look (off n : Nat) : List Note := [.look off n size]
  let header (need : Nat) : List Note :=
    if rconn.sess.chunkstreams rconn.curchunk = none ∨ size < need then [] else look 0 need
  match rconn.state with
  | .handshakeC1 => if size < 1536 then [] else look 0 4 ++ look 8 1528
  | .handshakeC2 =>
    if size < 1536 then []
    else if slice m 0 4 ≠ rconn.CS1.take 4 then look 0 4
    else look 0 4 ++ look 8 1528
  | .chunkFmt | .chunkChannel1 | .chunkChannel2 => if size < 1 then [] else look 0 1
  | .chunkChannel3 => if size < 1 then [] else look 0 2
  | .chunkTimestamp | .chunkMsgLen => header 3
  | .chunkMsgType => header 1
  | .chunkMsgStreamid => header 4
  | .chunkExtraTimestamp =>
    if (rconn.sess.chunkstreams rconn.curchunk).any fun chunk => chunk.timestamp = 0xFFFFFF then header 4
    else []
  | .chunkPayload =>
    if rconn.sess.chunkstreams rconn.curchunk = none then []
    else msgNotes h e rconn m (min rconn.ichunksize size) b.stale
  | .handshakeC0 | .handshakeS0 | .handshakeS1 | .handshakeS2 | .chunkChannel => []

/-- The bytes that a round takes. -/
def taking (size : Nat) : Feed.Verdict (Conn ω) → List Note
  | .next _ n => [.used n size]
  | _ => []

def stepNotes (b : Behind) (rconn : Conn ω) (rest : List UInt8) : List Note :=
  roundNotes h e b rconn rest ++ taking rest.length (rtmpStep cbufHolds (serving h e) b rconn rest)

end

/-- A round of `rtmp_parse` fits: there is a second byte for the channel, and the message fits. -/
def RoundFits (e : Effects ω) (b : Behind) (rconn : Conn ω) (rest : List UInt8) : Prop :=
  match rconn.state with
  | .chunkChannel3 => rest.length ≠ 1
  | .chunkPayload => MsgFits (memOf rest b.past) (min rconn.ichunksize rest.length) e rconn b.stale
  | _ => True

section
variable {h : Handlers ω} {e : Effects ω} {b : Behind} {rconn : Conn ω} {rest : List UInt8}

theorem taking_within {size : Nat} {verdict : Feed.Verdict (Conn ω)} :
    Within (taking size verdict) ↔ ∀ r n, verdict = .next r n → n ≤ size := by
  cases verdict with
  | next r n => simp [taking, Note.Inside]
  | leave => simp [taking]
  | stuck => simp [taking]

/-- A message that stays inside takes no more than the chunk. -/
theorem payload_takes {r : Conn ω} {n : Nat} {m stale : Mem} {size : Nat}
    (hfits : MsgFits m (min rconn.ichunksize size) e rconn stale)
    (hstep : rtmpPayloadStep cbufHolds (serving h e) stale rconn m size = .next r n) : n ≤ size := by
  have hlen : min rconn.ichunksize size ≤ size := Nat.min_le_right _ _
  have hcounted := msg_counted.mp ((@msg_within _ h e rconn m stale _).mpr hfits)
  simp only [rtmpPayloadStep] at hstep
  split at hstep
  · cases hstep
  · cases hstep
  · rename_i rconn' s hparse
    have hs := hcounted.2 rconn' s hparse
    have hused : (if 0 < s then s else min rconn.ichunksize size) ≤ size := by
      split
      · exact hs.trans hlen
      · exact hlen
    split at hstep
    · cases hstep
      exact hused
    · cases hstep
      exact hused

theorem payload_round (hst : rconn.state = .chunkPayload) : Within (stepNotes h e b rconn rest) ↔
    MsgFits (memOf rest b.past) (min rconn.ichunksize rest.length) e rconn b.stale := by
  rw [stepNotes, within_append, taking_within]
  unfold roundNotes rtmpStep
  rw [hst]
  cases hchunk : rconn.sess.chunkstreams rconn.curchunk with
  | none => simp [MsgFits, hchunk]
  | some chunk =>
    simp only [reduceCtorEq, if_false, Nat.not_lt_zero]
    rw [msg_within]
    refine and_iff_left_of_imp fun hfits => ?_
    intro r n hstep
    exact payload_takes hfits hstep

theorem round_within (hne : rest ≠ []) : Within (stepNotes h e b rconn rest) ↔ RoundFits e b rconn rest := by
  have hpos : 1 ≤ rest.length := List.length_pos_iff.mpr hne
  by_cases hpayload : rconn.state = .chunkPayload
  · rw [payload_round hpayload, RoundFits, hpayload]
  rw [stepNotes, within_append, taking_within]
  unfold roundNotes rtmpStep RoundFits
  cases hst : rconn.state
  case chunkPayload => exact absurd hst hpayload
  case chunkChannel3 =>
    simp only [Nat.not_lt.mpr hpos, if_false, within_cons, within_nil, Note.Inside, and_true]
    constructor
    · intro h hone
      omega
    · intro hone
      refine ⟨by omega, ?_⟩
      intro r n hnext
      cases hnext
      omega
  case handshakeC0 | handshakeS0 | handshakeS1 | handshakeS2 | chunkChannel =>
    simp [Nat.not_lt.mpr hpos, hpos]
  case handshakeC1 =>
    by_cases hshort : rest.length < 1536
    · simp [hshort]
    · simp [hshort, Note.Inside]
      omega
  case handshakeC2 =>
    refine iff_of_true ⟨?_, ?_⟩ trivial
    · simp only
      split_ifs
      · exact within_nil
      · simp only [within_cons, within_nil, Note.Inside, and_true]
        omega
      · simp only [within_append, within_cons, within_nil, Note.Inside, and_true]
        omega
    · intro r n hnext
      simp only at hnext
      split_ifs at hnext
      · cases hnext
        exact Nat.zero_le _
      · cases hnext
        omega
      · cases hnext
        omega
  case chunkFmt | chunkChannel1 | chunkChannel2 =>
    simp [Nat.not_lt.mpr hpos, hpos, Note.Inside]
  case chunkTimestamp | chunkMsgLen | chunkMsgType | chunkMsgStreamid =>
    cases hchunk : rconn.sess.chunkstreams rconn.curchunk with
    | none => simp
    | some chunk =>
      refine iff_of_true ⟨?_, ?_⟩ trivial
      · simp only [reduceCtorEq, false_or]
        split
        · exact within_nil
        · simp only [within_cons, within_nil, Note.Inside, and_true]
          omega
      · intro r n hnext
        simp only at hnext
        split at hnext
        · cases hnext
        · cases hnext
          omega
  case chunkExtraTimestamp =>
    cases hchunk : rconn.sess.chunkstreams rconn.curchunk with
    | none => simp
    | some chunk =>
      refine iff_of_true ⟨?_, ?_⟩ trivial
      · simp only [reduceCtorEq, false_or, Option.any_some]
        split
        · split
          · exact within_nil
          · simp only [within_cons, within_nil, Note.Inside, and_true]
            omega
        · exact within_nil
      · intro r n hnext
        simp only [Nat.not_lt_zero, if_false] at hnext
        split_ifs at hnext
        · cases hnext
          omega
        · cases hnext
          exact Nat.zero_le _

end

/-- The command handlers, `rtmp_msg_parse` and every round of `rtmp_parse`, from any state on, stay inside
the buffer, hand on no negative size and take no more than there is, exactly where what they read fits. -/
theorem parser_within_iff (h : Handlers ω) (e : Effects ω) :
    (∀ command sess curchunk m size, size < 2 ^ 32 → (Within (handlerNotes e command sess curchunk m size) ↔
      HandlerFits m size e (· ≤ size) command sess curchunk)) ∧
    (∀ rconn m size stale, Within (msgNotes h e rconn m size stale) ↔ MsgFits m size e rconn stale) ∧
    ∀ b rconn data, (∀ r rest, Feed.Passes (rtmpStep cbufHolds (serving h e)) b rconn data r rest →
        rest ≠ [] → Within (stepNotes h e b r rest)) ↔
      ∀ r rest, Feed.Passes (rtmpStep cbufHolds (serving h e)) b rconn data r rest → rest ≠ [] →
        RoundFits e b r rest := by
  refine ⟨?_, fun _ _ _ _ => msg_within, ?_⟩
  · intro command sess curchunk m size hsize
    have hwithin := @handler_within _ e command sess curchunk m size (fun _ => True) hsize trivial
    simpa using hwithin
  · intro b rconn data
    refine forall_congr' fun r => forall_congr' fun rest => forall_congr' fun _ => forall_congr' fun hne => ?_
    exact round_within hne

/-- The second byte of a channel is read behind the buffer. -/
theorem channel_past_end : ¬ ∀ (h : Handlers Unit) (e : Effects Unit) (b : Behind) (rconn : Conn Unit)
    (data : List UInt8) (r : Conn Unit) (rest : List UInt8),
    Feed.Passes (rtmpStep cbufHolds (serving h e)) b rconn data r rest → rest ≠ [] →
      Within (stepNotes h e b r rest) := by
  intro hall
  obtain ⟨b⟩ : Nonempty Behind := ⟨⟨fun _ => 0, fun _ => 0⟩⟩
  have hwithin := hall .silent .idle b { Conn.create [] (fun _ => none) () with state := .chunkChannel3 } [0] _ [0]
    .here (by decide)
  exact (round_within (by decide)).mp hwithin rfl

end Yclib.Rtmp.Bounds
