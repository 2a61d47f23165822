import Yclib.Rtmp.ControlBuffer

namespace Yclib.Rtmp
open Network

/-! What the server writes in front of a payload, and how `rtmp_parse` reads it back. -/

variable {ω : Type}

/-- `RNS_RTMP_CHUNK_FMT` and `RNS_RTMP_CHUNK_CHANNEL`, the same in the three writers. -/
def writeBasic (fmt channel : Nat) : List UInt8 :=
  let first := UInt8.ofNat (fmt <<< 6)
  if channel < 64 then [first ||| UInt8.ofNat channel]
  else if channel < 256 + 64 then [first, UInt8.ofNat (channel - 64)]
  else if channel > 256 + 64 then [first + 1, 255, UInt8.ofNat ((channel - 256 - 64) >>> 8)]
  else []

/-- What `rtmp_chunk_write` writes behind the basic header. -/
def chunkFields (chunk : RtmpChunk) : List UInt8 :=
  if chunk.fmt = 3 then []
  else
    let extended := if chunk.timestamp = 0xFFFFFF then rnsHtob32 chunk.timestamp else []
    if chunk.fmt = 2 then rnsHtob24 chunk.timestamp ++ extended
    else rnsHtob24 chunk.timestamp ++ (rnsHtob24 chunk.msglen ++ ([UInt8.ofNat chunk.msgtype] ++
      ((if chunk.fmt = 0 then (rnsHtob32 chunk.streamid).reverse else []) ++ extended)))

/-- `rtmp_chunk_write` into the 32 bytes its callers have, which hold every header. -/
def rtmpChunkWrite (chunk : RtmpChunk) : List UInt8 :=
  writeBasic chunk.fmt chunk.channel ++ chunkFields chunk

/-- What `rtmp_mid_header` writes behind the basic header. -/
def midFields (timestamp : Nat) : List UInt8 :=
  if timestamp ≥ 0xFFFFFF then rnsHtob32 timestamp else []

def rtmpMidHeader (chunkid timestamp : Nat) : List UInt8 :=
  writeBasic 3 chunkid ++ midFields timestamp

/-- What `rtmp_msg_header` writes behind the basic header. The format that says no length
has no extended timestamp either. -/
def msgFields (chunk : RtmpChunk) (msg : RtmpMsg) (timestamp : Nat) : List UInt8 :=
  if chunk.fmt = 3 then []
  else
    let field := rnsHtob24 (if timestamp ≥ 16777215 then 16777215 else timestamp)
    if chunk.fmt = 2 then field
    else field ++ (rnsHtob24 msg.len ++ ([UInt8.ofNat msg.type] ++
      ((if chunk.fmt = 0 then (rnsHtob32 chunk.streamid).reverse else []) ++
        if timestamp ≥ 0xFFFFFF then rnsHtob32 timestamp else [])))

/-- `rtmp_msg_header`: the header of the message, and the format of the next one. -/
def rtmpMsgHeader (chunk : RtmpChunk) (msg : RtmpMsg) (timestamp : Nat) : List UInt8 × RtmpChunk :=
  (writeBasic chunk.fmt chunk.channel ++ msgFields chunk msg timestamp,
    if chunk.fmt = 0 then
      if msg.type = rtmpMsgtypeVideo then { chunk with fmt := 1 }
      else if msg.type = rtmpMsgtypeAudio then { chunk with fmt := 2 }
      else chunk
    else chunk)

/-- `rtmp_parse` comes from the start of `header` to the fields behind it with the format
and the channel. -/
def ReadsBasic (header fields : List UInt8) (fmt channel : Nat) : Prop :=
  ∀ (h : Handlers Unit) (b : Behind) (rconn : Conn Unit) (ys : List UInt8),
    rconn.state = .chunkFmt →
    Feed.Passes (rtmpStep cbufHolds h) b rconn (header ++ ys)
      { rconn with state := .chunkChannel, curfmt := fmt, curchunk := channel } (fields ++ ys)

theorem write_basic_short {fmt channel : Nat} (hf : fmt < 4) (hc : channel < 320) :
    writeBasic fmt channel = basicHeader fmt channel := by
  have hor : ∀ fmt < 4, ∀ channel < 64, UInt8.ofNat (fmt <<< 6) ||| UInt8.ofNat channel =
      UInt8.ofNat (fmt * 64 + channel) := by decide
  have hshift : fmt <<< 6 = fmt * 64 := by rw [Nat.shiftLeft_eq]
  unfold writeBasic basicHeader
  by_cases h64 : channel < 64
  · rw [if_pos h64, if_pos h64, hor fmt hf channel h64]
  · rw [if_neg h64, if_neg h64, if_pos (by omega), if_pos hc, hshift]

/-- A step that takes bytes does not come back to what it took them of. -/
theorem passes_took {b : Behind} {h : Handlers Unit} {s t : Conn Unit} {xs : List UInt8} {n : Nat}
    (hn : 0 < n) (hne : xs ≠ [])
    (hp : Feed.Passes (rtmpStep cbufHolds h) b s (xs.drop n) t xs) : False := by
  have hlen := Feed.passes_length _ hp
  have hpos := List.length_pos_iff.mpr hne
  rw [List.length_drop] at hlen
  omega

/-- Connections that are shown a header they do not read. -/
structure Conn.Fresh (rconn : Conn Unit) : Prop where
  state : rconn.state = .chunkChannel
  size : rconn.ichunksize = 128
  streams : ∀ channel, rconn.sess.chunkstreams channel = none

/-- From the basic header on, the next step but one takes bytes. -/
theorem fresh_stays {h : Handlers Unit} {b : Behind} {r t : Conn Unit} {xs : List UInt8}
    (hr : r.Fresh) (ht : t.state = .chunkChannel)
    (hp : Feed.Passes (rtmpStep cbufHolds h) b r xs t xs) : t = r := by
  obtain ⟨hstate, hsize, hnone⟩ := hr
  generalize hzs : xs = zs at hp
  cases hp with
  | here => rfl
  | @next _ s' _ _ _ n hne hstep hp =>
    simp only [rtmpStep, hstate, hnone, Option.getD_none, Feed.Verdict.next.injEq] at hstep
    obtain ⟨rfl, rfl⟩ := hstep
    rw [List.drop_zero] at hp
    subst hzs
    generalize hzs : xs = zs at hp
    cases hp with
    | here => split at ht <;> cases ht
    | @next _ s'' _ _ _ n hne' hstep' hp' =>
      subst hzs
      have hpos := List.length_pos_iff.mpr hne
      exfalso
      refine passes_took (n := n) ?_ hne hp'
      by_cases h3 : r.curfmt = 3
      · simp only [rtmpStep, h3, ne_eq, not_true_eq_false, if_false, Sess.setChunk,
          Function.update_self, Nat.not_lt_zero, rtmpPayloadStep] at hstep'
        rw [@other_parse _ _ _ _ { fmt := 3, channel := r.curchunk } rfl
          (by decide : ¬ FourBytes 0) (by decide : ¬ Media 0) (by simp)] at hstep'
        simp only [lt_irrefl, if_false, hsize] at hstep'
        split at hstep' <;> cases hstep' <;> omega
      · simp only [rtmpStep, h3, ne_eq, not_false_eq_true, if_true, Sess.setChunk,
          Function.update_self] at hstep'
        split at hstep'
        · cases hstep'
        · cases hstep'
          omega

/-- Whatever else a header is read as, it is not read as one of this format and channel. -/
theorem not_reads {header fields : List UInt8} {fmt channel fmt' channel' : Nat}
    (hreads : ReadsBasic header fields fmt' channel') (hc : channel ≠ channel') :
    ¬ ReadsBasic header fields fmt channel := by
  intro hreads'
  have hp := hreads .silent ⟨fun _ => 0, fun _ => 0⟩
    { Conn.create [] (fun _ => none) () with state := .chunkFmt } [] rfl
  have hp' := hreads' .silent ⟨fun _ => 0, fun _ => 0⟩
    { Conn.create [] (fun _ => none) () with state := .chunkFmt } [] rfl
  rcases Feed.passes_linear _ hp hp' with hq | hq
  · exact hc (congrArg Conn.curchunk (fresh_stays ⟨rfl, rfl, fun _ => rfl⟩ rfl hq))
  · exact hc (congrArg Conn.curchunk (fresh_stays ⟨rfl, rfl, fun _ => rfl⟩ rfl hq)).symm

/-- Channel 320 gets no basic header at all. -/
theorem write_basic_edge (fmt : Nat) (fields : List UInt8) :
    ¬ ReadsBasic (writeBasic fmt 320 ++ fields) fields fmt 320 := by
  intro hreads
  have hp := hreads .silent ⟨fun _ => 0, fun _ => 0⟩
    { Conn.create [] (fun _ => none) () with state := .chunkFmt } [] rfl
  rw [show writeBasic fmt 320 = [] from rfl, List.nil_append, List.append_nil] at hp
  cases hp with
  | next hne hstep hp =>
    cases fields with
    | nil => exact hne rfl
    | cons x fields =>
      simp only [rtmpStep] at hstep
      rw [if_neg (by simp)] at hstep
      cases hstep
      cases hp with
      | next hne' hstep' hp' =>
        simp only [rtmpStep, List.drop_zero] at hstep'
        rw [if_neg (by simp)] at hstep'
        cases hstep'
        exact passes_took (by omega) hne hp'

/-- The three-byte form has 255 in place of the low byte. -/
theorem write_basic_long {fmt channel : Nat} (hf : fmt < 4) (h320 : 320 < channel)
    (hc : channel < 65600) (fields : List UInt8) :
    ¬ ReadsBasic (writeBasic fmt channel ++ fields) fields fmt channel := by
  have hfirst : ∀ fmt < 4, UInt8.ofNat (fmt <<< 6) + 1 = UInt8.ofNat (fmt * 64 + 1) := by decide
  have hwrite : writeBasic fmt channel =
      [UInt8.ofNat (fmt * 64 + 1), 255, UInt8.ofNat ((channel - 256 - 64) >>> 8)] := by
    unfold writeBasic
    rw [if_neg (by omega), if_neg (by omega), if_pos (by omega), hfirst fmt hf]
  have hread : (UInt8.ofNat ((channel - 256 - 64) >>> 8)).toNat * 256 + (255 : UInt8).toNat + 64 =
      319 + (channel - 320) / 256 * 256 := by
    rw [UInt8.toNat_ofNat', Nat.shiftRight_eq_div_pow, show (255 : UInt8).toNat = 255 from rfl]
    omega
  refine @not_reads _ _ _ _ fmt (319 + (channel - 320) / 256 * 256) ?_ (by omega)
  intro h b rconn ys hst
  rw [hwrite, ← hread]
  exact long_passes hst hf _ _ _

theorem reads_basic_iff {fmt channel : Nat} (hf : fmt < 4) (h2 : 2 ≤ channel)
    (hc : channel < 65600) (fields : List UInt8) :
    ReadsBasic (writeBasic fmt channel ++ fields) fields fmt channel ↔ channel < 320 := by
  constructor
  · intro hreads
    by_contra hlong
    by_cases h320 : channel = 320
    · rw [h320] at hreads
      exact write_basic_edge fmt fields hreads
    · exact write_basic_long hf (by omega) hc fields hreads
  · intro hshort h b rconn ys hst
    rw [write_basic_short hf hshort, List.append_assoc]
    exact basic_passes hst hf h2 hc

/-- The basic headers of the three writers are read back on the channels up to 319, and
on no other. -/
theorem basic_header_round_trip (chunk : RtmpChunk) (msg : RtmpMsg) (timestamp : Nat)
    (hf : chunk.fmt < 4) (h2 : 2 ≤ chunk.channel) (hc : chunk.channel < 65600) :
    (ReadsBasic (rtmpChunkWrite chunk) (chunkFields chunk) chunk.fmt chunk.channel ↔
        chunk.channel < 320) ∧
      (ReadsBasic (rtmpMsgHeader chunk msg timestamp).1 (msgFields chunk msg timestamp) chunk.fmt
          chunk.channel ↔ chunk.channel < 320) ∧
      (ReadsBasic (rtmpMidHeader chunk.channel timestamp) (midFields timestamp) 3 chunk.channel ↔
        chunk.channel < 320) :=
  ⟨reads_basic_iff hf h2 hc _, reads_basic_iff hf h2 hc _, reads_basic_iff (by decide) h2 hc _⟩

theorem basic_header_round_trip_video :
    ReadsBasic (rtmpChunkWrite { channel := 4 }) (chunkFields { channel := 4 }) 0 4 :=
  (basic_header_round_trip { channel := 4 } ⟨9, 0, 0, 1, 0, 0, false, 1⟩ 0 (by decide) (by decide)
    (by decide)).1.mpr (by decide)

/-- The first channel beyond the two-byte form. -/
theorem channel_320_not_read : ¬ ∀ (fmt channel : Nat), fmt < 4 → 2 ≤ channel → channel < 65600 →
    ReadsBasic (rtmpChunkWrite { fmt, channel }) (chunkFields { fmt, channel }) fmt channel := by
  intro hall
  exact write_basic_edge 0 _ (hall 0 320 (by decide) (by decide) (by decide))

/-! Control messages. -/

/-- `rtmp_msg_parse` takes the `payload` that the header declares and `rtmp_parse` goes on
with a basic header at `ys`. -/
def Framed (h : Handlers ω) (rconn : Conn ω) (payload ys : List UInt8) : Prop :=
  ∀ b : Behind, ∃ r, rtmpMsgParse cbufHolds h rconn (memOf (payload ++ ys) b.past)
      (min rconn.ichunksize (payload ++ ys).length) b.stale = .ret r payload.length ∧
    rtmpStep cbufHolds h b rconn (payload ++ ys) =
      .next { r with state := .chunkFmt, curlen := 0 } payload.length

/-- The control messages, the user control among them. -/
def ControlType (msgtype : Nat) : Prop :=
  msgtype = rtmpMsgtypeSize ∨ msgtype = rtmpMsgtypeAbort ∨ msgtype = rtmpMsgtypeAck ∨
    msgtype = rtmpMsgtypeUc ∨ msgtype = rtmpMsgtypeWack ∨ msgtype = rtmpMsgtypeBw

/-- The event type of a user control message. -/
def ucEvent (payload : List UInt8) : Nat := rnsBtoh16 (memOf payload fun _ => 0) 0

/-- The messages whose length the parser gets right: the four-byte ones, and of the user
control those with an event it knows or without data, where the part of the chunk it
is given fits into `cbuf`. -/
def Counted (rconn : Conn ω) (msgtype : Nat) (payload ys : List UInt8) : Prop :=
  if msgtype = rtmpMsgtypeUc then
    2 ≤ payload.length ∧ min rconn.ichunksize (payload ++ ys).length ≤ cbufSize ∧
      (ucEvent payload = 0 ∨ ucEvent payload = 3 ∨ payload.length = 2)
  else msgtype ≠ rtmpMsgtypeAbort ∧ payload.length = 4

section
variable {h : Handlers ω} {rconn : Conn ω} {chunk : RtmpChunk} {payload ys : List UInt8}

theorem framed_iff_ret (hst : rconn.state = .chunkPayload)
    (hc : rconn.sess.chunkstreams rconn.curchunk = some chunk) (hne : payload ≠ []) :
    Framed h rconn payload ys ↔ ∀ b : Behind, ∃ r, rtmpMsgParse cbufHolds h rconn
      (memOf (payload ++ ys) b.past) (min rconn.ichunksize (payload ++ ys).length) b.stale =
        .ret r payload.length := by
  have hpos := List.length_pos_iff.mpr hne
  refine forall_congr' fun b => exists_congr fun r => and_iff_left_of_imp fun hret => ?_
  rw [payload_step hst hc]
  exact payload_over hret (.inl ⟨hpos, rfl⟩)

theorem four_bytes_framed (hst : rconn.state = .chunkPayload)
    (hc : rconn.sess.chunkstreams rconn.curchunk = some chunk) (ht : FourBytes chunk.msgtype)
    (hne : payload ≠ []) (hchunk : payload.length ≤ rconn.ichunksize) :
    Framed h rconn payload ys ↔ payload.length = 4 := by
  have hpos := List.length_pos_iff.mpr hne
  obtain ⟨read, hread, -⟩ := four_bytes_parse (h := h) ht hc
  rw [framed_iff_ret hst hc hne]
  constructor
  · intro hall
    obtain ⟨r, hret⟩ := hall ⟨fun _ => 0, fun _ => 0⟩
    rw [hread] at hret
    split at hret
    · simp only [Parsed.ret.injEq] at hret
      omega
    · simp only [Parsed.ret.injEq] at hret
      omega
  · intro h4 b
    rw [hread, if_neg (by rw [List.length_append]; omega), h4]
    exact ⟨_, rfl⟩

theorem abort_not_framed (hst : rconn.state = .chunkPayload)
    (hc : rconn.sess.chunkstreams rconn.curchunk = some chunk)
    (ht : chunk.msgtype = rtmpMsgtypeAbort) (hne : payload ≠ []) : ¬ Framed h rconn payload ys := by
  have hpos := List.length_pos_iff.mpr hne
  rw [framed_iff_ret hst hc hne]
  intro hall
  obtain ⟨r, hret⟩ := hall ⟨fun _ => 0, fun _ => 0⟩
  rw [other_parse (by rw [ht]; rfl) (by rw [ht]; decide) (by rw [ht]; decide) hc] at hret
  simp only [Parsed.ret.injEq] at hret
  omega

/-- What `rtmp_uc_parse` returns for a whole message with more behind it. -/
theorem uc_parse_whole (hc : rconn.sess.chunkstreams rconn.curchunk = some chunk)
    (hlen : payload.length = chunk.msglen) (hsmall : payload.length < 2 ^ 24)
    (h2 : 2 ≤ payload.length) {xs : List UInt8} {m : Mem}
    (hle : payload.length ≤ xs.length) (htake : xs.take 2 = payload.take 2) :
    rtmpUcParse rconn.sess rconn.curchunk (memOf xs m) xs.length =
      if ucEvent payload = 0 ∨ ucEvent payload = 3 then payload.length else 2 := by
  have hevent : rnsBtoh16 (memOf xs m) 0 = ucEvent payload := by
    have hbyte (i : Nat) (hi : i < 2) : memOf xs m i = memOf payload (fun _ => 0) i := by
      have hget : xs[i]? = payload[i]? := by
        rw [← List.getElem?_take_of_lt hi, htake, List.getElem?_take_of_lt hi]
      rw [List.getElem?_eq_getElem (show i < xs.length by omega),
        List.getElem?_eq_getElem (show i < payload.length by omega), Option.some.injEq] at hget
      simp only [memOf, show i < xs.length by omega, show i < payload.length by omega, dif_pos, hget]
    simp only [ucEvent, rnsBtoh16, btoh, hbyte 0 (by omega), hbyte 1 (by omega)]
  have hsub : u32Sub chunk.msglen 2 = chunk.msglen - 2 := u32_sub_of_le (by omega) (by omega)
  simp only [rtmpUcParse, hc, hsub, hevent]
  rw [if_neg (by omega), if_neg (by omega)]
  split
  · rename_i h0
    rw [if_pos (.inl h0)]
    simp only [u32]
    omega
  · rename_i h3
    rw [if_pos (.inr h3)]
    simp only [u32, u32Sub]
    omega
  · rename_i h0 h3
    rw [if_neg (by simp only [not_or]; exact ⟨h0, h3⟩)]

/-- `rtmp_msg_parse` on a user control message with `size` bytes of the chunk before it. -/
theorem uc_msg_parse (hc : rconn.sess.chunkstreams rconn.curchunk = some chunk)
    (ht : chunk.msgtype = rtmpMsgtypeUc) (hcbuf : rconn.cbuf = []) {size : Nat}
    (hle : size ≤ (payload ++ ys).length) (b : Behind) :
    rtmpMsgParse cbufHolds h rconn (memOf (payload ++ ys) b.past) size b.stale =
      if size ≤ cbufSize then
        let s := rtmpUcParse rconn.sess rconn.curchunk (memOf ((payload ++ ys).take size) b.stale) size
        if 0 < s then .ret { rconn with cbuf := [] } (u32 (u32Sub s 0))
        else .ret { rconn with cbuf := (payload ++ ys).take size } 0
      else .overrun := by
  have hcopy : copySize 0 size = size := by
    simp only [copySize, Nat.zero_le, if_true]
    omega
  have hslice : slice (memOf (payload ++ ys) b.past) 0 size = (payload ++ ys).take size := by
    rw [slice_mem_of (by omega), List.drop_zero]
  have hwhole : ((payload ++ ys).take size).length = size := by
    rw [List.length_take]
    omega
  rw [cbuf_parse (by rw [ht]; rfl) hc]
  simp only [cbufParse, hcbuf, List.nil_append, List.length_nil, Nat.zero_add, hcopy, hslice, hwhole,
    cbufHolds, decide_eq_true_eq]

/-- What it takes of a whole message. -/
theorem uc_msg_used (hc : rconn.sess.chunkstreams rconn.curchunk = some chunk)
    (ht : chunk.msgtype = rtmpMsgtypeUc) (hcbuf : rconn.cbuf = [])
    (hlen : payload.length = chunk.msglen) (hsmall : payload.length < 2 ^ 24)
    (h2 : 2 ≤ payload.length) {size : Nat} (hsize : payload.length ≤ size)
    (hle : size ≤ (payload ++ ys).length) (hfits : size ≤ cbufSize) (b : Behind) :
    rtmpMsgParse cbufHolds h rconn (memOf (payload ++ ys) b.past) size b.stale =
      .ret { rconn with cbuf := [] }
        (if ucEvent payload = 0 ∨ ucEvent payload = 3 then payload.length else 2) := by
  have hwhole : ((payload ++ ys).take size).length = size := by
    rw [List.length_take]
    omega
  have hs := uc_parse_whole (m := b.stale) hc hlen hsmall h2
    (by rw [hwhole]; exact hsize)
    (by rw [List.take_take, Nat.min_eq_left (by omega), List.take_append_of_le_length h2])
  have hret (n : Nat) (hn : n < 2 ^ 24) : u32 (u32Sub n 0) = n := by
    simp only [u32, u32Sub]
    omega
  rw [hwhole] at hs
  rw [uc_msg_parse hc ht hcbuf hle, if_pos hfits]
  simp only [hs]
  split
  · rw [if_pos (by omega), hret _ hsmall]
  · rfl

theorem uc_framed (hst : rconn.state = .chunkPayload)
    (hc : rconn.sess.chunkstreams rconn.curchunk = some chunk) (ht : chunk.msgtype = rtmpMsgtypeUc)
    (hcbuf : rconn.cbuf = []) (hlen : payload.length = chunk.msglen)
    (hsmall : payload.length < 2 ^ 24) (hne : payload ≠ [])
    (hchunk : payload.length ≤ rconn.ichunksize) :
    Framed h rconn payload ys ↔
      2 ≤ payload.length ∧ min rconn.ichunksize (payload ++ ys).length ≤ cbufSize ∧
        (ucEvent payload = 0 ∨ ucEvent payload = 3 ∨ payload.length = 2) := by
  have hpos := List.length_pos_iff.mpr hne
  have hall : (payload ++ ys).length = payload.length + ys.length := List.length_append
  obtain ⟨size, hsize⟩ : ∃ size, min rconn.ichunksize (payload ++ ys).length = size := ⟨_, rfl⟩
  have hle : size ≤ (payload ++ ys).length := by omega
  rw [framed_iff_ret hst hc hne, hsize]
  by_cases hfits : size ≤ cbufSize
  · by_cases h2 : 2 ≤ payload.length
    · simp only [uc_msg_used hc ht hcbuf hlen hsmall h2 (by omega : payload.length ≤ size) hle hfits,
        Parsed.ret.injEq, h2, hfits, true_and]
      constructor
      · intro hall
        obtain ⟨r, -, hr⟩ := hall ⟨fun _ => 0, fun _ => 0⟩
        split at hr
        · rename_i he
          exact he.imp_right .inl
        · exact .inr (.inr hr.symm)
      · intro he b
        refine ⟨_, rfl, ?_⟩
        split
        · rfl
        · rename_i hn
          rcases he with he | he | he
          · exact absurd (.inl he) hn
          · exact absurd (.inr he) hn
          · exact he.symm
    · refine iff_of_false (fun hall => ?_) fun hcond => h2 hcond.1
      obtain ⟨r, hret⟩ := hall ⟨fun _ => 0, fun _ => 0⟩
      -- one byte: the length without the event type has wrapped around
      have hs : rtmpUcParse rconn.sess rconn.curchunk
          (memOf ((payload ++ ys).take size) fun _ => 0) size = 0 := by
        have hsub : u32Sub chunk.msglen 2 = 2 ^ 32 - 1 := by
          simp only [u32Sub]
          omega
        have hcap : cbufSize = 1024 := rfl
        simp only [rtmpUcParse, hc, hsub]
        by_cases hsize2 : size < 2
        · rw [if_pos hsize2]
        · rw [if_neg hsize2, if_pos (by omega)]
      rw [uc_msg_parse hc ht hcbuf hle, if_pos hfits] at hret
      simp only [hs, lt_irrefl, if_false, Parsed.ret.injEq] at hret
      omega
  · refine iff_of_false (fun hall => ?_) fun hcond => hfits (hsize ▸ hcond.2.1)
    obtain ⟨r, hret⟩ := hall ⟨fun _ => 0, fun _ => 0⟩
    rw [uc_msg_parse hc ht hcbuf hle, if_neg hfits] at hret
    cases hret

end

/-- A control message that is complete in one chunk, with `cbuf` empty and whatever
behind it, is framed in the cases where its length is counted right. -/
theorem control_message_framed (h : Handlers ω) {rconn : Conn ω} {chunk : RtmpChunk}
    {payload : List UInt8} (ys : List UInt8) (hst : rconn.state = .chunkPayload)
    (hc : rconn.sess.chunkstreams rconn.curchunk = some chunk) (ht : ControlType chunk.msgtype)
    (hcbuf : rconn.cbuf = []) (hlen : payload.length = chunk.msglen)
    (hsmall : payload.length < 2 ^ 24) (hne : payload ≠ [])
    (hchunk : payload.length ≤ rconn.ichunksize) :
    Framed h rconn payload ys ↔ Counted rconn chunk.msgtype payload ys := by
  unfold Counted
  by_cases huc : chunk.msgtype = rtmpMsgtypeUc
  · rw [if_pos huc]
    exact uc_framed hst hc huc hcbuf hlen hsmall hne hchunk
  rw [if_neg huc]
  by_cases habort : chunk.msgtype = rtmpMsgtypeAbort
  · exact iff_of_false (abort_not_framed hst hc habort hne) fun hcond => hcond.1 habort
  · rw [four_bytes_framed hst hc (by
      rcases ht with ht | ht | ht | ht | ht | ht
      · exact .inl ht
      · exact absurd ht habort
      · exact .inr (.inl ht)
      · exact absurd ht huc
      · exact .inr (.inr (.inl ht))
      · exact .inr (.inr (.inr ht))) hne hchunk]
    exact (and_iff_right habort).symm

/-- A connection that has read the header of a chunk on channel 2. -/
def Conn.behind (chunk : RtmpChunk) : Conn Unit :=
  { Conn.create [] (fun _ => none) () with
    state := .chunkPayload, curchunk := 2
    sess := Sess.setChunk ⟨fun _ => none, fun _ => none, ()⟩ 2 chunk }

theorem control_message_framed_size :
    Framed .silent (Conn.behind { channel := 2, msglen := 4, msgtype := 1 }) [0, 0, 16, 0] [2] := by
  refine (control_message_framed .silent [2] rfl (set_chunk_self _ _ _) (.inl rfl) rfl rfl (by decide)
    (by decide) (by decide)).mpr ?_
  rw [Counted, if_neg (by decide)]
  exact ⟨by decide, rfl⟩

/-! The control messages the server emits. -/

/-- The chunk of `rtmp_uc_sb`, `rtmp_chunkctrl_bw` and the like. -/
def ctrlChunk (msglen msgtype : Nat) : RtmpChunk := { channel := 2, msglen, msgtype }

def rtmpUcSb (streamid : Nat) : List UInt8 :=
  rtmpChunkWrite (ctrlChunk 6 rtmpMsgtypeUc) ++ ([0, 0] ++ rnsHtob32 streamid)

def rtmpUcResetplay (streamid : Nat) : List UInt8 :=
  rtmpChunkWrite (ctrlChunk 6 rtmpMsgtypeUc) ++ (rnsHtob16 31 ++ rnsHtob32 streamid)

def rtmpChunkctrlAcksize (size : Nat) : List UInt8 :=
  rtmpChunkWrite (ctrlChunk 4 rtmpMsgtypeWack) ++ rnsHtob32 size

def rtmpChunkctrlBw (size : Nat) : List UInt8 :=
  rtmpChunkWrite (ctrlChunk 5 rtmpMsgtypeBw) ++ (rnsHtob32 size ++ [2])

def rtmpChunkctrlChunksize (size : Nat) : List UInt8 :=
  rtmpChunkWrite (ctrlChunk 4 rtmpMsgtypeSize) ++ rnsHtob32 size

/-- A connection between two chunks comes through `message` to a basic header, with `left`
of the message before it. -/
def ComesTo (h : Handlers ω) (message left : List UInt8) : Prop :=
  ∀ (b : Behind) (rconn : Conn ω) (ys : List UInt8), rconn.state = .chunkFmt → rconn.cbuf = [] →
    6 ≤ rconn.ichunksize → rconn.ichunksize ≤ cbufSize → ∃ r, r.state = .chunkFmt ∧
      Feed.Passes (rtmpStep cbufHolds h) b rconn (message ++ ys) r (left ++ ys)

/-- A control message by what is taken of its payload. -/
theorem ctrl_comes_to (h : Handlers ω) {msglen msgtype : Nat} {payload left : List UInt8}
    (hlen : msglen < 2 ^ 24) (ht : msgtype < 256) (hne : payload ≠ [])
    (hframed : ∀ (rconn : Conn ω) (ys : List UInt8), rconn.state = .chunkPayload →
      (∃ chunk, rconn.sess.chunkstreams rconn.curchunk = some chunk ∧ chunk.msgtype = msgtype ∧
        chunk.msglen = msglen) → rconn.cbuf = [] → 6 ≤ rconn.ichunksize →
      rconn.ichunksize ≤ cbufSize → Framed h rconn payload (left ++ ys)) :
    ComesTo h (rtmpChunkWrite (ctrlChunk msglen msgtype) ++ (payload ++ left)) left := by
  intro b rconn ys hst hcbuf h6 hcap
  have hheader : rtmpChunkWrite (ctrlChunk msglen msgtype) =
      basicHeader 0 2 ++ MsgHeader.encode (.full 0 msglen msgtype 0) := by
    simp [rtmpChunkWrite, ctrlChunk, writeBasic, chunkFields, basicHeader, MsgHeader.encode,
      timestampField, extendedField]
  rw [hheader]
  simp only [List.append_assoc]
  have hpass := @chunk_passes _ cbufHolds h b _ (payload ++ (left ++ ys)) (.full 0 msglen msgtype 0) 2 hst
    (by decide) (by decide) ⟨by decide, hlen, ht, by decide⟩ trivial (by simp [hne])
  obtain ⟨r, -, hstep⟩ := hframed { rconn with
      state := .chunkPayload, curfmt := 0, curchunk := 2
      sess := rconn.sess.setChunk 2
        ((rconn.sess.channel 2 0).read (.full 0 msglen msgtype 0)) } ys rfl
    ⟨_, set_chunk_self _ _ _, rfl, rfl⟩ hcbuf h6 hcap b
  exact ⟨_, rfl, Feed.passes_trans _ hpass (took _ rfl (by simp [hne]) hstep)⟩

/-- Of what the server emits, the peer bandwidth and the reset of the player leave bytes
of their payload to the basic header of the next chunk. -/
theorem emitted_comes_to (h : Handlers ω) (n : Nat) :
    ComesTo h (rtmpUcSb n) [] ∧ ComesTo h (rtmpChunkctrlAcksize n) [] ∧
      ComesTo h (rtmpChunkctrlChunksize n) [] ∧ ComesTo h (rtmpChunkctrlBw n) [2] ∧
      ComesTo h (rtmpUcResetplay n) (rnsHtob32 n) := by
  have h4 : (rnsHtob32 n).length = 4 := by simp [rnsHtob32]
  have hne : rnsHtob32 n ≠ [] := List.length_pos_iff.mp (by omega)
  have hfour {msgtype : Nat} (msglen : Nat) (left : List UInt8) (hm : msglen < 2 ^ 24)
      (ht : FourBytes msgtype) : ComesTo h (rtmpChunkWrite (ctrlChunk msglen msgtype) ++
        (rnsHtob32 n ++ left)) left := by
    refine ctrl_comes_to h hm (by rcases ht with rfl | rfl | rfl | rfl <;> decide) hne ?_
    rintro rconn ys hst ⟨chunk, hc, rfl, -⟩ - h6 -
    exact (four_bytes_framed hst hc ht hne (by omega)).mpr h4
  refine ⟨?_, ?_, ?_, hfour 5 [2] (by decide) (.inr (.inr (.inr rfl))), ?_⟩
  · have hbegin := @ctrl_comes_to ω h 6 rtmpMsgtypeUc ([0, 0] ++ rnsHtob32 n) [] (by decide) (by decide) (by simp) ?_
    · simpa only [rtmpUcSb, List.append_nil] using hbegin
    rintro rconn ys hst ⟨chunk, hc, ht, hlen⟩ hcbuf h6 hcap
    have h6' : ([0, 0] ++ rnsHtob32 n).length = 6 := by simp [h4]
    exact (uc_framed hst hc ht hcbuf (by omega) (by omega) (by simp) (by omega)).mpr
      ⟨by omega, by omega, .inl (by simp [ucEvent, rnsBtoh16, btoh, memOf])⟩
  · simpa only [rtmpChunkctrlAcksize, List.append_nil] using hfour 4 [] (by omega) (.inr (.inr (.inl rfl)))
  · simpa only [rtmpChunkctrlChunksize, List.append_nil] using hfour 4 [] (by omega) (.inl rfl)
  · -- an event that is not known is taken without its data
    refine ctrl_comes_to h (by decide) (by decide) (by simp [rnsHtob16, htob]) ?_
    rintro rconn ys hst ⟨chunk, hc, ht, hlen⟩ hcbuf h6 hcap
    have h2 : (rnsHtob16 31).length = 2 := by simp [rnsHtob16]
    rw [framed_iff_ret hst hc (by simp [rnsHtob16, htob])]
    intro b
    have h6' : (rnsHtob16 31 ++ rnsHtob32 n).length = 6 := by simp [h4, h2]
    have hle : 6 ≤ (rnsHtob16 31 ++ rnsHtob32 n ++ ys).length := by
      rw [List.length_append]
      omega
    have hused := uc_msg_used (h := h) hc ht hcbuf (by omega) (by omega) (by omega : 2 ≤ _)
      (by omega : (rnsHtob16 31 ++ rnsHtob32 n).length ≤
        min rconn.ichunksize (rnsHtob16 31 ++ rnsHtob32 n ++ ys).length)
      (Nat.min_le_right _ _) (by omega) b
    rw [List.append_assoc] at hused
    exact ⟨_, hused⟩

/-- The limit byte of the peer bandwidth is left over. -/
theorem bandwidth_not_framed : ¬ ∀ (rconn : Conn Unit) (chunk : RtmpChunk) (payload ys : List UInt8),
    rconn.state = .chunkPayload → rconn.sess.chunkstreams rconn.curchunk = some chunk →
    ControlType chunk.msgtype → rconn.cbuf = [] → payload.length = chunk.msglen →
    payload.length < 2 ^ 24 → payload ≠ [] → payload.length ≤ rconn.ichunksize →
    Framed .silent rconn payload ys := by
  intro hall
  have hst : (Conn.behind (ctrlChunk 5 rtmpMsgtypeBw)).state = .chunkPayload := rfl
  have hc : (Conn.behind (ctrlChunk 5 rtmpMsgtypeBw)).sess.chunkstreams 2 =
      some (ctrlChunk 5 rtmpMsgtypeBw) := set_chunk_self _ _ _
  have hframed := hall _ _ [0, 38, 37, 160, 2] [2] hst hc
    (.inr (.inr (.inr (.inr (.inr rfl))))) rfl rfl (by decide) (by decide) (by decide)
  have h4 := (four_bytes_framed hst hc (.inr (.inr (.inr rfl))) (by decide) (by decide)).mp hframed
  exact absurd h4 (by decide)

end Yclib.Rtmp
