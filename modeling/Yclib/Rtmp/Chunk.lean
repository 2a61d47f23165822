import Yclib.Rtmp.Parse

namespace Yclib.Rtmp
open Network

/-! Chunks as a client puts them on the wire, and how `rtmp_parse` comes to their payload. -/

variable {ω : Type}

/-- The message header of a chunk, by its type. A timestamp or a delta that three bytes
do not hold goes into the extended field. -/
inductive MsgHeader
  | full (timestamp msglen msgtype streamid : Nat)
  | same (delta msglen msgtype : Nat)
  | later (delta : Nat)
  | none
deriving DecidableEq

def MsgHeader.fmt : MsgHeader → Nat
  | .full .. => 0
  | .same .. => 1
  | .later _ => 2
  | .none => 3

def timestampField (t : Nat) : List UInt8 := rnsHtob24 (min t 0xFFFFFF)

def extendedField (t : Nat) : List UInt8 := if t < 0xFFFFFF then [] else rnsHtob32 t

def MsgHeader.encode : MsgHeader → List UInt8
  | .full timestamp msglen msgtype streamid =>
    timestampField timestamp ++ (rnsHtob24 msglen ++ ([UInt8.ofNat msgtype] ++
      ((rnsHtob32 streamid).reverse ++ extendedField timestamp)))
  | .same delta msglen msgtype =>
    timestampField delta ++ (rnsHtob24 msglen ++ ([UInt8.ofNat msgtype] ++ extendedField delta))
  | .later delta => timestampField delta ++ extendedField delta
  | .none => []

/-- The fields fit the wire. -/
def MsgHeader.Fits : MsgHeader → Prop
  | .full timestamp msglen msgtype streamid =>
    timestamp < 2 ^ 32 ∧ msglen < 2 ^ 24 ∧ msgtype < 256 ∧ streamid < 2 ^ 32
  | .same delta msglen msgtype => delta < 2 ^ 32 ∧ msglen < 2 ^ 24 ∧ msgtype < 256
  | .later delta => delta < 2 ^ 32
  | .none => True

instance (header : MsgHeader) : Decidable header.Fits := by
  cases header <;> unfold MsgHeader.Fits <;> infer_instance

/-- The basic header, in the shortest form the channel has. -/
def basicHeader (fmt channel : Nat) : List UInt8 :=
  if channel < 64 then [UInt8.ofNat (fmt * 64 + channel)]
  else if channel < 320 then [UInt8.ofNat (fmt * 64), UInt8.ofNat (channel - 64)]
  else [UInt8.ofNat (fmt * 64 + 1), UInt8.ofNat ((channel - 64) % 256),
    UInt8.ofNat ((channel - 64) / 256)]

/-- What a chunk stream holds once the header is read. -/
def RtmpChunk.read (chunk : RtmpChunk) : MsgHeader → RtmpChunk
  | .full timestamp msglen msgtype streamid => { chunk with timestamp, msglen, msgtype, streamid }
  | .same delta msglen msgtype =>
    { chunk with timestamp := u32 (chunk.timestamp + delta), msglen, msgtype }
  | .later delta => { chunk with timestamp := u32 (chunk.timestamp + delta) }
  | .none => chunk

/-- The extended field is looked for where the sum of the timestamps is 0xFFFFFF, and not
where the field of the header is. -/
def RtmpChunk.Adds (chunk : RtmpChunk) (delta : Nat) : Prop :=
  chunk.timestamp = 0 ∨ (delta < 0xFFFFFF ∧ u32 (chunk.timestamp + delta) ≠ 0xFFFFFF)

def RtmpChunk.Reads (chunk : RtmpChunk) : MsgHeader → Prop
  | .full .. => True
  | .same delta .. => chunk.Adds delta
  | .later delta => chunk.Adds delta
  | .none => True

theorem slice_mem_of {xs : List UInt8} {m : Mem} {w n : Nat} (h : w + n ≤ xs.length) :
    slice (memOf xs m) w n = (xs.drop w).take n := by
  apply List.ext_getElem
  · simp
    omega
  · intro i h1 h2
    simp only [slice_length] at h1
    simp [slice, memOf, show w + i < xs.length by omega]

theorem mem_of_holds (xs ys : List UInt8) (m : Mem) : Holds (memOf (xs ++ ys) m) 0 xs := by
  intro i hi
  have hlt : i < (xs ++ ys).length := by
    rw [List.length_append]
    omega
  simp only [memOf, Nat.zero_add, hlt, dif_pos, List.getElem_append_left hi]

theorem btoh24_of_bytes {m : Mem} {data : Nat} (h : Holds m 0 (rnsHtob24 data))
    (hd : data < 2 ^ 24) : rnsBtoh24 m 0 = data := by
  have := btoh_htob h
  rw [Nat.mod_eq_of_lt (by omega)] at this
  exact this

theorem btoh32_of_bytes {m : Mem} {data : Nat} (h : Holds m 0 (rnsHtob32 data))
    (hd : data < 2 ^ 32) : rnsBtoh32 m 0 = data := by
  have := btoh_htob h
  rw [Nat.mod_eq_of_lt (by omega)] at this
  exact this

theorem ltoh_of_bytes {m : Mem} {data : Nat} (h : Holds m 0 (rnsHtob32 data).reverse)
    (hd : data < 2 ^ 32) : rnsLtoh32 m 0 = data := by
  have h0 := h 0 (by simp [rnsHtob32])
  have h1 := h 1 (by simp [rnsHtob32])
  have h2 := h 2 (by simp [rnsHtob32])
  have h3 := h 3 (by simp [rnsHtob32])
  simp [rnsHtob32, htob] at h0 h1 h2 h3
  simp [rnsLtoh32, ltoh, h0, h1, h2, h3, Nat.shiftRight_eq_div_pow]
  omega

theorem set_chunk_twice (sess : Sess ω) (curchunk : Nat) (c d : RtmpChunk) :
    (sess.setChunk curchunk c).setChunk curchunk d = sess.setChunk curchunk d := by
  simp [Sess.setChunk]

section
variable {room : Nat → Bool} {h : Handlers ω} {b : Behind} {rconn : Conn ω} {xs ys : List UInt8}

/-- A step that takes the first bytes of a piece. -/
theorem took (zs : List UInt8) {s : Conn ω} {n : Nat} (hn : zs.length = n) (hne : zs ++ ys ≠ [])
    (hstep : rtmpStep room h b rconn (zs ++ ys) = .next s n) :
    Feed.Passes (rtmpStep room h) b rconn (zs ++ ys) s ys := by
  refine .next hne hstep ?_
  rw [List.drop_left' hn]
  exact .here

/-- The first byte of a basic header. -/
theorem first_passes {fmt n : Nat} (hst : rconn.state = .chunkFmt) (hf : fmt < 4) (hn : n < 64)
    (ys : List UInt8) :
    Feed.Passes (rtmpStep room h) b rconn (UInt8.ofNat (fmt * 64 + n) :: ys) { rconn with
      state := if n = 0 then .chunkChannel2 else if n = 1 then .chunkChannel3 else .chunkChannel
      curfmt := fmt, curchunk := n } ys := by
  have hfmt : ∀ fmt < 4, ∀ n < 64, ((fmt * 64 + n) % 256 &&& 0xC0) >>> 6 = fmt := by decide
  have hlow : ∀ fmt < 4, ∀ n < 64, (fmt * 64 + n) % 256 &&& 0x3F = n := by decide
  refine .next (by simp) (show _ = Feed.Verdict.next
    { rconn with state := .chunkChannel1, curfmt := fmt } 0 from ?_) ?_
  · simp [rtmpStep, hst, memOf, hfmt fmt hf n hn]
  · refine took [_] rfl (by simp) ?_
    simp [rtmpStep, memOf, hlow fmt hf n hn]

/-- The three-byte form, whatever its two bytes are. -/
theorem long_passes {fmt : Nat} (hst : rconn.state = .chunkFmt) (hf : fmt < 4) (lo hi : UInt8)
    (ys : List UInt8) :
    Feed.Passes (rtmpStep room h) b rconn (UInt8.ofNat (fmt * 64 + 1) :: lo :: hi :: ys)
      { rconn with
        state := .chunkChannel, curfmt := fmt, curchunk := hi.toNat * 256 + lo.toNat + 64 } ys := by
  refine Feed.passes_trans _ (first_passes hst hf (n := 1) (by omega) (lo :: hi :: ys)) ?_
  refine took [_, _] rfl (by simp) ?_
  simp [rtmpStep, memOf, Nat.shiftLeft_eq]

theorem basic_passes {fmt channel : Nat} (hst : rconn.state = .chunkFmt) (hf : fmt < 4)
    (h2 : 2 ≤ channel) (hc : channel < 65600) :
    Feed.Passes (rtmpStep room h) b rconn (basicHeader fmt channel ++ ys)
      { rconn with state := .chunkChannel, curfmt := fmt, curchunk := channel } ys := by
  unfold basicHeader
  split
  · have := @first_passes _ room h b _ _ channel hst hf (by omega) ys
    rwa [if_neg (by omega), if_neg (by omega)] at this
  split
  · refine Feed.passes_trans _ (first_passes hst hf (n := 0) (by omega)
      (UInt8.ofNat (channel - 64) :: ys)) ?_
    refine took [_] rfl (by simp) ?_
    have hbyte : (channel - 64) % 256 + 64 = channel := by omega
    simp [rtmpStep, memOf, hbyte]
  · have := @long_passes _ room h b _ _ hst hf (UInt8.ofNat ((channel - 64) % 256))
      (UInt8.ofNat ((channel - 64) / 256)) ys
    have hbytes : (channel - 64) / 256 % 256 * 256 + (channel - 64) % 256 % 256 + 64 = channel := by
      omega
    simp only [UInt8.toNat_ofNat', Nat.reducePow, hbytes] at this
    exact this

section
variable {chunk : RtmpChunk}

theorem timestamp_passes {t : Nat} (hst : rconn.state = .chunkTimestamp)
    (hc : rconn.sess.chunkstreams rconn.curchunk = some chunk) (ys : List UInt8) :
    Feed.Passes (rtmpStep room h) b rconn (timestampField t ++ ys)
      { rconn with
        state := if chunk.fmt = 2 then .chunkExtraTimestamp else .chunkMsgLen
        sess := rconn.sess.setChunk rconn.curchunk { chunk with
          timestamp := if chunk.fmt ≠ 0 then u32 (chunk.timestamp + min t 0xFFFFFF)
            else min t 0xFFFFFF } } ys := by
  have hlen : (timestampField t).length = 3 := by simp [timestampField, rnsHtob24]
  have hread : rnsBtoh24 (memOf (timestampField t ++ ys) b.past) 0 = min t 0xFFFFFF :=
    btoh24_of_bytes (mem_of_holds _ _ _) (by omega)
  refine took _ hlen (by rw [← List.length_pos_iff, List.length_append]; omega) ?_
  simp only [rtmpStep, hst, hc, hread]
  rw [if_neg (by rw [List.length_append]; omega)]

theorem msglen_passes {msglen : Nat} (hst : rconn.state = .chunkMsgLen)
    (hc : rconn.sess.chunkstreams rconn.curchunk = some chunk) (hm : msglen < 2 ^ 24)
    (ys : List UInt8) :
    Feed.Passes (rtmpStep room h) b rconn (rnsHtob24 msglen ++ ys)
      { rconn with
        state := .chunkMsgType
        sess := rconn.sess.setChunk rconn.curchunk { chunk with msglen := msglen } } ys := by
  have hlen : (rnsHtob24 msglen).length = 3 := by simp [rnsHtob24]
  have hread : rnsBtoh24 (memOf (rnsHtob24 msglen ++ ys) b.past) 0 = msglen :=
    btoh24_of_bytes (mem_of_holds _ _ _) hm
  refine took _ hlen (by rw [← List.length_pos_iff, List.length_append]; omega) ?_
  simp only [rtmpStep, hst, hc, hread]
  rw [if_neg (by rw [List.length_append]; omega)]

theorem msgtype_passes {msgtype : Nat} (hst : rconn.state = .chunkMsgType)
    (hc : rconn.sess.chunkstreams rconn.curchunk = some chunk) (hm : msgtype < 256)
    (ys : List UInt8) :
    Feed.Passes (rtmpStep room h) b rconn ([UInt8.ofNat msgtype] ++ ys)
      { rconn with
        state := if chunk.fmt = 0 then .chunkMsgStreamid else .chunkExtraTimestamp
        sess := rconn.sess.setChunk rconn.curchunk { chunk with msgtype := msgtype } } ys := by
  refine took _ rfl (by simp) ?_
  simp [rtmpStep, hst, hc, memOf, Nat.mod_eq_of_lt hm]

theorem streamid_passes {streamid : Nat} (hst : rconn.state = .chunkMsgStreamid)
    (hc : rconn.sess.chunkstreams rconn.curchunk = some chunk) (hs : streamid < 2 ^ 32)
    (ys : List UInt8) :
    Feed.Passes (rtmpStep room h) b rconn ((rnsHtob32 streamid).reverse ++ ys)
      { rconn with
        state := .chunkExtraTimestamp
        sess := rconn.sess.setChunk rconn.curchunk { chunk with streamid := streamid } } ys := by
  have hlen : (rnsHtob32 streamid).reverse.length = 4 := by simp [rnsHtob32]
  have hread : rnsLtoh32 (memOf ((rnsHtob32 streamid).reverse ++ ys) b.past) 0 = streamid :=
    ltoh_of_bytes (mem_of_holds _ _ _) hs
  refine took _ hlen (by rw [← List.length_pos_iff, List.length_append]; omega) ?_
  simp only [rtmpStep, hst, hc, hread]
  rw [if_neg (by rw [List.length_append]; omega)]

/-- The extended field is read where it was sent, if the sum says so. -/
theorem extended_passes {t : Nat} (hst : rconn.state = .chunkExtraTimestamp)
    (hc : rconn.sess.chunkstreams rconn.curchunk = some chunk) (ht : t < 2 ^ 32)
    (hsum : chunk.timestamp = 0xFFFFFF ↔ 0xFFFFFF ≤ t) (hne : ys ≠ []) :
    Feed.Passes (rtmpStep room h) b rconn (extendedField t ++ ys)
      { rconn with
        state := .chunkPayload
        sess := rconn.sess.setChunk rconn.curchunk { chunk with
          timestamp := if 0xFFFFFF ≤ t then t else chunk.timestamp } } ys := by
  unfold extendedField
  by_cases hlt : t < 0xFFFFFF
  · have hts : chunk.timestamp ≠ 0xFFFFFF := fun he => by have := hsum.mp he; omega
    have hsame : rconn.sess.setChunk rconn.curchunk chunk = rconn.sess := by
      simp [Sess.setChunk, ← hc]
    rw [if_pos hlt]
    refine took _ rfl (by simpa using hne) ?_
    simp only [rtmpStep, hst, hc, hts, if_false, Nat.not_lt_zero]
    rw [if_neg (by omega), hsame]
    rfl
  · have hts : chunk.timestamp = 0xFFFFFF := hsum.mpr (by omega)
    have hlen : (rnsHtob32 t).length = 4 := by simp [rnsHtob32]
    have hread : rnsBtoh32 (memOf (rnsHtob32 t ++ ys) b.past) 0 = t :=
      btoh32_of_bytes (mem_of_holds _ _ _) ht
    rw [if_neg hlt]
    refine took _ hlen (by simp [hne]) ?_
    simp only [rtmpStep, hst, hc, hts, if_true, hread, Nat.not_lt_zero, if_false]
    rw [if_neg (by rw [List.length_append]; omega), if_pos (by omega)]

end

theorem set_chunk_self (sess : Sess ω) (curchunk : Nat) (chunk : RtmpChunk) :
    (sess.setChunk curchunk chunk).chunkstreams curchunk = some chunk := by
  simp [Sess.setChunk]

/-- From the message header on to the payload. -/
theorem header_passes {header : MsgHeader} {chunk : RtmpChunk}
    (hst : rconn.state = if header.fmt = 3 then .chunkPayload else .chunkTimestamp)
    (hc : rconn.sess.chunkstreams rconn.curchunk = some chunk) (hfmt : chunk.fmt = header.fmt)
    (hfits : header.Fits) (hreads : chunk.Reads header) (hne : ys ≠ []) :
    Feed.Passes (rtmpStep room h) b rconn (header.encode ++ ys)
      { rconn with
        state := .chunkPayload
        sess := rconn.sess.setChunk rconn.curchunk (chunk.read header) } ys := by
  -- with the extended field the sum is what the field says
  have hsum {delta : Nat} (ha : chunk.Adds delta) :
      (u32 (chunk.timestamp + min delta 0xFFFFFF) = 0xFFFFFF ↔ 0xFFFFFF ≤ delta) ∧
        (delta < 2 ^ 32 → (if 0xFFFFFF ≤ delta then delta else u32 (chunk.timestamp +
          min delta 0xFFFFFF)) = u32 (chunk.timestamp + delta)) := by
    unfold RtmpChunk.Adds at ha
    simp only [u32] at ha ⊢
    rcases ha with h0 | ⟨hlt, hn⟩
    · rw [h0]
      constructor
      · omega
      · intro hd
        split <;> omega
    · rw [Nat.min_eq_left (by omega), if_neg (by omega)]
      exact ⟨by constructor <;> intro <;> omega, fun _ => rfl⟩
  cases header with
  | full timestamp msglen msgtype streamid =>
    obtain ⟨ht, hm, hy, hs⟩ := hfits
    simp only [MsgHeader.fmt] at hst hfmt
    simp only [MsgHeader.encode, List.append_assoc]
    apply Feed.passes_trans _ (timestamp_passes hst hc _)
    refine Feed.passes_trans _ (msglen_passes (by simp [hfmt]) (set_chunk_self _ _ _) hm _) ?_
    apply Feed.passes_trans _ (msgtype_passes rfl (set_chunk_self _ _ _) hy _)
    refine Feed.passes_trans _ (streamid_passes (by simp [hfmt]) (set_chunk_self _ _ _) hs _) ?_
    have := @extended_passes _ room h b { rconn with
        state := .chunkExtraTimestamp
        sess := rconn.sess.setChunk rconn.curchunk { chunk with
          timestamp := min timestamp 0xFFFFFF, msglen, msgtype, streamid } } _ _ timestamp
      rfl (set_chunk_self _ _ _) ht (by simp only; omega) hne
    have hts : (if 0xFFFFFF ≤ timestamp then timestamp else min timestamp 0xFFFFFF) = timestamp := by
      split <;> omega
    simpa [set_chunk_twice, hfmt, RtmpChunk.read, hts] using this
  | same delta msglen msgtype =>
    obtain ⟨hd, hm, hy⟩ := hfits
    obtain ⟨hext, hts⟩ := hsum hreads
    simp only [MsgHeader.fmt] at hst hfmt
    simp only [MsgHeader.encode, List.append_assoc]
    apply Feed.passes_trans _ (timestamp_passes hst hc _)
    refine Feed.passes_trans _ (msglen_passes (by simp [hfmt]) (set_chunk_self _ _ _) hm _) ?_
    apply Feed.passes_trans _ (msgtype_passes rfl (set_chunk_self _ _ _) hy _)
    have := @extended_passes _ room h b { rconn with
        state := .chunkExtraTimestamp
        sess := rconn.sess.setChunk rconn.curchunk { chunk with
          timestamp := u32 (chunk.timestamp + min delta 0xFFFFFF), msglen, msgtype } } _ _ delta
      rfl (set_chunk_self _ _ _) hd hext hne
    simpa [set_chunk_twice, hfmt, RtmpChunk.read, hts hd] using this
  | later delta =>
    obtain ⟨hext, hts⟩ := hsum hreads
    simp only [MsgHeader.fmt] at hst hfmt
    simp only [MsgHeader.encode, List.append_assoc]
    apply Feed.passes_trans _ (timestamp_passes hst hc _)
    have := @extended_passes _ room h b { rconn with
        state := .chunkExtraTimestamp
        sess := rconn.sess.setChunk rconn.curchunk { chunk with
          timestamp := u32 (chunk.timestamp + min delta 0xFFFFFF) } } _ _ delta
      rfl (set_chunk_self _ _ _) hfits hext hne
    simpa [set_chunk_twice, hfmt, RtmpChunk.read, hts hfits] using this
  | none =>
    have hsame : rconn.sess.setChunk rconn.curchunk chunk = rconn.sess := by
      simp [Sess.setChunk, ← hc]
    simp only [MsgHeader.fmt, if_true] at hst
    simp only [MsgHeader.encode, List.nil_append, RtmpChunk.read, hsame, ← hst]
    exact .here

/-- The chunk stream of a channel as the next chunk on it finds it. -/
def Sess.channel (sess : Sess ω) (channel fmt : Nat) : RtmpChunk :=
  { (sess.chunkstreams channel).getD {} with fmt := fmt, channel := channel }

/-- A chunk up to its payload. -/
theorem chunk_passes {header : MsgHeader} {channel : Nat} (hst : rconn.state = .chunkFmt)
    (h2 : 2 ≤ channel) (hc : channel < 65600) (hfits : header.Fits)
    (hreads : (rconn.sess.channel channel header.fmt).Reads header) (hne : ys ≠ []) :
    Feed.Passes (rtmpStep room h) b rconn (basicHeader header.fmt channel ++ (header.encode ++ ys))
      { rconn with
        state := .chunkPayload, curfmt := header.fmt, curchunk := channel
        sess := rconn.sess.setChunk channel ((rconn.sess.channel channel header.fmt).read header) }
      ys := by
  have hfmt : header.fmt < 4 := by cases header <;> simp [MsgHeader.fmt]
  apply Feed.passes_trans _ (basic_passes hst hfmt h2 hc)
  refine .next (by simp [hne]) (show _ = Feed.Verdict.next { rconn with
    state := if header.fmt = 3 then .chunkPayload else .chunkTimestamp
    curfmt := header.fmt, curchunk := channel
    sess := rconn.sess.setChunk channel (rconn.sess.channel channel header.fmt) } 0 from ?_) ?_
  · simp [rtmpStep, Sess.channel]
  · have := @header_passes _ room h b { rconn with
        state := if header.fmt = 3 then .chunkPayload else .chunkTimestamp
        curfmt := header.fmt, curchunk := channel
        sess := rconn.sess.setChunk channel (rconn.sess.channel channel header.fmt) } _ _ _
      rfl (set_chunk_self _ _ _) rfl hfits hreads hne
    simpa [set_chunk_twice] using this

theorem payload_step {chunk : RtmpChunk} (hst : rconn.state = .chunkPayload)
    (hc : rconn.sess.chunkstreams rconn.curchunk = some chunk) (b : Behind) (xs : List UInt8) :
    rtmpStep room h b rconn xs = rtmpPayloadStep room h b.stale rconn (memOf xs b.past) xs.length := by
  simp [rtmpStep, hst, hc]

/-- A chunk that is over, and the bytes taken of it. -/
theorem payload_over {stale m : Mem} {size s used : Nat} {r : Conn ω}
    (hp : rtmpMsgParse room h rconn m (min rconn.ichunksize size) stale = .ret r s)
    (hs : 0 < s ∧ used = s ∨ s = 0 ∧ r.ichunksize = rconn.ichunksize ∧ rconn.ichunksize ≤ size ∧
      used = rconn.ichunksize) :
    rtmpPayloadStep room h stale rconn m size = .next { r with state := .chunkFmt, curlen := 0 } used := by
  simp only [rtmpPayloadStep, hp]
  rcases hs with ⟨hpos, rfl⟩ | ⟨rfl, hN, hsize, rfl⟩
  · rw [if_neg (by omega), if_pos hpos]
  · rw [if_neg (by omega), if_neg (by omega), Nat.min_eq_left hsize]

/-! The handshake, as far as a client that sends it in three pieces goes. -/

theorem fed_c0 (hst : rconn.state = .handshakeC0) (x : UInt8) :
    Feed.Fed (rtmpStep room h) b rconn [x] { rconn with
      state := .handshakeC1, sess := { rconn.sess with world := h.sendS0S1 rconn.sess.world } } :=
  .next (n := 1) (by simp) (by simp [rtmpStep, hst]) .done

theorem fed_c1 (hst : rconn.state = .handshakeC1) (hlen : xs.length = 1536) :
    ∃ CS2, Feed.Fed (rtmpStep room h) b rconn xs { rconn with
      state := .handshakeC2, sess := { rconn.sess with world := h.sendS2 CS2 rconn.sess.world } } := by
  have hne : xs ≠ [] := List.length_pos_iff.mp (by omega)
  refine ⟨slice (memOf xs b.past) 0 4 ++ List.replicate 4 0 ++ slice (memOf xs b.past) 8 1528, ?_⟩
  refine .next (n := 1536) hne (by simp only [rtmpStep, hst]; rw [if_neg (by omega)]) ?_
  rw [List.drop_eq_nil_of_le (by omega)]
  exact .done

theorem fed_c2 (hst : rconn.state = .handshakeC2) (hlen : xs.length = 1536)
    (h4 : xs.take 4 = rconn.CS1.take 4) (h8 : xs.drop 8 = rconn.CS1.drop 8) :
    Feed.Fed (rtmpStep room h) b rconn xs { rconn with state := .chunkFmt } := by
  have hne : xs ≠ [] := List.length_pos_iff.mp (by omega)
  have hfirst : slice (memOf xs b.past) 0 4 = xs.take 4 := by
    rw [slice_mem_of (by omega), List.drop_zero]
  have hrest : slice (memOf xs b.past) 8 1528 = xs.drop 8 := by
    rw [slice_mem_of (by omega), List.take_of_length_le (by rw [List.length_drop]; omega)]
  refine .next hne (show _ = Feed.Verdict.next { rconn with state := .chunkFmt } 1536 from ?_) ?_
  · simp only [rtmpStep, hst, hfirst, hrest, h4, h8, ne_eq, not_true_eq_false, if_false]
    rw [if_neg (by omega)]
  · rw [List.drop_eq_nil_of_le (by omega)]
    exact .done

/-- A client that answers `CS1` with itself comes to its first chunk. -/
theorem handshake_visits {CS1 c1 : List UInt8} (nstreams : Nat → Option MsgStream) (world : ω)
    (hCS1 : CS1.length = 1536) (hc1 : c1.length = 1536) (x : UInt8) (b : Behind) :
    ∃ world', ∀ ps r rest,
      Feed.Visits (rtmpStep room h) { Conn.create CS1 nstreams world' with state := .chunkFmt }
        ps r rest →
      Feed.Visits (rtmpStep room h) (Conn.create CS1 nstreams world)
        ((b, [x]) :: (b, c1) :: (b, CS1) :: ps) r rest := by
  obtain ⟨CS2, hfed⟩ := @fed_c1 _ _ h b { Conn.create CS1 nstreams (h.sendS0S1 world) with state := .handshakeC1 } _ rfl hc1
  refine ⟨h.sendS2 CS2 (h.sendS0S1 world), fun ps r rest hv => ?_⟩
  exact .later (fed_c0 rfl x) (.later hfed (.later (fed_c2 rfl hCS1 rfl rfl) hv))

end

end Yclib.Rtmp
