import Yclib.Rtmp.ControlBuffer

namespace Yclib.Rtmp
open Network Amf

/-! When a step of `rtmp_parse` has what it needs of the piece it is in, and keeps what it
has taken. -/

variable {ω : Type}

/-- With `bs` more in `cbuf` the parser asks for more: it returns zero and leaves the
session alone. -/
def Asks (parse : CbufParser ω) (rconn : Conn ω) (bs : List UInt8) : Prop :=
  ∀ stale, parse rconn.sess rconn.curchunk (memOf (rconn.cbuf ++ bs) stale)
    (rconn.cbuf ++ bs).length = some (rconn.sess, 0)

/-- With `bs` more in `cbuf` the parser is through, and answers the same with up to
`more` bytes behind them. -/
def Answers (parse : CbufParser ω) (rconn : Conn ω) (bs : List UInt8) (more : Nat)
    (sess : Sess ω) : Prop :=
  ∀ ext stale, ext.length ≤ more →
    parse rconn.sess rconn.curchunk (memOf (rconn.cbuf ++ bs ++ ext) stale)
      (rconn.cbuf ++ bs ++ ext).length = some (sess, (rconn.cbuf ++ bs).length)

/-- The message ends `k` bytes further, in the piece and in the chunk. -/
structure CbufEnds (parse : CbufParser ω) (skip : Nat) (rconn : Conn ω) (msglen : Nat)
    (xs : List UInt8) (k : Nat) (sess : Sess ω) : Prop where
  some : 0 < k
  piece : skip + k ≤ xs.length
  chunk : skip + k ≤ rconn.ichunksize
  message : rconn.cbuf.length + skip + k ≤ msglen
  small : rconn.cbuf.length + skip + k < 2 ^ 32
  answers : Answers parse rconn ((xs.drop skip).take k) (rconn.ichunksize - skip - k) sess

/-- A whole chunk of a message that goes on in the next chunk. -/
structure CbufChunk (parse : CbufParser ω) (rconn : Conn ω) (msglen : Nat) (xs : List UInt8) :
    Prop where
  message : rconn.cbuf.length + rconn.ichunksize < msglen
  piece : rconn.ichunksize ≤ xs.length
  asks : Asks parse rconn (xs.take rconn.ichunksize)

/-- A part of the last chunk of a message. -/
structure CbufPart (parse : CbufParser ω) (rconn : Conn ω) (msglen : Nat) (xs : List UInt8) :
    Prop where
  message : rconn.cbuf.length + xs.length < msglen
  chunk : msglen ≤ rconn.cbuf.length + rconn.ichunksize
  asks : Asks parse rconn xs

def MediaReady (rconn : Conn ω) (chunk : RtmpChunk) (xs : List UInt8) : Prop :=
  match rconn.sess.nstreams chunk.streamid with
  | none => rconn.ichunksize ≤ xs.length
  | some stream =>
    (stream.Begins → chunk.msglen ≠ 0 ∧
      (chunk.msgtype = rtmpMsgtypeVideo → xs.head? = some 0x17 → 2 ≤ xs.length)) ∧
    (stream.rem chunk ≤ rconn.ichunksize ∨ rconn.ichunksize ≤ xs.length) ∧
    min (min rconn.ichunksize xs.length) (stream.rem chunk) ≤ stream.store.space

def PayloadReady (h : Handlers ω) (rconn : Conn ω) (chunk : RtmpChunk) (xs : List UInt8) : Prop :=
  if FourBytes chunk.msgtype then
    min 4 rconn.ichunksize ≤ xs.length
  else if Media chunk.msgtype then MediaReady rconn chunk xs
  else match cbufParser h chunk.msgtype with
    | none => rconn.ichunksize ≤ xs.length
    | some (parse, skip) =>
      (∃ k sess, CbufEnds parse skip rconn chunk.msglen xs k sess) ∨
        (skip = 0 ∧ (CbufChunk parse rconn chunk.msglen xs ∨ CbufPart parse rconn chunk.msglen xs))

/-- The field of a chunk's header that comes next is there. -/
def Has (rconn : Conn ω) (xs : List UInt8) (need : RtmpChunk → Nat) : Prop :=
  ∃ chunk, rconn.sess.chunkstreams rconn.curchunk = some chunk ∧ need chunk ≤ xs.length

/-- The bytes the parser has before it are enough for its next step. -/
def Ready (h : Handlers ω) (rconn : Conn ω) (xs : List UInt8) : Prop :=
  match rconn.state with
  | .handshakeC1 => 1536 ≤ xs.length
  | .handshakeC2 =>
    1536 ≤ xs.length ∧ xs.take 4 = rconn.CS1.take 4 ∧ (xs.drop 8).take 1528 = rconn.CS1.drop 8
  | .chunkChannel3 => 2 ≤ xs.length
  | .chunkTimestamp => Has rconn xs fun _ => 3
  | .chunkMsgLen => Has rconn xs fun _ => 3
  | .chunkMsgType => Has rconn xs fun _ => 1
  | .chunkMsgStreamid => Has rconn xs fun _ => 4
  | .chunkExtraTimestamp => Has rconn xs fun chunk => if chunk.timestamp = 0xFFFFFF then 4 else 0
  | .chunkPayload => ∃ chunk,
    rconn.sess.chunkstreams rconn.curchunk = some chunk ∧ PayloadReady h rconn chunk xs
  | _ => True

/-- `curlen` never counts anything: it is added to only when a chunk is over. -/
def Steady (h : Handlers ω) (rconn : Conn ω) (xs : List UInt8) : Prop :=
  rconn.curlen = 0 ∧ Ready h rconn xs

/-- The steps that take no byte lead to states of lower rank. -/
def ConnState.rank : ConnState → Nat
  | .handshakeS0 => 8
  | .handshakeS1 => 7
  | .handshakeS2 => 6
  | .chunkChannel => 5
  | .chunkExtraTimestamp => 5
  | .chunkPayload => 4
  | .chunkFmt => 3
  | _ => 0

def Conn.rank (rconn : Conn ω) : Nat := rconn.state.rank

theorem mem_of_append {xs ys : List UInt8} {m m' : Mem} {i : Nat} (h : i < xs.length) :
    memOf (xs ++ ys) m i = memOf xs m' i := by
  simp [memOf, h, Nat.lt_of_lt_of_le h (Nat.le_add_right _ _), List.getElem_append_left]

theorem btoh_congr {m m' : Mem} {w n : Nat} (h : ∀ i, i < w + n → m i = m' i) :
    btoh m w n = btoh m' w n := by
  induction n with
  | zero => rfl
  | succ n ih => rw [btoh, btoh, ih (fun i hi => h i (by omega)), h (w + n) (by omega)]

theorem ltoh_congr {m m' : Mem} {w n : Nat} (h : ∀ i, i < w + n → m i = m' i) :
    ltoh m w n = ltoh m' w n := by
  induction n with
  | zero => rfl
  | succ n ih => rw [ltoh, ltoh, ih (fun i hi => h i (by omega)), h (w + n) (by omega)]

section
variable {room : Nat → Bool} {h : Handlers ω} {rconn : Conn ω} {xs : List UInt8}

/-- More bytes behind those a header field has do not matter. -/
theorem header_same (hst : rconn.state ≠ .chunkPayload) (hr : Ready h rconn xs) (hne : xs ≠ [])
    (b b' : Behind) (ys : List UInt8) :
    rtmpStep room h b rconn (xs ++ ys) = rtmpStep room h b' rconn xs := by
  have hpos := List.length_pos_iff.mpr hne
  have hlen : (xs ++ ys).length = xs.length + ys.length := List.length_append
  have hmem {i : Nat} (hi : i < xs.length) : memOf (xs ++ ys) b.past i = memOf xs b'.past i :=
    mem_of_append hi
  have hbtoh {n : Nat} (hn : n ≤ xs.length) :
      btoh (memOf (xs ++ ys) b.past) 0 n = btoh (memOf xs b'.past) 0 n :=
    btoh_congr fun i hi => hmem (by omega)
  have hltoh {n : Nat} (hn : n ≤ xs.length) :
      ltoh (memOf (xs ++ ys) b.past) 0 n = ltoh (memOf xs b'.past) 0 n :=
    ltoh_congr fun i hi => hmem (by omega)
  have hslice {w n : Nat} (hn : w + n ≤ xs.length) :
      slice (memOf (xs ++ ys) b.past) w n = slice (memOf xs b'.past) w n := by
    apply List.map_congr_left
    intro i hi
    exact hmem (by have := List.mem_range.mp hi; omega)
  have hif {α : Type} {need : Nat} (hn : need ≤ xs.length) {p q : α} :
      (if (xs ++ ys).length < need then p else q) = if xs.length < need then p else q := by
    rw [if_neg (by omega), if_neg (by omega)]
  cases hs : rconn.state with
  | handshakeC0 => simp only [rtmpStep, hs, hif hpos]
  | handshakeC1 =>
    have hn : 1536 ≤ xs.length := by simpa [Ready, hs] using hr
    simp only [rtmpStep, hs, hif hn, hslice (show 0 + 4 ≤ xs.length by omega),
      hslice (show 8 + 1528 ≤ xs.length by omega)]
  | handshakeC2 =>
    have hn : 1536 ≤ xs.length := by
      simp only [Ready, hs] at hr
      exact hr.1
    simp only [rtmpStep, hs, hif hn, hslice (show 0 + 4 ≤ xs.length by omega),
      hslice (show 8 + 1528 ≤ xs.length by omega)]
  | handshakeS0 => simp only [rtmpStep, hs]
  | handshakeS1 => simp only [rtmpStep, hs]
  | handshakeS2 => simp only [rtmpStep, hs]
  | chunkFmt => simp only [rtmpStep, hs, hif hpos, hmem hpos]
  | chunkChannel1 => simp only [rtmpStep, hs, hif hpos, hmem hpos]
  | chunkChannel2 => simp only [rtmpStep, hs, hif hpos, hmem hpos]
  | chunkChannel3 =>
    have hn : 2 ≤ xs.length := by simpa [Ready, hs] using hr
    simp only [rtmpStep, hs, hif hpos, hmem hpos, hmem (show 1 < xs.length by omega)]
  | chunkChannel => simp only [rtmpStep, hs]
  | chunkTimestamp =>
    obtain ⟨chunk, hc, hn⟩ : Has rconn xs fun _ => 3 := by simpa only [Ready, hs] using hr
    simp only [rtmpStep, hs, hc, hif hn, rnsBtoh24, hbtoh hn]
  | chunkMsgLen =>
    obtain ⟨chunk, hc, hn⟩ : Has rconn xs fun _ => 3 := by simpa only [Ready, hs] using hr
    simp only [rtmpStep, hs, hc, hif hn, rnsBtoh24, hbtoh hn]
  | chunkMsgType =>
    obtain ⟨chunk, hc, hn⟩ : Has rconn xs fun _ => 1 := by simpa only [Ready, hs] using hr
    simp only [rtmpStep, hs, hc, hif hn, hmem hn]
  | chunkMsgStreamid =>
    obtain ⟨chunk, hc, hn⟩ : Has rconn xs fun _ => 4 := by simpa only [Ready, hs] using hr
    simp only [rtmpStep, hs, hc, hif hn, rnsLtoh32, hltoh hn]
  | chunkExtraTimestamp =>
    obtain ⟨chunk, hc, hn⟩ : Has rconn xs fun chunk =>
        if chunk.timestamp = 0xFFFFFF then 4 else 0 := by simpa only [Ready, hs] using hr
    simp only [rtmpStep, hs, hc, Nat.not_lt_zero, if_false]
    by_cases ht : chunk.timestamp = 0xFFFFFF
    · simp only [ht, if_true] at hn
      simp only [ht, if_true, hif hn, rnsBtoh32, hbtoh hn]
    · simp only [ht, if_false]
  | chunkPayload => exact absurd hs hst

theorem header_moves (hst : rconn.state ≠ .chunkPayload) (hr : Ready h rconn xs) (hne : xs ≠ [])
    (b : Behind) :
    ∃ s' n, n ≤ xs.length ∧ (0 < n ∨ s'.rank < rconn.rank) ∧
      rtmpStep room h b rconn xs = .next s' n := by
  have hpos := List.length_pos_iff.mpr hne
  have hif {need : Nat} (hn : need ≤ xs.length) {p q : Feed.Verdict (Conn ω)} :
      (if xs.length < need then p else q) = q := if_neg (by omega)
  cases hs : rconn.state with
  | handshakeC0 =>
    simp only [rtmpStep, hs, hif hpos]
    exact ⟨_, 1, hpos, .inl (by omega), rfl⟩
  | handshakeC1 =>
    have hn : 1536 ≤ xs.length := by simpa [Ready, hs] using hr
    simp only [rtmpStep, hs, hif hn]
    exact ⟨_, 1536, hn, .inl (by omega), rfl⟩
  | handshakeC2 =>
    obtain ⟨hn, h4, h8⟩ : 1536 ≤ xs.length ∧ xs.take 4 = rconn.CS1.take 4 ∧
        (xs.drop 8).take 1528 = rconn.CS1.drop 8 := by simpa only [Ready, hs] using hr
    have hfirst := slice_mem_of (m := b.past) (show 0 + 4 ≤ xs.length by omega)
    have hrest := slice_mem_of (m := b.past) (show 8 + 1528 ≤ xs.length by omega)
    rw [List.drop_zero] at hfirst
    simp only [rtmpStep, hs, hif hn, hfirst, hrest, h4, h8, ne_eq, not_true_eq_false, if_false]
    exact ⟨_, 1536, hn, .inl (by omega), rfl⟩
  | handshakeS0 =>
    simp only [rtmpStep, hs]
    exact ⟨_, 0, by omega, .inr (by simp [Conn.rank, ConnState.rank, hs]), rfl⟩
  | handshakeS1 =>
    simp only [rtmpStep, hs]
    exact ⟨_, 0, by omega, .inr (by simp [Conn.rank, ConnState.rank, hs]), rfl⟩
  | handshakeS2 =>
    simp only [rtmpStep, hs]
    exact ⟨_, 0, by omega, .inr (by simp [Conn.rank, ConnState.rank, hs]), rfl⟩
  | chunkFmt =>
    simp only [rtmpStep, hs, hif hpos]
    exact ⟨_, 0, by omega, .inr (by simp [Conn.rank, ConnState.rank, hs]), rfl⟩
  | chunkChannel1 =>
    simp only [rtmpStep, hs, hif hpos]
    exact ⟨_, 1, hpos, .inl (by omega), rfl⟩
  | chunkChannel2 =>
    simp only [rtmpStep, hs, hif hpos]
    exact ⟨_, 1, hpos, .inl (by omega), rfl⟩
  | chunkChannel3 =>
    have hn : 2 ≤ xs.length := by simpa [Ready, hs] using hr
    simp only [rtmpStep, hs, hif hpos]
    exact ⟨_, 2, hn, .inl (by omega), rfl⟩
  | chunkChannel =>
    simp only [rtmpStep, hs]
    refine ⟨_, 0, by omega, .inr ?_, rfl⟩
    simp only [Conn.rank, hs]
    split <;> simp [ConnState.rank]
  | chunkTimestamp =>
    obtain ⟨chunk, hc, hn⟩ : Has rconn xs fun _ => 3 := by simpa only [Ready, hs] using hr
    simp only [rtmpStep, hs, hc, hif hn]
    exact ⟨_, 3, hn, .inl (by omega), rfl⟩
  | chunkMsgLen =>
    obtain ⟨chunk, hc, hn⟩ : Has rconn xs fun _ => 3 := by simpa only [Ready, hs] using hr
    simp only [rtmpStep, hs, hc, hif hn]
    exact ⟨_, 3, hn, .inl (by omega), rfl⟩
  | chunkMsgType =>
    obtain ⟨chunk, hc, hn⟩ : Has rconn xs fun _ => 1 := by simpa only [Ready, hs] using hr
    simp only [rtmpStep, hs, hc, hif hn]
    exact ⟨_, 1, hn, .inl (by omega), rfl⟩
  | chunkMsgStreamid =>
    obtain ⟨chunk, hc, hn⟩ : Has rconn xs fun _ => 4 := by simpa only [Ready, hs] using hr
    simp only [rtmpStep, hs, hc, hif hn]
    exact ⟨_, 4, hn, .inl (by omega), rfl⟩
  | chunkExtraTimestamp =>
    obtain ⟨chunk, hc, hn⟩ : Has rconn xs fun chunk =>
        if chunk.timestamp = 0xFFFFFF then 4 else 0 := by simpa only [Ready, hs] using hr
    simp only [rtmpStep, hs, hc, Nat.not_lt_zero, if_false]
    by_cases ht : chunk.timestamp = 0xFFFFFF
    · simp only [ht, if_true] at hn
      simp only [ht, if_true, hif hn]
      exact ⟨_, 4, hn, .inl (by omega), rfl⟩
    · simp only [ht, if_false]
      exact ⟨_, 0, by omega, .inr (by simp [Conn.rank, ConnState.rank, hs]), rfl⟩
  | chunkPayload => exact absurd hs hst

theorem header_ready (hst : rconn.state ≠ .chunkPayload) (hr : Ready h rconn xs) (ys : List UInt8) :
    Ready h rconn (xs ++ ys) := by
  have hle : xs.length ≤ (xs ++ ys).length := by
    rw [List.length_append]
    omega
  have hhas {need : RtmpChunk → Nat} (hn : Has rconn xs need) : Has rconn (xs ++ ys) need := by
    obtain ⟨chunk, hc, hn⟩ := hn
    exact ⟨chunk, hc, hn.trans hle⟩
  cases hs : rconn.state with
  | handshakeC1 =>
    simp only [Ready, hs] at hr ⊢
    exact hr.trans hle
  | handshakeC2 =>
    simp only [Ready, hs] at hr ⊢
    obtain ⟨hn, h4, h8⟩ := hr
    refine ⟨hn.trans hle, ?_, ?_⟩
    · rw [List.take_append_of_le_length (by omega), h4]
    · rw [List.drop_append_of_le_length (by omega), List.take_append_of_le_length (by
        rw [List.length_drop]; omega), h8]
  | chunkChannel3 =>
    simp only [Ready, hs] at hr ⊢
    exact hr.trans hle
  | chunkTimestamp =>
    simp only [Ready, hs] at hr ⊢
    exact hhas hr
  | chunkMsgLen =>
    simp only [Ready, hs] at hr ⊢
    exact hhas hr
  | chunkMsgType =>
    simp only [Ready, hs] at hr ⊢
    exact hhas hr
  | chunkMsgStreamid =>
    simp only [Ready, hs] at hr ⊢
    exact hhas hr
  | chunkExtraTimestamp =>
    simp only [Ready, hs] at hr ⊢
    exact hhas hr
  | chunkPayload => exact absurd hs hst
  | _ => simp only [Ready, hs]

theorem header_settles (hst : rconn.state ≠ .chunkPayload) (hr : Steady h rconn xs) (hne : xs ≠ []) :
    Feed.Settles (rtmpStep room h) (Steady h) Conn.rank rconn xs := by
  obtain ⟨hcur, hr⟩ := hr
  obtain ⟨s', n, hn, hdown, hstep⟩ := header_moves hst hr hne ⟨fun _ => 0, fun _ => 0⟩
  refine ⟨s', n, hn, hdown, fun b ys => ⟨⟨hcur, header_ready hst hr ys⟩, ?_⟩⟩
  rw [header_same hst hr hne b ⟨fun _ => 0, fun _ => 0⟩, hstep]

end

end Yclib.Rtmp
