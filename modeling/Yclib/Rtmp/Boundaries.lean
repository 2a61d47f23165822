import Yclib.Rtmp.Compression
import Yclib.Rtmp.Media

namespace Yclib.Rtmp.Boundaries
open Network Sending Compression Rtmp.Media

/-! Where the chunks of the messages sent to a player begin and end. -/

/-- The bytes of a message with `mid` between two chunks, the first of which has `room`. -/
def chunked (mid : List UInt8) (size : Nat) : Nat → Nat → List UInt8 → List UInt8
  | 0, _, _ => []
  | rounds + 1, room, bs =>
    bs.take room ++
      if bs.length ≤ room then [] else mid ++ chunked mid size rounds size (bs.drop room)

section
variable {store : Store} {offset : Nat} {bs : List UInt8}

/-- A part of what is stored, as far as it is in one block. -/
theorem has_block (hs : store.Has offset bs) (hne : bs ≠ []) :
    ∃ block, store.blocks (blockAlign offset) = some block ∧
      ∀ len, len ≤ bs.length → len ≤ blockSize - (offset - blockAlign offset) →
        (block.drop (offset - blockAlign offset)).take len = bs.take len := by
  have hle := align_le offset
  have hlt := lt_align offset
  have hpos := List.length_pos_iff.mpr hne
  have hfirst := hs 0 hpos
  rw [Nat.add_zero, Store.byte] at hfirst
  obtain ⟨block, hblock, -⟩ := Option.bind_eq_some_iff.mp hfirst
  refine ⟨block, hblock, fun len hlen hin => ?_⟩
  apply List.ext_getElem?
  intro k
  by_cases hk : k < len
  · have hbyte := hs k (by omega)
    rw [Store.byte, align_same (n := offset) (by omega) (by omega), hblock, Option.bind_some] at hbyte
    rw [List.getElem?_take_of_lt hk, List.getElem?_take_of_lt hk, List.getElem?_drop,
      List.getElem?_eq_getElem (show k < bs.length by omega), ← hbyte]
    congr 1
    omega
  · rw [List.getElem?_eq_none (by rw [List.length_take]; omega),
      List.getElem?_eq_none (by rw [List.length_take]; omega)]

theorem has_drop (hs : store.Has offset bs) {len : Nat} (hlen : len ≤ bs.length) :
    store.Has (offset + len) (bs.drop len) := by
  rw [← List.take_append_drop len bs, has_append, List.length_take, Nat.min_eq_left hlen] at hs
  exact hs.2

theorem chunked_take {mid : List UInt8} {size rounds room len : Nat} (hlen : len < room)
    (hbs : len ≤ bs.length) (hr : 0 < rounds) :
    chunked mid size rounds room bs =
      bs.take len ++ chunked mid size rounds (room - len) (bs.drop len) := by
  obtain ⟨rounds, rfl⟩ := Nat.exists_eq_add_of_le' hr
  have htake : bs.take room = bs.take len ++ (bs.drop len).take (room - len) := by
    rw [← List.take_add]
    congr 1
    omega
  have hdrop : (bs.drop len).drop (room - len) = bs.drop room := by
    rw [List.drop_drop]
    congr 1
    omega
  simp only [chunked]
  rw [htake, hdrop, List.append_assoc, List.length_drop]
  congr 2
  by_cases hend : bs.length ≤ room
  · rw [if_pos hend, if_pos (by omega)]
  · rw [if_neg hend, if_neg (by omega)]

theorem chunked_within {mid : List UInt8} {size rounds room : Nat} (hbs : bs.length ≤ room)
    (hr : 0 < rounds) : chunked mid size rounds room bs = bs := by
  obtain ⟨rounds, rfl⟩ := Nat.exists_eq_add_of_le' hr
  rw [chunked, if_pos hbs, List.append_nil, List.take_of_length_le hbs]

/-- What `rtmp_msg_send` attaches of a message that is stored. -/
theorem send_loop_bytes {size chunkid timestamp rounds fuel ochunklen : Nat}
    (hmid : rtmpMidHeader chunkid timestamp ≠ []) (hs : store.Has offset bs)
    (hrounds : bs.length ≤ rounds) (hfuel : bs.length < fuel) (hlen : bs ≠ [] → ochunklen < size) :
    (sendLoop store size chunkid timestamp rounds offset bs.length ochunklen).2 = 0 ∧
      (sendLoop store size chunkid timestamp rounds offset bs.length ochunklen).1.flatten =
        chunked (rtmpMidHeader chunkid timestamp) size fuel (size - ochunklen) bs := by
  induction rounds generalizing offset bs ochunklen fuel with
  | zero =>
    obtain rfl := List.length_eq_zero_iff.mp (Nat.le_zero.mp hrounds)
    exact ⟨rfl, (chunked_within (Nat.zero_le _) (by omega)).symm⟩
  | succ rounds ih =>
    by_cases hne : bs = []
    · subst hne
      exact ⟨by simp [sendLoop], by simp [sendLoop, chunked_within _ (show 0 < fuel by omega)]⟩
    have hpos := List.length_pos_iff.mpr hne
    have hroom := hlen hne
    have hlt := lt_align offset
    have hle := align_le offset
    obtain ⟨block, hblock, hpart⟩ := has_block hs hne
    obtain ⟨len, hlendef⟩ : ∃ len, len = min (min (min bs.length size)
      (blockSize - (offset - blockAlign offset))) (size - ochunklen) := ⟨_, rfl⟩
    have hbuf := hpart len (by omega) (by omega)
    have hrest : bs.length - len = (bs.drop len).length := List.length_drop.symm
    have hshort : (bs.drop len).length < bs.length := by
      rw [List.length_drop]
      omega
    have hstored := has_drop hs (show len ≤ bs.length by omega)
    rw [sendLoop, if_neg (by omega)]
    simp only [hblock, ← hlendef, hbuf]
    split
    · rename_i hfull
      have hlenroom : len = size - ochunklen := by omega
      obtain ⟨hok, hbytes⟩ := @ih _ _ (fuel - 1) 0 hstored (by omega) (by omega) (fun _ => by omega)
      obtain ⟨fuel, rfl⟩ := Nat.exists_eq_add_of_le' (show 0 < fuel by omega)
      simp only [hrest, hok, true_and, List.flatten_cons, hbytes]
      rw [chunked, ← hlenroom, if_neg (by omega), Nat.sub_zero, Nat.add_sub_cancel]
    · rename_i hpartly
      by_cases hend : bs.length ≤ len
      · obtain ⟨hok, hbytes⟩ := @ih _ _ fuel (ochunklen + len) hstored (by omega) (by omega)
          (fun hd => absurd (List.drop_eq_nil_of_le hend) hd)
        have hnil : bs.drop len = [] := List.drop_eq_nil_of_le hend
        simp only [hrest, hok, true_and, List.flatten_cons, hbytes]
        rw [hnil, chunked_within (Nat.zero_le _) (by omega), List.append_nil,
          List.take_of_length_le hend, chunked_within (by omega) (by omega)]
      · obtain ⟨hok, hbytes⟩ := @ih _ _ fuel (ochunklen + len) hstored (by omega) (by omega)
          (fun _ => by omega)
        simp only [hrest, hok, true_and, List.flatten_cons, hbytes]
        rw [@chunked_take bs _ _ _ _ len (show len < size - ochunklen by omega) (by omega) (by omega),
          Nat.sub_sub]

end

/-- The chunks behind the first one of a message. -/
def laterPieces (channel size : Nat) : Nat → List UInt8 → List Piece
  | 0, _ => []
  | rounds + 1, bs =>
    if bs = [] then []
    else ⟨channel, .none, bs.take size⟩ :: laterPieces channel size rounds (bs.drop size)

/-- The chunks of a message that is sent with the payload. -/
def piecesOf (size : Nat) (sent : Sent) (payload : List UInt8) : List Piece :=
  ⟨sent.chunk.channel, headerOf sent, payload.take size⟩ ::
    laterPieces sent.chunk.channel size payload.length (payload.drop size)

/-- The bytes of a message are those of its chunks. -/
theorem chunked_pieces {channel timestamp size fuel rounds : Nat} {bs : List UInt8}
    (hN : 0 < size) (hchannel : channel < 320) (ht : timestamp < 0xFFFFFF ∨ bs.length ≤ size)
    (hfuel : bs.length < fuel) (hrounds : bs.length ≤ rounds) :
    chunked (rtmpMidHeader channel timestamp) size fuel size bs =
      bs.take size ++ (laterPieces channel size rounds (bs.drop size)).flatMap Piece.wire := by
  induction rounds generalizing bs fuel with
  | zero =>
    obtain rfl := List.length_eq_zero_iff.mp (Nat.le_zero.mp hrounds)
    rw [chunked_within (Nat.zero_le _) (by omega)]
    simp [laterPieces]
  | succ rounds ih =>
    obtain ⟨fuel, rfl⟩ := Nat.exists_eq_add_of_le' (show 0 < fuel by omega)
    rw [chunked, laterPieces]
    by_cases hend : bs.length ≤ size
    · rw [if_pos hend, if_pos (List.drop_eq_nil_of_le hend), List.flatMap_nil]
    · have hdrop : (bs.drop size).length = bs.length - size := List.length_drop
      have hlt : timestamp < 0xFFFFFF := by omega
      have hmid : rtmpMidHeader channel timestamp = basicHeader 3 channel := by
        rw [rtmpMidHeader, midFields, if_neg (by omega), List.append_nil,
          write_basic_short (by omega) hchannel]
      have hne : bs.drop size ≠ [] := by
        rw [← List.length_pos_iff]
        omega
      rw [if_neg hend, if_neg hne, List.flatMap_cons,
        @ih fuel (bs.drop size) (.inl hlt) (by omega) (by omega), hmid]
      simp [Piece.wire, MsgHeader.fmt, MsgHeader.encode]

section
variable {size streamid channel : Nat} {s : Channels}

theorem add_header_ne {c : Piece} {id : Nat} (hid : id ≠ c.channel) :
    (s.add c).header id = s.header id := Function.update_of_ne hid _ _

/-- Alike up to the format and the channel, which every header sets. -/
def Alike (c d : RtmpChunk) : Prop := ∃ fmt channel, c = { d with fmt := fmt, channel := channel }

theorem alike_trans {c d e : RtmpChunk} (hcd : Alike c d) (hde : Alike d e) : Alike c e := by
  obtain ⟨fmt, channel, rfl⟩ := hcd
  obtain ⟨-, -, rfl⟩ := hde
  exact ⟨fmt, channel, rfl⟩

theorem add_missing (m : Message) (bytes : List UInt8) :
    (m.add bytes).missing = m.missing - bytes.length := by
  simp only [Message.missing, Message.add, List.length_append]
  omega

theorem add_add (m : Message) (xs ys : List UInt8) : (m.add xs).add ys = m.add (xs ++ ys) := by
  simp only [Message.add, List.append_assoc]

/-- What the chunks that complete a message leave of it. -/
structure Completes (size streamid : Nat) (s : Channels) (chunks : List Piece) (m : Message)
    (bs : List UInt8) : Prop where
  fits : Along (Media.Fits size streamid) s chunks
  alone : Along Alone s chunks
  bytes : bytesOf chunks = bs.length
  begun : ∀ k, (s.run chunks).begun k = none
  complete : (s.run chunks).complete = if bs = [] then s.complete else m.add bs :: s.complete

/-- A chunk with the first bytes of what is missing, and the chunks that complete the rest. -/
theorem completes_cons {c : Piece} {chunks : List Piece} {m : Message} {bs : List UInt8}
    (hf : Media.Fits size streamid s c) (ha : Alone s c) (hm : s.message c = m)
    (hmiss : m.missing = bs.length) (hbytes : c.bytes = bs.take size) (hne : bs ≠ [])
    (hlater : Completes size streamid (s.add c) chunks (m.add c.bytes) (bs.drop size)) :
    Completes size streamid s (c :: chunks) m bs where
  fits := ⟨hf, hlater.fits⟩
  alone := ⟨ha, hlater.alone⟩
  bytes := by
    have hrest := hlater.bytes
    rw [bytesOf] at hrest
    rw [bytesOf, List.map_cons, List.sum_cons, hrest, hbytes, ← List.length_append,
      List.take_append_drop]
  begun := hlater.begun
  complete := by
    have hzero : (m.add c.bytes).missing = 0 ↔ bs.drop size = [] := by
      rw [add_missing, hmiss, hbytes, ← List.length_eq_zero_iff, List.length_drop, List.length_take]
      omega
    have hnow : (s.add c).complete =
        if bs.drop size = [] then m.add c.bytes :: s.complete else s.complete := by
      simp only [Channels.add, hm, hzero]
    have hrun : s.run (c :: chunks) = (s.add c).run chunks := rfl
    rw [if_neg hne, hrun, hlater.complete]
    split
    · rename_i hnil
      rw [hnow, if_pos hnil, hbytes]
      congr 2
      rw [List.take_of_length_le (List.drop_eq_nil_iff.mp hnil)]
    · rename_i hmore
      rw [hnow, if_neg hmore, add_add, hbytes, List.take_append_drop]

/-- The message begun once the chunk is added. -/
theorem add_begun {c : Piece} {m : Message} {bs : List UInt8} (hm : s.message c = m)
    (hmiss : m.missing = bs.length) (hbytes : c.bytes = bs.take size) :
    (s.add c).begun c.channel = (if bs.drop size = [] then none else some (m.add c.bytes)) ∧
      (m.add c.bytes).missing = (bs.drop size).length := by
  have hleft : (m.add c.bytes).missing = (bs.drop size).length := by
    rw [add_missing, hmiss, hbytes, List.length_drop, List.length_take]
    omega
  refine ⟨?_, hleft⟩
  simp only [Channels.add, hm, Function.update_self, hleft, List.length_eq_zero_iff]

/-- The chunks behind the first are read as chunks of the message begun, and complete it. -/
theorem later_pieces_run {rounds : Nat} {bs : List UInt8} {m : Message} (hN : 0 < size)
    (hlow : 2 ≤ channel) (hhigh : channel < 65600) (hrounds : bs.length ≤ rounds)
    (hmedia : Media (s.header channel).msgtype) (hstream : (s.header channel).streamid = streamid)
    (hnone : ∀ k, k ≠ channel → s.begun k = none)
    (hbegun : s.begun channel = if bs = [] then none else some m) (hmiss : m.missing = bs.length) :
    Completes size streamid s (laterPieces channel size rounds bs) m bs ∧
      ∀ k, Alike ((s.run (laterPieces channel size rounds bs)).header k) (s.header k) := by
  induction rounds generalizing s m bs with
  | zero =>
    obtain rfl := List.length_eq_zero_iff.mp (Nat.le_zero.mp hrounds)
    refine ⟨⟨trivial, trivial, rfl, fun k => ?_, rfl⟩, fun k => ⟨_, _, rfl⟩⟩
    by_cases hk : k = channel
    · exact hk ▸ hbegun
    · exact hnone k hk
  | succ rounds ih =>
    rw [laterPieces]
    by_cases hnil : bs = []
    · subst hnil
      rw [if_pos rfl]
      refine ⟨⟨trivial, trivial, rfl, fun k => ?_, rfl⟩, fun k => ⟨_, _, rfl⟩⟩
      by_cases hk : k = channel
      · exact hk ▸ hbegun
      · exact hnone k hk
    rw [if_neg hnil] at hbegun ⊢
    have hpos := List.length_pos_iff.mpr hnil
    obtain ⟨c, hc⟩ : ∃ c : Piece, c = ⟨channel, .none, bs.take size⟩ := ⟨_, rfl⟩
    have hchannel : c.channel = channel := by rw [hc]
    have hbytes : c.bytes = bs.take size := by rw [hc]
    have hread : s.read c = { s.header channel with fmt := 3, channel := channel } := by
      rw [hc]
      rfl
    have hm : s.message c = m := by
      rw [Channels.message, hchannel, hbegun, Option.getD_some]
    have hfits : Media.Fits size streamid s c := by
      refine ⟨hchannel ▸ hlow, hchannel ▸ hhigh, by rw [hc]; trivial, hread ▸ hmedia, hread ▸ hstream,
        ?_, by rw [hm]; omega⟩
      rw [hm, hmiss, hbytes, List.length_take]
    have halone : Alone s c := by
      refine ⟨fun k hk => hnone k (hchannel ▸ hk), fun hb => ?_, by rw [hc]; trivial⟩
      rw [hchannel, hbegun] at hb
      cases hb
    obtain ⟨hbegun', hmiss'⟩ := add_begun hm hmiss hbytes
    rw [hchannel] at hbegun'
    have hheader : ∀ k, Alike ((s.add c).header k) (s.header k) := by
      intro k
      by_cases hk : k = channel
      · exact ⟨3, channel, by rw [hk]; simp only [Channels.add, hchannel, Function.update_self, hread]⟩
      · exact ⟨_, _, add_header_ne (hchannel ▸ hk)⟩
    obtain ⟨fmt, channel', hsame⟩ := hheader channel
    obtain ⟨hlater, halike⟩ := @ih (s.add c) (bs.drop size) (m.add c.bytes)
      (by rw [List.length_drop]; omega) (by rw [hsame]; exact hmedia) (by rw [hsame]; exact hstream)
      (fun k hk => by
        simp only [Channels.add, hchannel, Function.update_of_ne hk, hnone k hk])
      hbegun' hmiss'
    rw [← hc]
    exact ⟨completes_cons hfits halone hm hmiss hbytes hnil hlater,
      fun k => alike_trans (halike k) (hheader k)⟩

/-- The extended timestamp is looked for where it is, for a receiver with the timestamp. -/
def Agrees (timestamp : Nat) (sent : Sent) : Prop :=
  sent.chunk.fmt = 0 ∨ timestamp = 0 ∨
    (sent.timestamp < 0xFFFFFF ∧ u32 (timestamp + sent.timestamp) ≠ 0xFFFFFF)

/-- A message as the first of its chunks begins it. -/
def messageOf (recv : Nat → RtmpChunk) (sent : Sent) : Message where
  type := (readBy recv sent).msgtype
  size := (readBy recv sent).msglen
  timestamp := (readBy recv sent).timestamp
  streamid := (readBy recv sent).streamid
  payload := []

/-- The chunks of a message are read as chunks of one message, that of its first header. -/
theorem pieces_completes {recv : Nat → RtmpChunk} {sent : Sent} {payload : List UInt8}
    (hN : 0 < size) (halike : ∀ k, Alike (s.header k) (recv k)) (hnone : ∀ k, s.begun k = none)
    (hlow : 2 ≤ sent.chunk.channel) (hhigh : sent.chunk.channel < 65600)
    (hfmt : (headerOf sent).fmt = sent.chunk.fmt) (hlt : sent.chunk.fmt < 3)
    (hfits : (headerOf sent).Fits) (hown : Own sent (readBy recv sent))
    (hmedia : Media sent.msg.type) (hstream : sent.chunk.streamid = streamid)
    (hlen : payload.length = sent.msg.size) (hne : payload ≠ [])
    (hagrees : Agrees (recv sent.chunk.channel).timestamp sent) :
    Completes size streamid s (piecesOf size sent payload) (messageOf recv sent) payload ∧
      ∀ k, Alike ((s.run (piecesOf size sent payload)).header k) (after recv sent k) := by
  have hpos := List.length_pos_iff.mpr hne
  obtain ⟨c, hc⟩ : ∃ c : Piece, c = ⟨sent.chunk.channel, headerOf sent, payload.take size⟩ := ⟨_, rfl⟩
  have hchannel : c.channel = sent.chunk.channel := by rw [hc]
  have hbytes : c.bytes = payload.take size := by rw [hc]
  have hbefore : s.before c = { recv sent.chunk.channel with
      fmt := sent.chunk.fmt, channel := sent.chunk.channel } := by
    obtain ⟨fmt, channel, hsame⟩ := halike sent.chunk.channel
    rw [Channels.before, hchannel, hsame, hc, hfmt]
  have hread : s.read c = readBy recv sent := by
    rw [Channels.read, hbefore, hc]
    rfl
  have hm : s.message c = messageOf recv sent := by
    rw [Channels.message, hchannel, hnone, Option.getD_none, hread]
    rfl
  have hmiss : (messageOf recv sent).missing = payload.length := by
    simp only [Message.missing, messageOf, hown.msglen, hlen, List.length_nil, Nat.sub_zero]
  have hreads : (s.before c).Reads c.header := by
    rw [hbefore, hc]
    have hdelta : sent.chunk.fmt ≠ 0 → (recv sent.chunk.channel).timestamp = 0 ∨
        (sent.timestamp < 0xFFFFFF ∧
          u32 ((recv sent.chunk.channel).timestamp + sent.timestamp) ≠ 0xFFFFFF) :=
      hagrees.resolve_left
    unfold headerOf
    obtain hf | hf | hf : sent.chunk.fmt = 0 ∨ sent.chunk.fmt = 1 ∨ sent.chunk.fmt = 2 := by omega
    · rw [hf]
      trivial
    · rw [hf]
      exact hdelta (by omega)
    · rw [hf]
      exact hdelta (by omega)
  have hfitsc : Media.Fits size streamid s c := by
    refine ⟨hchannel ▸ hlow, hchannel ▸ hhigh, by rw [hc]; exact hfits, ?_, ?_, ?_, by rw [hm]; omega⟩
    · rw [hread, hown.msgtype]
      exact hmedia
    · rw [hread, hown.streamid, hstream]
    · rw [hm, hmiss, hbytes, List.length_take]
  have halone : Alone s c := by
    refine ⟨fun k _ => hnone k, fun _ => ?_, hreads⟩
    rw [hc, hfmt]
    omega
  obtain ⟨hbegun, hmiss'⟩ := add_begun hm hmiss hbytes
  have hheader : ∀ k, Alike ((s.add c).header k) (after recv sent k) := by
    intro k
    by_cases hk : k = sent.chunk.channel
    · rw [hk, after, Function.update_self]
      exact ⟨_, _, by simp only [Channels.add, hchannel, Function.update_self, hread]; rfl⟩
    · rw [after, Function.update_of_ne hk, add_header_ne (hchannel ▸ hk)]
      exact halike k
  have hself : (s.add c).header sent.chunk.channel = readBy recv sent := by
    simp only [Channels.add, hchannel, Function.update_self, hread]
  obtain ⟨hlater, hrest⟩ := @later_pieces_run size streamid sent.chunk.channel (s.add c) payload.length
    (payload.drop size) _ hN hlow hhigh (by rw [List.length_drop]; omega)
    (by rw [hself, hown.msgtype]; exact hmedia) (by rw [hself, hown.streamid, hstream])
    (fun k hk => by simp only [Channels.add, hchannel, Function.update_of_ne hk, hnone k])
    (hchannel ▸ hbegun) hmiss'
  rw [piecesOf, ← hc]
  exact ⟨completes_cons hfitsc halone hm hmiss hbytes hne hlater,
    fun k => alike_trans (hrest k) (hheader k)⟩

end

section
variable {ω : Type} {h : Handlers ω} {b : Behind} {rconn : Conn ω} {stream : MsgStream}

/-- `rtmp_parse` comes from the start of each chunk to its payload, with the header that the
chunk stream has, and from there to the next chunk. -/
def Finds (h : Handlers ω) (b : Behind) : Channels → Conn ω → List Piece → List UInt8 → Prop
  | _, _, [], _ => True
  | s, rconn, c :: chunks, ys =>
    Feed.Passes (rtmpStep cbufHolds h) b rconn (c.wire ++ (chunks.flatMap Piece.wire ++ ys))
        (s.headed rconn c) (c.bytes ++ (chunks.flatMap Piece.wire ++ ys)) ∧
      ∃ r, Feed.Passes (rtmpStep cbufHolds h) b (s.headed rconn c)
          (c.bytes ++ (chunks.flatMap Piece.wire ++ ys)) r (chunks.flatMap Piece.wire ++ ys) ∧
        r.state = .chunkFmt ∧ Finds h b (s.add c) r chunks ys

theorem pieces_found (hp : Elsewhere h) {size streamid : Nat} (hN : 0 < size) {s : Channels}
    {chunks : List Piece} (hh : Holding size streamid rconn stream s)
    (hf : Along (Media.Fits size streamid) s chunks) (ha : Along Alone s chunks)
    (hspace : bytesOf chunks ≤ stream.store.space) (ys : List UInt8) :
    Finds h b s rconn chunks ys := by
  induction chunks generalizing rconn stream s with
  | nil => exact trivial
  | cons c chunks ih =>
    simp only [bytesOf, List.map_cons, List.sum_cons] at hspace
    have hlen := hf.1.length
    have hsome := hf.1.some
    have hne : c.bytes ++ (chunks.flatMap Piece.wire ++ ys) ≠ [] := by
      rw [← List.length_pos_iff, List.length_append]
      omega
    obtain ⟨r, stream', hpass, hh', hleft⟩ := @piece_stored _ h b rconn stream s c size streamid hp hN
      hh hf.1 ha.1 (by omega) (chunks.flatMap Piece.wire ++ ys)
    refine ⟨?_, r, hpass, hh'.state, ih hh' hf.2 ha.2 (by rw [bytesOf]; omega)⟩
    rw [Piece.wire, List.append_assoc, List.append_assoc]
    exact header_passed hh hf.1 ha.1.reads hne

end

end Yclib.Rtmp.Boundaries
