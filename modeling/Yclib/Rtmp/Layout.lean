import Yclib.Rtmp.Media
import Yclib.Feed.Items

namespace Yclib.Rtmp.Layout
open Network

/-! Where `rtmp_msg_payload` puts the messages of a stream, and what it hands to the players. -/

/-- The players of the stream, and what `rtmp_msg_send` was called with. -/
structure Air where
  players : List Nat
  sent : List (Nat × RtmpMsg)

/-- `rtmp_msg_send` to every player. -/
def airing : Handlers Air where
  sendS0S1 := id
  sendS2 _ := id
  msgSend _ msg sess :=
    { sess with
      world := { sess.world with sent := sess.world.sent ++ sess.world.players.map fun player => (player, msg) } }
  msgSend_keeps _ _ _ := ⟨rfl, fun _ chunk hc => ⟨chunk.fmt, chunk.timestamp, hc⟩⟩
  command _ sess _ _ size := some (sess, size)

/-- A part of a chunk, as it comes to `rtmp_msg_payload`: with the header of its chunk stream,
and the players there are by then. -/
structure Part where
  header : RtmpChunk
  players : List Nat
  m : Mem
  size : Nat

/-- The session as the part finds it. -/
def Part.session (part : Part) (curchunk : Nat) (sess : Sess Air) : Sess Air :=
  { sess.setChunk curchunk part.header with world := { sess.world with players := part.players } }

/-- The session that the part leaves. -/
def Part.store (part : Part) (curchunk : Nat) (sess : Sess Air) : Option (Sess Air) :=
  (rtmpMsgPayload airing (part.session curchunk sess) curchunk part.header part.m part.size).map Prod.fst

def store (curchunk : Nat) (sess : Sess Air) (parts : List Part) : Option (Sess Air) :=
  parts.foldlM (fun sess part => part.store curchunk sess) sess

/-- A message as its parts make it up, and where it is to be. -/
structure Received where
  header : RtmpChunk
  offset : Nat
  bytes : List UInt8

def Received.Done (msg : Received) : Prop := msg.header.msglen ≤ msg.bytes.length

instance (msg : Received) : Decidable msg.Done := inferInstanceAs (Decidable (_ ≤ _))

/-- The header of a video sequence. -/
def Received.IsSeq (msg : Received) : Prop :=
  msg.header.msgtype = rtmpMsgtypeVideo ∧ msg.bytes[0]? = some 0x17 ∧ msg.bytes[1]? = some 0

instance (msg : Received) : Decidable msg.IsSeq := inferInstanceAs (Decidable (_ ∧ _ ∧ _))

/-- The messages received, the last one first; those the list of messages keeps; the sequence
header put aside last; the messages handed on, each with the players there were; and where the
next byte goes. -/
structure History where
  msgs : List Received
  kept : List Received
  aside : Option Received
  handed : List (Received × List Nat)
  next : Nat

/-- What the players are to get, in order. -/
def History.due (hist : History) : List (Nat × Received) :=
  hist.handed.flatMap fun entry => entry.2.map fun player => (player, entry.1)

/-- What becomes of a complete message when the next one begins. -/
def History.hand (hist : History) (msg : Received) (players : List Nat) : History :=
  if msg.IsSeq then { hist with kept := hist.kept.tail, aside := some msg }
  else { hist with handed := hist.handed ++ [(msg, players)] }

def History.begin (hist : History) (part : Part) : History :=
  let bytes := slice part.m 0 (min part.size part.header.msglen)
  let msg : Received := ⟨part.header, hist.next, bytes⟩
  { hist with msgs := msg :: hist.msgs, kept := msg :: hist.kept, next := hist.next + bytes.length }

def History.extend (hist : History) (msg : Received) (others : List Received) (part : Part) : History :=
  let bytes := slice part.m 0 (min part.size (msg.header.msglen - msg.bytes.length))
  let msg := { msg with bytes := msg.bytes ++ bytes }
  { hist with msgs := msg :: others, kept := msg :: hist.kept.tail, next := hist.next + bytes.length }

/-- What is received with one more part. -/
def History.receive (hist : History) (part : Part) : History :=
  match hist.msgs with
  | [] => hist.begin part
  | msg :: others =>
    if msg.Done then (hist.hand msg part.players).begin part else hist.extend msg others part

/-- The bytes of the message are in the store. -/
structure Stores (store : Store) (msg : RtmpMsg) (received : Received) : Prop where
  type : msg.type = received.header.msgtype
  size : msg.size = received.header.msglen
  offset : msg.offset = received.offset
  len : msg.len = received.bytes.length
  stored : store.Has received.offset received.bytes
  inside : received.offset + received.bytes.length ≤ store.offset

/-- What is looked at to tell a sequence header is there. -/
def Received.Clear (msg : Received) : Prop :=
  msg.header.msgtype = rtmpMsgtypeVideo → msg.bytes[0]? = some 0x17 → 2 ≤ msg.bytes.length

/-- The message that is stored is the one received. -/
structure Is (store : Store) (msg : RtmpMsg) (received : Received) : Prop extends
    Stores store msg received where
  seq : msg.key = true ∧ msg.packettype = avcPacketTypeSeq ↔ received.IsSeq
  clear : received.Clear
  some : received.bytes ≠ []

/-- The messages lie one behind the other, from `base` up to `next`. -/
def Consecutive (base next : Nat) : List Received → Prop
  | [] => next = base
  | msg :: others => msg.offset + msg.bytes.length = next ∧ Consecutive base msg.offset others

/-- The stream has the messages that were received, and the players have been given theirs. -/
structure Stowed (base limit streamid : Nat) (sess : Sess Air) (stream : MsgStream) (hist : History) :
    Prop where
  found : sess.nstreams streamid = some stream
  next : stream.store.offset = hist.next
  space : stream.store.space + hist.next = limit
  consecutive : Consecutive base hist.next hist.msgs
  stored : ∀ msg ∈ hist.msgs, stream.store.Has msg.offset msg.bytes ∧
    msg.offset + msg.bytes.length ≤ hist.next
  kept : List.Forall₂ (Is stream.store) stream.msgs hist.kept
  aside : Option.Rel (Is stream.store) stream.videometa hist.aside
  handed : List.Forall₂ (fun sent due => sent.1 = due.1 ∧ Is stream.store sent.2 due.2)
    sess.world.sent hist.due

/-- The same between two parts: the message received last is the one the list has last. -/
structure Laid (base limit streamid : Nat) (sess : Sess Air) (stream : MsgStream) (hist : History) :
    Prop extends Stowed base limit streamid sess stream hist where
  last : hist.msgs.head? = hist.kept.head?

/-- A part of a message of the stream, in order: there are bytes in it, and room for them. -/
structure Fits (limit streamid : Nat) (hist : History) (part : Part) : Prop where
  streamid : part.header.streamid = streamid
  some : 0 < part.size
  bytes : (∀ msg ∈ hist.msgs.head?, msg.Done) → 0 < part.header.msglen
  room : (hist.receive part).next ≤ limit

/-- The message so far is not the first byte of a key frame alone. -/
def Clear (hist : History) (part : Part) : Prop := ∀ msg ∈ (hist.receive part).msgs.head?, msg.Clear

section
variable {store : Store} {msg : RtmpMsg} {received : Received} {bytes : List UInt8}

theorem stores_pushes (hl : store.Level) (h : Stores store msg received) (bytes : List UInt8) :
    Stores (bytes.foldl Store.push store) msg received where
  type := h.type
  size := h.size
  offset := h.offset
  len := h.len
  stored := pushes_has_before hl bytes h.stored h.inside
  inside := by
    rw [pushes_offset]
    exact h.inside.trans (Nat.le_add_right _ _)

/-- What is stored stays when more is stored behind it. -/
theorem is_pushes (hl : store.Level) (h : Is store msg received) (bytes : List UInt8) :
    Is (bytes.foldl Store.push store) msg received :=
  ⟨stores_pushes hl h.toStores bytes, h.seq, h.clear, h.some⟩

/-- The bytes stored at the end of a message are its own. -/
theorem stores_wrote (hl : store.Level) (h : Stores store msg received)
    (hend : received.offset + received.bytes.length = store.offset) (bytes : List UInt8) :
    Stores (bytes.foldl Store.push store) { msg with len := msg.len + bytes.length }
      { received with bytes := received.bytes ++ bytes } where
  type := h.type
  size := h.size
  offset := h.offset
  len := by simp only [h.len, List.length_append]
  stored := by
    refine has_append.mpr ⟨pushes_has_before hl bytes h.stored h.inside, ?_⟩
    simp only [hend]
    exact pushes_has hl bytes
  inside := by
    simp only [List.length_append, pushes_offset]
    omega

end

section
variable {base limit streamid : Nat} {sess : Sess Air} {stream : MsgStream} {hist : History}

/-- The bytes of a part are stored for a message that is on top of the list. -/
theorem write_laid (hs : Stowed base limit streamid sess stream hist) {msg : RtmpMsg}
    {others : List RtmpMsg} {received : Received} {kept msgs : List Received} {bytes : List UInt8}
    (hothers : List.Forall₂ (Is stream.store) others kept)
    (hmsgs : ∀ r ∈ msgs, stream.store.Has r.offset r.bytes ∧ r.offset + r.bytes.length ≤ hist.next)
    (hbelow : Consecutive base received.offset msgs)
    (hstores : Stores stream.store msg received)
    (hend : received.offset + received.bytes.length = hist.next)
    (hseq : msg.key = true ∧ msg.packettype = avcPacketTypeSeq ↔
      ({ received with bytes := received.bytes ++ bytes } : Received).IsSeq)
    (hclear : ({ received with bytes := received.bytes ++ bytes } : Received).Clear)
    (hsome : received.bytes ++ bytes ≠ []) (hroom : hist.next + bytes.length ≤ limit) :
    Laid base limit streamid (sess.setStream streamid (stream.wrote msg others bytes))
      (stream.wrote msg others bytes)
      { hist with
        msgs := { received with bytes := received.bytes ++ bytes } :: msgs
        kept := { received with bytes := received.bytes ++ bytes } :: kept
        next := hist.next + bytes.length } := by
  have hlevel : stream.store.Level := stream.level
  have hnext := hs.next
  have hspace := hs.space
  have hwrote := stores_wrote hlevel hstores (by rw [hend, hnext]) bytes
  have hstore : (stream.wrote msg others bytes).store = bytes.foldl Store.push stream.store := rfl
  refine ⟨⟨?_, ?_, ?_, ?_, ?_, ?_, ?_, ?_⟩, rfl⟩
  · exact Function.update_self _ _ _
  · rw [hstore, pushes_offset, hnext]
  · rw [hstore, pushes_space hlevel bytes (by omega)]
    simp only
    omega
  · refine ⟨?_, hbelow⟩
    simp only [List.length_append]
    omega
  · intro r hr
    rcases List.mem_cons.mp hr with rfl | hr
    · refine ⟨hwrote.stored, ?_⟩
      simp only [List.length_append]
      omega
    · obtain ⟨hhas, hinside⟩ := hmsgs r hr
      refine ⟨pushes_has_before hlevel bytes hhas (by omega), ?_⟩
      simp only
      omega
  · refine List.Forall₂.cons ⟨hwrote, hseq, hclear, hsome⟩ (hothers.imp ?_)
    intro msg r his
    exact is_pushes hlevel his bytes
  · have haside := hs.aside
    simp only [MsgStream.wrote]
    generalize stream.videometa = videometa, hist.aside = aside at haside ⊢
    cases haside with
    | none => exact .none
    | some his => exact .some (is_pushes hlevel his bytes)
  · refine hs.handed.imp ?_
    intro sent due his
    exact ⟨his.1, is_pushes hlevel his.2 bytes⟩

section
variable {part : Part} {curchunk : Nat}

end

end

/-- Every message but the last is complete, and was handed on when the next began, in order and
once, or put aside. -/
structure Settled (hist : History) : Prop where
  done : ∀ msg ∈ hist.msgs.tail, msg.Done
  handed : hist.handed.map Prod.fst = (hist.msgs.tail.filter fun msg => ¬ msg.IsSeq).reverse
  aside : hist.aside = (hist.msgs.tail.filter fun msg => msg.IsSeq).head?

/-- Nothing received yet, and the first byte goes to the offset. -/
def History.start (offset : Nat) : History := ⟨[], [], none, [], offset⟩

/-- A stream under the id 1 that nothing was published on. -/
def opened : Sess Air where
  chunkstreams _ := none
  nstreams id := if id = 1 then some Media.MsgStream.fresh else none
  world := ⟨[], []⟩

def partOf (msgtype msglen : Nat) (bytes : List UInt8) : Part where
  header := { msglen := msglen, msgtype := msgtype, streamid := 1 }
  players := [7]
  m := memOf bytes fun _ => 0
  size := bytes.length

/-- A key frame that comes as its first byte and its second, and the message behind it. -/
def split : List Part := [partOf 9 2 [0x17], partOf 9 2 [1], partOf 8 1 [5]]

end Yclib.Rtmp.Layout
