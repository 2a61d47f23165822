import Yclib.Rtmp.ArgumentBounds

namespace Yclib.Rtmp.Bounds
open Network Amf Commands

/-! The messages of `rtmp_msg_parse`, in place and through `cbuf`. -/

variable {ω : Type}

section
variable (h : Handlers ω) (e : Effects ω)

def ucNotes (sess : Sess ω) (curchunk : Nat) (m : Mem) (size : Nat) : List Note :=
  (if sess.chunkstreams curchunk = none ∨ size < 2 then [] else [.look 0 2 size]) ++
    [.used (rtmpUcParse sess curchunk m size) size]

/-- The message stream that `rtmp_datamsg_parse` finds. -/
def messageStream (sess : Sess ω) (curchunk : Nat) : Option MsgStream :=
  (sess.chunkstreams curchunk).bind fun chunk => sess.nstreams chunk.streamid

/-- Behind the two values of `rtmp_datamsg_parse` an array is read. -/
def arrayNotes (sess : Sess ω) (curchunk : Nat) (m : Mem) (size : Nat) : Option Take → List Note
  | some (.go _ walker) =>
    if messageStream sess curchunk = none then []
    else
      let rest := u32Sub size (walker + 1)
      .rest (walker + 1) size :: reading (sdEcmaRead (Mem.from m (walker + 1)) rest (readFuel rest) 0) rest
  | _ => []

def datamsgNotes (sess : Sess ω) (curchunk : Nat) (m : Mem) (size : Nat) : List Note :=
  takeNotes m size [.value, .value] 0 ++ arrayNotes sess curchunk m size (takeFields m size [.value, .value] 0) ++
    reported (rtmpDatamsgParse sess curchunk m size) size

/-- `rtmp_msg_payload`: a message that begins looks at its first bytes, and what is missing of it is
copied. -/
def payloadNotes (sess : Sess ω) (chunk : RtmpChunk) (m : Mem) (size : Nat) : List Note :=
  match sess.nstreams chunk.streamid with
  | none => []
  | some stream =>
    (if chunk.msgtype = rtmpMsgtypeVideo ∧ ∀ msg ∈ stream.msgs.head?, msg.Done then
      .look 0 1 size :: if m 0 = 0x17 then [.look 1 1 size] else []
    else []) ++ [.look 0 (min size (stream.rem chunk)) size]

/-- The message goes into `cbuf`, and what `cbuf` holds then is parsed. -/
def bufferNotes (notes : Sess ω → Nat → Mem → Nat → List Note) (skip : Nat) (rconn : Conn ω) (m : Mem)
    (size : Nat) (stale : Mem) : List Note :=
  let cbuf := rconn.cbuf ++ slice m skip (copySize skip size)
  .rest skip size :: .look skip (copySize skip size) size ::
    if cbufHolds (rconn.cbuf.length + copySize skip size) then
      notes rconn.sess rconn.curchunk (memOf cbuf stale) cbuf.length
    else []

def typeNotes (chunk : RtmpChunk) (rconn : Conn ω) (m : Mem) (size : Nat) (stale : Mem) : List Note :=
  if chunk.msgtype = rtmpMsgtypeSize ∨ chunk.msgtype = rtmpMsgtypeBw then
    if size < 4 then [] else [.look 0 4 size]
  else if chunk.msgtype = rtmpMsgtypeUc then bufferNotes ucNotes 0 rconn m size stale
  else if chunk.msgtype = rtmpMsgtypeAudio ∨ chunk.msgtype = rtmpMsgtypeVideo then
    payloadNotes rconn.sess chunk m size
  else if chunk.msgtype = rtmpMsgtypeDatamsg then bufferNotes datamsgNotes 0 rconn m size stale
  else if chunk.msgtype = rtmpMsgtypeCommandAmf3 then
    bufferNotes (commandNotes h e) 1 rconn m size stale
  else if chunk.msgtype = rtmpMsgtypeCommandAmf0 then
    bufferNotes (commandNotes h e) 0 rconn m size stale
  else []

/-- `rtmp_msg_parse`. -/
def msgNotes (rconn : Conn ω) (m : Mem) (size : Nat) (stale : Mem) : List Note :=
  ((rconn.sess.chunkstreams rconn.curchunk).elim [] fun chunk => typeNotes h e chunk rconn m size stale) ++
    match rtmpMsgParse cbufHolds (serving h e) rconn m size stale with
    | .ret _ used => [.used used size]
    | _ => []

end

section
variable (m : Mem) (size : Nat)

/-- The event that `rtmp_uc_parse` is through with, and how far. -/
def UcFits (counts : Nat → Prop) (sess : Sess ω) (curchunk : Nat) : Prop :=
  ∀ chunk, sess.chunkstreams curchunk = some chunk → 2 + u32Sub chunk.msglen 2 ≤ size →
    counts (if rnsBtoh16 m 0 = 0 ∨ rnsBtoh16 m 0 = 3 then u32 (2 + u32Sub chunk.msglen 2) else 2)

/-- Behind the two values of `rtmp_datamsg_parse` is a byte to leave out, and an array. -/
def DatamsgFits (counts : Nat → Prop) (sess : Sess ω) (curchunk : Nat) : Prop :=
  TakeFits m size (fun _ walker => messageStream sess curchunk ≠ none → walker + 1 ≤ size ∧
    let buf := Mem.from m (walker + 1)
    let rest := size - (walker + 1)
    (4 ≤ rest → Listed buf rest 4) ∧ ∀ metadata bytes,
      (sdEcmaRead buf rest (readFuel rest) 0).ret = some (some metadata, bytes) → counts (walker + 1 + bytes))
    [.value, .value] [] 0

/-- What a message that begins looks at is there. -/
def PeekFits (sess : Sess ω) (chunk : RtmpChunk) : Prop :=
  ∀ stream, sess.nstreams chunk.streamid = some stream → chunk.msgtype = rtmpMsgtypeVideo → stream.Begins →
    1 ≤ size ∧ (m 0 = 0x17 → 2 ≤ size)

/-- A message that goes through `cbuf` has the `skip` bytes that are left out, and its parser, which finds
it behind what `cbuf` has held, gets through with at least that. -/
def BufferFits (fits : (Nat → Prop) → Mem → Nat → Prop) (skip : Nat) (rconn : Conn ω) (stale : Mem) : Prop :=
  skip ≤ size ∧ (cbufHolds (rconn.cbuf.length + (size - skip)) →
    let cbuf := rconn.cbuf ++ slice m skip (size - skip)
    fits (fun used => rconn.cbuf.length ≤ used + skip) (memOf cbuf stale) cbuf.length)

/-- A message of the type of `chunk` fits. -/
def TypeFits (e : Effects ω) (rconn : Conn ω) (stale : Mem) (chunk : RtmpChunk) : Prop :=
  if chunk.msgtype = rtmpMsgtypeUc then
    BufferFits m size (fun counts m size => UcFits m size counts rconn.sess rconn.curchunk) 0 rconn stale
  else if chunk.msgtype = rtmpMsgtypeDatamsg then
    BufferFits m size (fun counts m size => DatamsgFits m size counts rconn.sess rconn.curchunk) 0 rconn stale
  else if chunk.msgtype = rtmpMsgtypeCommandAmf3 then
    BufferFits m size (fun counts m size => CommandFits m size e counts rconn.sess rconn.curchunk) 1 rconn stale
  else if chunk.msgtype = rtmpMsgtypeCommandAmf0 then
    BufferFits m size (fun counts m size => CommandFits m size e counts rconn.sess rconn.curchunk) 0 rconn stale
  else PeekFits m size rconn.sess chunk

/-- The message of the current chunk fits. -/
def MsgFits (e : Effects ω) (rconn : Conn ω) (stale : Mem) : Prop :=
  ∀ chunk, rconn.sess.chunkstreams rconn.curchunk = some chunk → TypeFits m size e rconn stale chunk

end

section
variable {sess : Sess ω} {curchunk : Nat} {m : Mem} {size : Nat} {counts : Nat → Prop}

theorem uc_within (hsize : size < 2 ^ 32) (hall : counts size) :
    Reports counts (ucNotes sess curchunk m size) (some (sess, rtmpUcParse sess curchunk m size)) ↔
      UcFits m size counts sess curchunk := by
  cases hchunk : sess.chunkstreams curchunk with
  | none => simp [Reports, ucNotes, UcFits, rtmpUcParse, hchunk, Note.Inside, hall]
  | some chunk =>
    obtain ⟨len, hlen⟩ : ∃ len, len = u32Sub chunk.msglen 2 := ⟨_, rfl⟩
    have hlt : len < 2 ^ 32 := by
      rw [hlen]
      exact Nat.mod_lt _ (by decide)
    simp only [UcFits, hchunk, Option.some.injEq, forall_eq', ← hlen]
    by_cases hroom : 2 + len ≤ size
    · have hwhole : u32 (2 + len) = 2 + len := u32_of_lt (by omega)
      have hused : rtmpUcParse sess curchunk m size =
          if rnsBtoh16 m 0 = 0 ∨ rnsBtoh16 m 0 = 3 then 2 + len else 2 := by
        simp only [rtmpUcParse, hchunk, ← hlen]
        rw [if_neg (by omega), if_neg (by omega)]
        split
        · rename_i hbegin
          rw [if_pos (.inl hbegin), hwhole]
        · rename_i hset
          rw [if_pos (.inr hset)]
          unfold u32 u32Sub
          omega
        · rename_i hbegin hset
          rw [if_neg (not_or.mpr ⟨hbegin, hset⟩)]
      have hle : rtmpUcParse sess curchunk m size ≤ size := by
        rw [hused]
        split <;> omega
      have hpos : 0 < rtmpUcParse sess curchunk m size := by
        rw [hused]
        split <;> omega
      have htwo : 2 ≤ size := by omega
      rw [hwhole, ← hused]
      simp [Reports, ucNotes, hchunk, Note.Inside, hle, hpos, hroom, Nat.not_lt.mpr htwo, htwo]
    · have hused : rtmpUcParse sess curchunk m size = 0 := by
        simp only [rtmpUcParse, hchunk, ← hlen]
        split
        · rfl
        · rw [if_pos (by omega)]
      refine iff_of_true ⟨?_, ?_⟩ fun h => absurd h hroom
      · simp only [ucNotes, hused, within_append, within_cons, within_nil, and_true, Note.Inside, Nat.zero_le]
        split
        · exact within_nil
        · rename_i hshort
          simp only [within_cons, within_nil, and_true, Note.Inside]
          omega
      · intro sess' used hret hpos
        cases hret
        omega

theorem ecma_clean {fuel : Nat} {r : Option (UInt32 × SdObj) × Nat} (hsize : size < 2 ^ 32)
    (h : Clean size (sdEcmaRead m size (fuel + 1) 0) r) : r.2 ≤ size := by
  by_cases hfour : size - 0 < 4
  · obtain rfl := (clean_ecma_cut hfour).mp h
    exact Nat.zero_le _
  · obtain ⟨o, ho, rfl⟩ := (clean_ecma hsize (not_lt.mp hfour)).mp h
    have hle := obj_within ho
    rw [ecmaGive]
    split
    · simp only
      split <;> omega
    · simp only
      omega

theorem field_value (w : Nat) : Field.value.read m size w =
    (readValue (Mem.from m w) (u32Sub size w)).ret.map fun r => taken size w r.1 r.2 := by
  simp only [Field.read]
  cases (readValue (Mem.from m w) (u32Sub size w)).ret with
  | none => rfl
  | some r => rfl

/-- What is answered where some fields have been taken, with `rest` behind them. -/
def answered (sess : Sess ω) (rest : Nat → Option (Sess ω × Nat)) : Option Take → Option (Sess ω × Nat)
  | none => none
  | some (.stop used) => some (sess, used)
  | some (.go _ walker) => rest walker

/-- Two values are taken as a handler takes its fields, whatever reads them. -/
theorem values_take {reads : Nat → Option (Option SdValue × Nat)} (rest : Nat → Option (Sess ω × Nat))
    (hreads : ∀ w, Field.value.read m size w = (reads w).map fun r => taken size w r.1 r.2) :
    ((reads 0).bind fun (cmd, bytes) =>
      if cmd.isNone then some (sess, if bytes ≠ 0 then size else 0)
      else (reads bytes).bind fun (str, bytes') =>
        if str.isNone then some (sess, if bytes' ≠ 0 then size else 0)
        else rest (bytes + bytes')) = answered sess rest (takeFields m size [.value, .value] 0) := by
  have hsecond : ∀ w, takeFields m size [.value] w = (reads w).map fun r => taken size w r.1 r.2 := by
    intro w
    rw [takeFields, hreads]
    cases reads w with
    | none => rfl
    | some r =>
      obtain ⟨_ | v, bytes⟩ := r
      · rfl
      · rfl
  -- the second field is kept folded, or its reader is evaluated
  obtain ⟨more, hmore⟩ : ∃ more, more = [Field.value] := ⟨_, rfl⟩
  rw [← hmore] at hsecond ⊢
  rw [takeFields, hreads]
  cases reads 0 with
  | none => rfl
  | some r =>
    obtain ⟨_ | cmd, bytes⟩ := r
    · rfl
    simp only [Option.bind_some, Option.map_some, Option.isNone_some, Bool.false_eq_true, if_false, taken,
      Nat.zero_add, hsecond]
    cases reads bytes with
    | none => rfl
    | some r =>
      obtain ⟨_ | str, bytes'⟩ := r
      · rfl
      · rfl

/-- What `rtmp_datamsg_parse` does behind the two values and the byte that it leaves out. -/
def datamsgRest (sess : Sess ω) (curchunk : Nat) (m : Mem) (size walker : Nat) : Option (Sess ω × Nat) :=
  match sess.chunkstreams curchunk with
  | none => some (sess, size)
  | some chunk =>
    match sess.nstreams chunk.streamid with
    | none => some (sess, size)
    | some stream =>
      let rest := u32Sub size walker
      (sdEcmaRead (Mem.from m walker) rest (readFuel rest) 0).ret.bind fun (metadata, bytes) =>
        let sess := sess.setStream chunk.streamid { stream with metadata := metadata }
        if metadata.isNone then some (sess, if bytes ≠ 0 then size else 0) else some (sess, u32 (walker + bytes))

theorem datamsg_take (hsize : size < 2 ^ 32) : rtmpDatamsgParse sess curchunk m size =
    answered sess (fun walker => datamsgRest sess curchunk m size (walker + 1))
      (takeFields m size [.value, .value] 0) := by
  have hparse : rtmpDatamsgParse sess curchunk m size = (readValue m size).ret.bind fun (cmd, bytes) =>
      if cmd.isNone then some (sess, if bytes ≠ 0 then size else 0)
      else (readValue (Mem.from m bytes) (u32Sub size bytes)).ret.bind fun (str, bytes') =>
        if str.isNone then some (sess, if bytes' ≠ 0 then size else 0)
        else datamsgRest sess curchunk m size (bytes + bytes' + 1) := rfl
  obtain ⟨hbuf, hrest⟩ := first_whole m hsize
  have hfirst : readValue (Mem.from m 0) (u32Sub size 0) = readValue m size := by rw [hbuf, hrest]
  rewrite [hparse, ← hfirst]
  exact @values_take _ sess m size (fun w => (readValue (Mem.from m w) (u32Sub size w)).ret)
    (fun walker => datamsgRest sess curchunk m size (walker + 1)) field_value

theorem datamsg_missing {walker : Nat} (hstream : messageStream sess curchunk = none) :
    datamsgRest sess curchunk m size walker = some (sess, size) := by
  rw [datamsgRest]
  rw [messageStream] at hstream
  cases hchunk : sess.chunkstreams curchunk with
  | none => rfl
  | some chunk =>
    rw [hchunk, Option.bind_some] at hstream
    simp only [hstream]

/-- Where there is a message stream, an array is read. -/
theorem datamsg_rest {walker : Nat} (hstream : messageStream sess curchunk ≠ none) (hw : walker ≤ size)
    (hsize : size < 2 ^ 32) : (datamsgRest sess curchunk m size walker).map Prod.snd =
      (sdEcmaRead (Mem.from m walker) (size - walker) (readFuel (size - walker)) 0).ret.map fun r =>
        if r.1.isNone then if r.2 ≠ 0 then size else 0 else u32 (walker + r.2) := by
  rw [datamsgRest]
  rw [messageStream] at hstream
  cases hchunk : sess.chunkstreams curchunk with
  | none =>
    rw [hchunk] at hstream
    exact absurd rfl hstream
  | some chunk =>
    rw [hchunk, Option.bind_some] at hstream
    cases hfound : sess.nstreams chunk.streamid with
    | none => exact absurd hfound hstream
    | some stream =>
      simp only [hfound, u32_sub_of_le hw hsize]
      cases (sdEcmaRead (Mem.from m walker) (size - walker) (readFuel (size - walker)) 0).ret with
      | none => rfl
      | some r =>
        obtain ⟨_ | metadata, bytes⟩ := r
        · rfl
        · rfl

theorem reported_used {ret : Option (Sess ω × Nat)} : Within (reported ret size) ∧
    (∀ sess used, ret = some (sess, used) → 0 < used → counts used) ↔
      ∀ used, ret.map Prod.snd = some used → used ≤ size ∧ (0 < used → counts used) := by
  rw [reported_within]
  cases ret with
  | none => simp
  | some r =>
    obtain ⟨sess, used⟩ := r
    simp

/-- What the array of a message is read from is in the buffer, and it is counted as `counts` says. -/
theorem array_within {args : List SdValue} {walker : Nat} (hsize : size < 2 ^ 32) (hall : counts size) :
    (Within (arrayNotes sess curchunk m size (some (.go args walker))) ∧
      Within (reported (datamsgRest sess curchunk m size (walker + 1)) size) ∧
      ∀ sess' used, datamsgRest sess curchunk m size (walker + 1) = some (sess', used) → 0 < used → counts used) ↔
    (messageStream sess curchunk ≠ none → walker + 1 ≤ size ∧
      let buf := Mem.from m (walker + 1)
      let rest := size - (walker + 1)
      (4 ≤ rest → Listed buf rest 4) ∧ ∀ metadata bytes,
        (sdEcmaRead buf rest (readFuel rest) 0).ret = some (some metadata, bytes) → counts (walker + 1 + bytes)) := by
  rw [reported_used, arrayNotes]
  by_cases hstream : messageStream sess curchunk = none
  · rw [if_pos hstream, datamsg_missing hstream]
    simp [hstream, hall]
  rw [if_neg hstream]
  simp only [ne_eq, hstream, not_false_eq_true, forall_const]
  have hbehind : 0 < walker + 1 := Nat.succ_pos _
  generalize walker + 1 = walker at hbehind ⊢
  have hecma := @ecma_safe (Mem.from m walker) (size - walker) (4 * (size - walker) + 3) (by omega) (by omega)
  rw [rest_within (fun rest => sdEcmaRead (Mem.from m walker) rest (readFuel rest) 0) hsize fun _ => hecma,
    and_assoc]
  refine and_congr_right fun hw => and_congr_right fun hlisted => ?_
  rw [datamsg_rest hstream hw hsize]
  cases hret : (sdEcmaRead (Mem.from m walker) (size - walker) (readFuel (size - walker)) 0).ret with
  | none => simp
  | some r =>
    have hfew := ecma_clean (by omega) ⟨hret, hecma.mpr hlisted⟩
    obtain ⟨_ | metadata, bytes⟩ := r
    · rcases Nat.eq_zero_or_pos bytes with rfl | hpos
      · simp
      · simp [hpos.ne', hall]
    · have hle : walker + bytes ≤ size := by
        simp only at hfew
        omega
      have hpos : 0 < walker + bytes := Nat.add_pos_left hbehind _
      simp [u32_of_lt (show walker + bytes < 2 ^ 32 by omega), hle, hbehind]

theorem datamsg_within (hsize : size < 2 ^ 32) (hall : counts size) :
    Reports counts (datamsgNotes sess curchunk m size) (rtmpDatamsgParse sess curchunk m size) ↔
      DatamsgFits m size counts sess curchunk := by
  rw [DatamsgFits, ← take_within hsize, Reports, datamsgNotes, within_append, within_append, and_assoc, and_assoc,
    datamsg_take hsize]
  apply and_congr_right
  intro hnotes
  have hstops : ∀ used, takeFields m size [.value, .value] 0 = some (.stop used) → used = 0 ∨ used = size :=
    fun _ => take_stops
  generalize takeFields m size [.value, .value] 0 = take at hstops ⊢
  cases take with
  | none => simp [answered, arrayNotes, reported]
  | some take =>
    cases take with
    | stop used =>
      have hused := hstops used rfl
      refine iff_of_true ⟨within_nil, ?_, ?_⟩ (fun _ _ h => by cases h)
      · simp only [answered, reported, Option.map_some, Option.toList_some, within_cons, within_nil, and_true, Note.Inside]
        omega
      · intro sess' used' hret hpos
        cases hret
        obtain rfl : used = size := by omega
        exact hall
    | go args walker =>
      have harray := @array_within _ sess curchunk m size counts args walker hsize hall
      have hanswer : answered sess (fun walker => datamsgRest sess curchunk m size (walker + 1))
          (some (.go args walker)) = datamsgRest sess curchunk m size (walker + 1) := rfl
      rw [hanswer, harray]
      constructor
      · intro h _ _ heq
        cases heq
        exact h
      · intro h
        exact h _ _ rfl

end

section
variable {rconn : Conn ω} {m stale : Mem} {size skip : Nat} {notes : Sess ω → Nat → Mem → Nat → List Note}
  {parse : CbufParser ω} {fits : (Nat → Prop) → Mem → Nat → Prop}

/-- What is to hold where a message is parsed. -/
def Counted (size : Nat) (notes : List Note) (parsed : Parsed ω) : Prop :=
  Within notes ∧ ∀ rconn used, parsed = .ret rconn used → used ≤ size

/-- A parser behind `cbuf`. -/
theorem buffer_within (hskip : skip ≤ 1)
    (hparser : ∀ counts m size, size < 2 ^ 32 → counts size →
      (Reports counts (notes rconn.sess rconn.curchunk m size) (parse rconn.sess rconn.curchunk m size) ↔
        fits counts m size))
    (hreported : ∀ m size, Within (notes rconn.sess rconn.curchunk m size) →
      Within (reported (parse rconn.sess rconn.curchunk m size) size)) :
    Counted size (bufferNotes notes skip rconn m size stale)
        (cbufParse cbufHolds parse skip rconn m size stale) ↔
      BufferFits m size fits skip rconn stale := by
  by_cases hle : skip ≤ size
  · have hcopy : copySize skip size = size - skip := if_pos hle
    have hrest : (Note.rest skip size).Inside := hle
    have hlook : (Note.look skip (size - skip) size).Inside := (Nat.add_sub_cancel' hle).le
    simp only [Counted, bufferNotes, BufferFits, cbufParse, hcopy, within_cons, hrest, hlook, true_and, hle]
    by_cases hroom : cbufHolds (rconn.cbuf.length + (size - skip)) = true
    · have hfew : rconn.cbuf.length + (size - skip) ≤ 1024 := decide_eq_true_iff.mp hroom
      have hlength : (rconn.cbuf ++ slice m skip (size - skip)).length = rconn.cbuf.length + (size - skip) := by
        rw [List.length_append, slice_length]
      rw [if_pos hroom, if_pos hroom, ← hparser _ _ _ (by omega) (by omega), Reports]
      simp only [hroom, forall_const]
      apply and_congr_right
      intro hwithin
      have hused := reported_within.mp (hreported _ _ hwithin)
      cases hret : parse rconn.sess rconn.curchunk (memOf (rconn.cbuf ++ slice m skip (size - skip)) stale)
          (rconn.cbuf ++ slice m skip (size - skip)).length with
      | none => simp
      | some r =>
        obtain ⟨sess, s⟩ := r
        have hs := hused sess s hret
        rcases Nat.eq_zero_or_pos s with rfl | hpos
        · simp [hle]
        · have hcount : u32 (skip + u32Sub s rconn.cbuf.length) ≤ size ↔ rconn.cbuf.length ≤ s + skip := by
            unfold u32 u32Sub
            omega
          simp [hpos, hcount]
    · simp [hroom]
  · refine iff_of_false (fun h => ?_) fun h => hle h.1
    have hrest : (Note.rest skip size).Inside := h.1 _ (List.mem_cons_self ..)
    exact hle hrest

theorem write_used {sess : Sess ω} {streamid : Nat} {stream : MsgStream} {msg : RtmpMsg} {others : List RtmpMsg} :
    (msgWrite sess streamid stream msg others m size).2 ≤ size := by
  simp only [msgWrite]
  split
  · exact Nat.zero_le _
  · exact (Nat.sub_le _ _).trans (Nat.min_le_left _ _)

theorem payload_used {h : Handlers ω} {sess sess' : Sess ω} {curchunk used : Nat} {chunk : RtmpChunk}
    (hret : rtmpMsgPayload h sess curchunk chunk m size = some (sess', used)) : used ≤ size := by
  rw [rtmpMsgPayload] at hret
  split at hret
  · cases hret
    exact le_rfl
  · split at hret
    · cases hret
    · have hused := congrArg Prod.snd (Option.some.inj hret)
      exact hused.ge.trans write_used

theorem payload_within {chunk : RtmpChunk} :
    Within (payloadNotes rconn.sess chunk m size) ↔ PeekFits m size rconn.sess chunk := by
  rw [payloadNotes, PeekFits]
  cases rconn.sess.nstreams chunk.streamid with
  | none => simp
  | some stream =>
    have hlook : (Note.look 0 (min size (stream.rem chunk)) size).Inside := by
      simp only [Note.Inside, Nat.zero_add]
      exact Nat.min_le_left _ _
    simp only [within_append, within_cons, within_nil, hlook, and_true, Option.some.injEq, forall_eq']
    by_cases hvideo : chunk.msgtype = rtmpMsgtypeVideo ∧ stream.Begins
    · have hbegins : ∀ msg ∈ stream.msgs.head?, msg.Done := hvideo.2
      rw [if_pos ⟨hvideo.1, hbegins⟩, within_cons]
      simp only [hvideo, forall_const, Note.Inside, Nat.zero_add]
      apply and_congr_right
      intro _
      split
      · rename_i hkey
        simp [hkey, Note.Inside]
      · rename_i hkey
        simp [hkey]
    · have hnot : ¬ (chunk.msgtype = rtmpMsgtypeVideo ∧ ∀ msg ∈ stream.msgs.head?, msg.Done) := hvideo
      rw [if_neg hnot]
      exact iff_of_true within_nil fun hv hb => absurd ⟨hv, hb⟩ hvideo

end

section
variable {h : Handlers ω} {e : Effects ω} {rconn : Conn ω} {chunk : RtmpChunk} {m stale : Mem} {size : Nat}

theorem msg_counted : Within (msgNotes h e rconn m size stale) ↔
    Counted size ((rconn.sess.chunkstreams rconn.curchunk).elim [] fun chunk => typeNotes h e chunk rconn m size stale)
      (rtmpMsgParse cbufHolds (serving h e) rconn m size stale) := by
  rw [msgNotes, within_append, Counted]
  apply and_congr_right
  intro _
  cases rtmpMsgParse cbufHolds (serving h e) rconn m size stale with
  | ret rconn' used => simp [Note.Inside]
  | overrun => simp
  | lost => simp

theorem buffered_within {parse : CbufParser ω} {skip : Nat} {notes : Sess ω → Nat → Mem → Nat → List Note}
    {fits : (Nat → Prop) → Mem → Nat → Prop}
    (hparse : cbufParser (serving h e) chunk.msgtype = some (parse, skip)) (hskip : skip ≤ 1)
    (hc : rconn.sess.chunkstreams rconn.curchunk = some chunk)
    (hnotes : typeNotes h e chunk rconn m size stale = bufferNotes notes skip rconn m size stale)
    (hparser : ∀ counts m size, size < 2 ^ 32 → counts size →
      (Reports counts (notes rconn.sess rconn.curchunk m size) (parse rconn.sess rconn.curchunk m size) ↔
        fits counts m size))
    (hreported : ∀ m size, Within (notes rconn.sess rconn.curchunk m size) →
      Within (reported (parse rconn.sess rconn.curchunk m size) size)) :
    Counted size (typeNotes h e chunk rconn m size stale)
        (rtmpMsgParse cbufHolds (serving h e) rconn m size stale) ↔ BufferFits m size fits skip rconn stale := by
  rw [hnotes, cbuf_parse hparse hc]
  exact buffer_within hskip hparser hreported

theorem peek_other {sess : Sess ω} (ht : chunk.msgtype ≠ rtmpMsgtypeVideo) : PeekFits m size sess chunk :=
  fun _ _ hvideo _ => absurd hvideo ht

theorem type_peek (ht : cbufParser (serving h e) chunk.msgtype = none) :
    TypeFits m size e rconn stale chunk ↔ PeekFits m size rconn.sess chunk := by
  unfold cbufParser at ht
  split_ifs at ht with huc hdata hamf3 hamf0
  rw [TypeFits, if_neg huc, if_neg hdata, if_neg hamf3, if_neg hamf0]

theorem four_bytes_within (hfour : FourBytes chunk.msgtype) :
    Within (typeNotes h e chunk rconn m size stale) ∧ TypeFits m size e rconn stale chunk := by
  have hlook : Within (if size < 4 then [] else [.look 0 4 size]) := by
    split
    · exact within_nil
    · simp only [within_cons, within_nil, and_true, Note.Inside]
      omega
  have hother : cbufParser (serving h e) chunk.msgtype = none := by
    rcases hfour with ht | ht | ht | ht
    all_goals
      rw [ht]
      rfl
  have hpeek : chunk.msgtype ≠ rtmpMsgtypeVideo := by
    rcases hfour with ht | ht | ht | ht
    all_goals
      rw [ht]
      decide
  refine ⟨?_, (type_peek hother).mpr (peek_other hpeek)⟩
  rcases hfour with ht | ht | ht | ht
  · rw [typeNotes, if_pos (.inl ht)]
    exact hlook
  · rw [typeNotes, ht]
    exact within_nil
  · rw [typeNotes, ht]
    exact within_nil
  · rw [typeNotes, if_pos (.inr ht)]
    exact hlook

theorem type_within (hc : rconn.sess.chunkstreams rconn.curchunk = some chunk) :
    Counted size (typeNotes h e chunk rconn m size stale)
        (rtmpMsgParse cbufHolds (serving h e) rconn m size stale) ↔
      TypeFits m size e rconn stale chunk := by
  by_cases hfour : FourBytes chunk.msgtype
  · obtain ⟨read, hparse, -⟩ := @four_bytes_parse _ cbufHolds (serving h e) _ _ hfour hc
    obtain ⟨hnotes, hfits⟩ := @four_bytes_within _ h e rconn chunk m stale size hfour
    refine iff_of_true ⟨hnotes, ?_⟩ hfits
    intro rconn' used hret
    rw [hparse] at hret
    split at hret
    · cases hret
      exact Nat.zero_le _
    · cases hret
      omega
  by_cases hmedia : Media chunk.msgtype
  · have hother : cbufParser (serving h e) chunk.msgtype = none := by
      rcases hmedia with ht | ht
      · rw [ht]
        rfl
      · rw [ht]
        rfl
    have hnotes : typeNotes h e chunk rconn m size stale = payloadNotes rconn.sess chunk m size := by
      rcases hmedia with ht | ht
      · rw [typeNotes, ht]
        rfl
      · rw [typeNotes, ht]
        rfl
    rw [type_peek hother, ← payload_within, hnotes, Counted, media_parse hmedia hc]
    apply and_iff_left
    intro rconn' used hret
    split at hret
    · cases hret
    · rename_i hpayload
      cases hret
      exact payload_used hpayload
  by_cases huc : chunk.msgtype = rtmpMsgtypeUc
  · have hnotes : typeNotes h e chunk rconn m size stale = bufferNotes ucNotes 0 rconn m size stale := by
      rw [typeNotes, huc]
      rfl
    rw [TypeFits, if_pos huc]
    refine buffered_within (by rw [huc]; rfl) (Nat.zero_le _) hc hnotes (fun _ _ _ => uc_within) ?_
    intro m size hwithin
    rw [ucNotes, within_append] at hwithin
    exact hwithin.2
  by_cases hdata : chunk.msgtype = rtmpMsgtypeDatamsg
  · have hnotes : typeNotes h e chunk rconn m size stale = bufferNotes datamsgNotes 0 rconn m size stale := by
      rw [typeNotes, hdata]
      rfl
    rw [TypeFits, if_neg huc, if_pos hdata]
    refine buffered_within (by rw [hdata]; rfl) (Nat.zero_le _) hc hnotes (fun _ _ _ => datamsg_within) ?_
    intro m size hwithin
    rw [datamsgNotes, within_append] at hwithin
    exact hwithin.2
  by_cases hamf3 : chunk.msgtype = rtmpMsgtypeCommandAmf3
  · have hnotes : typeNotes h e chunk rconn m size stale = bufferNotes (commandNotes h e) 1 rconn m size stale := by
      rw [typeNotes, hamf3]
      rfl
    rw [TypeFits, if_neg huc, if_neg hdata, if_pos hamf3]
    exact buffered_within (by rw [hamf3]; rfl) (le_refl _) hc hnotes (fun _ _ _ => command_within) fun _ _ =>
      command_reported
  by_cases hamf0 : chunk.msgtype = rtmpMsgtypeCommandAmf0
  · have hnotes : typeNotes h e chunk rconn m size stale = bufferNotes (commandNotes h e) 0 rconn m size stale := by
      rw [typeNotes, hamf0]
      rfl
    rw [TypeFits, if_neg huc, if_neg hdata, if_neg hamf3, if_pos hamf0]
    exact buffered_within (by rw [hamf0]; rfl) (Nat.zero_le _) hc hnotes (fun _ _ _ => command_within) fun _ _ =>
      command_reported
  have hnone : cbufParser (serving h e) chunk.msgtype = none := by
    rw [cbufParser, if_neg huc, if_neg hdata, if_neg hamf3, if_neg hamf0]
  have hvideo : chunk.msgtype ≠ rtmpMsgtypeVideo := fun hvideo => hmedia (.inr hvideo)
  have hnotes : typeNotes h e chunk rconn m size stale = [] := by
    have hsize : ¬ (chunk.msgtype = rtmpMsgtypeSize ∨ chunk.msgtype = rtmpMsgtypeBw) :=
      fun h => hfour (h.elim .inl fun h => .inr (.inr (.inr h)))
    have hother : ¬ (chunk.msgtype = rtmpMsgtypeAudio ∨ chunk.msgtype = rtmpMsgtypeVideo) := hmedia
    rw [typeNotes, if_neg hsize, if_neg huc, if_neg hother, if_neg hdata, if_neg hamf3, if_neg hamf0]
  refine iff_of_true ⟨?_, ?_⟩ ((type_peek hnone).mpr (peek_other hvideo))
  · rw [hnotes]
    exact within_nil
  · intro rconn' used hret
    rw [other_parse hnone hfour hmedia hc] at hret
    cases hret
    exact Nat.zero_le _

theorem msg_within : Within (msgNotes h e rconn m size stale) ↔ MsgFits m size e rconn stale := by
  rw [msg_counted, MsgFits]
  cases hc : rconn.sess.chunkstreams rconn.curchunk with
  | none =>
    refine iff_of_true ⟨within_nil, ?_⟩ fun _ h => by cases h
    intro rconn' used hret
    rw [rtmpMsgParse, hc] at hret
    cases hret
    exact le_rfl
  | some chunk =>
    simp only [Option.some.injEq, forall_eq']
    exact type_within hc

end

end Yclib.Rtmp.Bounds
