import Yclib.Http.Delivery

namespace Yclib.Http.Reading

/-! The bodies of messages, as far as they have come in. -/

section
variable {msg : Message} {tunes : Tunes} {log : List Call} {hconn : Hconn} {rest : List UInt8}

/-- What has been handed out of a message whose length is given. -/
theorem awaits_part (hplain : msg.content.isChunked = false) (h : Awaits msg tunes log hconn rest)
    (hmore : rest ≠ []) : ∃ pieces more, hconn.log = log ++ works (msg.head tunes) pieces ∧
      pieces.flatten ++ more = msg.content.body ∧ (msg.content.body ≠ [] → more ≠ []) := by
  cases h with
  | line _ log_eq => exact ⟨[], _, by simp [log_eq, works], rfl, fun h => h⟩
  | header _ _ log_eq => exact ⟨[], _, by simp [log_eq, works], rfl, fun h => h⟩
  | sized plain body =>
    cases body with
    | body tunes_eq log_eq sent pending more =>
      rw [head_eq] at log_eq
      exact ⟨_, _, log_eq, sent, fun _ => by simp [more]⟩
    | done => exact absurd rfl hmore
  | chunked content_eq body => simp [content_eq, Content.isChunked] at hplain

theorem start_fresh {start : Start} {info : Info} (hfresh : tunes.Fresh) :
    ((start.tunes tunes).setInfo (rnsHttpInfoInit info)).Fresh := by
  obtain ⟨readType, request, response⟩ := tunes
  cases start with
  | request post path query version => exact ⟨rfl, hfresh.2⟩
  | response version code reason => exact ⟨hfresh.1, rfl⟩

/-- The parser starts over behind a body in chunks. -/
theorem awaits_over {coding last : List UInt8} {chunks : List Chunk} (hfresh : tunes.Fresh)
    (hc : msg.content = .chunked coding chunks last) (h : Awaits msg tunes log hconn []) :
    hconn.tunes.Fresh ∧ hconn.pending = [] ∧ hconn.log = log ++
      (works (msg.head tunes) (chunks.map Chunk.data) ++ [.done (msg.head tunes)]) := by
  generalize hrest : ([] : List UInt8) = rest at h
  cases h with
  | line _ _ _ more => exact absurd hrest.symm more
  | header _ _ _ _ more => exact absurd hrest.symm more
  | sized plain => simp [hc, Content.isChunked] at plain
  | chunked content_eq body =>
    obtain ⟨rfl, rfl, rfl⟩ := Content.chunked.inj (hc.symm.trans content_eq)
    cases body with
    | size _ _ _ _ _ _ more => exact absurd hrest.symm more
    | data _ _ _ _ _ more => simp [more, crlf] at hrest
    | tail tunes_eq log_eq sent =>
      subst hrest
      refine ⟨by rw [tunes_eq]; exact start_fresh hfresh, ?_, log_eq⟩
      simpa using sent

end

/-- A request with a length is handed out whole, its end is seen once all of it is there, and the
connection stays: where no read ends at the blank line, the header fits the buffer and the
message does not end with it. -/
theorem length_delivered {msg : Message} {hconn : Hconn} {reads : List Recv} {spaces : Nat}
    {digits data rest : List UInt8} (hm : msg.Counted) (hrequest : msg.start.isResponse = false)
    (hc : msg.content = .length spaces digits data) (hready : hconn.Ready) (hfits : msg.Fits hconn.writePos)
    (hend : (hconn.writePos + msg.bytes.length) % rnsHttpBufSize ≠ 0)
    (hbytes : received reads ++ rest = msg.bytes) (hlegal : Legal hconn reads)
    (hclean : msg.Clean reads rest) :
    ∃ hconn' pieces more, run hconn reads = some hconn' ∧ hconn'.closed = false ∧
      hconn'.log = hconn.log ++ (works (msg.head hconn.tunes) pieces ++
        if rest = [] then [.done (msg.head hconn.tunes)] else []) ∧
      pieces.flatten ++ more = data ∧ (rest = [] → more = []) ∧
      (data ≠ [] → more = [] → rest = []) := by
  have hplain : msg.content.isChunked = false := by rw [hc]; rfl
  have hdata : msg.content.body = data := by rw [hc]; rfl
  obtain ⟨hconn', hrun, hat, -⟩ := reads_run rest hm hready.fresh hfits (hbytes ▸ hready.awaits msg)
    (hbytes ▸ hready.pos msg) hready.alive hlegal hclean (fun _ => hend)
  have halive := hat.alive (.inr (.inr hrequest))
  by_cases hmore : rest = []
  · obtain ⟨calls, hlog, pieces, hsent, rfl⟩ := hat.done hmore
    refine ⟨hconn', pieces, [], hrun, halive, by rw [hlog, if_pos hmore], ?_, fun _ => rfl, fun _ _ => hmore⟩
    rw [List.append_nil, hsent, hdata]
  · obtain ⟨pieces, more, hlog, hsent, hne⟩ := awaits_part hplain (hat.awaits (.inl hmore)) hmore
    refine ⟨hconn', pieces, more, hrun, halive, by rw [hlog, if_neg hmore, List.append_nil], ?_,
      fun h => absurd h hmore, fun h hnil => absurd hnil (hne (hdata ▸ h))⟩
    rw [hsent, hdata]

/-- The sample request in two reads, and then nothing more. -/
theorem length_delivered_sample : ∃ hconn' pieces more,
    run .accepted [.bytes (sample.bytes.take 40), .bytes (sample.bytes.drop 40), .again] = some hconn' ∧
      hconn'.closed = false ∧
      hconn'.log = Hconn.accepted.log ++ (works (sample.head Hconn.accepted.tunes) pieces ++
        if ([] : List UInt8) = [] then [.done (sample.head Hconn.accepted.tunes)] else []) ∧
      pieces.flatten ++ more = ascii "hi" ∧ (([] : List UInt8) = [] → more = []) ∧
      (ascii "hi" ≠ [] → more = [] → ([] : List UInt8) = []) :=
  length_delivered sample_counted rfl rfl accepted_ready (by decide +kernel) (by decide +kernel)
    (by decide +kernel) (by decide +kernel) (by decide +kernel)

/-- A read ends in front of the blank line: nothing of the request is handed out. -/
theorem length_lost : sample.Counted ∧ Hconn.accepted.Ready ∧
    ∃ front back, received [front, back] = sample.bytes ∧ Legal .accepted [front, back] ∧
      ((run .accepted [front, back]).map fun hconn => outcome hconn.log) = some ⟨[], [], 0⟩ :=
  ⟨sample_counted, accepted_ready, .bytes (sample.bytes.take 37), .bytes (sample.bytes.drop 37),
    by decide +kernel, by decide +kernel, by decide +kernel⟩

/-- The chunks of a body are handed out one by one, its end once, and the connection is ready for
the next message: where no read ends at the blank line or right behind the last chunk, and the
message fits the buffer. -/
theorem chunks_decoded {msg : Message} {hconn : Hconn} {reads : List Recv} {coding last : List UInt8}
    {chunks : List Chunk} (hm : msg.Counted) (hc : msg.content = .chunked coding chunks last)
    (hready : hconn.Ready) (hfits : msg.Fits hconn.writePos) (hbytes : received reads = msg.bytes)
    (hlegal : Legal hconn reads) (hclean : msg.Clean reads []) :
    ∃ hconn', run hconn reads = some hconn' ∧ hconn'.Ready ∧
      hconn'.log = hconn.log ++ (works (msg.head hconn.tunes) (chunks.map Chunk.data) ++
        [.done (msg.head hconn.tunes)]) := by
  have hchunked : msg.content.isChunked = true := by rw [hc]; rfl
  have hbytes' : received reads ++ [] = msg.bytes := by rw [List.append_nil, hbytes]
  have hlt := hfits.2 hchunked
  have hpos : 0 < msg.bytes.length := by simp [Message.bytes, crlf]
  have hend : (hconn.writePos + msg.bytes.length) % rnsHttpBufSize ≠ 0 := by
    rw [Nat.mod_eq_of_lt hlt]
    omega
  obtain ⟨hconn', hrun, hat, hpos'⟩ := reads_run [] hm hready.fresh hfits
    (hbytes' ▸ hready.awaits msg) (hbytes' ▸ hready.pos msg) hready.alive hlegal hclean (fun _ => hend)
  obtain ⟨hfresh, hpending, hlog⟩ := awaits_over hready.fresh hc (hat.awaits (.inr hchunked))
  exact ⟨hconn', hrun, ⟨hfresh, hpending, (hpos' (.inr hchunked)).room (.inr hchunked),
    hat.alive (.inr (.inl hchunked))⟩, hlog⟩

/-- A request with one chunk. -/
def chunkedSample : Message where
  start := .request true (ascii "/a") none .http11
  front := []
  content := .chunked (ascii "chunked") [⟨ascii "2", ascii "hi"⟩] (ascii "0")
  back := []

theorem chunked_counted : chunkedSample.Counted where
  wellFormed :=
    { start := ⟨by decide, ⟨by simp [Text, ascii], by decide, by decide +kernel⟩, by decide,
        fun _ h => absurd h (by simp)⟩
      content := ⟨by simp [Text, ascii],
        List.forall_mem_singleton.mpr ⟨⟨by decide, by decide +kernel, by decide +kernel⟩, by decide⟩,
        by decide, by decide +kernel, by decide +kernel⟩
      other := fun _ h => absurd h (by simp [chunkedSample])
      headers := by decide }
  length := fun h => absurd h (by decide)
  chunks := by
    intro coding chunks last h
    obtain ⟨rfl, rfl, rfl⟩ := Content.chunked.inj h
    exact ⟨⟨by decide, List.forall_mem_singleton.mpr (by decide)⟩, by decide +kernel⟩

/-- Cut inside its chunk. -/
theorem chunks_decoded_sample : ∃ hconn',
    run .accepted [.bytes (chunkedSample.bytes.take 49), .bytes (chunkedSample.bytes.drop 49)] = some hconn' ∧
      hconn'.Ready ∧ hconn'.log = Hconn.accepted.log ++
        (works (chunkedSample.head Hconn.accepted.tunes) (([⟨ascii "2", ascii "hi"⟩] : List Chunk).map Chunk.data) ++
          [.done (chunkedSample.head Hconn.accepted.tunes)]) :=
  chunks_decoded chunked_counted rfl accepted_ready (by decide +kernel) (by decide +kernel)
    (by decide +kernel) (by decide +kernel)

/-- A read ends right behind the last chunk: its end is seen twice. -/
theorem last_chunk_twice : chunkedSample.Counted ∧ Hconn.accepted.Ready ∧
    ∃ front back, received [front, back] = chunkedSample.bytes ∧ Legal .accepted [front, back] ∧
      ((run .accepted [front, back]).map fun hconn => (outcome hconn.log).completions) = some 2 :=
  ⟨chunked_counted, accepted_ready, .bytes (chunkedSample.bytes.dropLast.dropLast), .bytes crlf,
    by decide +kernel, by decide +kernel, by decide +kernel⟩

end Yclib.Http.Reading
