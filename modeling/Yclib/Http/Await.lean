import Yclib.Http.Chunks

namespace Yclib.Http.Reading

/-! A connection in the middle of a message: where it stands is told by the bytes that are still
to come. -/

@[simp] theorem Tunes.set_self (tunes : Tunes) : tunes.setInfo tunes.info = tunes := by
  obtain ⟨readType, request, response⟩ := tunes
  cases readType <;> rfl

/-- A message whose sizes the parser can count with. -/
structure Message.Counted (msg : Message) : Prop where
  wellFormed : msg.WellFormed
  length : msg.content.isChunked = false → msg.content.body.length < 2 ^ 31
  chunks : ∀ coding chunks last, msg.content = .chunked coding chunks last →
    Short last chunks ∧ msg.content.bytes.length < 2 ^ 32

section
variable {msg : Message} {tunes : Tunes}

theorem body_bytes (h : msg.content.isChunked = false) : msg.content.bytes = msg.content.body := by
  cases hc : msg.content with
  | none => rfl
  | length spaces digits data => rfl
  | chunked coding chunks last => simp [hc, Content.isChunked] at h

theorem headers_line (h : msg.WellFormed) : ∀ line ∈ msg.headers, Line line := by
  intro line hline
  simp only [Message.headers, List.append_assoc, List.mem_append] at hline
  rcases hline with hline | hline | hline
  · have ho := h.other line (by simp [hline])
    exact ⟨ho.1, ho.2.1⟩
  · have hcontent := h.content
    cases hc : msg.content with
    | none => simp [hc, Content.header] at hline
    | length spaces digits data =>
      rw [hc] at hcontent
      obtain rfl : line = _ := by simpa [hc, Content.header] using hline
      refine ⟨text_append.mpr ⟨by simp [Text, ascii], text_cons.mpr ⟨by decide, ?_⟩⟩,
        67, by simp [ascii], by decide⟩
      refine text_append.mpr ⟨?_, digits_text hcontent.2.1⟩
      intro b hb
      obtain rfl := List.eq_of_mem_replicate hb
      decide
    | chunked coding chunks last =>
      rw [hc] at hcontent
      obtain rfl : line = _ := by simpa [hc, Content.header] using hline
      exact ⟨text_append.mpr ⟨by simp [Text, ascii], text_cons.mpr ⟨by decide, hcontent.1⟩⟩,
        84, by simp [ascii], by decide⟩
  · have ho := h.other line (by simp [hline])
    exact ⟨ho.1, ho.2.1⟩

/-- The header says how the end of the message is told. -/
theorem header_says (h : msg.Counted) (info : Info) (htotal : info.totalSize = 0)
    (hchunk : info.chunk = false) :
    (msg.headers.foldl Info.readHeader info).chunk = msg.content.isChunked ∧
      (msg.headers.foldl Info.readHeader info).totalSize =
        if msg.content.isChunked then 0 else msg.content.body.length := by
  have hothers : ∀ l ∈ msg.front, Other l := fun l hl => h.wellFormed.other l (by simp [hl])
  have hothers' : ∀ l ∈ msg.back, Other l := fun l hl => h.wellFormed.other l (by simp [hl])
  have hfront := read_others hothers info
  have hback := read_others hothers'
    (msg.content.header.foldl Info.readHeader (msg.front.foldl Info.readHeader info))
  have hcontent := h.wellFormed.content
  have hlength := h.length
  rw [Message.headers, List.foldl_append, List.foldl_append, hback.1, hback.2]
  cases hc : msg.content with
  | none => simp [Content.header, Content.isChunked, Content.body, hfront, htotal, hchunk]
  | length spaces digits data =>
    rw [hc] at hcontent hlength
    obtain ⟨hne, hdigits, hvalue⟩ := hcontent
    have hread := read_length spaces hne hdigits (hvalue ▸ hlength rfl)
      (msg.front.foldl Info.readHeader info)
    simp [Content.header, Content.isChunked, Content.body, hread, hfront, hchunk, hvalue]
  | chunked coding chunks last =>
    have hread := read_coding coding (msg.front.foldl Info.readHeader info)
    simp [Content.header, Content.isChunked, hread, hfront, htotal]

theorem start_info (start : Start) (tunes : Tunes) :
    (start.tunes tunes).info.totalSize = 0 ∧ (start.tunes tunes).info.chunk = false ∧
      (start.tunes tunes).info.currSize = 0 ∧ (start.tunes tunes).info.body = [] ∧
      (start.tunes tunes).info.state = .header ∧ (start.tunes tunes).readType = start.isResponse := by
  cases start <;> simp [Start.tunes, Start.info, rnsHttpInfoInit]

/-- The record with which the body of the message begins. -/
theorem info_begins (tunes : Tunes) (h : msg.Counted) :
    (msg.info tunes).chunk = msg.content.isChunked ∧
      (msg.info tunes).totalSize = (if msg.content.isChunked then 0 else msg.content.body.length) ∧
      (msg.info tunes).currSize = 0 ∧ (msg.info tunes).body = [] ∧
      (msg.info tunes).state = if msg.content.isChunked then .chunk else .body := by
  obtain ⟨htotal, hchunk, hcurr, hbody, -, -⟩ := start_info msg.start tunes
  obtain ⟨hchunk', htotal'⟩ := header_says h _ htotal hchunk
  have hread := read_headers msg.headers (msg.start.tunes tunes).info
  refine ⟨hchunk', htotal', ?_, ?_, ?_⟩
  · exact (congrArg Info.currSize hread).trans hcurr
  · exact (congrArg Info.body hread).trans hbody
  · simp only [Message.info, hchunk']

theorem head_type : (msg.head tunes).readType = (msg.start.tunes tunes).readType := by
  simp [Message.head, Info.head]

theorem head_eq : (msg.info tunes).head (msg.start.tunes tunes).readType = msg.head tunes := by
  simp [Message.head]

end

/-- The connection waits for the rest of a message; `tunes` and `log` are from before it. -/
inductive Awaits (msg : Message) (tunes : Tunes) (log : List Call) : Hconn → List UInt8 → Prop
  | line {hconn : Hconn} {rest : List UInt8} (tunes_eq : hconn.tunes = tunes) (log_eq : hconn.log = log)
      (sent : hconn.pending ++ rest = msg.bytes) (more : rest ≠ []) : Awaits msg tunes log hconn rest
  | header {hconn : Hconn} {rest next : List UInt8} {front back : List (List UInt8)}
      (headers : msg.headers = front ++ next :: back)
      (tunes_eq : hconn.tunes = (msg.start.tunes tunes).setInfo
        (front.foldl Info.readHeader (msg.start.tunes tunes).info))
      (log_eq : hconn.log = log)
      (sent : hconn.pending ++ rest = lines (next :: back) ++ crlf ++ msg.content.bytes)
      (more : rest ≠ []) : Awaits msg tunes log hconn rest
  | sized {hconn : Hconn} {rest : List UInt8} (plain : msg.content.isChunked = false)
      (body : Sized (msg.start.tunes tunes) (msg.info tunes) log msg.content.body hconn rest) :
      Awaits msg tunes log hconn rest
  | chunked {hconn : Hconn} {rest coding last : List UInt8} {chunks : List Chunk}
      (content_eq : msg.content = .chunked coding chunks last)
      (body : Decodes (msg.start.tunes tunes) (msg.head tunes) log last chunks hconn rest) :
      Awaits msg tunes log hconn rest

/-- The end of a read goes well: it is neither in front of the blank line nor inside it, nor right
behind the last chunk, and the buffer is full only inside a body whose length is given. -/
structure Message.Goes (msg : Message) (writePos : Nat) (rest : List UInt8) : Prop where
  cut : rest.length ≠ msg.content.bytes.length + 2 ∧ rest.length ≠ msg.content.bytes.length + 1
  full : writePos = rnsHttpBufSize →
    msg.content.isChunked = false ∧ rest.length ≤ msg.content.bytes.length
  last : msg.content.isChunked = true → rest.length ≠ 2

/-- The rounds leave the connection waiting for the rest. -/
def Settles (msg : Message) (tunes : Tunes) (log : List Call) (fuel : Nat) (hconn : Hconn)
    (rest : List UInt8) : Prop :=
  ∃ hconn', serve fuel hconn = some hconn' ∧ Awaits msg tunes log hconn' rest ∧
    hconn'.writePos = (if hconn.writePos = rnsHttpBufSize ∧ rest ≠ [] then 0 else hconn.writePos) ∧
    hconn.Same hconn'

section
variable {msg : Message} {tunes : Tunes} {log : List Call} {fuel : Nat} {hconn : Hconn}
  {walker rest : List UInt8}

theorem content_serve (h : msg.Counted) (hgoes : msg.Goes hconn.writePos rest)
    (hread : hconn.read = rnsHttpInfoRead (hconn.writePos = rnsHttpBufSize)
      ((msg.start.tunes tunes).setInfo (msg.info tunes)) walker)
    (hl : hconn.log = log) (hsent : walker ++ rest = msg.content.bytes) (hfuel : walker.length ≤ fuel) :
    Settles msg tunes log (fuel + 1) hconn rest := by
  obtain ⟨hchunk, htotal, hcurr, hbody, hstate⟩ := info_begins tunes h
  have hcongr := serve_congr fuel ((msg.start.tunes tunes).setInfo (msg.info tunes)) walker hread
  cases hplain : msg.content.isChunked with
  | false =>
    have hlt := h.length hplain
    rw [body_bytes hplain] at hsent
    rw [hplain] at hchunk htotal hstate
    have ht : ({ hconn with
        tunes := (msg.start.tunes tunes).setInfo (msg.info tunes), pending := walker } : Hconn).tunes =
        (msg.start.tunes tunes).setInfo { msg.info tunes with
          body := [], currSize := msg.content.body.length - (walker ++ rest).length } := by
      rw [hsent, Nat.sub_self, ← hbody, ← hcurr]
    have hnone : hconn.log = log ++ works ((msg.info tunes).head (msg.start.tunes tunes).readType) [] := by
      simp [hl, works]
    have hwhole : ([] : List (List UInt8)).flatten ++ ([] ++ (walker ++ rest)) = msg.content.body := hsent
    obtain ⟨hconn', hserve, hsized, hpos, hsame⟩ := sized_serve fuel hstate hchunk htotal (by omega) ht
      hnone hwhole rfl (fun _ => ⟨rfl, rfl⟩)
    exact ⟨hconn', hcongr.trans hserve, .sized hplain hsized, hpos, hsame⟩
  | true =>
    obtain ⟨coding, chunks, last, hc⟩ : ∃ coding chunks last, msg.content = .chunked coding chunks last := by
      cases hc : msg.content with
      | none => simp [hc, Content.isChunked] at hplain
      | length spaces digits data => simp [hc, Content.isChunked] at hplain
      | chunked coding chunks last => exact ⟨coding, chunks, last, rfl⟩
    have hbytes : msg.content.bytes = chunkBytes last chunks := by rw [hc]; rfl
    have hcontent := h.wellFormed.content
    rw [hc] at hcontent
    obtain ⟨-, hsizes, hlast⟩ := hcontent
    obtain ⟨hshort, hlt⟩ := h.chunks coding chunks last hc
    rw [hplain] at hchunk htotal hstate
    have hfull : hconn.writePos ≠ rnsHttpBufSize := by
      intro hf
      rw [(hgoes.full hf).1] at hplain
      cases hplain
    have hsize : AtSize (msg.head tunes) last chunks (msg.info tunes) :=
      ⟨by rw [head_type, head_eq], hstate, hchunk, by rw [hcurr, htotal]; rfl, hbody,
        by rw [htotal, ← hbytes]; simpa using hlt⟩
    have hnone : hconn.log = log ++ works (msg.head tunes) (([] : List Chunk).map Chunk.data) := by
      simp [hl, works]
    have hwhole : walker ++ rest = [] ++ chunkBytes last chunks := hsent.trans hbytes
    have hserved : Serves (msg.start.tunes tunes) (msg.head tunes) log last chunks (fuel + 1) { hconn with
        tunes := (msg.start.tunes tunes).setInfo (msg.info tunes), pending := walker } rest :=
      size_serve head_type hlast hsizes hshort (fuel + 1) _ rfl (.inl rfl) rfl hsize hnone hwhole
        (Nat.lt_succ_of_le hfuel) hfull (hgoes.last hplain)
    obtain ⟨hconn', hserve, hdecodes, hpos, hsame⟩ := hserved
    refine ⟨hconn', hcongr.trans hserve, .chunked hc hdecodes, ?_, hsame⟩
    rw [if_neg (fun hf => hfull hf.1)]
    exact hpos

theorem not_full (hgoes : msg.Goes hconn.writePos rest) (hlt : msg.content.bytes.length < rest.length) :
    hconn.writePos ≠ rnsHttpBufSize := by
  intro hf
  have := (hgoes.full hf).2
  omega

theorem header_serve {front back : List (List UInt8)} {next : List UInt8} (h : msg.Counted)
    (hgoes : msg.Goes hconn.writePos rest) (hheaders : msg.headers = front ++ next :: back)
    (hread : hconn.read = rnsHttpInfoRead (hconn.writePos = rnsHttpBufSize)
      ((msg.start.tunes tunes).setInfo (front.foldl Info.readHeader (msg.start.tunes tunes).info)) walker)
    (hl : hconn.log = log) (hsent : walker ++ rest = lines (next :: back) ++ crlf ++ msg.content.bytes)
    (hfuel : walker.length ≤ fuel) : Settles msg tunes log (fuel + 1) hconn rest := by
  have hstate : (front.foldl Info.readHeader (msg.start.tunes tunes).info).state = .header :=
    (congrArg Info.state (read_headers front _)).trans (start_info msg.start tunes).2.2.2.2.1
  have hlines : ∀ line ∈ next :: back, Line line :=
    fun line hl => headers_line h.wellFormed line (by rw [hheaders]; exact List.mem_append_right _ hl)
  rcases read_lines (decide (hconn.writePos = rnsHttpBufSize)) (msg.start.tunes tunes)
      hstate (by simp) hlines hsent hgoes.cut (fun hf => (hgoes.full (of_decide_eq_true hf)).2) with
    ⟨hlt, tunes', walker', front', next', back', hread', hwait⟩ | ⟨walker', hsent', hread'⟩
  · have hfull := not_full hgoes (by omega)
    have hstate' : tunes'.info.state = .header := by
      rw [hwait.tunes, Tunes.info_set]
      exact (congrArg Info.state (read_headers front' _)).trans hstate
    refine ⟨_, serve_wait fuel (hread.trans hread') (by simp [hstate']) (by simp [hstate']) (by simp [hstate']), ?_,
      by rw [if_neg (fun hf => hfull hf.1)], rfl, rfl, rfl, rfl⟩
    have hheaders' : msg.headers = (front ++ front') ++ next' :: back' := by
      rw [hheaders, hwait.headers, List.append_assoc]
    refine .header hheaders' ?_ hl ?_ ?_
    · rw [hwait.tunes, List.foldl_append]
    · simpa [lines, crlf] using hwait.sent
    · rintro rfl
      simp at hlt
  · have hlen : walker'.length ≤ fuel := by
      have h1 := congrArg List.length hsent
      have h2 := congrArg List.length hsent'
      simp only [List.length_append] at h1 h2
      omega
    have hfold : (next :: back).foldl Info.readHeader
        (front.foldl Info.readHeader (msg.start.tunes tunes).info) =
        msg.headers.foldl Info.readHeader (msg.start.tunes tunes).info := by
      rw [hheaders, List.foldl_append]
    rw [hfold] at hread'
    exact content_serve h hgoes (hread.trans hread') hl hsent' hlen

theorem line_serve (h : msg.Counted) (hfresh : tunes.Fresh) (hgoes : msg.Goes hconn.writePos rest)
    (ht : hconn.tunes = tunes) (hl : hconn.log = log) (hsent : hconn.pending ++ rest = msg.bytes)
    (hfuel : hconn.pending.length ≤ fuel) : Settles msg tunes log (fuel + 1) hconn rest := by
  have hlen := congrArg List.length hsent
  simp only [Message.bytes, List.length_append, crlf, List.length_cons, List.length_nil] at hlen
  by_cases hshort : hconn.pending.length < msg.start.line.length + 2
  · have hfull := not_full hgoes (by omega)
    have hread : hconn.read = some (tunes, hconn.pending) := by
      rw [Hconn.read, ht, decide_eq_false hfull, start_wait hfresh h.wellFormed.start hsent hshort rfl]
    have hinit := hfresh.init
    refine ⟨_, serve_wait fuel hread (by simp [hinit]) (by simp [hinit]) (by simp [hinit]), ?_,
      by rw [if_neg (fun hf => hfull hf.1)], rfl, rfl, rfl, rfl⟩
    refine .line rfl hl hsent ?_
    rintro rfl
    simp only [List.length_nil] at hlen
    omega
  · have hbytes : hconn.pending ++ rest =
        (msg.start.line ++ [13, 10]) ++ (lines msg.headers ++ crlf ++ msg.content.bytes) := hsent
    obtain ⟨walker', hp, hsent'⟩ := split_behind hbytes (by simp; omega)
    obtain ⟨next, back, hheaders⟩ := List.exists_cons_of_ne_nil h.wellFormed.headers
    have hread : hconn.read = rnsHttpInfoRead (hconn.writePos = rnsHttpBufSize)
        ((msg.start.tunes tunes).setInfo (msg.start.tunes tunes).info) walker' := by
      rw [Hconn.read, ht, hp, List.append_assoc, Tunes.set_self]
      exact start_read hfresh h.wellFormed.start
    have hlen' : walker'.length ≤ fuel := by
      rw [hp, List.length_append] at hfuel
      omega
    have hheaders' : msg.headers = [] ++ next :: back := hheaders
    exact header_serve h hgoes hheaders' hread hl (by rw [hsent', hheaders]) hlen'

theorem sized_read {piece : List UInt8} (h : msg.Counted) (hplain : msg.content.isChunked = false)
    (hbody : Sized (msg.start.tunes tunes) (msg.info tunes) log msg.content.body hconn (piece ++ rest))
    (hne : piece ≠ []) {hconn' : Hconn} (ht : hconn'.tunes = hconn.tunes) (hl : hconn'.log = hconn.log)
    (hp : hconn'.pending = hconn.pending ++ piece) : Settles msg tunes log (fuel + 1) hconn' rest := by
  obtain ⟨hchunk, htotal, -, -, hstate⟩ := info_begins tunes h
  rw [hplain] at hchunk htotal hstate
  have hlt := h.length hplain
  generalize hmore : piece ++ rest = more at hbody
  cases hbody with
  | body tunes_eq log_eq sent pending more_ne =>
    subst hmore
    obtain ⟨hconn'', hserve, hsized, hpos, hsame⟩ := sized_serve fuel hstate hchunk htotal
      (by omega) (ht.trans tunes_eq) (hl.trans log_eq) sent (by rw [hp, pending]; rfl)
      (fun hnil => absurd hnil hne)
    exact ⟨hconn'', hserve, .sized hplain hsized, hpos, hsame⟩
  | done => exact absurd (List.append_eq_nil_iff.mp hmore).1 hne

theorem decodes_read {piece coding last : List UInt8} {chunks : List Chunk} (h : msg.Counted)
    (hc : msg.content = .chunked coding chunks last)
    (hbody : Decodes (msg.start.tunes tunes) (msg.head tunes) log last chunks hconn (piece ++ rest))
    (hne : piece ≠ []) {hconn' : Hconn} (hgoes : msg.Goes hconn'.writePos rest)
    (ht : hconn'.tunes = hconn.tunes) (hl : hconn'.log = hconn.log)
    (hp : hconn'.pending = hconn.pending ++ piece) (hfuel : hconn'.pending.length ≤ fuel) :
    Settles msg tunes log (fuel + 1) hconn' rest := by
  have hcontent := h.wellFormed.content
  rw [hc] at hcontent
  obtain ⟨-, hsizes, hlast⟩ := hcontent
  obtain ⟨hshort, -⟩ := h.chunks coding chunks last hc
  have hchunked : msg.content.isChunked = true := by rw [hc]; rfl
  have hrest := hgoes.last hchunked
  have hfull : hconn'.writePos ≠ rnsHttpBufSize := by
    intro hf
    rw [(hgoes.full hf).1] at hchunked
    cases hchunked
  have hserves : Serves (msg.start.tunes tunes) (msg.head tunes) log last chunks (fuel + 1) hconn' rest := by
    generalize hmore : piece ++ rest = more at hbody
    cases hbody with
    | size split lead_eq tunes_eq at_size log_eq sent more_ne =>
      subst hmore
      exact size_serve head_type hlast hsizes hshort (fuel + 1) _ split lead_eq (ht.trans tunes_eq) at_size
        (hl.trans log_eq) (by rw [hp, List.append_assoc, sent]) (Nat.lt_succ_of_le hfuel) hfull hrest
    | data split tunes_eq in_data log_eq whole more_ne pending =>
      exact data_serve (size_serve head_type hlast hsizes hshort fuel) head_type split
        (ht.trans tunes_eq) in_data (hl.trans log_eq) whole more_ne (by rw [hp, pending]; exact hmore) hfuel
        hfull hrest
    | tail tunes_eq log_eq sent =>
      subst hmore
      rcases sent with ⟨hpending, hten⟩ | ⟨-, hnil⟩
      · obtain ⟨rfl, rfl⟩ : piece = [10] ∧ rest = [] := by
          rcases List.append_eq_singleton_iff.mp hten with ⟨rfl, -⟩ | h
          · exact absurd rfl hne
          · exact h
        exact tail_serve (ht.trans tunes_eq) (hl.trans log_eq) (.inr ⟨by rw [hp, hpending]; rfl, rfl⟩) hfull
      · exact absurd (List.append_eq_nil_iff.mp hnil).1 hne
  obtain ⟨hconn'', hserve, hdecodes, hpos, hsame⟩ := hserves
  refine ⟨hconn'', hserve, .chunked hc hdecodes, ?_, hsame⟩
  rw [if_neg (fun hf => hfull hf.1)]
  exact hpos

/-- A read whose end goes well leaves the connection waiting for the bytes behind it. -/
theorem awaits_read {piece : List UInt8} (h : msg.Counted) (hfresh : tunes.Fresh)
    (hawaits : Awaits msg tunes log hconn (piece ++ rest)) (hne : piece ≠ [])
    (hgoes : msg.Goes (hconn.writePos + piece.length) rest) :
    ∃ hconn', recv hconn (.bytes piece) = some hconn' ∧ Awaits msg tunes log hconn' rest ∧
      hconn'.writePos = (if hconn.writePos + piece.length = rnsHttpBufSize ∧ rest ≠ [] then 0
        else hconn.writePos + piece.length) ∧
      { hconn with reading := true }.Same hconn' := by
  have hsettles : Settles msg tunes log (2 * (hconn.pending ++ piece).length + 1 + 1) { hconn with
      pending := hconn.pending ++ piece, writePos := hconn.writePos + piece.length, reading := true } rest := by
    have hfuel : (hconn.pending ++ piece).length ≤ 2 * (hconn.pending ++ piece).length + 1 := by omega
    cases hawaits with
    | line tunes_eq log_eq sent more =>
      exact line_serve h hfresh hgoes tunes_eq log_eq (by rw [← sent, List.append_assoc]) hfuel
    | header headers tunes_eq log_eq sent more =>
      refine header_serve h hgoes headers ?_ log_eq ?_ hfuel
      · simp only [Hconn.read, tunes_eq]
      · rw [List.append_assoc, sent]
    | sized plain body => exact sized_read h plain body hne rfl rfl rfl
    | chunked content_eq body => exact decodes_read h content_eq body hne hgoes rfl rfl rfl hfuel
  exact hsettles

end

end Yclib.Http.Reading
