import Yclib.Http.Await

namespace Yclib.Http.Reading

/-! Whole messages in any number of reads. -/

/-- The bytes that come in. -/
def received : List Recv → List UInt8
  | [] => []
  | .bytes piece :: reads => piece ++ received reads
  | _ :: reads => received reads

/-- The calls of `recv` one after the other, over any number of events. -/
def run (hconn : Hconn) (reads : List Recv) : Option Hconn := reads.foldlM recv hconn

/-- Each of them can be, on a connection that is there. -/
def Legal : Hconn → List Recv → Prop
  | _, [] => True
  | hconn, read :: reads =>
    hconn.closed = false ∧ read.Can hconn ∧ ∀ hconn', recv hconn read = some hconn' → Legal hconn' reads

instance Legal.decide : (hconn : Hconn) → (reads : List Recv) → Decidable (Legal hconn reads)
  | _, [] => isTrue trivial
  | hconn, read :: reads =>
    have : Decidable (∀ hconn', recv hconn read = some hconn' → Legal hconn' reads) :=
      match h : recv hconn read with
      | none => isTrue fun _ h' => absurd h' (by simp)
      | some hconn' =>
        have := Legal.decide hconn' reads
        decidable_of_iff (Legal hconn' reads) (by simp)
    inferInstanceAs (Decidable (_ ∧ _ ∧ _))

/-- No read ends in front of the blank line of the message or inside it, nor right behind its last
chunk. `rest` is what is sent of the message behind the reads. -/
def Message.Clean (msg : Message) : List Recv → List UInt8 → Prop
  | [], _ => True
  | _ :: reads, rest =>
    let left := (received reads ++ rest).length
    (left ≠ msg.content.bytes.length + 2 ∧ left ≠ msg.content.bytes.length + 1) ∧
      (msg.content.isChunked = true → left ≠ 2) ∧ msg.Clean reads rest

instance Message.Clean.decide (msg : Message) : (reads : List Recv) → (rest : List UInt8) →
    Decidable (msg.Clean reads rest)
  | [], _ => isTrue trivial
  | _ :: reads, rest =>
    have := Message.Clean.decide msg reads rest
    inferInstanceAs (Decidable (_ ∧ _ ∧ _))

/-- From this position on, the header of the message fits the buffer, and all of it if its body
is in chunks. -/
def Message.Fits (msg : Message) (writePos : Nat) : Prop :=
  writePos + msg.bytes.length ≤ rnsHttpBufSize + msg.content.bytes.length ∧
    (msg.content.isChunked = true → writePos + msg.bytes.length < rnsHttpBufSize)

instance (msg : Message) (writePos : Nat) : Decidable (msg.Fits writePos) := by
  unfold Message.Fits
  infer_instance

/-- The connection reads the next message from its first byte on, as one that is just made. -/
structure Hconn.Ready (hconn : Hconn) : Prop where
  fresh : hconn.tunes.Fresh
  pending : hconn.pending = []
  room : hconn.writePos < rnsHttpBufSize
  alive : hconn.closed = false

/-- The calls for a message: parts of its body, and its end. -/
def Handed (msg : Message) (tunes : Tunes) (calls : List Call) : Prop :=
  ∃ pieces, pieces.flatten = msg.content.body ∧
    calls = works (msg.head tunes) pieces ++ [.done (msg.head tunes)]

section
variable {msg : Message} {tunes : Tunes} {log : List Call} {hconn : Hconn} {rest : List UInt8}

theorem Hconn.Ready.awaits (h : hconn.Ready) (msg : Message) :
    Awaits msg hconn.tunes hconn.log hconn msg.bytes := by
  refine .line rfl rfl (by rw [h.pending]; rfl) ?_
  simp [Message.bytes, crlf]

theorem awaits_done (h : Awaits msg tunes log hconn []) :
    ∃ calls, hconn.log = log ++ calls ∧ Handed msg tunes calls := by
  cases h with
  | line _ _ _ more => exact absurd rfl more
  | header _ _ _ _ more => exact absurd rfl more
  | sized plain body =>
    cases body with
    | body _ _ _ _ more => exact absurd rfl more
    | done tunes_eq log_eq sent pieces_ne pending =>
      rw [head_eq] at log_eq
      exact ⟨_, log_eq, _, sent, rfl⟩
  | chunked content_eq body =>
    have hbody : msg.content.body = _ := congrArg Content.body content_eq
    generalize hrest : ([] : List UInt8) = rest at body
    cases body with
    | size _ _ _ _ _ _ more => exact absurd hrest.symm more
    | data _ _ _ _ _ more => simp [more, crlf] at hrest
    | tail tunes_eq log_eq sent => exact ⟨_, log_eq, _, hbody.symm, rfl⟩

/-- The state is DONE only where a message with a length is complete. -/
theorem awaits_state (hm : msg.Counted) (hfresh : tunes.Fresh) (h : Awaits msg tunes log hconn rest)
    (hmore : rest ≠ [] ∨ msg.content.isChunked = true) : hconn.tunes.info.state ≠ .done := by
  cases h with
  | line tunes_eq => simp [tunes_eq, hfresh.init]
  | header headers tunes_eq =>
    rw [tunes_eq, Tunes.info_set, congrArg Info.state (read_headers _ _)]
    simp [(start_info msg.start tunes).2.2.2.2.1]
  | sized plain body =>
    cases body with
    | body tunes_eq =>
      obtain ⟨-, -, -, -, hstate⟩ := info_begins tunes hm
      simp [tunes_eq, hstate, plain]
    | done => simp [plain] at hmore
  | chunked content_eq body =>
    cases body with
    | size _ _ tunes_eq at_size => simp [tunes_eq, at_size.state]
    | data _ tunes_eq in_data => simp [tunes_eq, in_data.state]
    | tail tunes_eq => simp [tunes_eq, rnsHttpInfoInit]

theorem awaits_congr {hconn' : Hconn} (h : Awaits msg tunes log hconn rest)
    (ht : hconn'.tunes = hconn.tunes) (hl : hconn'.log = hconn.log) (hp : hconn'.pending = hconn.pending) :
    Awaits msg tunes log hconn' rest := by
  cases h with
  | line tunes_eq log_eq sent more => exact .line (ht.trans tunes_eq) (hl.trans log_eq) (hp ▸ sent) more
  | header headers tunes_eq log_eq sent more =>
    exact .header headers (ht.trans tunes_eq) (hl.trans log_eq) (hp ▸ sent) more
  | sized plain body =>
    refine .sized plain ?_
    cases body with
    | body tunes_eq log_eq sent pending more =>
      exact .body (ht.trans tunes_eq) (hl.trans log_eq) sent (hp.trans pending) more
    | done tunes_eq log_eq sent pieces_ne pending =>
      exact .done (ht.trans tunes_eq) (hl.trans log_eq) sent pieces_ne (hp.trans pending)
  | chunked content_eq body =>
    refine .chunked content_eq ?_
    cases body with
    | size split lead_eq tunes_eq at_size log_eq sent more =>
      exact .size split lead_eq (ht.trans tunes_eq) at_size (hl.trans log_eq) (hp ▸ sent) more
    | data split tunes_eq in_data log_eq whole more pending =>
      exact .data split (ht.trans tunes_eq) in_data (hl.trans log_eq) whole more (hp.trans pending)
    | tail tunes_eq log_eq sent => exact .tail (ht.trans tunes_eq) (hl.trans log_eq) (hp ▸ sent)

theorem again_waits (h : hconn.tunes.info.state ≠ .done) :
    recv hconn .again = some { hconn with reading := false } := by
  simp [recv, h]

theorem again_done (h : hconn.tunes.info.state = .done) :
    recv hconn .again =
      some (if hconn.tunes.readType then
          rnsHconnReqDone { hconn with reading := false, writePos := 0, pending := [] }
        else { hconn with reading := false, writePos := 0, pending := [] }) := by
  simp [recv, h]

theorem req_done_log (hconn : Hconn) :
    (rnsHconnReqDone hconn).log = hconn.log ∧ (rnsHconnReqDone hconn).writePos = hconn.writePos := by
  unfold rnsHconnReqDone
  repeat' split
  all_goals exact ⟨rfl, rfl⟩

/-- Where no more bytes come, nothing more is called. -/
theorem again_idle (hconn : Hconn) : ∃ hconn', recv hconn .again = some hconn' ∧ hconn'.log = hconn.log ∧
    (hconn'.writePos = hconn.writePos ∨ hconn'.writePos = 0) ∧
    (hconn.tunes.readType = false → hconn'.closed = hconn.closed ∧ hconn'.tunes = hconn.tunes) := by
  by_cases hdone : hconn.tunes.info.state = .done
  · refine ⟨_, again_done hdone, ?_⟩
    cases htype : hconn.tunes.readType with
    | false => exact ⟨rfl, .inr rfl, fun _ => ⟨rfl, rfl⟩⟩
    | true => exact ⟨(req_done_log _).1, .inr (req_done_log _).2, fun h => absurd h (by simp)⟩
  · exact ⟨_, again_waits hdone, rfl, .inl rfl, fun _ => ⟨rfl, rfl⟩⟩

theorem idle_run {reads : List Recv} (hreads : received reads = []) (hlegal : Legal hconn reads)
    (hzero : .zero ∈ reads → hconn.writePos ≠ rnsHttpBufSize) :
    ∃ hconn', run hconn reads = some hconn' ∧ hconn'.log = hconn.log ∧
      (hconn.tunes.readType = false → hconn'.closed = hconn.closed) := by
  induction reads generalizing hconn with
  | nil => exact ⟨hconn, rfl, rfl, fun _ => rfl⟩
  | cons read reads ih =>
    obtain ⟨-, hcan, hrest⟩ := hlegal
    cases read with
    | bytes piece => exact absurd (List.append_eq_nil_iff.mp hreads).1 hcan.1
    | zero => exact absurd hcan (hzero (by simp))
    | again =>
      obtain ⟨hconn', hrecv, hlog, hpos, hkeep⟩ := again_idle hconn
      have hzero' : .zero ∈ reads → hconn'.writePos ≠ rnsHttpBufSize := by
        intro hm
        rcases hpos with hpos | hpos
        · rw [hpos]
          exact hzero (by simp [hm])
        · simp [hpos]
      obtain ⟨hconn'', hrun, hlog', hclosed⟩ := ih hreads (hrest _ hrecv) hzero'
      refine ⟨hconn'', by simp [run, hrecv]; exact hrun, hlog'.trans hlog, fun htype => ?_⟩
      obtain ⟨hclosed', htunes⟩ := hkeep htype
      rw [hclosed (by rw [htunes]; exact htype), hclosed']

theorem awaits_type (h : Awaits msg tunes log hconn []) : hconn.tunes.readType = msg.start.isResponse := by
  have htype := (start_info msg.start tunes).2.2.2.2.2
  generalize hrest : ([] : List UInt8) = rest at h
  cases h with
  | line _ _ _ more => exact absurd hrest.symm more
  | header _ _ _ _ more => exact absurd hrest.symm more
  | sized plain body =>
    cases body with
    | body tunes_eq => rw [tunes_eq, Tunes.set_type, htype]
    | done tunes_eq => rw [tunes_eq, Tunes.set_type, htype]
  | chunked content_eq body =>
    cases body with
    | size _ _ tunes_eq => rw [tunes_eq, Tunes.set_type, htype]
    | data _ tunes_eq => rw [tunes_eq, Tunes.set_type, htype]
    | tail tunes_eq => rw [tunes_eq, Tunes.set_type, htype]

/-- What is known of a connection behind some reads of a message. -/
structure Message.At (msg : Message) (tunes : Tunes) (log : List Call) (hconn : Hconn)
    (rest : List UInt8) : Prop where
  awaits : rest ≠ [] ∨ msg.content.isChunked = true → Awaits msg tunes log hconn rest
  done : rest = [] → ∃ calls, hconn.log = log ++ calls ∧ Handed msg tunes calls
  alive : rest ≠ [] ∨ msg.content.isChunked = true ∨ msg.start.isResponse = false → hconn.closed = false

/-- The position in the buffer, where the message began at `start`. -/
structure Message.Pos (msg : Message) (start writePos : Nat) (rest : List UInt8) : Prop where
  mod : writePos % rnsHttpBufSize = (start + msg.bytes.length - rest.length) % rnsHttpBufSize
  room : rest ≠ [] ∨ msg.content.isChunked = true → writePos < rnsHttpBufSize
  part : rest.length ≤ msg.bytes.length

theorem clean_goes {start writePos : Nat} {piece : List UInt8} (reads : List Recv) (hfits : msg.Fits start)
    (hpos : msg.Pos start writePos (piece ++ (received reads ++ rest))) (hne : piece ≠ [])
    (hclean : msg.Clean (.bytes piece :: reads) rest) :
    msg.Goes (writePos + piece.length) (received reads ++ rest) := by
  obtain ⟨hblank, hlast, -⟩ := hclean
  refine ⟨hblank, fun hfull => ?_, hlast⟩
  have hlen := List.length_pos_iff.mpr hne
  have hmod := hpos.mod
  have hpart := hpos.part
  have hroom := hpos.room (.inl (by simp [hne]))
  obtain ⟨hhead, hwhole⟩ := hfits
  rw [List.length_append] at hmod hpart
  have hreach : rnsHttpBufSize ≤ start + msg.bytes.length - (received reads ++ rest).length := by
    simp only [rnsHttpBufSize] at hfull hmod hroom ⊢
    omega
  constructor
  · cases hchunk : msg.content.isChunked with
    | false => rfl
    | true =>
      have := hwhole hchunk
      omega
  · omega

/-- The position moves on with the bytes that are read. -/
theorem pos_read {start writePos writePos' : Nat} {piece : List UInt8}
    (hpos : msg.Pos start writePos (piece ++ rest)) (hle : writePos + piece.length ≤ rnsHttpBufSize)
    (hgoes : msg.Goes (writePos + piece.length) rest)
    (hwrite : writePos' = if writePos + piece.length = rnsHttpBufSize ∧ rest ≠ [] then 0
      else writePos + piece.length) : msg.Pos start writePos' rest := by
  have hmod := hpos.mod
  have hpart := hpos.part
  rw [List.length_append] at hmod hpart
  rw [hwrite]
  refine ⟨?_, fun hmore => ?_, by omega⟩
  · simp only [rnsHttpBufSize] at hmod ⊢
    split <;> omega
  · split
    · decide
    · rename_i hnot
      refine lt_of_le_of_ne hle fun hfull => ?_
      rcases hmore with hmore | hmore
      · exact hnot ⟨hfull, hmore⟩
      · rw [(hgoes.full hfull).1] at hmore
        cases hmore

theorem reads_run {start : Nat} {reads : List Recv} (rest : List UInt8) (hm : msg.Counted) (hfresh : tunes.Fresh)
    (hfits : msg.Fits start) (hawaits : Awaits msg tunes log hconn (received reads ++ rest))
    (hpos : msg.Pos start hconn.writePos (received reads ++ rest)) (halive : hconn.closed = false)
    (hlegal : Legal hconn reads) (hclean : msg.Clean reads rest)
    (hzero : .zero ∈ reads → (start + msg.bytes.length) % rnsHttpBufSize ≠ 0) :
    ∃ hconn', run hconn reads = some hconn' ∧ msg.At tunes log hconn' rest ∧
      (rest ≠ [] ∨ msg.content.isChunked = true → msg.Pos start hconn'.writePos rest) := by
  induction reads generalizing hconn with
  | nil =>
    refine ⟨hconn, rfl, ⟨fun _ => hawaits, ?_, fun _ => halive⟩, fun _ => hpos⟩
    rintro rfl
    exact awaits_done hawaits
  | cons read reads ih =>
    have hlegal' := hlegal
    obtain ⟨-, hcan, hrest⟩ := hlegal
    have hempty : ∀ hmem : .zero ∈ read :: reads, received (read :: reads) ++ rest = [] →
        hconn.writePos ≠ rnsHttpBufSize := by
      intro hmem hnil hfull
      have hmod := hpos.mod
      rw [hnil, hfull] at hmod
      exact hzero hmem (by simpa using hmod.symm)
    have hclean' : msg.Clean reads rest := hclean.2.2
    cases read with
    | bytes piece =>
      simp only [received, List.append_assoc] at hawaits hpos
      have hgoes := clean_goes reads hfits hpos hcan.1 hclean
      obtain ⟨hconn', hrecv, hawaits', hwrite, hsame⟩ := awaits_read hm hfresh hawaits hcan.1 hgoes
      have hpos' := pos_read hpos hcan.2 hgoes hwrite
      obtain ⟨hconn'', hrun, hat⟩ := ih hawaits' hpos' (hsame.1.trans halive) (hrest _ hrecv) hclean'
        (fun hmem => hzero (List.mem_cons_of_mem _ hmem))
      exact ⟨hconn'', by simp [run, hrecv]; exact hrun, hat⟩
    | zero =>
      have hroom := hpos.room
      have hfull : hconn.writePos = rnsHttpBufSize := hcan
      by_cases hmore : received (.zero :: reads) ++ rest = []
      · exact absurd hfull (hempty (by simp) hmore)
      · exact absurd hfull (hroom (.inl hmore)).ne
    | again =>
      by_cases hmore : received reads ++ rest ≠ [] ∨ msg.content.isChunked = true
      · have hrecv := again_waits (awaits_state hm hfresh hawaits hmore)
        have hawaits' : Awaits msg tunes log { hconn with reading := false } (received reads ++ rest) :=
          awaits_congr hawaits rfl rfl rfl
        obtain ⟨hconn', hrun, hat⟩ := ih hawaits' hpos halive (hrest _ hrecv) hclean'
          (fun hmem => hzero (List.mem_cons_of_mem _ hmem))
        exact ⟨hconn', by simp [run, hrecv]; exact hrun, hat⟩
      · obtain ⟨hnil, hplain⟩ := not_or.mp hmore
        obtain ⟨hreads, rfl⟩ := List.append_eq_nil_iff.mp (not_not.mp hnil)
        have hbare : received (.again :: reads) ++ [] = [] := by simpa [received] using hreads
        rw [hbare] at hawaits
        obtain ⟨calls, hlog, hhanded⟩ := awaits_done hawaits
        have hbare' : received (.again :: reads) = [] := hreads
        obtain ⟨hconn', hrun, hlog', hclosed⟩ := idle_run hbare' hlegal'
          (fun hmem => hempty hmem hbare)
        refine ⟨hconn', hrun, ⟨fun h => absurd h (by simp [hplain]),
          fun _ => ⟨calls, by rw [hlog', hlog], hhanded⟩, fun h => ?_⟩, fun h => absurd h (by simp [hplain])⟩
        rw [hclosed ?_, halive]
        rw [awaits_type hawaits]
        simpa [hplain] using h

theorem Hconn.Ready.pos (h : hconn.Ready) (msg : Message) : msg.Pos hconn.writePos hconn.writePos msg.bytes :=
  ⟨by rw [Nat.add_sub_cancel], fun _ => h.room, le_refl _⟩

end

/-! ## What callbacks see of a message -/

def Call.head : Call → Option Head
  | .work head _ => some head
  | .done head => some head
  | .close => none

def Call.body : Call → List UInt8
  | .work _ body => body
  | _ => []

def Call.isDone : Call → Bool
  | .done _ => true
  | _ => false

/-- The method, the URI, the arguments and the headers that are seen, the bytes of the body, and
how often its end is. -/
structure Outcome where
  heads : List Head
  delivered : List UInt8
  completions : Nat
deriving DecidableEq

def outcome (log : List Call) : Outcome where
  heads := (log.filterMap Call.head).dedup
  delivered := (log.map Call.body).flatten
  completions := log.countP Call.isDone

theorem works_end (head : Head) (pieces : List (List UInt8)) :
    (works head pieces).countP Call.isDone = 0 := by
  rw [List.countP_eq_zero]
  intro call hcall
  obtain ⟨piece, -, rfl⟩ := List.mem_map.mp hcall
  simp [Call.isDone]

theorem outcome_handed {msg : Message} {tunes : Tunes} {calls : List Call} (h : Handed msg tunes calls) :
    outcome calls = ⟨[msg.head tunes], msg.content.body, 1⟩ := by
  obtain ⟨pieces, hsent, rfl⟩ := h
  have hheads : (works (msg.head tunes) pieces ++ [Call.done (msg.head tunes)]).filterMap Call.head =
      List.replicate (pieces.length + 1) (msg.head tunes) := by
    clear hsent
    induction pieces with
    | nil => rfl
    | cons piece pieces ih => simpa [works, Call.head, List.replicate_succ] using ih
  have hbodies : ((works (msg.head tunes) pieces ++ [Call.done (msg.head tunes)]).map Call.body).flatten =
      pieces.flatten := by
    simp [works, Call.body, Function.comp_def]
  have hends : (works (msg.head tunes) pieces ++ [Call.done (msg.head tunes)]).countP Call.isDone = 1 := by
    rw [List.countP_append, works_end]
    rfl
  rw [outcome, hheads, hbodies, hends, hsent, List.replicate_dedup (Nat.succ_ne_zero _)]

/-- A way to split the bytes of a message into reads, none of which ends at one of the places where
the parser fails. -/
structure Splits (msg : Message) (hconn : Hconn) (reads : List Recv) : Prop where
  bytes : received reads = msg.bytes
  legal : Legal hconn reads
  alive : .zero ∉ reads
  clean : msg.Clean reads []

theorem splits_run {msg : Message} {hconn : Hconn} {reads : List Recv} (hm : msg.Counted)
    (hready : hconn.Ready) (hfits : msg.Fits hconn.writePos) (h : Splits msg hconn reads) :
    ∃ hconn' calls, run hconn reads = some hconn' ∧ hconn'.log = hconn.log ++ calls ∧
      Handed msg hconn.tunes calls := by
  have hbytes : received reads ++ [] = msg.bytes := by rw [List.append_nil, h.bytes]
  obtain ⟨hconn', hrun, hat, -⟩ := reads_run [] hm hready.fresh hfits
    (hbytes ▸ hready.awaits msg) (hbytes ▸ hready.pos msg) hready.alive h.legal h.clean
    (fun hmem => absurd hmem h.alive)
  obtain ⟨calls, hlog, hhanded⟩ := hat.done rfl
  exact ⟨hconn', calls, hrun, hlog, hhanded⟩

/-- Two splits of a message that fits the buffer come to the same. -/
theorem splits_agree {msg : Message} {hconn : Hconn} {reads reads' : List Recv} (hm : msg.Counted)
    (hready : hconn.Ready) (hlog : hconn.log = []) (hfits : msg.Fits hconn.writePos)
    (h : Splits msg hconn reads) (h' : Splits msg hconn reads') :
    ∃ hconn₁ hconn₂, run hconn reads = some hconn₁ ∧ run hconn reads' = some hconn₂ ∧
      outcome hconn₁.log = outcome hconn₂.log ∧ (outcome hconn₁.log).completions = 1 := by
  obtain ⟨hconn₁, calls₁, hrun₁, hlog₁, hhanded₁⟩ := splits_run hm hready hfits h
  obtain ⟨hconn₂, calls₂, hrun₂, hlog₂, hhanded₂⟩ := splits_run hm hready hfits h'
  rw [hlog, List.nil_append] at hlog₁ hlog₂
  refine ⟨hconn₁, hconn₂, hrun₁, hrun₂, ?_, ?_⟩
  · rw [hlog₁, hlog₂, outcome_handed hhanded₁, outcome_handed hhanded₂]
  · rw [hlog₁, outcome_handed hhanded₁]

/-- A request with a body of two bytes. -/
def sample : Message where
  start := .request true (ascii "/a") none .http11
  front := []
  content := .length 1 (ascii "2") (ascii "hi")
  back := []

theorem sample_counted : sample.Counted where
  wellFormed :=
    { start := ⟨by decide, ⟨by simp [Text, ascii], by decide, by decide +kernel⟩, by decide,
        fun _ h => absurd h (by simp)⟩
      content := ⟨by decide, by decide +kernel, by decide +kernel⟩
      other := fun _ h => absurd h (by simp [sample])
      headers := by decide }
  length := fun _ => by decide
  chunks := fun _ _ _ h => absurd h (by simp [sample])

theorem accepted_ready : Hconn.accepted.Ready := ⟨⟨rfl, rfl⟩, rfl, by decide, rfl⟩

/-- Cut behind the third byte, and inside its body. -/
theorem splits_agree_sample :
    ∃ hconn₁ hconn₂,
      run .accepted [.bytes (sample.bytes.take 3), .again, .bytes (sample.bytes.drop 3)] = some hconn₁ ∧
      run .accepted [.bytes (sample.bytes.take 40), .bytes (sample.bytes.drop 40), .again] = some hconn₂ ∧
      outcome hconn₁.log = outcome hconn₂.log ∧ (outcome hconn₁.log).completions = 1 :=
  splits_agree sample_counted accepted_ready rfl (by decide +kernel)
    ⟨by decide +kernel, by decide +kernel, by decide +kernel, by decide +kernel⟩
    ⟨by decide +kernel, by decide +kernel, by decide +kernel, by decide +kernel⟩

/-- A read that ends in front of the blank line loses the body. -/
theorem blank_line_cut : sample.Counted ∧ Hconn.accepted.Ready ∧
    ∃ whole front back, received [whole] = sample.bytes ∧ received [front, back] = sample.bytes ∧
      Legal .accepted [whole] ∧ Legal .accepted [front, back] ∧
      ((run .accepted [whole]).map fun hconn => outcome hconn.log) ≠
        (run .accepted [front, back]).map fun hconn => outcome hconn.log :=
  ⟨sample_counted, accepted_ready, .bytes sample.bytes, .bytes (sample.bytes.take 37),
    .bytes (sample.bytes.drop 37), by decide +kernel, by decide +kernel, by decide +kernel,
    by decide +kernel, by decide +kernel⟩

end Yclib.Http.Reading
