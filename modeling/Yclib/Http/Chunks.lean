import Yclib.Http.Body

namespace Yclib.Http.Reading

/-! Bodies in chunks: the sizes, the data of each chunk and the line break behind it. -/

section
variable {size : List UInt8}

theorem hex_text (h : ∀ b ∈ size, isHex b) : Text size := by
  intro b hb
  have hhex := h b hb
  refine ⟨?_, ?_, ?_⟩ <;> rintro rfl <;> exact absurd hhex (by decide)

theorem hex_space (h : ∀ b ∈ size, isHex b) : 32 ∉ size := fun hm => absurd (h 32 hm) (by decide)

theorem char_lt (b : UInt8) : rnsChar2value b < 16 := by
  unfold rnsChar2value
  simp only [UInt8.le_iff_toNat_le]
  split
  · rename_i h
    have := h.2
    simp only [UInt8.reduceToNat] at this
    omega
  · split
    · rename_i h
      have := h.2
      simp only [UInt8.reduceToNat] at this
      omega
    · split
      · rename_i h
        have := h.2
        simp only [UInt8.reduceToNat] at this
        omega
      · decide

theorem hex_fold {value n : Nat} (hvalue : value < 16 ^ n) (hlen : n + size.length ≤ 8) :
    size.foldl (fun value c => u32 (value * 16 + rnsChar2value c)) value =
      size.foldl (fun value c => value * 16 + rnsChar2value c) value := by
  induction size generalizing value n with
  | nil => rfl
  | cons b size ih =>
    have hb := char_lt b
    have hlt : value * 16 + rnsChar2value b < 16 ^ (n + 1) := by
      rw [Nat.pow_succ]
      omega
    have hle : 16 ^ (n + 1) ≤ 2 ^ 32 := by
      have := Nat.pow_le_pow_right (n := 16) (by decide) (show n + 1 ≤ 8 by simp at hlen; omega)
      simpa using this
    rw [List.foldl_cons, List.foldl_cons, u32_of_lt (hlt.trans_le hle),
      ih hlt (by simp only [List.length_cons] at hlen; omega)]

/-- A size of eight digits at most is read as it is meant. -/
theorem hex_read (hlen : size.length ≤ 8) : rnsHex2dec size = hexValue size := by
  rw [rnsHex2dec, List.take_of_length_le hlen, hex_fold (n := 0) (by decide) (by omega)]
  rfl

end

section
variable {info : Info} {size lead walker rest more : List UInt8}

/-- The line with a size is waited for; the line break in front of it may go. -/
theorem size_wait (full : Bool) (tunes : Tunes) (hstate : info.state = .chunk) (hlead : lead = [] ∨ lead = crlf) (hsize : size ≠ [])
    (hhex : ∀ b ∈ size, isHex b) (happ : walker ++ rest = lead ++ (size ++ crlf ++ more))
    (hlen : walker.length < lead.length + size.length + 2) (hfull : full = false) :
    ∃ walker' lead', rnsHttpInfoRead full (tunes.setInfo info) walker = some (tunes.setInfo info, walker') ∧
      (lead' = [] ∨ lead' = crlf) ∧ walker' ++ rest = lead' ++ (size ++ crlf ++ more) := by
  by_cases hne : walker = []
  · exact ⟨[], lead, by simp [hne, finish, hstate], hlead, by simpa [hne] using happ⟩
  · have hfirst : ∀ b, (lead ++ (size ++ crlf ++ more)).head? = some b → b ≠ 32 := by
      rcases hlead with rfl | rfl
      · obtain ⟨b, size', rfl⟩ := List.exists_cons_of_ne_nil hsize
        rintro c hc rfl
        simp only [List.nil_append, List.cons_append, List.head?_cons, Option.some.injEq] at hc
        exact hex_space hhex (by simp [hc])
      · simp [crlf]
    have hskip : skipSpaces walker = walker := by
      obtain ⟨b, walker', rfl⟩ := List.exists_cons_of_ne_nil hne
      exact skip_first rfl (hfirst b (by rw [← happ]; rfl))
    by_cases hfind : findCrlf walker = none
    · refine ⟨walker, lead, read_stop hne ?_, hlead, happ⟩
      simp [turn, hstate, chunkTurn, hskip, hfind, waitTurn, hfull]
    · rcases hlead with rfl | rfl
      · exact absurd (find_short (hex_text hhex) happ (by simpa using hlen)) hfind
      · have hlong : crlf.length ≤ walker.length := by
          by_contra hshort
          have hone : walker.length < ([] : List UInt8).length + 2 := by simpa [crlf] using hshort
          have happ' : walker ++ rest = [] ++ crlf ++ (size ++ crlf ++ more) := happ
          exact hfind (find_short text_nil happ' hone)
        obtain ⟨walker', rfl, happ'⟩ := split_behind happ hlong
        have hline : findCrlf (crlf ++ walker') = some ([], walker') :=
          find_line text_nil
        have hshort := find_short (hex_text hhex) happ' (by
          simp only [List.length_append, crlf, List.length_cons, List.length_nil] at hlen
          omega)
        refine ⟨walker', [], read_stop hne ?_, .inl rfl, happ'⟩
        simp [turn, hstate, chunkTurn, hskip, hline, hshort, waitTurn, hfull]

theorem size_read {full : Bool} {tunes : Tunes} (hstate : info.state = .chunk) (hlead : lead = [] ∨ lead = crlf) (hsize : size ≠ [])
    (hhex : ∀ b ∈ size, isHex b) :
    rnsHttpInfoRead full (tunes.setInfo info) (lead ++ (size ++ 13 :: 10 :: more)) =
      rnsHttpInfoRead full (tunes.setInfo (if rnsHex2dec size = 0 then
          { info with chunksize := rnsHex2dec size, state := .done }
        else { info with chunksize := rnsHex2dec size
                         totalSize := u32 (info.totalSize + rnsHex2dec size), state := .body })) more := by
  have hfind : findCrlf (size ++ 13 :: 10 :: more) = some (size, more) := find_line (hex_text hhex)
  have hturn : sizeTurn (tunes.setInfo info) size more = .go (tunes.setInfo (if rnsHex2dec size = 0 then
          { info with chunksize := rnsHex2dec size, state := .done }
        else { info with chunksize := rnsHex2dec size
                         totalSize := u32 (info.totalSize + rnsHex2dec size), state := .body })) more := by
    unfold sizeTurn
    split <;> simp_all
  apply read_go (by simp)
  rcases hlead with rfl | rfl
  · obtain ⟨b, size', rfl⟩ := List.exists_cons_of_ne_nil hsize
    have hb : b ≠ 32 := fun he => hex_space hhex (by simp [he])
    have hskip : skipSpaces (b :: size' ++ 13 :: 10 :: more) = b :: size' ++ 13 :: 10 :: more :=
      skip_first rfl hb
    simp only [turn, Tunes.info_set, hstate, chunkTurn, List.nil_append, hskip, hfind, if_neg hsize, hturn]
  · have hskip : skipSpaces (crlf ++ (size ++ 13 :: 10 :: more)) = crlf ++ (size ++ 13 :: 10 :: more) :=
      skip_first rfl (by decide)
    have hline : findCrlf (crlf ++ (size ++ 13 :: 10 :: more)) = some ([], size ++ 13 :: 10 :: more) :=
      find_line text_nil
    simp only [turn, Tunes.info_set, hstate, chunkTurn, hskip, hline, if_true, hfind, hturn]

/-- The data of a chunk, as far as it is there. -/
theorem data_read (full : Bool) (tunes : Tunes) {left : List UInt8} (hstate : info.state = .body) (hchunk : info.chunk = true)
    (hleft : left ≠ []) (htotal : info.currSize + left.length = info.totalSize) (hlt : info.totalSize < 2 ^ 32)
    (happ : walker ++ rest = left ++ more) :
    (∃ left', left' ≠ [] ∧ walker ++ left' = left ∧ rest = left' ++ more ∧
      rnsHttpInfoRead full (tunes.setInfo info) walker =
        some (tunes.setInfo { info with
          body := info.body ++ walker, currSize := info.currSize + walker.length }, [])) ∨
    (∃ walker', walker' ++ rest = more ∧
      walker = left ++ walker' ∧ rnsHttpInfoRead full (tunes.setInfo info) walker =
        some (tunes.setInfo { info with
          body := info.body ++ left, currSize := info.totalSize }, walker')) := by
  have hsub : u32Sub info.totalSize info.currSize = left.length := by
    rw [u32_sub_of_le (by omega) hlt]
    omega
  have hpos := List.length_pos_iff.mpr hleft
  by_cases hshort : walker.length < left.length
  · obtain ⟨left', rfl, hrest⟩ := split_behind happ.symm hshort.le
    have hne : left' ≠ [] := by
      rintro rfl
      simp at hshort
    refine .inl ⟨left', hne, rfl, hrest.symm, ?_⟩
    by_cases hnil : walker = []
    · have htotal0 : info.totalSize ≠ 0 := by omega
      simp [hnil, finish, htotal0]
    · have hcurr : u32 (info.currSize + walker.length) = info.currSize + walker.length :=
        u32_of_lt (by simp only [List.length_append] at htotal; omega)
      apply read_stop hnil
      simp [turn, hstate, bodyTurn, hsub, hchunk, hcurr]
  · obtain ⟨walker', rfl, hrest⟩ := split_behind happ (by omega)
    have hcurr : u32 (info.currSize + left.length) = info.totalSize := by rw [htotal, u32_of_lt hlt]
    refine .inr ⟨walker', hrest, rfl, read_stop (by simp [hleft]) ?_⟩
    simp [turn, hstate, bodyTurn, hsub, hchunk, hcurr]

end

/-- The record where the size of a chunk comes next. -/
structure AtSize (head : Head) (last : List UInt8) (back : List Chunk) (info : Info) : Prop where
  head_eq : info.head head.readType = head
  state : info.state = .chunk
  chunk : info.chunk = true
  counted : info.currSize = info.totalSize
  body : info.body = []
  bound : info.totalSize + (chunkBytes last back).length < 2 ^ 32

/-- The record in the data of a chunk, of which `held` is there. -/
structure InData (head : Head) (last : List UInt8) (back : List Chunk) (held left : List UInt8)
    (info : Info) : Prop where
  head_eq : info.head head.readType = head
  state : info.state = .body
  chunk : info.chunk = true
  counted : info.currSize + left.length = info.totalSize
  body : info.body = held
  bound : info.totalSize + (chunkBytes last back).length < 2 ^ 32

/-- A body in chunks while it comes in, and when the last chunk has. -/
inductive Decodes (tunes : Tunes) (head : Head) (log : List Call) (last : List UInt8) (chunks : List Chunk) :
    Hconn → List UInt8 → Prop
  | size {hconn : Hconn} {rest lead : List UInt8} {front back : List Chunk} {info : Info}
      (split : chunks = front ++ back) (lead_eq : lead = [] ∨ lead = crlf)
      (tunes_eq : hconn.tunes = tunes.setInfo info) (at_size : AtSize head last back info)
      (log_eq : hconn.log = log ++ works head (front.map Chunk.data))
      (sent : hconn.pending ++ rest = lead ++ chunkBytes last back) (more : rest ≠ []) :
      Decodes tunes head log last chunks hconn rest
  | data {hconn : Hconn} {held left : List UInt8} {front back : List Chunk} {chunk : Chunk} {info : Info}
      (split : chunks = front ++ chunk :: back) (tunes_eq : hconn.tunes = tunes.setInfo info)
      (in_data : InData head last back held left info)
      (log_eq : hconn.log = log ++ works head (front.map Chunk.data))
      (whole : held ++ left = chunk.data) (more : left ≠ []) (pending : hconn.pending = []) :
      Decodes tunes head log last chunks hconn (left ++ (crlf ++ chunkBytes last back))
  | tail {hconn : Hconn} {rest : List UInt8} {info : Info}
      (tunes_eq : hconn.tunes = tunes.setInfo (rnsHttpInfoInit info))
      (log_eq : hconn.log = log ++ (works head (chunks.map Chunk.data) ++ [.done head]))
      (sent : hconn.pending = [13] ∧ rest = [10] ∨ hconn.pending = [] ∧ rest = []) :
      Decodes tunes head log last chunks hconn rest

/-- The rounds go well, up to what is still to be sent. -/
def Serves (tunes : Tunes) (head : Head) (log : List Call) (last : List UInt8) (chunks : List Chunk)
    (fuel : Nat) (hconn : Hconn) (rest : List UInt8) : Prop :=
  ∃ hconn', serve fuel hconn = some hconn' ∧ Decodes tunes head log last chunks hconn' rest ∧
    hconn'.writePos = hconn.writePos ∧ hconn.Same hconn'

/-- All sizes have as many digits as are read. -/
def Short (last : List UInt8) (chunks : List Chunk) : Prop :=
  last.length ≤ 8 ∧ ∀ chunk ∈ chunks, chunk.size.length ≤ 8

section
variable {tunes : Tunes} {head : Head} {log : List Call} {last : List UInt8} {chunks : List Chunk}

theorem tail_serve {fuel : Nat} {hconn : Hconn} {rest : List UInt8} {info : Info}
    (ht : hconn.tunes = tunes.setInfo (rnsHttpInfoInit info))
    (hl : hconn.log = log ++ (works head (chunks.map Chunk.data) ++ [.done head]))
    (hsent : hconn.pending = [13] ∧ rest = [10] ∨ hconn.pending = [13, 10] ∧ rest = [])
    (hfull : hconn.writePos ≠ rnsHttpBufSize) :
    Serves tunes head log last chunks (fuel + 1) hconn rest := by
  have hinit : (rnsHttpInfoInit info).state = .init := rfl
  rcases hsent with ⟨hp, rfl⟩ | ⟨hp, rfl⟩
  · have hread : hconn.read = some (tunes.setInfo (rnsHttpInfoInit info), [13]) := by
      rw [Hconn.read, ht, hp]
      apply read_stop (by simp)
      simp [turn, hinit, findCrlf, waitTurn, hfull]
    refine ⟨_, serve_wait fuel hread (by simp [hinit]) (by simp [hinit]) (by simp [hinit]), ?_, rfl, rfl, rfl, rfl, rfl⟩
    exact .tail rfl hl (.inl ⟨rfl, rfl⟩)
  · have hread : hconn.read = some (tunes.setInfo { rnsHttpInfoInit info with state := .error }, []) := by
      rw [Hconn.read, ht, hp]
      apply read_stop (by simp)
      simp [turn, hinit, findCrlf, startTurn, skipSpaces, cut, failTurn]
    refine ⟨_, serve_error fuel hread (by simp), ?_, rfl, rfl, rfl, rfl, rfl⟩
    exact .tail (by simp; rfl) hl (.inr ⟨rfl, rfl⟩)

/-- From the size of a chunk on, the rounds go well with so much fuel. -/
def SizeServed (tunes : Tunes) (head : Head) (log : List Call) (last : List UInt8) (chunks : List Chunk)
    (fuel : Nat) : Prop :=
  ∀ (hconn : Hconn) {rest lead : List UInt8} {front back : List Chunk} {info : Info},
    chunks = front ++ back → (lead = [] ∨ lead = crlf) → hconn.tunes = tunes.setInfo info →
    AtSize head last back info → hconn.log = log ++ works head (front.map Chunk.data) →
    hconn.pending ++ rest = lead ++ chunkBytes last back → hconn.pending.length < fuel →
    hconn.writePos ≠ rnsHttpBufSize → rest.length ≠ 2 → Serves tunes head log last chunks fuel hconn rest

/-- From the data of a chunk on, they go well with one more. -/
theorem data_serve {fuel : Nat} (ih : SizeServed tunes head log last chunks fuel)
    (htype : head.readType = tunes.readType) {hconn : Hconn}
    {rest held left : List UInt8} {front back : List Chunk} {chunk : Chunk} {info : Info}
    (hsplit : chunks = front ++ chunk :: back) (ht : hconn.tunes = tunes.setInfo info)
    (hdata : InData head last back held left info)
    (hl : hconn.log = log ++ works head (front.map Chunk.data)) (hwhole : held ++ left = chunk.data)
    (hleft : left ≠ []) (hsent : hconn.pending ++ rest = left ++ (crlf ++ chunkBytes last back))
    (hfuel : hconn.pending.length ≤ fuel) (hfull : hconn.writePos ≠ rnsHttpBufSize) (hrest : rest.length ≠ 2) :
    Serves tunes head log last chunks (fuel + 1) hconn rest := by
  have hlt : info.totalSize < 2 ^ 32 := by
    have := hdata.bound
    omega
  have hpos := List.length_pos_iff.mpr hleft
  rcases data_read false tunes hdata.state hdata.chunk hleft hdata.counted hlt hsent with
    ⟨left', hne, hleft', rfl, hread⟩ | ⟨walker', hsent', hwalker, hread⟩
  · have hread' : hconn.read = some (tunes.setInfo { info with
        body := info.body ++ hconn.pending, currSize := info.currSize + hconn.pending.length }, []) := by
      rw [Hconn.read, ht, decide_eq_false hfull, hread]
    have hcount := hdata.counted
    have hpos' := List.length_pos_iff.mpr hne
    have hlen := congrArg List.length hleft'
    rw [List.length_append] at hlen
    refine ⟨_, serve_wait fuel hread' (by simp [hdata.state]) (by simp [hdata.state]) ?_, ?_, rfl, rfl, rfl, rfl, rfl⟩
    · intro _
      refine ⟨hfull, fun _ => ?_⟩
      simp only [Tunes.info_set]
      omega
    · have hwhole' : (held ++ hconn.pending) ++ left' = chunk.data := by rw [List.append_assoc, hleft', hwhole]
      refine .data hsplit rfl ?_ hl hwhole' hne rfl
      exact ⟨hdata.head_eq, hdata.state, hdata.chunk, by simp only; omega, by rw [hdata.body], hdata.bound⟩
  · have hread' : hconn.read = some (tunes.setInfo { info with
        body := info.body ++ left, currSize := info.totalSize }, walker') := by
      rw [Hconn.read, ht, decide_eq_false hfull, hread]
    have hserve := serve_chunk fuel hread' (by simp [hdata.state]) hfull (by simp [hdata.chunk])
      (by simp)
    have hout : (hconn.chunkOut (tunes.setInfo { info with
        body := info.body ++ left, currSize := info.totalSize }) walker').log =
          log ++ works head ((front ++ [chunk]).map Chunk.data) := by
      have hhead : info.head tunes.readType = head := htype ▸ hdata.head_eq
      simp only [Hconn.chunkOut, hl, head_set, Tunes.info_set, List.map_append, List.map_cons, List.map_nil,
        works_concat, hdata.body, hwhole, List.append_assoc]
      rw [← hhead]
      rfl
    have hsize : AtSize head last back { info with
        body := [], currSize := info.totalSize, state := .chunk } :=
      ⟨hdata.head_eq, rfl, hdata.chunk, rfl, rfl, hdata.bound⟩
    have hsplit' : chunks = (front ++ [chunk]) ++ back := by simp [hsplit]
    by_cases hnil : walker' = []
    · rw [if_pos hnil] at hserve
      refine ⟨_, hserve, ?_, rfl, rfl, rfl, rfl, rfl⟩
      refine .size hsplit' (.inr rfl) (by simp [Hconn.chunkOut]) hsize hout ?_ ?_
      · simpa [Hconn.chunkOut] using hsent'
      · rintro rfl
        simp [hnil, crlf] at hsent'
    · rw [if_neg hnil] at hserve
      have hlen : walker'.length < fuel := by
        rw [hwalker, List.length_append] at hfuel
        omega
      obtain ⟨hconn', hserve', hdecodes, hpos', hsame⟩ := ih (hconn.chunkOut _ walker')
        hsplit' (.inr rfl) (by simp [Hconn.chunkOut]) hsize hout hsent' hlen hfull hrest
      exact ⟨hconn', hserve.trans hserve', hdecodes, hpos', hsame⟩

/-- The size of a chunk is waited for. -/
theorem size_short {fuel : Nat} {hconn : Hconn} {rest lead size more : List UInt8} {front back : List Chunk}
    {info : Info} (hsplit : chunks = front ++ back) (hlead : lead = [] ∨ lead = crlf)
    (ht : hconn.tunes = tunes.setInfo info) (hsize : AtSize head last back info)
    (hl : hconn.log = log ++ works head (front.map Chunk.data))
    (hbytes : chunkBytes last back = size ++ crlf ++ more) (hne : size ≠ []) (hhex : ∀ b ∈ size, isHex b)
    (hsent : hconn.pending ++ rest = lead ++ (size ++ crlf ++ more))
    (hlen : hconn.pending.length < lead.length + size.length + 2) (hfull : hconn.writePos ≠ rnsHttpBufSize) :
    Serves tunes head log last chunks (fuel + 1) hconn rest := by
  obtain ⟨walker', lead', hread, hlead', hsent'⟩ :=
    size_wait false tunes hsize.state hlead hne hhex hsent hlen rfl
  have hread' : hconn.read = some (tunes.setInfo info, walker') := by
    rw [Hconn.read, ht, decide_eq_false hfull, hread]
  refine ⟨_, serve_wait fuel hread' (by simp [hsize.state]) (by simp [hsize.state]) (by simp [hsize.state]), ?_,
    rfl, rfl, rfl, rfl, rfl⟩
  refine .size hsplit hlead' rfl hsize hl (by rw [hbytes]; exact hsent') ?_
  rintro rfl
  have hlen' := congrArg List.length hsent
  simp only [List.length_append, crlf, List.length_cons, List.length_nil] at hlen'
  omega

theorem size_serve (htype : head.readType = tunes.readType) (hlast : Size last 0)
    (hchunks : ∀ chunk ∈ chunks, Size chunk.size chunk.data.length ∧ chunk.data ≠ [])
    (hshort : Short last chunks) (fuel : Nat) : SizeServed tunes head log last chunks fuel := by
  induction fuel with
  | zero =>
    intro hconn rest lead front back info hsplit hlead ht hsize hl hsent hfuel
    exact absurd hfuel (Nat.not_lt_zero _)
  | succ fuel ih =>
    intro hconn rest lead front back info hsplit hlead ht hsize hl hsent hfuel hfull hrest
    cases back with
    | nil =>
      obtain ⟨hne, hhex, hvalue⟩ := hlast
      by_cases hlen : hconn.pending.length < lead.length + last.length + 2
      · exact size_short hsplit hlead ht hsize hl rfl hne hhex hsent hlen hfull
      · have hbytes : hconn.pending ++ rest = (lead ++ (last ++ [13, 10])) ++ crlf := by
          rw [hsent]
          simp [chunkBytes, crlf]
        obtain ⟨walker', hp, hsent'⟩ := split_behind hbytes (by simp; omega)
        have hread : hconn.read = rnsHttpInfoRead false (tunes.setInfo { info with
            chunksize := rnsHex2dec last, state := .done }) walker' := by
          rw [Hconn.read, ht, decide_eq_false hfull, hp, List.append_assoc, List.append_assoc]
          rw [List.cons_append, List.cons_append, List.nil_append, size_read hsize.state hlead hne hhex,
            hex_read hshort.1, hvalue, if_pos rfl]
        have hne' : walker' ≠ [] := by
          rintro rfl
          exact hrest (by simpa [crlf] using congrArg List.length hsent')
        have hdone : hconn.read = some (tunes.setInfo { info with
            chunksize := rnsHex2dec last, state := .done }, walker') :=
          hread.trans (read_stop hne' (by simp [turn]))
        have hserve := serve_last fuel hdone hne' (by simp) (by simp [hsize.chunk])
        obtain ⟨fuel, rfl⟩ : ∃ n, fuel = n + 1 := by
          refine ⟨fuel - 1, ?_⟩
          rw [hp] at hfuel
          simp only [List.length_append, List.length_cons, List.length_nil] at hfuel
          omega
        have htail : walker' = [13] ∧ rest = [10] ∨ walker' = [13, 10] ∧ rest = [] := by
          rcases walker' with _ | ⟨a, _ | ⟨b, walker'⟩⟩
          · exact absurd rfl hne'
          · simp_all [crlf]
          · simp_all [crlf]
        have hhead : info.head tunes.readType = head := htype ▸ hsize.head_eq
        have hserved : Serves tunes head log last chunks (fuel + 1) { hconn with
            tunes := tunes.setInfo (rnsHttpInfoInit { info with
              chunksize := rnsHex2dec last, state := .done }), pending := walker'
            log := hconn.log ++ [.done head] } rest :=
          tail_serve rfl (by simp [hl, hsplit, List.append_assoc]) htail hfull
        obtain ⟨hconn', hserve', hdecodes⟩ := hserved
        refine ⟨hconn', hserve.trans ?_, hdecodes⟩
        rw [← hserve', ← hhead]
        simp [Info.head]
    | cons chunk back =>
      obtain ⟨⟨hne, hhex, hvalue⟩, hdata⟩ := hchunks chunk (by simp [hsplit])
      by_cases hlen : hconn.pending.length < lead.length + chunk.size.length + 2
      · exact size_short hsplit hlead ht hsize hl rfl hne hhex hsent hlen hfull
      · have hbytes : hconn.pending ++ rest =
            (lead ++ (chunk.size ++ [13, 10])) ++ (chunk.data ++ (crlf ++ chunkBytes last back)) := by
          rw [hsent]
          simp [chunkBytes, crlf]
        obtain ⟨walker', hp, hsent'⟩ := split_behind hbytes (by simp; omega)
        have hpos := List.length_pos_iff.mpr hdata
        have hbound := hsize.bound
        simp only [chunkBytes, List.length_append] at hbound
        have hread : hconn.read = rnsHttpInfoRead false (tunes.setInfo { info with
            chunksize := chunk.data.length, totalSize := info.totalSize + chunk.data.length
            state := .body }) walker' := by
          rw [Hconn.read, ht, decide_eq_false hfull, hp, List.append_assoc, List.append_assoc]
          rw [List.cons_append, List.cons_append, List.nil_append, size_read hsize.state hlead hne hhex,
            hex_read (hshort.2 chunk (by simp [hsplit])), hvalue, if_neg (by omega), u32_of_lt (by omega)]
        have hcongr := serve_congr fuel (tunes.setInfo { info with
            chunksize := chunk.data.length, totalSize := info.totalSize + chunk.data.length
            state := .body }) walker' (by rw [hread, Hconn.read, decide_eq_false hfull])
        have hin : InData head last back [] chunk.data { info with
            chunksize := chunk.data.length, totalSize := info.totalSize + chunk.data.length
            state := .body } :=
          ⟨hsize.head_eq, rfl, hsize.chunk, by simp only [hsize.counted], hsize.body, by simp only; omega⟩
        have hwalker : walker'.length ≤ fuel := by
          rw [hp, List.length_append] at hfuel
          omega
        have hserved : Serves tunes head log last chunks (fuel + 1) { hconn with
            tunes := tunes.setInfo { info with
              chunksize := chunk.data.length, totalSize := info.totalSize + chunk.data.length
              state := .body }, pending := walker' } rest :=
          data_serve ih htype hsplit rfl hin hl rfl hdata hsent' hwalker hfull hrest
        obtain ⟨hconn', hserve, hdecodes⟩ := hserved
        exact ⟨hconn', hcongr.trans hserve, hdecodes⟩

end

end Yclib.Http.Reading
