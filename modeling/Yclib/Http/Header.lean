import Yclib.Http.Serve

namespace Yclib.Http.Reading

/-! The header of a message, however much of it is there. -/

/-- What is there reaches behind the first part of what is sent. -/
theorem split_behind {walker rest first behind : List UInt8} (happ : walker ++ rest = first ++ behind)
    (hlen : first.length ≤ walker.length) : ∃ walker', walker = first ++ walker' ∧ walker' ++ rest = behind := by
  rcases List.append_eq_append_iff.mp happ with ⟨tail, rfl, hrest⟩ | ⟨tail, rfl, hbehind⟩
  · have htail : tail = [] := by simpa using hlen
    subst htail
    exact ⟨[], by simp, by simpa using hrest⟩
  · exact ⟨tail, rfl, hbehind.symm⟩

/-- A line of the header that can be told from those around it. -/
def Line (line : List UInt8) : Prop := Text line ∧ ∃ b, line.head? = some b ∧ b ≠ 32

section
variable {full : Bool} {tunes : Tunes} {info : Info} {walker rest line body : List UInt8}

theorem lines_cons (line : List UInt8) (headers : List (List UInt8)) :
    lines (line :: headers) = line ++ 13 :: 10 :: lines headers := by
  simp [lines, crlf]

theorem header_wait (hstate : info.state = .header) (hline : Text line)
    (happ : walker ++ rest = line ++ crlf ++ body) (hlen : walker.length < line.length + 2)
    (hfull : full = false) :
    rnsHttpInfoRead full (tunes.setInfo info) walker = some (tunes.setInfo info, walker) := by
  by_cases hne : walker = []
  · subst hne
    simp [finish, hstate]
  · have hfind := find_short hline happ hlen
    apply read_stop hne
    simp [turn, hstate, headerTurn, hfind, waitTurn, hfull]

/-- Behind a line comes another one, of which a byte is there or which cannot be told from the
blank line yet. -/
theorem header_line (hstate : info.state = .header) (hline : Text line)
    (hfirst : ∀ b, walker.head? = some b → b ≠ 32 ∧ b ≠ 13) (hfull : full = true → walker ≠ []) :
    rnsHttpInfoRead full (tunes.setInfo info) (line ++ 13 :: 10 :: walker) =
      rnsHttpInfoRead full (tunes.setInfo (info.readHeader line)) walker := by
  have hskip : skipSpaces walker = walker := by
    cases walker with
    | nil => rfl
    | cons b walker => exact skip_first rfl (hfirst b rfl).1
  have htake : walker.take 2 ≠ [13, 10] := by
    cases walker with
    | nil => simp
    | cons b walker => simp [(hfirst b rfl).2]
  have hsingle : walker ≠ [13] := by
    rintro rfl
    exact (hfirst 13 rfl).2 rfl
  apply read_go (by simp)
  have hnot : ¬(full = true ∧ (walker = [] ∨ walker = [13])) :=
    fun h => h.2.elim (hfull h.1) hsingle
  simp [turn, hstate, headerTurn, find_line hline, hskip, htake]
  grind

/-- Behind the last line the body begins, once the blank line is there. -/
theorem header_last (hstate : info.state = .header) (hline : Text line) :
    rnsHttpInfoRead full (tunes.setInfo info) (line ++ 13 :: 10 :: 13 :: 10 :: walker) =
      rnsHttpInfoRead full (tunes.setInfo { info.readHeader line with
        state := if (info.readHeader line).chunk then .chunk else .body }) walker := by
  have hskip : skipSpaces (13 :: 10 :: walker) = 13 :: 10 :: walker := skip_first rfl (by decide)
  apply read_go (by simp)
  simp [turn, hstate, headerTurn, find_line hline, hskip]

end

/-- The state HEADER, in which the lines from `next` on are still to be read. -/
structure HeaderWait (tunes : Tunes) (info : Info) (headers : List (List UInt8)) (body : List UInt8)
    (tunes' : Tunes) (walker rest : List UInt8) (front : List (List UInt8)) (next : List UInt8)
    (back : List (List UInt8)) : Prop where
  headers : headers = front ++ next :: back
  tunes : tunes' = tunes.setInfo (front.foldl Info.readHeader info)
  sent : walker ++ rest = next ++ crlf ++ (lines back ++ crlf ++ body)

section
variable {info : Info} {walker rest body : List UInt8} {headers : List (List UInt8)}

/-- The lines of the header are read as far as they are there. No read may end in front of the
blank line or inside it. -/
theorem read_lines (full : Bool) (tunes : Tunes) (hstate : info.state = .header) (hne : headers ≠ [])
    (hlines : ∀ line ∈ headers, Line line) (happ : walker ++ rest = lines headers ++ crlf ++ body)
    (hcut : rest.length ≠ body.length + 2 ∧ rest.length ≠ body.length + 1)
    (hfull : full = true → rest.length ≤ body.length) :
    (body.length + 2 < rest.length ∧ ∃ tunes' walker' front next back,
      rnsHttpInfoRead full (tunes.setInfo info) walker = some (tunes', walker') ∧
      HeaderWait tunes info headers body tunes' walker' rest front next back) ∨
    (∃ walker', walker' ++ rest = body ∧
      rnsHttpInfoRead full (tunes.setInfo info) walker =
        rnsHttpInfoRead full (tunes.setInfo { headers.foldl Info.readHeader info with
          state := if (headers.foldl Info.readHeader info).chunk then .chunk else .body }) walker') := by
  induction headers generalizing info walker with
  | nil => exact absurd rfl hne
  | cons line headers ih =>
    have hline := hlines line (by simp)
    have hlen := congrArg List.length happ
    rw [lines_cons] at happ hlen
    simp only [List.length_append, List.length_cons, crlf, List.length_nil] at hlen
    by_cases hshort : walker.length < line.length + 2
    · have happ' : walker ++ rest = line ++ crlf ++ (lines headers ++ crlf ++ body) := by
        rw [happ]
        simp [crlf]
      have hnot : full = false := by
        cases full with
        | false => rfl
        | true =>
          have := hfull rfl
          omega
      refine .inl ⟨by omega, _, _, [], line, headers, header_wait hstate hline.1 happ' hshort hnot, ?_⟩
      exact ⟨rfl, rfl, happ'⟩
    · have hsplit : walker ++ rest = (line ++ [13, 10]) ++ (lines headers ++ crlf ++ body) := by
        rw [happ]
        simp
      obtain ⟨walker', rfl, happ'⟩ := split_behind hsplit (by simp; omega)
      have hstate' : (info.readHeader line).state = .header :=
        (congrArg Info.state (read_headers [line] info)).trans hstate
      have hlen' := congrArg List.length happ'
      simp only [List.length_append, crlf, List.length_cons, List.length_nil] at hlen'
      rw [List.append_assoc, List.cons_append, List.cons_append, List.nil_append]
      cases headers with
      | nil =>
        have hblank : walker' ++ rest = [13, 10] ++ body := by simpa [lines, crlf] using happ'
        have hlines0 : (lines []).length = 0 := rfl
        obtain ⟨walker'', rfl, happ''⟩ := split_behind hblank (by simp only [List.length_cons, List.length_nil]; omega)
        exact .inr ⟨walker'', happ'', header_last hstate hline.1⟩
      | cons line' headers =>
        obtain ⟨htext, b, hb, hspace⟩ := hlines line' (by simp)
        have hfirst : ∀ c, walker'.head? = some c → c ≠ 32 ∧ c ≠ 13 := by
          intro c hc
          have hhead : (walker' ++ rest).head? = (lines (line' :: headers) ++ crlf ++ body).head? := by
            rw [happ']
          rw [lines_cons, List.head?_append, hc, List.append_assoc, List.append_assoc, List.head?_append,
            hb] at hhead
          obtain rfl : c = b := by simpa using hhead
          exact ⟨hspace, (htext c (List.mem_of_head? hb)).2.1⟩
        have hthere : full = true → walker' ≠ [] := by
          rintro hf rfl
          have := hfull hf
          simp only [List.length_nil] at hlen'
          omega
        rw [header_line hstate hline.1 hfirst hthere]
        rcases ih hstate' (by simp) (fun l hl => hlines l (by simp [hl])) happ' with
          ⟨hlt, tunes', walker'', front, next, back, hread, hwait⟩ | hbody
        · refine .inl ⟨hlt, tunes', walker'', line :: front, next, back, hread, ?_⟩
          exact ⟨by rw [hwait.headers]; rfl, hwait.tunes, hwait.sent⟩
        · exact .inr hbody

end

/-- A connection that is ready for a message is in the state INIT. -/
theorem Tunes.Fresh.init {tunes : Tunes} (h : tunes.Fresh) : tunes.info.state = .init := by
  unfold Tunes.info
  rw [h.1, h.2]
  split <;> rfl

section
variable {full : Bool} {tunes : Tunes} {start : Start} {walker rest body : List UInt8}

theorem start_wait (hfresh : tunes.Fresh) (h : start.WellFormed)
    (happ : walker ++ rest = start.line ++ crlf ++ body) (hlen : walker.length < start.line.length + 2)
    (hfull : full = false) : rnsHttpInfoRead full tunes walker = some (tunes, walker) := by
  have hstate := hfresh.init
  by_cases hne : walker = []
  · subst hne
    simp [finish, hstate]
  · apply read_stop hne
    simp [turn, hstate, find_short (line_text h) happ hlen, waitTurn, hfull]

theorem start_read (hfresh : tunes.Fresh) (h : start.WellFormed) :
    rnsHttpInfoRead full tunes (start.line ++ 13 :: 10 :: walker) =
      rnsHttpInfoRead full (start.tunes tunes) walker := by
  have hstate := hfresh.init
  apply read_go (by simp)
  simp [turn, hstate, find_line (line_text h), start_turn hfresh h]

end

end Yclib.Http.Reading
