import Yclib.Http.Header

namespace Yclib.Http.Reading

/-! Bodies whose length is given, and bodies in chunks. -/

/-- The calls that hand out pieces of a body. -/
def works (head : Head) (pieces : List (List UInt8)) : List Call := pieces.map (.work head)

/-- What callbacks find in the record while it is read. -/
def Info.head (info : Info) (readType : Bool) : Head :=
  ⟨readType, info.code, info.method, info.uri, info.headers, info.args⟩

@[simp] theorem head_set (tunes : Tunes) (info : Info) :
    (tunes.setInfo info).head = info.head tunes.readType := by
  simp [Tunes.head, Info.head]

/-! ## A length -/

section
variable {full : Bool} {tunes : Tunes} {info : Info} {walker : List UInt8}

theorem body_read (rest : List UInt8) (hstate : info.state = .body) (hchunk : info.chunk = false)
    (htotal : info.totalSize = info.currSize + walker.length + rest.length) (hlt : info.totalSize < 2 ^ 32)
    (hnil : walker = [] → info.currSize = 0 ∧ info.body = []) :
    rnsHttpInfoRead full (tunes.setInfo info) walker =
      some (tunes.setInfo { info with
        body := info.body ++ walker, currSize := info.currSize + walker.length
        state := if rest = [] then .done else .body }, []) := by
  by_cases hne : walker = []
  · obtain ⟨hcurr, hbody⟩ := hnil hne
    subst hne
    simp only [List.length_nil, Nat.add_zero, hcurr, Nat.zero_add] at htotal
    by_cases hrest : rest = []
    · simp [finish, hstate, htotal, hrest, hcurr]
    · simp [finish, hstate, htotal, hrest]
      rw [← hstate, ← htotal]
  · have hleft : u32Sub info.totalSize info.currSize = walker.length + rest.length := by
      rw [u32_sub_of_le (by omega) hlt]
      omega
    have hcurr : u32 (info.currSize + walker.length) = info.currSize + walker.length :=
      u32_of_lt (by omega)
    apply read_stop hne
    simp [turn, hstate, bodyTurn, hleft, hcurr, hchunk, List.length_eq_zero_iff]

end

/-- What the reads leave as it is. -/
def Hconn.Same (hconn hconn' : Hconn) : Prop :=
  hconn'.closed = hconn.closed ∧ hconn'.connection = hconn.connection ∧ hconn'.reading = hconn.reading ∧
    hconn'.answered = hconn.answered

/-- A body whose length is given while it comes in, and when it has. `info` is what the header is
read to. -/
inductive Sized (tunes : Tunes) (info : Info) (log : List Call) (data : List UInt8) :
    Hconn → List UInt8 → Prop
  | body {hconn : Hconn} {rest held : List UInt8} {pieces : List (List UInt8)}
      (tunes_eq : hconn.tunes = tunes.setInfo { info with
        body := held, currSize := data.length - rest.length })
      (log_eq : hconn.log = log ++ works (info.head tunes.readType) pieces)
      (sent : pieces.flatten ++ (held ++ rest) = data) (pending : hconn.pending = []) (more : rest ≠ []) :
      Sized tunes info log data hconn rest
  | done {hconn : Hconn} {pieces : List (List UInt8)}
      (tunes_eq : hconn.tunes = tunes.setInfo { info with
        body := [], currSize := data.length, state := .done })
      (log_eq : hconn.log = log ++ (works (info.head tunes.readType) pieces ++ [.done (info.head tunes.readType)]))
      (sent : pieces.flatten = data) (pieces_ne : pieces ≠ []) (pending : hconn.pending = []) :
      Sized tunes info log data hconn []

section
variable {tunes : Tunes} {info : Info} {log : List Call} {data walker rest held : List UInt8}
  {pieces : List (List UInt8)} {hconn : Hconn}

theorem works_concat (head : Head) (pieces : List (List UInt8)) (piece : List UInt8) :
    works head (pieces ++ [piece]) = works head pieces ++ [.work head piece] := by
  simp [works]

/-- Bytes of the body come in. -/
theorem sized_serve (fuel : Nat) (hstate : info.state = .body) (hchunk : info.chunk = false)
    (htotal : info.totalSize = data.length) (hlt : data.length < 2 ^ 32)
    (ht : hconn.tunes = tunes.setInfo { info with
      body := held, currSize := data.length - (walker ++ rest).length })
    (hl : hconn.log = log ++ works (info.head tunes.readType) pieces)
    (hsent : pieces.flatten ++ (held ++ (walker ++ rest)) = data) (hp : hconn.pending = walker)
    (hnil : walker = [] → pieces = [] ∧ held = []) :
    ∃ hconn', serve (fuel + 1) hconn = some hconn' ∧ Sized tunes info log data hconn' rest ∧
      hconn'.writePos = (if hconn.writePos = rnsHttpBufSize ∧ rest ≠ [] then 0 else hconn.writePos) ∧
      hconn.Same hconn' := by
  have hlen := congrArg List.length hsent
  simp only [List.length_append] at hlen ht
  have hcurr : data.length - (walker.length + rest.length) + walker.length = data.length - rest.length := by
    omega
  have hread : hconn.read = some (tunes.setInfo { info with
      body := held ++ walker, currSize := data.length - rest.length
      state := if rest = [] then .done else .body }, []) := by
    rw [Hconn.read, ht, hp, body_read rest (by simpa using hstate) (by simpa using hchunk)]
    · simp only [hcurr]
    · simp only [htotal]
      omega
    · simpa [htotal] using hlt
    · intro h
      obtain ⟨hpieces, hheld⟩ := hnil h
      simp only [hpieces, hheld, h, List.flatten_nil, List.length_nil, Nat.zero_add] at hlen ⊢
      simp [hlen]
  by_cases hrest : rest = []
  · subst hrest
    rw [if_pos rfl] at hread
    refine ⟨_, serve_done fuel hread (by simp) (by simpa using hchunk), ?_, by simp, rfl, rfl, rfl, rfl⟩
    have hall : (pieces ++ [held ++ walker]).flatten = data := by simpa using hsent
    refine .done (by simp) ?_ hall (by simp) rfl
    simp [hl, works, Info.head]
  · rw [if_neg hrest] at hread
    by_cases hfull : hconn.writePos = rnsHttpBufSize
    · refine ⟨_, serve_full fuel hread (by simp) hfull (by simpa using hchunk), ?_, by simp [hfull, hrest],
        rfl, rfl, rfl, rfl⟩
      have hpart : (pieces ++ [held ++ walker]).flatten ++ ([] ++ rest) = data := by simpa using hsent
      refine .body ?_ ?_ hpart rfl hrest
      · simp [hstate]
      · simp [hl, works, Info.head]
    · refine ⟨_, serve_wait fuel hread (by simp) (by simp) ?_, ?_, by simp [hfull], rfl, rfl, rfl, rfl⟩
      · intro _
        exact ⟨hfull, by simp [hchunk]⟩
      · have hpart : pieces.flatten ++ ((held ++ walker) ++ rest) = data := by simpa using hsent
        refine .body ?_ hl hpart rfl hrest
        simp [hstate]

end

end Yclib.Http.Reading
