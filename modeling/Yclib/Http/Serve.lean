import Yclib.Http.Rounds

namespace Yclib.Http.Reading

/-! What `read_func` does with what `rns_http_info_read` comes to. -/

section
variable {hconn : Hconn} {tunes : Tunes} {rest : List UInt8}

/-- `rns_http_info_read`, called on the buffer. -/
def Hconn.read (hconn : Hconn) : Option (Tunes × List UInt8) :=
  rnsHttpInfoRead (hconn.writePos = rnsHttpBufSize) hconn.tunes hconn.pending

/-- The rounds depend on what is read only. -/
theorem serve_congr (fuel : Nat) (tunes : Tunes) (rest : List UInt8)
    (hread : hconn.read = { hconn with tunes := tunes, pending := rest }.read) :
    serve (fuel + 1) hconn = serve (fuel + 1) { hconn with tunes := tunes, pending := rest } := by
  have hparse : parse hconn = parse { hconn with tunes := tunes, pending := rest } := by
    unfold Hconn.read at hread
    unfold parse
    rw [hread]
  rw [serve, serve, hparse]

theorem serve_wait (fuel : Nat) (hread : hconn.read = some (tunes, rest)) (hdone : tunes.info.state ≠ .done)
    (herror : tunes.info.state ≠ .error)
    (hbody : tunes.info.state = .body → hconn.writePos ≠ rnsHttpBufSize ∧
      (tunes.info.chunk = true → tunes.info.currSize < tunes.info.totalSize)) :
    serve (fuel + 1) hconn = some { hconn with tunes := tunes, pending := rest } := by
  rw [Hconn.read] at hread
  have h1 : ¬(tunes.info.state = .body ∧ hconn.writePos = rnsHttpBufSize) := fun h => (hbody h.1).1 h.2
  have h2 : ¬(tunes.info.chunk = true ∧ tunes.info.state = .body ∧
      tunes.info.totalSize ≤ tunes.info.currSize) :=
    fun h => absurd ((hbody h.2.1).2 h.1) (not_lt.mpr h.2.2)
  have hparse : parse hconn = some ({ hconn with tunes := tunes, pending := rest }, false) := by
    simp only [parse, hread, Option.map_some, if_neg h1, if_neg h2, if_neg hdone, if_neg herror]
  rw [serve, hparse]

/-- A buffer that is full of the body is handed out and begun anew. -/
theorem serve_full (fuel : Nat) (hread : hconn.read = some (tunes, rest)) (hstate : tunes.info.state = .body)
    (hfull : hconn.writePos = rnsHttpBufSize) (hchunk : tunes.info.chunk = false) :
    serve (fuel + 1) hconn = some { hconn with
      tunes := tunes.setInfo { tunes.info with body := [] }, pending := [], writePos := 0
      log := hconn.log ++ [.work tunes.head tunes.info.body] } := by
  rw [Hconn.read] at hread
  have hparse : parse hconn = some ({ hconn with tunes := tunes, pending := [], writePos := 0 }, true) := by
    simp only [parse, hread, Option.map_some, if_pos (And.intro hstate hfull)]
  rw [serve, hparse]
  simp [exec, Hconn.setInfo, Tunes.calls, hchunk, hstate]

theorem parse_done (hread : hconn.read = some (tunes, rest)) (hstate : tunes.info.state = .done) :
    parse hconn = some ({ hconn with tunes := tunes, pending := rest }, true) := by
  rw [Hconn.read] at hread
  simp [parse, hread, hstate]

/-- A message is handed out with the rest of its body. -/
theorem serve_done (fuel : Nat) (hread : hconn.read = some (tunes, [])) (hstate : tunes.info.state = .done)
    (hchunk : tunes.info.chunk = false) :
    serve (fuel + 1) hconn = some { hconn with
      tunes := tunes.setInfo { tunes.info with body := [] }, pending := []
      log := hconn.log ++ [.work tunes.head tunes.info.body, .done tunes.head] } := by
  rw [serve, parse_done hread hstate]
  simp [exec, Hconn.setInfo, Tunes.calls, hchunk, hstate]

/-- Where bytes are left behind the last chunk, the parser starts over on them. -/
theorem serve_last (fuel : Nat) (hread : hconn.read = some (tunes, rest)) (hne : rest ≠ [])
    (hstate : tunes.info.state = .done) (hchunk : tunes.info.chunk = true) :
    serve (fuel + 1) hconn = serve fuel { hconn with
      tunes := tunes.setInfo (rnsHttpInfoInit tunes.info), pending := rest
      log := hconn.log ++ [.done tunes.head] } := by
  rw [serve, parse_done hread hstate]
  simp [exec, Hconn.setInfo, Tunes.calls, hchunk, hstate, hne, rnsHttpInfoInit]

theorem serve_error (fuel : Nat) (hread : hconn.read = some (tunes, rest)) (hstate : tunes.info.state = .error) :
    serve (fuel + 1) hconn = some { hconn with
      tunes := tunes.setInfo (rnsHttpInfoInit tunes.info), pending := rest } := by
  rw [Hconn.read] at hread
  simp [serve, parse, hread, hstate, Hconn.setInfo]

/-- The connection behind a chunk that is handed out. -/
def Hconn.chunkOut (hconn : Hconn) (tunes : Tunes) (rest : List UInt8) : Hconn :=
  { hconn with
    tunes := tunes.setInfo { tunes.info with body := [], state := .chunk }, pending := rest
    log := hconn.log ++ [.work tunes.head tunes.info.body] }

/-- A chunk that is complete is handed out. -/
theorem serve_chunk (fuel : Nat) (hread : hconn.read = some (tunes, rest)) (hstate : tunes.info.state = .body)
    (hfull : hconn.writePos ≠ rnsHttpBufSize) (hchunk : tunes.info.chunk = true)
    (hsize : tunes.info.totalSize ≤ tunes.info.currSize) :
    serve (fuel + 1) hconn =
      if rest = [] then some (hconn.chunkOut tunes rest) else serve fuel (hconn.chunkOut tunes rest) := by
  rw [Hconn.read] at hread
  have hbody : ¬(tunes.info.state = .body ∧ hconn.writePos = rnsHttpBufSize) := fun h => hfull h.2
  have hparse : parse hconn = some ({ hconn with
      tunes := tunes.setInfo { tunes.info with state := .chunk }, pending := rest }, true) := by
    simp only [parse, hread, Option.map_some, if_neg hbody, if_pos (And.intro hchunk (And.intro hstate hsize)),
      Hconn.setInfo]
  rw [serve, hparse]
  by_cases hne : rest = [] <;>
    simp [exec, Hconn.setInfo, Hconn.chunkOut, Tunes.calls, hne, Tunes.head]

end

end Yclib.Http.Reading
