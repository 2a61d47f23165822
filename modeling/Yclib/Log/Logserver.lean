import Mathlib.Data.List.DropRight
import Yclib.Util.Decimal
import Yclib.Util.Network

namespace Yclib.Log

/-! The server that keeps the records that are posted to it. -/

/-- A `logserver_t`, with the paths of the files that are open. -/
structure Logserver where
  root : List UInt8
  size : Nat
  fds : List (List UInt8)

/-- What a call comes upon: the clock, the size of the file, whether it can be opened, and how many bytes each
of the three writes takes. -/
structure Env where
  utc : Nat
  time : List UInt8
  short : time.length < 64
  fileSize : Nat
  opens : Bool
  headTaken : Nat
  bodyTaken : Nat
  newlineTaken : Nat

/-- A piece of a body, with what has come of the body up to its end. -/
structure Piece where
  body : List UInt8
  currSize : Nat
  counted : body.length ≤ currSize

inductive Effect
  | append (path bytes : List UInt8)
  | respond (code : Nat)
deriving DecidableEq

def bar : UInt8 := 124
def slash : UInt8 := 47
def newline : UInt8 := 10

/-- `"%u|%s|"`. -/
def recordHead (env : Env) : List UInt8 := decimal (u32 env.utc) ++ bar :: env.time ++ [bar]

/-- The path of a record, without the slashes at its end. -/
def recordPath (ls : Logserver) (uri : List UInt8) : List UInt8 :=
  (ls.root ++ slash :: uri).rdropWhile (· = slash)

/-- The file of a path: it is opened when it is not open yet, and again when it is full and was put aside. -/
def Logserver.openFile (ls : Logserver) (env : Env) (path : List UInt8) : Logserver × Bool :=
  if path ∈ ls.fds then
    if ls.size ≤ env.fileSize then
      if env.opens then ({ ls with fds := path :: ls.fds.erase path }, true)
      else ({ ls with fds := ls.fds.erase path }, false)
    else (ls, true)
  else if env.opens then ({ ls with fds := path :: ls.fds }, true)
  else (ls, false)

/-- The three writes, with the bytes that get into the file and whether all of them did. -/
def writeRecord (env : Env) (piece : Piece) : List UInt8 × Bool :=
  if env.headTaken < (recordHead env).length ∨ 128 ≤ (recordHead env).length then
    ((recordHead env).take env.headTaken, false)
  else if env.bodyTaken < piece.body.length then (recordHead env ++ piece.body.take env.bodyTaken, false)
  else if piece.body.length ≤ piece.currSize then
    if env.newlineTaken = 0 then (recordHead env ++ piece.body, false)
    else (recordHead env ++ piece.body ++ [newline], true)
  else (recordHead env ++ piece.body, true)

/-- `logserver_req_dispatch`. -/
def logserverReqDispatch (ls : Logserver) (uri : List UInt8) (env : Env) (piece : Piece) :
    Logserver × List Effect :=
  let path := recordPath ls uri
  if path = [] then (ls, [.respond 500])
  else
    let opened := ls.openFile env path
    if opened.2 then
      let written := writeRecord env piece
      (opened.1, [.append path written.1, .respond (if written.2 then 200 else 500)])
    else (opened.1, [.respond 500])

/-- The calls for the pieces of a body. -/
def deliver (uri : List UInt8) : Logserver → List (Env × Piece) → Logserver × List Effect
  | ls, [] => (ls, [])
  | ls, (env, piece) :: rest =>
    let called := logserverReqDispatch ls uri env piece
    let delivered := deliver uri called.1 rest
    (delivered.1, called.2 ++ delivered.2)

/-- The bytes that effects append, and the responses that they send. -/
def appended : List Effect → List UInt8
  | [] => []
  | .append _ bytes :: effects => bytes ++ appended effects
  | .respond _ :: effects => appended effects

def responses : List Effect → Nat
  | [] => 0
  | .append _ _ :: effects => responses effects
  | .respond _ :: effects => responses effects + 1

/-- The line of a body. -/
def recordLine (env : Env) (body : List UInt8) : List UInt8 := recordHead env ++ body ++ [newline]

/-- One line is appended for the body, with the time of one of the calls, and one response is sent. -/
def Logged (ls : Logserver) (uri : List UInt8) (deliveries : List (Env × Piece)) : Prop :=
  responses (deliver uri ls deliveries).2 = 1 ∧
    ∃ delivery ∈ deliveries, appended (deliver uri ls deliveries).2 =
      recordLine delivery.1 (deliveries.flatMap fun delivery => delivery.2.body)

/-- The file is there and takes all that is written. -/
structure Takes (ls : Logserver) (uri : List UInt8) (env : Env) (piece : Piece) : Prop where
  path : recordPath ls uri ≠ []
  opened : (ls.openFile env (recordPath ls uri)).2 = true
  head : (recordHead env).length ≤ env.headTaken
  body : piece.body.length ≤ env.bodyTaken
  newline : 0 < env.newlineTaken

section
variable {ls : Logserver} {uri : List UInt8} {env : Env} {piece : Piece}

theorem responses_append (xs ys : List Effect) : responses (xs ++ ys) = responses xs + responses ys := by
  induction xs with
  | nil => simp [responses]
  | cons effect xs ih =>
    cases effect with
    | append path bytes => exact ih
    | respond code =>
      simp only [List.cons_append, responses, ih]
      omega

/-- Each call sends a response of its own. -/
theorem dispatch_responds (ls : Logserver) (uri : List UInt8) (env : Env) (piece : Piece) :
    responses (logserverReqDispatch ls uri env piece).2 = 1 := by
  simp only [logserverReqDispatch]
  split
  · rfl
  · split <;> rfl

theorem deliver_responds (ls : Logserver) (uri : List UInt8) (deliveries : List (Env × Piece)) :
    responses (deliver uri ls deliveries).2 = deliveries.length := by
  induction deliveries generalizing ls with
  | nil => rfl
  | cons delivery deliveries ih =>
    simp only [deliver, responses_append, dispatch_responds, ih, List.length_cons]
    omega

/-- The head of a record fits the buffer that it is printed into. -/
theorem head_fits (env : Env) : (recordHead env).length < 128 := by
  have hutc : (decimal (u32 env.utc)).length ≤ 10 :=
    decimal_length (by decide) (Nat.lt_of_lt_of_le (Nat.mod_lt _ (by decide)) (by decide))
  have hshort := env.short
  simp only [recordHead, List.length_append, List.length_cons, List.length_nil]
  omega

/-- What gets into the file is the line, or has fewer bytes. -/
theorem write_line (env : Env) (piece : Piece) : (writeRecord env piece).1 = recordLine env piece.body ↔
    (recordHead env).length ≤ env.headTaken ∧ piece.body.length ≤ env.bodyTaken ∧ 0 < env.newlineTaken := by
  have hfits := head_fits env
  have hline : (recordLine env piece.body).length = (recordHead env).length + piece.body.length + 1 := by
    simp [recordLine, Nat.add_assoc]
  unfold writeRecord
  split
  · refine iff_of_false (fun heq => ?_) (by omega)
    have hlen := congrArg List.length heq
    rw [hline, List.length_take] at hlen
    omega
  · split
    · refine iff_of_false (fun heq => ?_) (by omega)
      have hlen := congrArg List.length heq
      rw [hline, List.length_append, List.length_take] at hlen
      omega
    · rw [if_pos piece.counted]
      split
      · refine iff_of_false (fun heq => ?_) (by omega)
        have hlen := congrArg List.length heq
        rw [hline, List.length_append] at hlen
        omega
      · exact iff_of_true rfl (by omega)

theorem dispatch_line : appended (logserverReqDispatch ls uri env piece).2 = recordLine env piece.body ↔
    Takes ls uri env piece := by
  have hline : recordLine env piece.body ≠ [] := by simp [recordLine]
  simp only [logserverReqDispatch]
  split
  · rename_i hpath
    exact iff_of_false hline.symm fun h => h.path hpath
  · rename_i hpath
    split
    · rename_i hopen
      simp only [appended, List.append_nil, write_line]
      constructor
      · rintro ⟨hhead, hbody, hnewline⟩
        exact ⟨hpath, hopen, hhead, hbody, hnewline⟩
      · intro h
        exact ⟨h.head, h.body, h.newline⟩
    · rename_i hclosed
      exact iff_of_false hline.symm fun h => hclosed h.opened

/-- A body is logged as one line with one response exactly when it comes in one piece, and the file takes it. -/
theorem logged_single {deliveries : List (Env × Piece)} :
    Logged ls uri deliveries ↔ ∃ env piece, deliveries = [(env, piece)] ∧ Takes ls uri env piece := by
  constructor
  · rintro ⟨hresponses, hline⟩
    rw [deliver_responds] at hresponses
    obtain ⟨⟨env, piece⟩, rfl⟩ := List.length_eq_one_iff.mp hresponses
    refine ⟨env, piece, rfl, ?_⟩
    obtain ⟨delivery, hm, hline⟩ := hline
    obtain rfl := List.mem_singleton.mp hm
    rw [← dispatch_line]
    simpa [deliver] using hline
  · rintro ⟨env, piece, rfl, h⟩
    refine ⟨deliver_responds ls uri _, (env, piece), List.mem_singleton_self _, ?_⟩
    simpa [deliver] using dispatch_line.mpr h

/-- A server with an empty table, and a file that takes everything. -/
def freshServer : Logserver := ⟨ascii "/log", 100000000, []⟩

def openEnv : Env := ⟨7, ascii "20260101000000", by decide, 0, true, 100, 100, 1⟩

def firstPiece : Env × Piece := (openEnv, ⟨ascii "h", 1, by decide⟩)

def secondPiece : Env × Piece := (openEnv, ⟨ascii "i", 2, by decide⟩)

/-- A body in two pieces becomes two lines, with two responses. -/
theorem split_twice :
    (deliver (ascii "/a") freshServer [firstPiece, secondPiece]).2 =
        [.append (ascii "/log//a") (ascii "7|20260101000000|h\n"), .respond 200,
          .append (ascii "/log//a") (ascii "7|20260101000000|i\n"), .respond 200] ∧
      ¬ Logged freshServer (ascii "/a") [firstPiece, secondPiece] := by
  constructor
  · decide
  · rintro ⟨hresponses, -⟩
    rw [deliver_responds] at hresponses
    exact absurd hresponses (by decide)

end

end Yclib.Log
