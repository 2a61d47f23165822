import Yclib.Http.Info

namespace Yclib.Http.Reading

/-! `read_func`: what a connection hands to its callbacks, as the bytes of the peer come in and
responses are finished. The callbacks do not touch what is being read. -/

/-- `RNS_HTTP_BUF_SIZE`. -/
abbrev rnsHttpBufSize : Nat := 8192

/-- What a callback finds in the `read_info` that is read. -/
structure Head where
  readType : Bool
  code : Nat
  method : Method
  uri : List UInt8
  headers : List (Rbt.Str × List UInt8)
  args : List (Rbt.Str × List UInt8)
deriving DecidableEq

/-- The callbacks that are called. -/
inductive Call
  | work (head : Head) (body : List UInt8)
  | done (head : Head)
  | close
deriving DecidableEq

/-- `rns_hconn_t`. `pending` is what is between `read_pos` and `write_pos`. `reading` tells
whether `read_func` is running, `answered` how many responses have ended; `connection` is the
value of the Connection header that was sent with the last request. -/
structure Hconn where
  tunes : Tunes
  pending : List UInt8
  writePos : Nat
  reading : Bool
  closed : Bool
  connection : Option (List UInt8)
  answered : Nat
  log : List Call
deriving DecidableEq

def Tunes.head (tunes : Tunes) : Head :=
  let info := tunes.info
  ⟨tunes.readType, info.code, info.method, info.uri, info.headers, info.args⟩

def Hconn.setInfo (hconn : Hconn) (info : Info) : Hconn :=
  { hconn with tunes := hconn.tunes.setInfo info }

/-- `RNS_HCONN_STATE_PARSE`, which tells whether `RNS_HCONN_STATE_EXEC` follows. -/
def parse (hconn : Hconn) : Option (Hconn × Bool) :=
  (rnsHttpInfoRead (hconn.writePos = rnsHttpBufSize) hconn.tunes hconn.pending).map fun result =>
    let hconn := { hconn with tunes := result.1, pending := result.2 }
    let info := hconn.tunes.info
    if info.state = .body ∧ hconn.writePos = rnsHttpBufSize then
      ({ hconn with pending := [], writePos := 0 }, true)
    else if info.chunk ∧ info.state = .body ∧ info.totalSize ≤ info.currSize then
      (hconn.setInfo { info with state := .chunk }, true)
    else if info.state = .done then (hconn, true)
    else if info.state = .error then (hconn.setInfo (rnsHttpInfoInit info), false)
    else (hconn, false)

/-- The calls of `RNS_HCONN_STATE_EXEC`. -/
def Tunes.calls (tunes : Tunes) : List Call :=
  (if tunes.info.chunk = false ∨ tunes.info.state = .chunk then [.work tunes.head tunes.info.body]
    else []) ++
  (if tunes.info.state = .done then [.done tunes.head] else [])

/-- `RNS_HCONN_STATE_EXEC`, which tells whether there is more to be parsed. -/
def exec (hconn : Hconn) : Hconn × Bool :=
  let info := { hconn.tunes.info with body := [] }
  let hconn' := { hconn.setInfo info with log := hconn.log ++ hconn.tunes.calls }
  if hconn.pending = [] then (hconn', false)
  else if info.state = .done then (hconn'.setInfo (rnsHttpInfoInit info), true)
  else (hconn', true)

/-- The rounds of `read_func` from one `recv` to the next. -/
def serve : Nat → Hconn → Option Hconn
  | 0, _ => none
  | fuel + 1, hconn =>
    match parse hconn with
    | none => none
    | some (hconn, false) => some hconn
    | some (hconn, true) =>
      match exec hconn with
      | (hconn, false) => some hconn
      | (hconn, true) => serve fuel hconn

/-- Whether a connection is kept, by the value of its Connection header. -/
def keeps : Option (List UInt8) → Bool
  | none => false
  | some value => !strncmpEq (value.map fun b => if 65 ≤ b ∧ b ≤ 90 then b + 32 else b) (ascii "close") 5

/-- `rns_hconn_req_done`. -/
def rnsHconnReqDone (hconn : Hconn) : Hconn :=
  match Multimap.searchKey ⟨ascii "Connection"⟩ hconn.tunes.response.headers, hconn.connection with
  | some value, _ | none, some value =>
    if keeps (some value) then
      { hconn with tunes := { hconn.tunes with response := rnsHttpInfoInit hconn.tunes.response } }
    else { hconn with closed := true }
  | none, none => { hconn with closed := true }

/-- `rns_hconn_resp_close`, at the end of a response with this Connection header. -/
def rnsHconnRespClose (hconn : Hconn) (connection : Option (List UInt8)) : Hconn :=
  let hconn := { hconn with answered := hconn.answered + 1 }
  if keeps connection then
    { hconn with tunes := { hconn.tunes with request := rnsHttpInfoInit hconn.tunes.request } }
  else { hconn with closed := true }

/-- What `recv` does: it takes bytes, would block, or returns zero. -/
inductive Recv
  | bytes (piece : List UInt8)
  | again
  | zero
deriving DecidableEq

/-- `RNS_HCONN_STATE_READ` and what follows it until the next `recv`. -/
def recv (hconn : Hconn) : Recv → Option Hconn
  | .bytes piece =>
    serve (2 * (hconn.pending ++ piece).length + 2) { hconn with
      pending := hconn.pending ++ piece, writePos := hconn.writePos + piece.length, reading := true }
  | .again =>
    let hconn := { hconn with reading := false }
    if hconn.tunes.info.state = .done then
      let hconn := { hconn with writePos := 0, pending := [] }
      some (if hconn.tunes.readType then rnsHconnReqDone hconn else hconn)
    else some hconn
  | .zero => some { hconn with reading := false, closed := true, log := hconn.log ++ [.close] }

/-- `recv` takes no more than there is room for. It may return zero only where there is none,
as long as the peer keeps its side open. -/
def Recv.Can (hconn : Hconn) : Recv → Prop
  | .bytes piece => piece ≠ [] ∧ hconn.writePos + piece.length ≤ rnsHttpBufSize
  | .again => True
  | .zero => hconn.writePos = rnsHttpBufSize

instance (hconn : Hconn) (read : Recv) : Decidable (read.Can hconn) := by
  cases read <;> unfold Recv.Can <;> infer_instance

/-- A record as `calloc` leaves it. -/
def Info.zero : Info := ⟨0, .none, [], [], [], [], 0, 0, false, 0, .init⟩

/-- A connection that is made, where `read_type` is that of the last one. -/
def Hconn.create (readType : Bool) (request response : Info) (connection : Option (List UInt8)) :
    Hconn where
  tunes := ⟨readType, rnsHttpInfoInit request, rnsHttpInfoInit response⟩
  pending := []
  writePos := 0
  reading := false
  closed := false
  connection := connection
  answered := 0
  log := []

/-- A connection that `accept_func` makes. -/
def Hconn.accepted : Hconn := .create false .zero .zero none

end Yclib.Http.Reading
