import Yclib.Foss.Server

namespace Yclib.Foss.Answers

/-! The responses to `/GetServer/stb`, `/GetServer/phone` and `/phone/GetStbid`: one request with the
callbacks of its queries, in any order that they can come in. -/

/-- How a query ends: it does not start, in its `done` callback, or in its `error` callback. -/
inductive End
  | refused
  | done
  | error
deriving DecidableEq

/-- A query: the rows that its `work` callback has had, and its end. -/
structure Query where
  rownum : Nat
  ended : Option End

def Query.row (query : Query) : Query := { query with rownum := query.rownum + 1 }

def Query.finish (query : Query) (ended : End) : Query := { query with ended := some ended }

/-- A request for a trs server: its `ctx`, the search for the box, the registration of the box if
there is one, and what was sent. `broken` says that a context was used that is destroyed, or a
callback called that is not set. -/
structure ServerReq where
  ctx : Bool
  search : Query
  registry : Option Query
  resps : List Resp
  broken : Bool

/-- `server_get_by_stb`, with the connection there may be and whether the search starts. -/
def serverGetByStb (m starts : Bool) : ServerReq :=
  if m && starts then ⟨true, ⟨0, none⟩, none, [], false⟩
  else ⟨false, ⟨0, some .refused⟩, none, [.error 400], false⟩

/-- `/GetServer/stb` and `/GetServer/phone`, with the argument `stbid` if it is there. -/
def getServer (stbid : Option Rbt.Str) (m starts : Bool) : ServerReq :=
  match stbid with
  | none => ⟨false, ⟨0, some .refused⟩, none, [.error 400], false⟩
  | some _ => serverGetByStb m starts

/-- The callbacks of the search, with the trs servers as they are then, and those of the
registration. -/
inductive ServerCall
  | work (foss : Server) (row : Option Rbt.Str)
  | done (foss : Server) (m : Option Bool)
  | error
  | registryDone
  | registryError

namespace ServerReq

def use (req : ServerReq) : ServerReq := { req with broken := req.broken || !req.ctx }

def send (req : ServerReq) (resps : List Resp) : ServerReq := { req with resps := req.resps ++ resps }

/-- `server_get_done`; a registration runs on its own connection. -/
def getDone (req : ServerReq) (foss : Server) (m : Option Bool) : ServerReq :=
  match serverGetDone foss req.search.rownum m with
  | none => { req with broken := true }
  | some got =>
    { req.use.send got.resps with
      ctx := false
      search := req.search.finish .done
      registry := got.registry.map fun _ => ⟨0, none⟩ }

def step (req : ServerReq) : ServerCall → ServerReq
  | .work foss row => { req.use.send [foss.serverGetWork row] with search := req.search.row }
  | .done foss m => req.getDone foss m
  | .error => { req.use.send [.error 400] with ctx := false, search := req.search.finish .error }
  | .registryDone => { req with registry := req.registry.map fun query => query.finish .done }
  | .registryError =>
    { req with registry := req.registry.map fun query => query.finish .error, broken := true }

end ServerReq

/-- A query has callbacks until its end. -/
def ServerCall.Can (req : ServerReq) : ServerCall → Prop
  | .work _ _ => req.search.ended = none
  | .done _ _ => req.search.ended = none
  | .error => req.search.ended = none
  | .registryDone => ∃ query, req.registry = some query ∧ query.ended = none
  | .registryError => ∃ query, req.registry = some query ∧ query.ended = none

/-- No row, or one row and then `done`. -/
def Query.Single (query : Query) : Prop :=
  query.rownum = 0 ∨ query.rownum = 1 ∧ query.ended = some .done

/-- Exactly one response, and nothing undefined on the way to it. -/
def ServerReq.Answered (req : ServerReq) : Prop := req.resps.length = 1 ∧ req.broken = false

/-- A request for the box of a phone: the search for the phone, and those for the boxes of its rows. -/
structure StbReq where
  ctx : Bool
  phone : Query
  stbs : List Query
  resps : List Resp
  broken : Bool

/-- The callbacks of the search for the phone, whose rows may have a `stbid`, and those of the
searches for boxes. -/
inductive StbCall
  | phone (stbid : Option Rbt.Str) (m starts : Bool)
  | phoneDone
  | phoneError
  | stb (query : Nat) (row : Option (Rbt.Str × Rbt.Str))
  | stbDone (query : Nat)
  | stbError (query : Nat)

namespace StbReq

def use (req : StbReq) : StbReq := { req with broken := req.broken || !req.ctx }

def send (req : StbReq) (resp : Resp) : StbReq := { req with resps := req.resps ++ [resp] }

/-- `stb_get_work`: the row has a box, there is a connection and the search for the box starts, or
the client has an error. -/
def getWork (req : StbReq) (stbid : Option Rbt.Str) (m starts : Bool) : StbReq :=
  let req := { req.use with phone := req.phone.row }
  match stbid with
  | none => req.send (.error 400)
  | some _ => if m && starts then { req with stbs := req.stbs ++ [⟨0, none⟩] } else req.send (.error 400)

/-- `stb_get_done`, which looks at its context only where no phone was found. -/
def getDone (req : StbReq) : StbReq :=
  if req.phone.rownum = 0 then
    { req.use.send (.error 402) with ctx := false, phone := req.phone.finish .done }
  else { req with phone := req.phone.finish .done }

/-- `stb_getstb_work`. -/
def getstbWork (req : StbReq) (query : Nat) (row : Option (Rbt.Str × Rbt.Str)) : StbReq :=
  let resp := match row with
    | none => Resp.error 400
    | some (stbid, stbUseId) => .stb stbid stbUseId
  { req.use.send resp with stbs := req.stbs.modify query Query.row }

/-- `stb_getstb_done`. -/
def getstbDone (req : StbReq) (query : Nat) : StbReq :=
  let empty := (req.stbs[query]?).any fun query => query.rownum = 0
  let req := { req.use with ctx := false, stbs := req.stbs.modify query fun query => query.finish .done }
  if empty then req.send (.error 400) else req

def step (req : StbReq) : StbCall → StbReq
  | .phone stbid m starts => req.getWork stbid m starts
  | .phoneDone => req.getDone
  | .phoneError => { req.use.send (.error 400) with ctx := false, phone := req.phone.finish .error }
  | .stb query row => req.getstbWork query row
  | .stbDone query => req.getstbDone query
  | .stbError query =>
    { req.use.send (.error 400) with
      ctx := false
      stbs := req.stbs.modify query fun query => query.finish .error }

end StbReq

def StbReq.Runs (req : StbReq) (query : Nat) : Prop := ∃ q, req.stbs[query]? = some q ∧ q.ended = none

def StbCall.Can (req : StbReq) : StbCall → Prop
  | .phone _ _ _ => req.phone.ended = none
  | .phoneDone => req.phone.ended = none
  | .phoneError => req.phone.ended = none
  | .stb query _ => req.Runs query
  | .stbDone query => req.Runs query
  | .stbError query => req.Runs query

def StbReq.Answered (req : StbReq) : Prop := req.resps.length = 1 ∧ req.broken = false

/-- The response that the end of a query brings. -/
def Query.close (query : Query) : Nat :=
  match query.ended with
  | none => 0
  | some .done => if query.rownum = 0 then 1 else 0
  | some _ => 1

/-- The responses to the rows of a query and its end. -/
def Query.cost (query : Query) : Nat := query.rownum + query.close

section
variable {query : Query} {queries : List Query}

@[simp] theorem row_ended (query : Query) : query.row.ended = query.ended := rfl

@[simp] theorem finish_ended (query : Query) (ended : End) : (query.finish ended).ended = some ended := rfl

end

/-- Between two callbacks of a request for a trs server. -/
structure ServerReq.Sound (req : ServerReq) : Prop where
  resps : req.resps.length = req.search.cost
  going : req.search.ended = none → req.ctx = true ∧ req.registry = none
  broken : req.broken = true ↔ ∃ query, req.registry = some query ∧ query.ended = some .error

section
variable {req : ServerReq}

end

/-- Where a context is gone, or one that is gone was used. -/
structure StbReq.Sound (req : StbReq) : Prop where
  rows : req.stbs.length ≤ req.phone.rownum
  resps : req.resps.length + req.stbs.length =
    req.phone.rownum + req.phone.close + (req.stbs.map Query.cost).sum
  refused : req.phone.ended = some .refused → req.stbs = []
  gone : req.ctx = false → req.phone.ended = some .refused ∨ req.phone.ended = some .error ∨
    (req.phone.ended = some .done ∧ req.phone.rownum = 0) ∨ ∃ query ∈ req.stbs, query.ended ≠ none
  broken : req.broken = true → 2 ≤ req.phone.rownum ∨ req.phone.ended = some .error ∧ 1 ≤ req.phone.rownum

section
variable {req : StbReq} {query : Query} {i : Nat}

end

end Yclib.Foss.Answers
