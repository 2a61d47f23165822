import Yclib.Util.ListHead

namespace Yclib.Clients
open ListHead

/-! The connections of a client: `http->hconns` has those that wait for a request. -/

/-- The list nodes: the one in `rns_http_t`, and those in the connections, told by their addresses. -/
inductive Addr
  | hconns
  | hconn (i : Nat)
deriving DecidableEq

/-- `rns_hconn_t`: whether its socket is open, and whether the response that it has read into `tune[1]`
is complete. -/
structure Hconn where
  isOpen : Bool
  done : Bool
  phase : Bool
  destroy : Bool

/-- A connection that `rns_hconn_create` makes. -/
def Hconn.fresh : Hconn := ⟨true, false, false, false⟩

/-- `rns_http_t` with its connections, as far as their memory is not freed. `requests` have been given a
connection, and `user` tells which of them has which one. -/
structure Http where
  links : Links Addr
  hconn : Nat → Option Hconn
  requests : Nat
  user : Nat → Option Nat

def Http.init : Http := ⟨initListHead .free .hconns, fun _ => none, 0, fun _ => none⟩

def Http.set (http : Http) (i : Nat) (hconn : Hconn) : Http :=
  { http with hconn := Function.update http.hconn i (some hconn) }

/-- Nobody uses the connection any more. -/
def Http.end (http : Http) (i : Nat) : Http := { http with user := Function.update http.user i none }

/-- `rns_malloc` of a connection, whose list node is NULL. -/
def Http.make (http : Http) (i : Nat) : Http :=
  { http.set i .fresh with
    links := ⟨Function.update http.links.next (.hconn i) none, Function.update http.links.prev (.hconn i) none⟩ }

/-- A connection is freed, with these pointers left. -/
def Http.freed (http : Http) (i : Nat) (links : Links Addr) : Http :=
  { http.end i with links := links, hconn := Function.update http.hconn i none }

/-- `rns_hconn_destroy`. Where a pushed request is not answered yet, it is put off. -/
def rnsHconnDestroy (http : Http) (i : Nat) (hconn : Hconn) : Option Http :=
  if hconn.phase then some (http.set i { hconn with destroy := true })
  else (rnsListDelSafe http.links (.hconn i)).map (http.freed i)

/-- The connection is the one of a new request. -/
def Http.hand (http : Http) (i : Nat) (hconn : Hconn) : Http :=
  { http.set i { hconn with done := false } with
    requests := http.requests + 1
    user := Function.update http.user i (some http.requests) }

/-- `rns_hconn_get`, with the connection that it gives. `opens` tells whether `rns_hconn_open` succeeds,
and `created` what `rns_hconn_create` makes. -/
def rnsHconnGet (http : Http) (opens : Bool) (created : Option Nat) : Option (Http × Option Nat) :=
  match http.links.prev .hconns with
  | none => none
  | some .hconns =>
    match created with
    | none => some (http, none)
    | some i => some ((http.make i).hand i .fresh, some i)
  | some (.hconn i) =>
    match http.hconn i with
    | none => none
    | some hconn =>
      if hconn.isOpen = false ∧ opens = false then some (http.set i { hconn with done := false }, none)
      else (rnsListDel http.links (.hconn i)).map fun links =>
        ({ http with links := links }.hand i { hconn with isOpen := true }, some i)

/-- `rns_hconn_free`. -/
def rnsHconnFree (http : Http) (i : Nat) : Option Http :=
  if Unlinked http.links (.hconn i) then
    (rnsListAdd http.links (.hconn i) .hconns).map fun links => { http with links := links }
  else some http

/-- `rns_hconn_req_done`, with what the headers say about the connection: nothing, or whether it is
to be closed. -/
def rnsHconnReqDone (http : Http) (i : Nat) (hconn : Hconn) : Option Bool → Option Http
  | none => rnsHconnDestroy (http.end i) i hconn
  | some true => rnsHconnDestroy (http.end i) i hconn
  | some false => rnsHconnFree ((http.end i).set i { hconn with done := false }) i

/-- What befalls the connections. -/
inductive Event
  /-- A round of the loop in `rns_httpclient_create`. -/
  | make (created : Option Nat)
  | get (opens : Bool) (created : Option Nat)
  /-- A request gives a connection back. -/
  | free (i : Nat) (request : Nat)
  /-- `read_func` has read more, with or without the end of a response. -/
  | read (i : Nat) (done : Bool)
  /-- `read_func` finds nothing more to read. -/
  | again (i : Nat) (connection : Option Bool)
  /-- The peer has closed the connection, or the socket fails. -/
  | gone (i : Nat)
  /-- A pushed request goes to its handler. -/
  | push (i : Nat)
  /-- `rns_hconn_resp_done` and `rns_hconn_resp_close`, once it is answered. -/
  | resp (i : Nat) (keeps : Bool)

/-- A request that gives back the connection it has does not use it any more. -/
def Http.returned (http : Http) (i request : Nat) : Http :=
  if http.user i = some request then http.end i else http

def step (http : Http) : Event → Option Http
  | .make none => some http
  | .make (some i) =>
    (rnsListAdd (http.make i).links (.hconn i) .hconns).map fun links => { http.make i with links := links }
  | .get opens created => (rnsHconnGet http opens created).map Prod.fst
  | .free i request => (http.hconn i).bind fun _ => rnsHconnFree (http.returned i request) i
  | .read i done => (http.hconn i).map fun hconn => http.set i { hconn with done := done }
  | .again i connection => (http.hconn i).bind fun hconn =>
    if hconn.done then rnsHconnReqDone http i hconn connection else some http
  | .gone i => (http.hconn i).bind fun hconn => rnsHconnDestroy http i hconn
  | .push i => (http.hconn i).map fun hconn => http.set i { hconn with phase := true }
  | .resp i keeps => (http.hconn i).bind fun hconn =>
    let hconn := { hconn with phase := false }
    if keeps = false ∨ hconn.destroy then rnsHconnDestroy (http.set i hconn) i hconn
    else some (http.set i hconn)

/-- Only connections that there are take part, and new ones get memory that no other one has. -/
def Event.Allowed (http : Http) : Event → Prop
  | .make created => ∀ i ∈ created, http.hconn i = none
  | .get _ created => ∀ i ∈ created, http.hconn i = none
  | .free i _ => (http.hconn i).isSome
  | .read i _ => (http.hconn i).isSome
  | .again i _ => (http.hconn i).isSome
  | .gone i => (http.hconn i).isSome
  | .push i => (http.hconn i).isSome
  | .resp i _ => (http.hconn i).isSome

/-- The states that events lead to, in any order. -/
inductive Reach (ok : Http → Event → Prop) : Http → Prop
  | init : Reach ok .init
  | step {http http' : Http} {e : Event} (h : Reach ok http) (ha : e.Allowed http) (hok : ok http e)
    (hstep : step http e = some http') : Reach ok http'

/-- The list is the one of the connections in `idle`, which there are, and no other one is in a list. -/
structure Idle (http : Http) (idle : List Nat) : Prop where
  ring : Ring http.links .hconns (idle.map .hconn)
  live : ∀ i ∈ idle, (http.hconn i).isSome
  apart : ∀ i, i ∉ idle → Unlinked http.links (.hconn i)

/-- What is used by a request is there and not idle. -/
def Used (http : Http) (idle : List Nat) : Prop :=
  ∀ i, (http.user i).isSome → (http.hconn i).isSome ∧ i ∉ idle

section
variable {http : Http} {idle : List Nat} {i : Nat}

/-- What comes of a step: the list is sound again, and with `fair` what is used is not in it. -/
def Comes (fair : Prop) (http : Http) (idle : List Nat) (result : Option Http) : Prop :=
  ∃ http' idle', result = some http' ∧ Idle http' idle' ∧ (fair → Used http idle → Used http' idle')

end

/-- The pointers are those of a list that has each connection once at most, and one that is destroyed
is in no list. -/
def Sound (http : Http) : Prop :=
  ∃ idle : List Nat, Ring http.links .hconns (idle.map .hconn) ∧ idle.Nodup ∧
    ∀ i, http.hconn i = none → i ∉ idle ∧ Unlinked http.links (.hconn i)

/-- A connection that a request uses is in no list and is not given to another one. -/
def Exclusive (http : Http) : Prop :=
  ∀ i, (http.user i).isSome → Unlinked http.links (.hconn i) ∧
    ∀ opens created http', (∀ j ∈ created, http.hconn j = none) →
      rnsHconnGet http opens created ≠ some (http', some i)

end Yclib.Clients
