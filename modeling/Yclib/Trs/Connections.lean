import Mathlib.Algebra.Order.BigOperators.Group.List
import Mathlib.Algebra.Order.Group.Nat
import Mathlib.Algebra.Ring.Nat
import Mathlib.Data.List.Nodup
import Mathlib.Logic.Function.Basic

namespace Yclib.Trs.Connections

/-! The database connections of the trs server: the pool they are taken from and returned to,
and the requests for play histories and marks, whose queries run on them. -/

/-- The context of a request by its number, of `/stb/...` or of `/third/...`. -/
inductive Ctx
  | stb (request : Nat)
  | third (request : Nat)
deriving DecidableEq

/-- The callbacks of a query: `done_func` and `error_func`, `free_mysql`, those of the play
history and of the marks of a box, and those of a phone, which are alike for both. -/
inductive Query
  | write
  | save
  | psStbs (request : Nat)
  | psItems (request : Nat)
  | markStbs (request : Nat)
  | markItems (request : Nat)
  | stbs (request : Nat)
  | phones (request : Nat)
  | items (request : Nat)

/-- The state of a `rns_mysql_t`. A query that has failed leaves it in
`RNS_MYSQL_STATE_QUERY`, although none is in progress. -/
inductive Mysql
  | init
  | query (query : Query)
  | fetch (query : Query)
  | failed (query : Query)

def Mysql.inProgress : Mysql → Bool
  | .init => false
  | .query _ => true
  | .fetch _ => true
  | .failed _ => false

/-- The pool from its first connection on, the connections by their numbers, how often each
has been returned since it was last taken, and the `number` of each context that is not
destroyed; the queries of a request are fewer than 2^32. -/
structure Server where
  mysqls : List Nat
  mysql : Nat → Mysql
  returned : Nat → Nat
  number : Ctx → Option Nat
  requests : Nat

/-- The server when all its connections are in the pool. -/
def Server.create (mysqls : List Nat) : Server :=
  ⟨mysqls, fun _ => .init, fun _ => 1, fun _ => none, 0⟩

namespace Server

/-- `rns_dbpool_get`. -/
def dbpoolGet (server : Server) : Option (Nat × Server) :=
  match server.mysqls with
  | [] => none
  | m :: mysqls => some (m, { server with
      mysqls := mysqls
      returned := Function.update server.returned m 0 })

/-- `rns_dbpool_free`; `rns_list_add_safe` takes a connection that is in the pool out first. -/
def dbpoolFree (server : Server) (m : Nat) : Server :=
  { server with
    mysqls := server.mysqls.erase m ++ [m]
    returned := Function.update server.returned m (server.returned m + 1) }

def setMysql (server : Server) (m : Nat) (mysql : Mysql) : Server :=
  { server with mysql := Function.update server.mysql m mysql }

def setNumber (server : Server) (ctx : Ctx) (number : Option Nat) : Server :=
  { server with number := Function.update server.number ctx number }

/-- `rns_mysql_query`, which copies the callbacks also where the query does not start. -/
def mysqlQuery (server : Server) (m : Nat) (query : Query) (starts : Bool) : Server :=
  if starts then server.setMysql m (.query query)
  else match server.mysql m with
    | .failed _ => server.setMysql m (.failed query)
    | _ => server

/-- `--(*n)`, and the context destroyed where this gives 0. -/
def countDown (server : Server) (ctx : Ctx) : Option Server :=
  (server.number ctx).map fun n =>
    server.setNumber ctx (if n - 1 = 0 then none else some (n - 1))

/-- `free_mysql`. -/
def freeMysql (server : Server) (mysql : Nat) : Server := server.dbpoolFree mysql

/-- `done_func`. -/
def doneFunc (server : Server) (mysql : Nat) : Server := server.dbpoolFree mysql

/-- `error_func`. -/
def errorFunc (server : Server) (mysql : Nat) : Server := server.dbpoolFree mysql

/-- `get_error`. -/
def getError (server : Server) (mysql : Nat) (request : Nat) : Option Server :=
  (server.number (.stb request)).map fun _ =>
    (server.dbpoolFree mysql).setNumber (.stb request) none

/-- `third_error`, and the `done` callbacks of the requests of `/third`: `fstb_get_done`,
`fphone_get_done`, `fphone_playhistory_get_done`, `mstb_get_done`, `phone_get_done` and
`phone_mark_get_done`. -/
def thirdError (server : Server) (mysql : Nat) (request : Nat) : Option Server :=
  (server.dbpoolFree mysql).countDown (.third request)

/-- `ps_get_work`, `mark_get_work`, `fphone_playhistory_get_work` and `phone_mark_get_work`,
which read the context only. -/
def getWork (server : Server) (ctx : Ctx) : Option Server :=
  (server.number ctx).map fun _ => server

/-- `ps_get_done`. -/
def psGetDone (server : Server) (mysql : Nat) (request : Nat) : Option Server :=
  (server.number (.stb request)).map fun n =>
    if n - 1 = 0 then
      ((server.setNumber (.stb request) none).dbpoolFree mysql).dbpoolFree mysql
    else (server.setNumber (.stb request) (some (n - 1))).dbpoolFree mysql

/-- `mark_get_done`. -/
def markGetDone (server : Server) (mysql : Nat) (request : Nat) : Option Server :=
  (server.countDown (.stb request)).map fun server => server.dbpoolFree mysql

/-- `ps_get` and `mark_get`, with the callbacks of the query that they start. -/
def boxGet (items : Query) (server : Server) (mysql : Nat) (request : Nat) (parsed starts : Bool) :
    Option Server :=
  (server.number (.stb request)).map fun n =>
    if parsed then
      match server.dbpoolGet with
      | none => server.dbpoolFree mysql
      | some (m, server) =>
        let server := (server.setNumber (.stb request) (some (n + 1))).mysqlQuery m items starts
        if starts then server else server.dbpoolFree mysql
    else server.dbpoolFree mysql

/-- `ps_get`. -/
def psGet (server : Server) (mysql : Nat) (request : Nat) (parsed starts : Bool) : Option Server :=
  boxGet (.psItems request) server mysql request parsed starts

/-- `mark_get`. -/
def markGet (server : Server) (mysql : Nat) (request : Nat) (parsed starts : Bool) : Option Server :=
  boxGet (.markItems request) server mysql request parsed starts

end Server

/-- How a query starts: not at all, so that its callbacks come later, or at once to its end. -/
inductive Start
  | failed
  | started
  | finished
deriving DecidableEq

namespace Server

/-- `stb_get_done` and `stb_get_done2`, with the query that they start and its `done`. -/
def boxGetDone (items : Query) (itemsDone : Server → Nat → Nat → Option Server) (server : Server)
    (mysql : Nat) (request : Nat) (start : Start) : Option Server :=
  (server.number (.stb request)).bind fun n =>
    let called := match server.dbpoolGet with
      | none => some server
      | some (m, server) =>
        let server := server.setNumber (.stb request) (some (n + 1))
        match start with
        | .failed => some (server.mysqlQuery m items false)
        | .started => some (server.mysqlQuery m items true)
        | .finished => itemsDone ((server.mysqlQuery m items true).setMysql m .init) m request
    called.bind fun server =>
      (server.countDown (.stb request)).map fun server => server.dbpoolFree mysql

/-- `stb_get_done`. -/
def stbGetDone (server : Server) (mysql : Nat) (request : Nat) (start : Start) : Option Server :=
  boxGetDone (.psItems request) psGetDone server mysql request start

/-- `stb_get_done2`. -/
def stbGetDone2 (server : Server) (mysql : Nat) (request : Nat) (start : Start) : Option Server :=
  boxGetDone (.markItems request) markGetDone server mysql request start

/-- `fstb_get`, `fphone_get`, `stb_get` and `phone_get`, with the query that they start. -/
def thirdGet (query : Query) (server : Server) (request : Nat) (parsed starts : Bool) : Option Server :=
  (server.number (.third request)).map fun n =>
    if parsed then
      match server.dbpoolGet with
      | none => server
      | some (m, server) =>
        let server := (server.setNumber (.third request) (some (n + 1))).mysqlQuery m query starts
        if starts then server else server.dbpoolFree m
    else server

/-- `fstb_get` and `stb_get`. -/
def stbGet (server : Server) (request : Nat) (parsed starts : Bool) : Option Server :=
  thirdGet (.phones request) server request parsed starts

/-- `fphone_get` and `phone_get`. -/
def phoneGet (server : Server) (request : Nat) (parsed starts : Bool) : Option Server :=
  thirdGet (.items request) server request parsed starts

end Server

/-- What a connection gets next: a row, the end of the rows, or an error. -/
inductive Answer
  | row (parsed starts : Bool)
  | done (start : Start)
  | error
deriving DecidableEq

namespace Server

/-- `work` of a query. -/
def work (server : Server) (mysql : Nat) (parsed starts : Bool) : Query → Option Server
  | .write => some server
  | .save => some server
  | .psStbs request => server.psGet mysql request parsed starts
  | .psItems request => server.getWork (.stb request)
  | .markStbs request => server.markGet mysql request parsed starts
  | .markItems request => server.getWork (.stb request)
  | .stbs request => server.stbGet request parsed starts
  | .phones request => server.phoneGet request parsed starts
  | .items request => server.getWork (.third request)

/-- `done` of a query. -/
def done (server : Server) (mysql : Nat) (start : Start) : Query → Option Server
  | .write => some (server.doneFunc mysql)
  | .save => some (server.freeMysql mysql)
  | .psStbs request => server.stbGetDone mysql request start
  | .psItems request => server.psGetDone mysql request
  | .markStbs request => server.stbGetDone2 mysql request start
  | .markItems request => server.markGetDone mysql request
  | .stbs request => server.thirdError mysql request
  | .phones request => server.thirdError mysql request
  | .items request => server.thirdError mysql request

/-- `error` of a query. -/
def error (server : Server) (mysql : Nat) : Query → Option Server
  | .write => some (server.errorFunc mysql)
  | .save => some (server.freeMysql mysql)
  | .psStbs request => server.getError mysql request
  | .psItems request => server.getError mysql request
  | .markStbs request => server.getError mysql request
  | .markItems request => server.getError mysql request
  | .stbs request => server.thirdError mysql request
  | .phones request => server.thirdError mysql request
  | .items request => server.thirdError mysql request

/-- An event on a connection: `rns_mysql_query_cont` and `rns_mysql_fetch_cont`. Once the rows
have begun there is no error any more, and where no query is in progress in
`RNS_MYSQL_STATE_QUERY` there is nothing else. There is no result where a callback goes to a
context that is destroyed. -/
def answer (server : Server) (m : Nat) (answer : Answer) : Option Server :=
  match server.mysql m, answer with
  | .init, _ => some server
  | .failed query, _ => server.error m query
  | .query query, .error => (server.setMysql m (.failed query)).error m query
  | .fetch _, .error => some server
  | .query query, .row parsed starts | .fetch query, .row parsed starts =>
    (server.setMysql m (.fetch query)).work m parsed starts query
  | .query query, .done start | .fetch query, .done start =>
    (server.setMysql m .init).done m start query

/-- The requests that write one row, which only log where their query does not start. -/
def write (server : Server) (starts : Bool) : Server :=
  match server.dbpoolGet with
  | none => server
  | some (m, server) => server.mysqlQuery m .write starts

/-- `stb_playhistory_add`. -/
def stbPlayhistoryAdd (server : Server) (starts : Bool) : Server := server.write starts

/-- `stb_mark_add`. -/
def stbMarkAdd (server : Server) (starts : Bool) : Server := server.write starts

/-- `stb_mark_delete`. -/
def stbMarkDelete (server : Server) (starts : Bool) : Server := server.write starts

/-- `phone_playhistory_add`. -/
def phonePlayhistoryAdd (server : Server) (starts : Bool) : Server := server.write starts

/-- `phone_mark_add`. -/
def phoneMarkAdd (server : Server) (starts : Bool) : Server := server.write starts

/-- `phone_mark_delete`. -/
def phoneMarkDelete (server : Server) (starts : Bool) : Server := server.write starts

/-- One entry of `stb_ps_update` and of `stb_mark_update`. -/
def update (server : Server) (starts : Bool) : Server :=
  match server.dbpoolGet with
  | none => server
  | some (m, server) =>
    let server := server.mysqlQuery m .save starts
    if starts then server else server.dbpoolFree m

/-- A new request, with its context and `*n = 0`. -/
def ctxCreate (server : Server) (ctx : Nat → Ctx) : Server :=
  { server.setNumber (ctx server.requests) (some 0) with requests := server.requests + 1 }

/-- `stb_ps_get` and `stb_mark_get`, from the first query on. -/
def boxesGet (stbs : Nat → Query) (server : Server) (starts : Bool) : Server :=
  let request := server.requests
  let server := server.ctxCreate .stb
  match server.dbpoolGet with
  | none => server
  | some (m, server) => (server.setNumber (.stb request) (some 1)).mysqlQuery m (stbs request) starts

/-- `stb_ps_get`. -/
def stbPsGet (server : Server) (starts : Bool) : Server := server.boxesGet .psStbs starts

/-- `stb_mark_get`. -/
def stbMarkGet (server : Server) (starts : Bool) : Server := server.boxesGet .markStbs starts

/-- `phone_playhistory_get`, which frees its connection twice where the query does not start. -/
def phonePlayhistoryGet (server : Server) (starts : Bool) : Server :=
  let request := server.requests
  let server := server.ctxCreate .third
  match server.dbpoolGet with
  | none => server
  | some (m, server) =>
    let server := (server.setNumber (.third request) (some 1)).mysqlQuery m (.stbs request) starts
    if starts then server
    else ((server.dbpoolFree m).setNumber (.third request) none).dbpoolFree m

/-- `phone_mark_get`. -/
def phoneMarkGet (server : Server) (starts : Bool) : Server :=
  let request := server.requests
  let server := server.ctxCreate .third
  match server.dbpoolGet with
  | none => server.setNumber (.third request) none
  | some (m, server) =>
    let server := (server.setNumber (.third request) (some 1)).mysqlQuery m (.stbs request) starts
    if starts then server else (server.dbpoolFree m).setNumber (.third request) none

end Server

inductive Event
  | stbPlayhistoryAdd (starts : Bool)
  | stbMarkAdd (starts : Bool)
  | stbMarkDelete (starts : Bool)
  | phonePlayhistoryAdd (starts : Bool)
  | phoneMarkAdd (starts : Bool)
  | phoneMarkDelete (starts : Bool)
  | update (starts : Bool)
  | stbPsGet (starts : Bool)
  | stbMarkGet (starts : Bool)
  | phonePlayhistoryGet (starts : Bool)
  | phoneMarkGet (starts : Bool)
  | answer (m : Nat) (answer : Answer)

def Server.step (server : Server) : Event → Option Server
  | .stbPlayhistoryAdd starts => some (server.stbPlayhistoryAdd starts)
  | .stbMarkAdd starts => some (server.stbMarkAdd starts)
  | .stbMarkDelete starts => some (server.stbMarkDelete starts)
  | .phonePlayhistoryAdd starts => some (server.phonePlayhistoryAdd starts)
  | .phoneMarkAdd starts => some (server.phoneMarkAdd starts)
  | .phoneMarkDelete starts => some (server.phoneMarkDelete starts)
  | .update starts => some (server.update starts)
  | .stbPsGet starts => some (server.stbPsGet starts)
  | .stbMarkGet starts => some (server.stbMarkGet starts)
  | .phonePlayhistoryGet starts => some (server.phonePlayhistoryGet starts)
  | .phoneMarkGet starts => some (server.phoneMarkGet starts)
  | .answer m answer => server.answer m answer

/-- What is reached by events that all meet `P`, from a pool with these connections. -/
inductive Reach (P : Server → Event → Prop) (mysqls : List Nat) : Option Server → Prop
  | start : Reach P mysqls (some (Server.create mysqls))
  | step {server : Server} {event : Event} (hr : Reach P mysqls (some server))
      (hp : P server event) : Reach P mysqls (server.step event)

/-- Each connection either is in the pool, once, with no query in progress, and has been
returned once since it was last taken; or it is out of the pool with a query in progress, and
has not been returned. -/
def Server.Exclusive (server : Server) (mysqls : List Nat) : Prop :=
  ∀ m ∈ mysqls,
    server.mysqls.count m = 1 ∧ server.returned m = 1 ∧ (server.mysql m).inProgress = false ∨
    server.mysqls.count m = 0 ∧ server.returned m = 0 ∧ (server.mysql m).inProgress = true

/-- There is no connection for a query, or it starts. -/
def Server.Starts (server : Server) (starts : Bool) : Prop := server.mysqls = [] ∨ starts = true

/-- The callback of a query that does not lose its connection or return it too early or twice. -/
def Server.Keeps (server : Server) : Query → Answer → Prop
  | .psStbs request, .row parsed starts =>
    server.number (.stb request) ≠ none ∧ parsed = true ∧ server.mysqls ≠ [] ∧ starts = true
  | .markStbs request, .row parsed starts =>
    server.number (.stb request) ≠ none ∧ parsed = true ∧ server.mysqls ≠ [] ∧ starts = true
  | .psStbs request, .done start =>
    server.number (.stb request) ≠ none ∧ (server.mysqls = [] ∨ start ≠ .failed)
  | .markStbs request, .done start =>
    server.number (.stb request) ≠ none ∧ (server.mysqls = [] ∨ start ≠ .failed)
  | .psItems request, .done _ => ∃ n, server.number (.stb request) = some n ∧ 1 < n
  | .psStbs request, .error | .markStbs request, .error | .psItems request, _ |
    .markItems request, _ => server.number (.stb request) ≠ none
  | _, _ => True

/-- An event that does not lose a connection or return it too early or twice. -/
def Server.Careful (server : Server) : Event → Prop
  | .phoneMarkGet _ | .update _ => True
  | .answer m answer =>
    match server.mysql m with
    | .init => True
    | .query query => server.Keeps query answer
    | .fetch query => server.Keeps query answer
    | .failed _ => False
  | .stbPlayhistoryAdd starts | .stbMarkAdd starts | .stbMarkDelete starts
  | .phonePlayhistoryAdd starts | .phoneMarkAdd starts | .phoneMarkDelete starts
  | .stbPsGet starts | .stbMarkGet starts | .phonePlayhistoryGet starts => server.Starts starts

/-- The request of `/third` that a query belongs to. -/
def Query.third : Query → Option Nat
  | .stbs request => some request
  | .phones request => some request
  | .items request => some request
  | _ => none

/-- The request of `/stb` that a query belongs to. -/
def Query.stb : Query → Option Nat
  | .psStbs request => some request
  | .psItems request => some request
  | .markStbs request => some request
  | .markItems request => some request
  | _ => none

/-- The query in progress on a connection. -/
def Mysql.running : Mysql → Option Query
  | .init => none
  | .query running => some running
  | .fetch running => some running
  | .failed _ => none

/-- The query in progress on a connection belongs to this request of `/third`. -/
def Mysql.of (request : Nat) (mysql : Mysql) : Nat :=
  if mysql.running.bind Query.third = some request then 1 else 0

/-- The queries in progress of a request of `/third`. -/
def Server.queries (server : Server) (mysqls : List Nat) (request : Nat) : Nat :=
  (mysqls.map fun m => (server.mysql m).of request).sum

/-- Where a callback is that holds these connections, and a count of this request of `/third`:
each connection is in one place, and the `number` of a request of `/third` is at least that of
its queries in progress. -/
structure Holds (server : Server) (mysqls held : List Nat) (own : Option Nat) : Prop where
  nodup : mysqls.Nodup
  count : ∀ m, server.mysqls.count m + held.count m + (server.mysql m).inProgress.toNat = mysqls.count m
  returned : ∀ m ∈ mysqls, server.returned m = server.mysqls.count m
  number : ∀ request, server.queries mysqls request + own.toList.count request = 0 ∨
    ∃ n, server.number (.third request) = some n ∧
      server.queries mysqls request + own.toList.count request ≤ n
  fresh : ∀ request, server.requests ≤ request →
    server.queries mysqls request + own.toList.count request = 0
  boxes : ∀ {m query request}, (server.mysql m).running = some query → query.stb = some request →
    request < server.requests ∧ server.number (.stb request) ≠ some 0

theorem running_progress (mysql : Mysql) : mysql.inProgress = mysql.running.isSome := by
  cases mysql <;> rfl

theorem sum_update {f : Nat → Mysql} {m : Nat} {mysql : Mysql} {mysqls : List Nat} (g : Mysql → Nat)
    (hnodup : mysqls.Nodup) (hm : m ∈ mysqls) :
    (mysqls.map fun k => g (Function.update f m mysql k)).sum + g (f m) =
      (mysqls.map fun k => g (f k)).sum + g mysql := by
  induction mysqls with
  | nil => cases hm
  | cons k mysqls ih =>
    obtain ⟨hk, hnodup⟩ := List.nodup_cons.mp hnodup
    simp only [List.map_cons, List.sum_cons]
    by_cases hkm : k = m
    · subst hkm
      have hrest : (mysqls.map fun j => g (Function.update f k mysql j)) = mysqls.map fun j => g (f j) := by
        refine List.map_congr_left fun j hj => ?_
        rw [Function.update_of_ne (ne_of_mem_of_not_mem hj hk)]
      rw [hrest, Function.update_self]
      omega
    · rw [Function.update_of_ne hkm]
      rcases List.mem_cons.mp hm with rfl | hm
      · exact absurd rfl hkm
      · have := ih hnodup hm
        omega

section
variable {server : Server} {mysqls held : List Nat} {own : Option Nat} {m : Nat}

theorem queries_set (hnodup : mysqls.Nodup) (hm : m ∈ mysqls) (mysql : Mysql) (request : Nat) :
    (server.setMysql m mysql).queries mysqls request + (server.mysql m).of request =
      server.queries mysqls request + mysql.of request :=
  sum_update (fun mysql => mysql.of request) hnodup hm

/-- A connection that a callback holds. -/
theorem Holds.mem (h : Holds server mysqls (m :: held) own) : m ∈ mysqls ∧ m ∉ server.mysqls ∧
    m ∉ held ∧ (server.mysql m).inProgress = false := by
  have hcount := h.count m
  have hone := List.nodup_iff_count_le_one.mp h.nodup m
  rw [List.count_cons_self] at hcount
  refine ⟨List.count_pos_iff.mp (by omega), fun hm => ?_, fun hm => ?_, ?_⟩
  · have := List.count_pos_iff.mpr hm
    omega
  · have := List.count_pos_iff.mpr hm
    omega
  · cases hprogress : (server.mysql m).inProgress with
    | false => rfl
    | true =>
      rw [hprogress, Bool.toNat_true] at hcount
      omega

/-- A connection with a query in progress. -/
theorem Holds.running (h : Holds server mysqls held own) {query : Query}
    (hquery : (server.mysql m).running = some query) : m ∈ mysqls ∧ m ∉ server.mysqls ∧ m ∉ held := by
  have hcount := h.count m
  have hone := List.nodup_iff_count_le_one.mp h.nodup m
  rw [running_progress, hquery, Option.isSome_some, Bool.toNat_true] at hcount
  refine ⟨List.count_pos_iff.mp (by omega), fun hm => ?_, fun hm => ?_⟩
  · have := List.count_pos_iff.mpr hm
    omega
  · have := List.count_pos_iff.mpr hm
    omega

theorem Holds.get (h : Holds server mysqls held own) {server' : Server}
    (hget : server.dbpoolGet = some (m, server')) : Holds server' mysqls (m :: held) own ∧
      server'.number = server.number ∧ server'.requests = server.requests ∧ server'.mysql = server.mysql := by
  cases hpool : server.mysqls with
  | nil =>
    rw [Server.dbpoolGet, hpool] at hget
    cases hget
  | cons k rest =>
    rw [Server.dbpoolGet, hpool] at hget
    cases hget
    have hcount := h.count
    have hone := List.nodup_iff_count_le_one.mp h.nodup
    simp only [hpool] at hcount
    refine ⟨⟨h.nodup, fun j => ?_, fun j hj => ?_, h.number, h.fresh, h.boxes⟩, rfl, rfl, rfl⟩
    · have hj := hcount j
      rw [List.count_cons] at hj ⊢
      simp only
      omega
    · have hcj := hcount j
      have hret := h.returned j hj
      have hle := hone j
      rw [hpool] at hret
      simp only
      by_cases hjk : j = m
      · subst hjk
        rw [List.count_cons_self] at hcj
        rw [Function.update_self]
        omega
      · rw [Function.update_of_ne hjk, hret, List.count_cons_of_ne (Ne.symm hjk)]

theorem Holds.free (h : Holds server mysqls (m :: held) own) :
    Holds (server.dbpoolFree m) mysqls held own := by
  obtain ⟨hm, hpool, -, -⟩ := h.mem
  have herase : server.mysqls.erase m = server.mysqls := List.erase_of_not_mem hpool
  refine ⟨h.nodup, fun j => ?_, fun j hj => ?_, h.number, h.fresh, h.boxes⟩
  · have hcount := h.count j
    simp only [Server.dbpoolFree, herase, List.count_append, List.count_cons, List.count_nil] at hcount ⊢
    omega
  · have hret := h.returned j hj
    simp only [Server.dbpoolFree, herase, List.count_append]
    by_cases hjm : j = m
    · subst hjm
      simp [hret]
    · simp [Function.update_of_ne hjm, hret, Ne.symm hjm]

theorem queries_congr {server' : Server}
    (hall : ∀ j, (server'.mysql j).running = (server.mysql j).running) (request : Nat) :
    server'.queries mysqls request = server.queries mysqls request := by
  refine congrArg List.sum (List.map_congr_left fun j _ => ?_)
  simp only [Mysql.of, hall j]

/-- The same queries stay in progress on the same connections. -/
theorem Holds.set (h : Holds server mysqls held own) {server' : Server}
    (hall : ∀ j, (server'.mysql j).running = (server.mysql j).running)
    (hsame : server' = { server with mysql := server'.mysql }) : Holds server' mysqls held own := by
  have hqueries := @queries_congr server mysqls server' hall
  rw [hsame] at hqueries ⊢
  refine ⟨h.nodup, fun j => ?_, h.returned, fun request => ?_, fun request hle => ?_, ?_⟩
  · rw [← h.count j, running_progress, running_progress, hall]
  · rw [hqueries]
    exact h.number request
  · rw [hqueries]
    exact h.fresh request hle
  · intro j query request hquery hstb
    exact h.boxes ((hall j).symm.trans hquery) hstb

theorem set_running {mysql : Mysql} (hrunning : mysql.running = (server.mysql m).running) (j : Nat) :
    ((server.setMysql m mysql).mysql j).running = (server.mysql j).running := by
  by_cases hjm : j = m
  · subst hjm
    simpa [Server.setMysql] using hrunning
  · simp [Server.setMysql, Function.update_of_ne hjm]

/-- A query that does not start leaves the connection without one. -/
theorem fail_running (query : Query) (j : Nat) :
    ((server.mysqlQuery m query false).mysql j).running = (server.mysql j).running := by
  rw [Server.mysqlQuery, if_neg Bool.false_ne_true]
  split
  · rename_i heq
    exact set_running (by rw [heq]; rfl) j
  · rfl

theorem Holds.fail (h : Holds server mysqls held own) (query : Query) :
    Holds (server.mysqlQuery m query false) mysqls held own := by
  apply h.set (fail_running query)
  rw [Server.mysqlQuery, if_neg Bool.false_ne_true]
  split <;> rfl

/-- A query starts, whose request has been counted. -/
theorem Holds.start {query : Query} (h : Holds server mysqls (m :: held) query.third)
    (hstb : ∀ {request}, query.stb = some request →
      request < server.requests ∧ server.number (.stb request) ≠ some 0) :
    Holds (server.mysqlQuery m query true) mysqls held none := by
  obtain ⟨hm, -, -, hidle⟩ := h.mem
  have hrunning : (server.mysql m).running = none := by
    rw [running_progress] at hidle
    simpa using hidle
  have hqueries : ∀ request, (server.mysqlQuery m query true).queries mysqls request =
      server.queries mysqls request + query.third.toList.count request := by
    intro request
    have hset := @queries_set server mysqls m h.nodup hm (.query query) request
    have hold : (server.mysql m).of request = 0 := by simp [Mysql.of, hrunning]
    have hnew : (Mysql.query query).of request = query.third.toList.count request := by
      cases hthird : query.third <;> simp [Mysql.of, Mysql.running, hthird, List.count_singleton, beq_iff_eq]
    rw [Server.mysqlQuery, if_pos rfl]
    omega
  refine ⟨h.nodup, fun j => ?_, h.returned, fun request => ?_, fun request hle => ?_, ?_⟩
  · have hcount := h.count j
    rw [Server.mysqlQuery, if_pos rfl]
    by_cases hjm : j = m
    · subst hjm
      rw [hidle, List.count_cons_self] at hcount
      simpa [Server.setMysql, Mysql.inProgress, add_assoc] using hcount
    · simpa [Server.setMysql, Function.update_of_ne hjm, List.count_cons_of_ne (Ne.symm hjm)] using hcount
  · rw [hqueries]
    simpa [Server.mysqlQuery, Server.setMysql] using h.number request
  · rw [hqueries]
    simpa using h.fresh request hle
  · intro j query' request hquery hstb'
    by_cases hjm : j = m
    · subst hjm
      rw [Server.mysqlQuery, if_pos rfl, Server.setMysql] at hquery
      simp only [Function.update_self, Mysql.running, Option.some.injEq] at hquery
      subst hquery
      exact hstb hstb'
    · rw [Server.mysqlQuery, if_pos rfl, Server.setMysql] at hquery
      simp only [Function.update_of_ne hjm] at hquery
      exact h.boxes hquery hstb'

/-- A query is over, and its callback holds the connection and a count of its request. -/
theorem Holds.over (h : Holds server mysqls held none) {query : Query} {mysql : Mysql}
    (hquery : (server.mysql m).running = some query) (hmysql : mysql.running = none) :
    Holds (server.setMysql m mysql) mysqls (m :: held) query.third := by
  obtain ⟨hm, -, -⟩ := h.running hquery
  have hprogress : (server.mysql m).inProgress = true := by rw [running_progress, hquery]; rfl
  have hover : mysql.inProgress = false := by rw [running_progress, hmysql]; rfl
  have hqueries : ∀ request, (server.setMysql m mysql).queries mysqls request +
      query.third.toList.count request = server.queries mysqls request := by
    intro request
    have hset := @queries_set server mysqls m h.nodup hm mysql request
    have hnew : mysql.of request = 0 := by simp [Mysql.of, hmysql]
    have hold : (server.mysql m).of request = query.third.toList.count request := by
      cases hthird : query.third <;> simp [Mysql.of, hquery, hthird, List.count_singleton, beq_iff_eq]
    omega
  refine ⟨h.nodup, fun j => ?_, h.returned, fun request => ?_, fun request hle => ?_, ?_⟩
  · have hcount := h.count j
    by_cases hjm : j = m
    · subst hjm
      simpa [hprogress, Server.setMysql, hover, add_assoc] using hcount
    · simpa [Server.setMysql, Function.update_of_ne hjm, Ne.symm hjm] using hcount
  · rw [hqueries]
    simpa [Server.setMysql] using h.number request
  · rw [hqueries]
    simpa using h.fresh request hle
  · intro j query' request hquery' hstb
    by_cases hjm : j = m
    · subst hjm
      simp [Server.setMysql, hmysql] at hquery'
    · simp only [Server.setMysql, Function.update_of_ne hjm] at hquery'
      exact h.boxes hquery' hstb

/-- The `number` of a request of `/third` that a query is in progress of. -/
theorem Holds.there (h : Holds server mysqls held own) {query : Query} {request : Nat}
    (hquery : (server.mysql m).running = some query) (hthird : query.third = some request) :
    ∃ n, server.number (.third request) = some n ∧ request < server.requests := by
  obtain ⟨hm, -, -⟩ := h.running hquery
  have hpos : 0 < server.queries mysqls request := by
    have hle := List.single_le_sum (fun _ _ => Nat.zero_le _) _
      (List.mem_map_of_mem (f := fun m => (server.mysql m).of request) hm)
    have hone : (server.mysql m).of request = 1 := by simp [Mysql.of, hquery, hthird]
    rw [hone] at hle
    exact hle
  have hlt : request < server.requests := by
    by_contra hle
    have := h.fresh request (by omega)
    omega
  rcases h.number request with hzero | ⟨n, hn, -⟩
  · omega
  · exact ⟨n, hn, hlt⟩

/-- `++(*n)`. -/
theorem Holds.count_up (h : Holds server mysqls held none) {request n : Nat}
    (hn : server.number (.third request) = some n) (hlt : request < server.requests) :
    Holds (server.setNumber (.third request) (some (n + 1))) mysqls held (some request) := by
  refine ⟨h.nodup, h.count, h.returned, fun request' => ?_, fun request' hle => ?_, ?_⟩
  · have hnumber := h.number request'
    by_cases heq : request' = request
    · subst heq
      refine .inr ⟨n + 1, by simp [Server.setNumber], ?_⟩
      have hle : server.queries mysqls request' ≤ n := by
        rcases hnumber with hzero | ⟨k, hk, hle⟩
        · simp only [Option.toList_none, List.count_nil] at hzero
          omega
        · rw [hn] at hk
          cases hk
          simpa using hle
      simpa [Server.queries, Server.setNumber] using hle
    · simpa [Server.setNumber, heq, Ne.symm heq, Server.queries] using hnumber
  · have hne : request ≠ request' := by
      rintro rfl
      exact absurd hlt (Nat.not_lt.mpr hle)
    simpa [hne, Server.queries, Server.setNumber] using h.fresh request' hle
  · intro j query request' hquery hstb
    simpa [Server.setNumber] using h.boxes hquery hstb

/-- `--(*n)`. -/
theorem Holds.count_down {request : Nat} (h : Holds server mysqls held (some request)) :
    ∃ server', server.countDown (.third request) = some server' ∧ Holds server' mysqls held none := by
  rcases h.number request with hzero | ⟨n, hn, hle⟩
  · simp at hzero
  · simp only [Option.toList_some, List.count_singleton_self] at hle
    rw [Server.countDown, hn, Option.map_some]
    refine ⟨_, rfl, ⟨h.nodup, h.count, h.returned, ?_, ?_, ?_⟩⟩
    · intro request'
      have hnumber := h.number request'
      by_cases heq : request' = request
      · subst heq
        by_cases hlast : n - 1 = 0
        · left
          simp only [Server.queries, Server.setNumber, Option.toList_none, List.count_nil] at hle ⊢
          omega
        · refine .inr ⟨n - 1, by simp [Server.setNumber, hlast], ?_⟩
          simp only [Server.queries, Server.setNumber, Option.toList_none, List.count_nil] at hle ⊢
          omega
      · simpa [Server.setNumber, heq, Ne.symm heq, Server.queries] using hnumber
    · intro request' hle'
      have hfresh := h.fresh request' hle'
      simp only [Server.queries, Server.setNumber, Option.toList_none, List.count_nil] at hfresh ⊢
      omega
    · intro j query request' hquery hstb
      simpa [Server.setNumber] using h.boxes hquery hstb

/-- The count of a query that does not start stays. -/
theorem Holds.drop (h : Holds server mysqls held own) : Holds server mysqls held none := by
  refine ⟨h.nodup, h.count, h.returned, fun request => ?_, fun request hle => ?_, h.boxes⟩
  · simp only [Option.toList_none, List.count_nil]
    rcases h.number request with hzero | ⟨n, hn, hle⟩
    · exact .inl (by omega)
    · exact .inr ⟨n, hn, by omega⟩
  · have := h.fresh request hle
    simp only [Option.toList_none, List.count_nil]
    omega

theorem Holds.stb (h : Holds server mysqls held own) (request : Nat) {number : Option Nat}
    (hnumber : number ≠ some 0) : Holds (server.setNumber (.stb request) number) mysqls held own := by
  refine ⟨h.nodup, h.count, h.returned, fun request' => ?_, h.fresh, ?_⟩
  · simpa [Server.setNumber, Server.queries] using h.number request'
  · intro j query request' hquery hstb
    obtain ⟨hlt, hzero⟩ := h.boxes hquery hstb
    refine ⟨hlt, ?_⟩
    by_cases heq : request' = request
    · subst heq
      simpa [Server.setNumber] using hnumber
    · simpa [Server.setNumber, heq] using hzero

/-- The context of a request without queries is destroyed. -/
theorem Holds.destroy (h : Holds server mysqls held own) {request : Nat} (number : Option Nat)
    (hzero : server.queries mysqls request + own.toList.count request = 0) :
    Holds (server.setNumber (.third request) number) mysqls held own := by
  refine ⟨h.nodup, h.count, h.returned, fun request' => ?_, h.fresh, fun hquery hstb => ?_⟩
  · by_cases heq : request' = request
    · subst heq
      exact .inl hzero
    · simpa [Server.setNumber, heq, Server.queries] using h.number request'
  · simpa [Server.setNumber] using h.boxes hquery hstb

theorem Holds.create (h : Holds server mysqls held own) {ctx : Nat → Ctx}
    (hctx : ctx = .stb ∨ ctx = .third) : Holds (server.ctxCreate ctx) mysqls held own := by
  have hthird : ∀ request, ctx server.requests = .third request → request = server.requests := by
    rintro request heq
    rcases hctx with rfl | rfl <;> cases heq
    rfl
  have hstb : ∀ request, ctx server.requests = .stb request → request = server.requests := by
    rintro request heq
    rcases hctx with rfl | rfl <;> cases heq
    rfl
  refine ⟨h.nodup, h.count, h.returned, fun request => ?_, fun request hle => ?_, ?_⟩
  · by_cases heq : Ctx.third request = ctx server.requests
    · exact .inl (h.fresh request (hthird request heq.symm).ge)
    · simpa [Server.ctxCreate, Server.setNumber, heq, Server.queries] using h.number request
  · exact h.fresh request (Nat.le_of_succ_le hle)
  · intro j query request hquery hq
    obtain ⟨hlt, hzero⟩ := h.boxes hquery hq
    have hne : Ctx.stb request ≠ ctx server.requests := fun heq => hlt.ne (hstb request heq.symm)
    exact ⟨Nat.lt_succ_of_lt hlt, by simpa [Server.ctxCreate, Server.setNumber, hne] using hzero⟩


/-- Each connection is taken from the pool, or there is none. -/
theorem Holds.get_cases (h : Holds server mysqls held own) :
    server.mysqls = [] ∧ server.dbpoolGet = none ∨
    ∃ m server', server.dbpoolGet = some (m, server') ∧ Holds server' mysqls (m :: held) own ∧
      server'.number = server.number ∧ server'.requests = server.requests ∧
      ∀ request, server'.queries mysqls request = server.queries mysqls request := by
  cases hget : server.dbpoolGet with
  | none =>
    left
    cases hpool : server.mysqls with
    | nil => exact ⟨rfl, rfl⟩
    | cons k rest =>
      rw [Server.dbpoolGet, hpool] at hget
      cases hget
  | some got =>
    obtain ⟨k, server'⟩ := got
    obtain ⟨hget', hnumber, hrequests, hmysql⟩ := h.get hget
    exact .inr ⟨k, server', rfl, hget', hnumber, hrequests, fun _ => by rw [Server.queries, hmysql]; rfl⟩

/-- The query for the entries of a box starts. -/
theorem Holds.start_items (h : Holds server mysqls (m :: held) none) {items : Query} {request n : Nat}
    (hitems : items.third = none) (hbox : items.stb = some request) (hlt : request < server.requests) :
    Holds ((server.setNumber (.stb request) (some (n + 1))).mysqlQuery m items true) mysqls held none ∧
      ((server.setNumber (.stb request) (some (n + 1))).mysqlQuery m items true).number (.stb request) =
        some (n + 1) := by
  have hnumber : (server.setNumber (.stb request) (some (n + 1))).number (.stb request) = some (n + 1) :=
    Function.update_self ..
  have hup : Holds (server.setNumber (.stb request) (some (n + 1))) mysqls (m :: held) none :=
    h.stb request (by simp)
  refine ⟨Holds.start (hitems.symm ▸ hup) fun heq => ?_, hnumber⟩
  rw [hbox] at heq
  cases heq
  exact ⟨hlt, by simp [hnumber]⟩

/-- `ps_get` and `mark_get` on a row that a query is started for. -/
theorem box_get (h : Holds server mysqls [] none) {items : Query} {request : Nat}
    (hitems : items.third = none) (hbox : items.stb = some request) (hlt : request < server.requests)
    (hctx : server.number (.stb request) ≠ none) {parsed starts : Bool}
    (hparsed : parsed = true) (hpool : server.mysqls ≠ []) (hstarts : starts = true) (mysql : Nat) :
    ∃ server', Server.boxGet items server mysql request parsed starts = some server' ∧
      Holds server' mysqls [] none := by
  obtain ⟨n, hn⟩ := Option.ne_none_iff_exists'.mp hctx
  rcases h.get_cases with ⟨hempty, -⟩ | ⟨m, server', hget, h', -, hrequests, -⟩
  · exact absurd hempty hpool
  · refine ⟨((server'.setNumber (.stb request) (some (n + 1))).mysqlQuery m items true), ?_,
      (h'.start_items hitems hbox (hrequests ▸ hlt)).1⟩
    subst hparsed hstarts
    rw [Server.boxGet, hn, Option.map_some, hget]
    rfl

/-- `fstb_get`, `stb_get`, `fphone_get` and `phone_get`, whatever comes of the row. -/
theorem third_get (h : Holds server mysqls [] none) {query : Query} {request n : Nat}
    (hthird : query.third = some request) (hn : server.number (.third request) = some n)
    (hlt : request < server.requests) (parsed starts : Bool) :
    ∃ server', Server.thirdGet query server request parsed starts = some server' ∧
      Holds server' mysqls [] none := by
  rw [Server.thirdGet, hn, Option.map_some]
  refine ⟨_, rfl, ?_⟩
  cases parsed with
  | false => exact h
  | true =>
    rcases h.get_cases with ⟨-, hget⟩ | ⟨m, server', hget, h', hnumber, hrequests, -⟩
    · rw [hget]
      exact h
    · have hup := h'.count_up (hnumber ▸ hn) (hrequests ▸ hlt)
      rw [hget]
      cases starts with
      | true =>
        refine Holds.start (hthird.symm ▸ hup) fun heq => ?_
        cases query <;> cases hthird <;> cases heq
      | false => exact ((hup.fail query).free).drop

/-- The end of a query of `/third`, with an error or without. -/
theorem third_error {request : Nat} (h : Holds server mysqls [m] (some request)) :
    ∃ server', server.thirdError m request = some server' ∧ Holds server' mysqls [] none :=
  h.free.count_down

theorem get_error (h : Holds server mysqls [m] none) {request : Nat}
    (hctx : server.number (.stb request) ≠ none) :
    ∃ server', server.getError m request = some server' ∧ Holds server' mysqls [] none := by
  obtain ⟨n, hn⟩ := Option.ne_none_iff_exists'.mp hctx
  rw [Server.getError, hn, Option.map_some]
  exact ⟨_, rfl, h.free.stb request (by simp)⟩

/-- `ps_get_done` where the request has other queries. -/
theorem ps_get_done (h : Holds server mysqls (m :: held) none) {request n : Nat}
    (hn : server.number (.stb request) = some n) (hlt : 1 < n) :
    ∃ server', server.psGetDone m request = some server' ∧ Holds server' mysqls held none ∧
      server'.number (.stb request) = some (n - 1) := by
  have hpos : n - 1 ≠ 0 := by omega
  rw [Server.psGetDone, hn, Option.map_some, if_neg hpos]
  exact ⟨_, rfl, (h.stb request (by simpa using hpos)).free, Function.update_self ..⟩

/-- `--(*n)` of a request of `/stb`. -/
theorem Holds.count_stb (h : Holds server mysqls held none) {request n : Nat}
    (hn : server.number (.stb request) = some n) :
    ∃ server', server.countDown (.stb request) = some server' ∧ Holds server' mysqls held none ∧
      (1 < n → server'.number (.stb request) = some (n - 1)) := by
  rw [Server.countDown, hn, Option.map_some]
  by_cases hlast : n - 1 = 0
  · rw [if_pos hlast]
    exact ⟨_, rfl, h.stb request (by simp), fun hlt => by omega⟩
  · rw [if_neg hlast]
    exact ⟨_, rfl, h.stb request (by simpa using hlast), fun _ => Function.update_self ..⟩

theorem mark_get_done (h : Holds server mysqls (m :: held) none) {request n : Nat}
    (hn : server.number (.stb request) = some n) :
    ∃ server', server.markGetDone m request = some server' ∧ Holds server' mysqls held none ∧
      (1 < n → server'.number (.stb request) = some (n - 1)) := by
  obtain ⟨server', hcount, h', hnumber⟩ := h.count_stb hn
  rw [Server.markGetDone, hcount, Option.map_some]
  exact ⟨_, rfl, h'.free, hnumber⟩

/-- `stb_get_done` and `stb_get_done2`, where the query that they start does start. -/
theorem box_get_done (h : Holds server mysqls [m] none) {items : Query} {request n : Nat}
    (hitems : items.third = none) (hbox : items.stb = some request) (hlt : request < server.requests)
    {itemsDone : Server → Nat → Nat → Option Server}
    (hdone : ∀ {server k n}, Holds server mysqls [k, m] none → server.number (.stb request) = some n →
      1 < n → ∃ server', itemsDone server k request = some server' ∧ Holds server' mysqls [m] none ∧
        server'.number (.stb request) = some (n - 1))
    (hn : server.number (.stb request) = some n) (hpos : n ≠ 0) {start : Start}
    (hstart : server.mysqls = [] ∨ start ≠ .failed) :
    ∃ server', Server.boxGetDone items itemsDone server m request start = some server' ∧
      Holds server' mysqls [] none := by
  have hend : ∀ {server : Server} {k : Nat}, Holds server mysqls [m] none →
      server.number (.stb request) = some k → ∃ server',
      ((server.countDown (.stb request)).map fun server => server.dbpoolFree m) = some server' ∧
        Holds server' mysqls [] none := by
    intro server k hs hk
    obtain ⟨server', hcount, h', -⟩ := hs.count_stb hk
    rw [hcount, Option.map_some]
    exact ⟨_, rfl, h'.free⟩
  rw [Server.boxGetDone, hn, Option.bind_some]
  rcases h.get_cases with ⟨-, hget⟩ | ⟨k, server', hget, h', hnumber, hrequests, -⟩
  · rw [hget]
    exact hend h hn
  · have hpool : server.mysqls ≠ [] := by
      intro hempty
      rw [Server.dbpoolGet, hempty] at hget
      cases hget
    obtain ⟨hstarted, hnumber'⟩ := h'.start_items (n := n) hitems hbox (hrequests ▸ hlt)
    rw [hget]
    cases start with
    | failed => exact absurd rfl (hstart.resolve_left hpool)
    | started => exact hend hstarted hnumber'
    | finished =>
      have hrunning : (((server'.setNumber (.stb request) (some (n + 1))).mysqlQuery k items true).mysql
          k).running = some items := by simp [Server.mysqlQuery, Server.setMysql, Mysql.running]
      have hover := @Holds.over _ _ _ _ hstarted items .init hrunning rfl
      rw [hitems] at hover
      obtain ⟨server'', hcalled, h'', hnumber''⟩ := hdone hover hnumber' (by omega)
      simp only [hcalled, Option.bind_some]
      exact hend h'' hnumber''


/-- The `work` callback of a query in progress. -/
theorem work_holds (h : Holds server mysqls [] none) {query : Query}
    (hquery : (server.mysql m).running = some query) {parsed starts : Bool}
    (hkeeps : server.Keeps query (.row parsed starts)) :
    ∃ server', server.work m parsed starts query = some server' ∧ Holds server' mysqls [] none := by
  cases query with
  | write => exact ⟨server, rfl, h⟩
  | save => exact ⟨server, rfl, h⟩
  | psStbs request =>
    obtain ⟨hctx, hparsed, hpool, hstarts⟩ := hkeeps
    exact box_get h rfl rfl (h.boxes hquery rfl).1 hctx hparsed hpool hstarts m
  | markStbs request =>
    obtain ⟨hctx, hparsed, hpool, hstarts⟩ := hkeeps
    exact box_get h rfl rfl (h.boxes hquery rfl).1 hctx hparsed hpool hstarts m
  | psItems request | markItems request =>
    obtain ⟨n, hn⟩ := Option.ne_none_iff_exists'.mp hkeeps
    exact ⟨server, by rw [Server.work, Server.getWork, hn, Option.map_some], h⟩
  | stbs request =>
    obtain ⟨n, hn, hlt⟩ := h.there hquery rfl
    exact third_get h rfl hn hlt parsed starts
  | phones request =>
    obtain ⟨n, hn, hlt⟩ := h.there hquery rfl
    exact third_get h rfl hn hlt parsed starts
  | items request =>
    obtain ⟨n, hn, -⟩ := h.there hquery rfl
    exact ⟨server, by rw [Server.work, Server.getWork, hn, Option.map_some], h⟩

/-- The `done` callback of a query that is over. -/
theorem done_holds {query : Query} (h : Holds server mysqls [m] query.third)
    (hbox : ∀ {request}, query.stb = some request →
      request < server.requests ∧ server.number (.stb request) ≠ some 0) {start : Start}
    (hkeeps : server.Keeps query (.done start)) :
    ∃ server', server.done m start query = some server' ∧ Holds server' mysqls [] none := by
  cases query with
  | write => exact ⟨_, rfl, h.free⟩
  | save => exact ⟨_, rfl, h.free⟩
  | psStbs request =>
    obtain ⟨hctx, hstart⟩ := hkeeps
    obtain ⟨n, hn⟩ := Option.ne_none_iff_exists'.mp hctx
    obtain ⟨hlt, hzero⟩ := hbox rfl
    rw [hn] at hzero
    exact box_get_done h rfl rfl hlt (fun hs hk hone => ps_get_done hs hk hone) hn (by simpa using hzero) hstart
  | markStbs request =>
    obtain ⟨hctx, hstart⟩ := hkeeps
    obtain ⟨n, hn⟩ := Option.ne_none_iff_exists'.mp hctx
    obtain ⟨hlt, hzero⟩ := hbox rfl
    rw [hn] at hzero
    refine box_get_done h rfl rfl hlt (fun hs hk hone => ?_) hn (by simpa using hzero) hstart
    obtain ⟨server', hdone, h', hnumber⟩ := mark_get_done hs hk
    exact ⟨server', hdone, h', hnumber hone⟩
  | psItems request =>
    obtain ⟨n, hn, hlt⟩ := hkeeps
    obtain ⟨server', hdone, h', -⟩ := ps_get_done h hn hlt
    exact ⟨server', hdone, h'⟩
  | markItems request =>
    obtain ⟨n, hn⟩ := Option.ne_none_iff_exists'.mp hkeeps
    obtain ⟨server', hdone, h', -⟩ := mark_get_done h hn
    exact ⟨server', hdone, h'⟩
  | stbs request | phones request | items request => exact third_error h

/-- The `error` callback of a query that has failed. -/
theorem error_holds {query : Query} (h : Holds server mysqls [m] query.third)
    (hkeeps : server.Keeps query .error) :
    ∃ server', server.error m query = some server' ∧ Holds server' mysqls [] none := by
  cases query with
  | write => exact ⟨_, rfl, h.free⟩
  | save => exact ⟨_, rfl, h.free⟩
  | psStbs request | psItems request | markStbs request | markItems request => exact get_error h hkeeps
  | stbs request | phones request | items request => exact third_error h

theorem keeps_set {query : Query} {answer : Answer} (mysql : Mysql)
    (h : server.Keeps query answer) : (server.setMysql m mysql).Keeps query answer := by
  cases query <;> cases answer <;> exact h

/-- An event on a connection with a query in progress. -/
theorem running_answer (h : Holds server mysqls [] none) {query : Query}
    (hquery : (server.mysql m).running = some query) {answer : Answer}
    (hkeeps : server.Keeps query answer) :
    ∃ server', server.answer m answer = some server' ∧ Holds server' mysqls [] none := by
  have hover : ∀ {mysql : Mysql}, mysql.running = none →
      Holds (server.setMysql m mysql) mysqls [m] query.third := fun hmysql => h.over hquery hmysql
  have hfetch : (server.setMysql m (.fetch query)).mysql m = .fetch query := Function.update_self ..
  have hrow : ∀ parsed starts, server.Keeps query (.row parsed starts) → ∃ server',
      (server.setMysql m (.fetch query)).work m parsed starts query = some server' ∧
        Holds server' mysqls [] none := by
    intro parsed starts hrow
    have hset : Holds (server.setMysql m (.fetch query)) mysqls [] none :=
      h.set (set_running hquery.symm) rfl
    exact work_holds hset (by rw [hfetch]; rfl) (keeps_set _ hrow)
  have hdone : ∀ start, server.Keeps query (.done start) → ∃ server',
      (server.setMysql m .init).done m start query = some server' ∧ Holds server' mysqls [] none :=
    fun start hdone => done_holds (hover rfl) (fun hstb => h.boxes hquery hstb) (keeps_set _ hdone)
  cases hmysql : server.mysql m with
  | init => rw [hmysql] at hquery; cases hquery
  | failed old => rw [hmysql] at hquery; cases hquery
  | query running =>
    rw [hmysql] at hquery
    cases hquery
    cases answer with
    | row parsed starts =>
      obtain ⟨server', hwork, h'⟩ := hrow parsed starts hkeeps
      exact ⟨server', by simpa only [Server.answer, hmysql] using hwork, h'⟩
    | done start =>
      obtain ⟨server', hdone, h'⟩ := hdone start hkeeps
      exact ⟨server', by simpa only [Server.answer, hmysql] using hdone, h'⟩
    | error =>
      obtain ⟨server', herror, h'⟩ := error_holds (hover rfl) (keeps_set (.failed query) hkeeps)
      exact ⟨server', by simpa only [Server.answer, hmysql] using herror, h'⟩
  | fetch running =>
    rw [hmysql] at hquery
    cases hquery
    cases answer with
    | row parsed starts =>
      obtain ⟨server', hwork, h'⟩ := hrow parsed starts hkeeps
      exact ⟨server', by simpa only [Server.answer, hmysql] using hwork, h'⟩
    | done start =>
      obtain ⟨server', hdone, h'⟩ := hdone start hkeeps
      exact ⟨server', by simpa only [Server.answer, hmysql] using hdone, h'⟩
    | error => exact ⟨server, by simp only [Server.answer, hmysql], h⟩

/-- An event on any connection. -/
theorem answer_holds (h : Holds server mysqls [] none) {answer : Answer}
    (hcareful : server.Careful (.answer m answer)) :
    ∃ server', server.answer m answer = some server' ∧ Holds server' mysqls [] none := by
  cases hmysql : server.mysql m with
  | init => exact ⟨server, by simp only [Server.answer, hmysql], h⟩
  | failed old =>
    rw [Server.Careful, hmysql] at hcareful
    exact hcareful.elim
  | query running =>
    rw [Server.Careful, hmysql] at hcareful
    exact running_answer h (by rw [hmysql]; rfl) hcareful
  | fetch running =>
    rw [Server.Careful, hmysql] at hcareful
    exact running_answer h (by rw [hmysql]; rfl) hcareful

theorem write_holds (h : Holds server mysqls [] none) {starts : Bool} (hstarts : server.Starts starts) :
    Holds (server.write starts) mysqls [] none := by
  rcases h.get_cases with ⟨-, hget⟩ | ⟨m, server', hget, h', -⟩
  · rw [Server.write, hget]
    exact h
  · rcases hstarts with hempty | rfl
    · rw [Server.dbpoolGet, hempty] at hget
      cases hget
    · rw [Server.write, hget]
      exact Holds.start h' fun heq => by cases heq

theorem update_holds (h : Holds server mysqls [] none) (starts : Bool) :
    Holds (server.update starts) mysqls [] none := by
  rcases h.get_cases with ⟨-, hget⟩ | ⟨m, server', hget, h', -⟩
  · rw [Server.update, hget]
    exact h
  · rw [Server.update, hget]
    cases starts with
    | true => exact Holds.start (h' : Holds server' mysqls [m] (Query.save).third) fun heq => by cases heq
    | false => exact (h'.fail .save).free

/-- `stb_ps_get` and `stb_mark_get`, where the first query starts. -/
theorem boxes_get (h : Holds server mysqls [] none) {stbs : Nat → Query}
    (hthird : (stbs server.requests).third = none)
    (hstb : (stbs server.requests).stb = some server.requests)
    {starts : Bool} (hstarts : server.Starts starts) : Holds (server.boxesGet stbs starts) mysqls [] none := by
  have hcreate := h.create (.inl rfl)
  rcases hcreate.get_cases with ⟨-, hget⟩ | ⟨m, server', hget, h', -, hrequests, -⟩
  · simp only [Server.boxesGet, hget]
    exact hcreate
  · rcases hstarts with hempty | rfl
    · have hpool : (server.ctxCreate .stb).mysqls = [] := hempty
      rw [Server.dbpoolGet, hpool] at hget
      cases hget
    · simp only [Server.boxesGet, hget]
      refine (h'.start_items (n := 0) hthird hstb ?_).1
      rw [hrequests]
      exact Nat.lt_succ_self _


/-- A new request of `/third` takes a connection, if there is one. -/
theorem third_create (h : Holds server mysqls [] none) :
    (server.ctxCreate .third).dbpoolGet = none ∨
    ∃ m server', (server.ctxCreate .third).dbpoolGet = some (m, server') ∧ Holds server' mysqls [m] none ∧
      server'.number (.third server.requests) = some 0 ∧ server.requests < server'.requests ∧
      server'.queries mysqls server.requests = 0 := by
  rcases (h.create (.inr rfl)).get_cases with ⟨-, hget⟩ | ⟨m, server', hget, h', hnumber, hrequests, hqueries⟩
  · exact .inl hget
  · refine .inr ⟨m, server', hget, h', ?_, ?_, ?_⟩
    · rw [hnumber]
      exact Function.update_self ..
    · rw [hrequests]
      exact Nat.lt_succ_self _
    · rw [hqueries]
      exact h.fresh server.requests (Nat.le_refl _)

/-- The first query of a request of `/third` starts. -/
theorem third_start (h : Holds server mysqls [m] none) {request : Nat}
    (hnumber : server.number (.third request) = some 0) (hlt : request < server.requests) :
    Holds ((server.setNumber (.third request) (some 1)).mysqlQuery m (.stbs request) true) mysqls [] none :=
  Holds.start (h.count_up hnumber hlt) fun heq => by cases heq

theorem phone_playhistory_get (h : Holds server mysqls [] none) {starts : Bool}
    (hstarts : server.Starts starts) : Holds (server.phonePlayhistoryGet starts) mysqls [] none := by
  rcases third_create h with hget | ⟨m, server', hget, h', hnumber, hlt, -⟩
  · simp only [Server.phonePlayhistoryGet, hget]
    exact h.create (.inr rfl)
  · rcases hstarts with hempty | rfl
    · have hpool : (server.ctxCreate .third).mysqls = [] := hempty
      rw [Server.dbpoolGet, hpool] at hget
      cases hget
    · simp only [Server.phonePlayhistoryGet, hget]
      exact third_start h' hnumber hlt

/-- `phone_mark_get` keeps its connection, also where the query does not start. -/
theorem phone_mark_get (h : Holds server mysqls [] none) (starts : Bool) :
    Holds (server.phoneMarkGet starts) mysqls [] none := by
  rcases third_create h with hget | ⟨m, server', hget, h', hnumber, hlt, hzero⟩
  · simp only [Server.phoneMarkGet, hget]
    exact (h.create (.inr rfl)).destroy none (h.fresh _ (Nat.le_refl _))
  · simp only [Server.phoneMarkGet, hget]
    cases starts with
    | true => exact third_start h' hnumber hlt
    | false =>
      have hone := h'.destroy (some 1) hzero
      apply ((hone.fail (.stbs server.requests)).free).destroy none
      have hqueries : ((server'.setNumber (.third server.requests) (some 1)).mysqlQuery m
          (.stbs server.requests) false).queries mysqls server.requests =
            server'.queries mysqls server.requests := queries_congr (fail_running _) _
      exact hqueries.trans hzero

/-- Every careful event comes back, and leaves each connection in one place. -/
theorem step_holds (h : Holds server mysqls [] none) {event : Event} (hcareful : server.Careful event) :
    ∃ server', server.step event = some server' ∧ Holds server' mysqls [] none := by
  cases event with
  | stbPlayhistoryAdd starts | stbMarkAdd starts | stbMarkDelete starts
  | phonePlayhistoryAdd starts | phoneMarkAdd starts | phoneMarkDelete starts =>
    exact ⟨_, rfl, write_holds h hcareful⟩
  | update starts => exact ⟨_, rfl, update_holds h starts⟩
  | stbPsGet starts => exact ⟨_, rfl, boxes_get h rfl rfl hcareful⟩
  | stbMarkGet starts => exact ⟨_, rfl, boxes_get h rfl rfl hcareful⟩
  | phonePlayhistoryGet starts => exact ⟨_, rfl, phone_playhistory_get h hcareful⟩
  | phoneMarkGet starts => exact ⟨_, rfl, phone_mark_get h starts⟩
  | answer m answer => exact answer_holds h hcareful

theorem create_holds (hnodup : mysqls.Nodup) : Holds (Server.create mysqls) mysqls [] none := by
  have hqueries : ∀ request, (Server.create mysqls).queries mysqls request = 0 := by
    intro request
    simp [Server.queries, Server.create, Mysql.of, Mysql.running]
  refine ⟨hnodup, fun m => rfl, fun m hm => ?_, fun request => .inl (hqueries request),
    fun request _ => hqueries request, fun hquery => by cases hquery⟩
  exact (List.count_eq_one_of_mem hnodup hm).symm

theorem Holds.exclusive (h : Holds server mysqls [] none) : server.Exclusive mysqls := by
  intro m hm
  have hcount := h.count m
  have hreturned := h.returned m hm
  rw [List.count_nil, List.count_eq_one_of_mem h.nodup hm] at hcount
  cases hprogress : (server.mysql m).inProgress with
  | false =>
    rw [hprogress, Bool.toNat_false] at hcount
    exact .inl ⟨by omega, by omega, rfl⟩
  | true =>
    rw [hprogress, Bool.toNat_true] at hcount
    exact .inr ⟨by omega, by omega, rfl⟩

end

/-- In every run of careful events each connection is in the pool or has one query in
progress, never both, and has been returned exactly once per use. -/
theorem connections_exclusive {mysqls : List Nat} (hnodup : mysqls.Nodup) {result : Option Server}
    (hr : Reach Server.Careful mysqls result) :
    ∃ server, result = some server ∧ server.Exclusive mysqls := by
  have hholds : ∃ server, result = some server ∧ Holds server mysqls [] none := by
    induction hr with
    | start => exact ⟨_, rfl, create_holds hnodup⟩
    | step _ hcareful ih =>
      obtain ⟨server, heq, h⟩ := ih
      cases heq
      exact step_holds h hcareful
  obtain ⟨server, heq, h⟩ := hholds
  exact ⟨server, heq, h.exclusive⟩

/-- A phone's mark, read over three queries. -/
theorem connections_exclusive_mark : ∃ server,
    ((Server.create [1, 2]).phoneMarkGet true).answer 1 (.row true true) = some server ∧
      server.Exclusive [1, 2] :=
  connections_exclusive (by decide)
    (@Reach.step _ _ _ (.answer 1 (.row true true)) (@Reach.step _ _ _ (.phoneMarkGet true) .start trivial)
      trivial)

/-- With one connection, the row of a box returns it while the query goes on. -/
theorem returned_while_fetching : ¬ ∀ (mysqls : List Nat), mysqls.Nodup → ∀ result,
    Reach (fun _ _ => True) mysqls result → ∃ server, result = some server ∧ server.Exclusive mysqls := by
  intro hall
  have hget : Reach (fun _ _ => True) [1] ((Server.create [1]).step (.stbPsGet true)) :=
    .step .start trivial
  obtain ⟨server, heq, hexclusive⟩ := hall [1] (by decide) _
    (@Reach.step _ _ _ (.answer 1 (.row true true)) hget trivial)
  cases heq
  rcases hexclusive 1 (by decide) with ⟨-, -, hidle⟩ | ⟨hout, -, -⟩
  · cases hidle
  · cases hout

end Yclib.Trs.Connections
