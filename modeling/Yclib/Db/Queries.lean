import Mathlib.Data.List.Basic

namespace Yclib.Db.Queries

/-! The life of a query: `rns_mysql_query`, and what socket events carry on with. -/

/-- What `mysql_free_result_start` and `_cont` report. -/
inductive Freed
  | waiting
  | finished

/-- What a fetch of a row reports, and the calls that follow it at once: a row is followed by the
next fetch; NULL is the end of the result or a failure, and the result is freed. -/
inductive Fetched
  | waiting
  | row (next : Fetched)
  | null (failed : Bool) (freed : Freed)

/-- What `mysql_use_result` gives. -/
inductive Used
  | result (fetched : Fetched)
  | null (failed : Bool) (freed : Freed)

/-- What `mysql_real_query_start` and `_cont` report, with the result that is there if it is asked for. -/
inductive Queried
  | waiting
  | finished (ret : Int) (used : Used)

inductive State
  | init
  | query
  | fetch
  | free
deriving DecidableEq

/-- The callbacks of a `rns_mysql_cb_t` that are not NULL. -/
structure Cb where
  work : Bool
  done : Bool
  error : Bool

inductive Call
  | work
  | done
  | error
deriving DecidableEq

/-- One call of MariaDB. -/
inductive Reply
  | waiting
  | row
  | success
  | failure
deriving DecidableEq

/-- A query that was given to `rns_mysql_query`, with what MariaDB has reported about it and which
callbacks have been called. -/
structure Query where
  qcb : Cb
  accepted : Bool
  replies : List Reply
  calls : List Call

/-- A `rns_mysql_t`: `query` is the one that its `qcb` belongs to. -/
structure Mysql where
  state : State
  rownum : Nat
  query : Query
  past : List Query

def Cb.has (qcb : Cb) : Call → Bool
  | .work => qcb.work
  | .done => qcb.done
  | .error => qcb.error

def Query.inProgress (query : Query) : Bool := query.replies.getLast? = some .waiting

namespace Mysql

/-- A connection before its first query. -/
def connected : Mysql := ⟨.init, 0, ⟨⟨false, false, false⟩, false, [], []⟩, []⟩

def setState (mysql : Mysql) (state : State) : Mysql := { mysql with state := state }

def report (mysql : Mysql) (reply : Reply) : Mysql :=
  { mysql with query := { mysql.query with replies := mysql.query.replies ++ [reply] } }

/-- The callback is called if there is one. -/
def call (mysql : Mysql) (call : Call) : Mysql :=
  if mysql.query.qcb.has call then
    { mysql with query := { mysql.query with calls := mysql.query.calls ++ [call] } }
  else mysql

def countRow (mysql : Mysql) : Mysql := { mysql with rownum := mysql.rownum + 1 }

/-- `rns_mysql_free_cont`. -/
def rnsMysqlFreeCont (mysql : Mysql) : Freed → Mysql
  | .waiting => mysql.report .waiting
  | .finished => ((mysql.report .success).setState .init).call .done

/-- `rns_mysql_free`. -/
def rnsMysqlFree (mysql : Mysql) (freed : Freed) : Mysql := (mysql.setState .free).rnsMysqlFreeCont freed

def ended (failed : Bool) : Reply := if failed then .failure else .success

/-- `rns_mysql_fetch`; a row leads back to `BEGIN`. -/
def rnsMysqlFetch (mysql : Mysql) : Fetched → Mysql
  | .waiting => (mysql.setState .fetch).report .waiting
  | .row next => ((((mysql.setState .fetch).report .row).countRow).call .work).rnsMysqlFetch next
  | .null failed freed => ((mysql.setState .fetch).report (ended failed)).rnsMysqlFree freed

/-- `rns_mysql_fetch_cont`. -/
def rnsMysqlFetchCont (mysql : Mysql) : Fetched → Mysql
  | .waiting => mysql.report .waiting
  | .row next => (((mysql.report .row).countRow).call .work).rnsMysqlFetch next
  | .null failed freed => (mysql.report (ended failed)).rnsMysqlFree freed

/-- `mysql_use_result`, and the branches on what it gives. -/
def useResult (mysql : Mysql) : Used → Mysql
  | .result fetched => (mysql.report .success).rnsMysqlFetch fetched
  | .null failed freed => (mysql.report (ended failed)).rnsMysqlFree freed

/-- `rns_mysql_query_cont`; after an error the state stays `RNS_MYSQL_STATE_QUERY`. -/
def rnsMysqlQueryCont (mysql : Mysql) : Queried → Mysql
  | .waiting => mysql.report .waiting
  | .finished ret used =>
    if ret ≠ 0 then (mysql.report .failure).call .error
    else (mysql.report .success).useResult used

/-- The callbacks are copied before the query starts. -/
def setQcb (mysql : Mysql) (cb : Option Cb) (accepted : Bool) : Mysql :=
  { mysql with
    rownum := 0
    query := ⟨cb.getD ⟨false, false, false⟩, accepted, [], []⟩
    past := mysql.past ++ [mysql.query] }

/-- `rns_mysql_query`, with what it returns; only a negative result of `mysql_real_query_start`
is looked at. -/
def rnsMysqlQuery (mysql : Mysql) (cb : Option Cb) : Queried → Int × Mysql
  | .waiting => (0, ((mysql.setQcb cb true).setState .query).report .waiting)
  | .finished ret used =>
    if ret < 0 then (-1, (mysql.setQcb cb false).report .failure)
    else (0, (((mysql.setQcb cb true).setState .init).report (ended (ret ≠ 0))).useResult used)

/-- `read_func` and `write_func`. -/
def readFunc (mysql : Mysql) (queried : Queried) (fetched : Fetched) (freed : Freed) : Mysql :=
  match mysql.state with
  | .init => mysql
  | .query => mysql.rnsMysqlQueryCont queried
  | .fetch => mysql.rnsMysqlFetchCont fetched
  | .free => mysql.rnsMysqlFreeCont freed

end Mysql

/-- A query is asked for, or the socket has an event; each with what the calls it leads to report. -/
inductive Event
  | query (cb : Option Cb) (queried : Queried)
  | socket (queried : Queried) (fetched : Fetched) (freed : Freed)

def step (mysql : Mysql) : Event → Mysql
  | .query cb queried => (mysql.rnsMysqlQuery cb queried).2
  | .socket queried fetched freed => mysql.readFunc queried fetched freed

/-- MariaDB takes a query where none is in progress. -/
def Event.Can (mysql : Mysql) : Event → Prop
  | .query _ _ => mysql.query.inProgress = false
  | .socket _ _ _ => True

def Fetched.Succeeds : Fetched → Prop
  | .waiting => True
  | .row next => next.Succeeds
  | .null failed _ => failed = false

def Used.Succeeds : Used → Prop
  | .result fetched => fetched.Succeeds
  | .null failed _ => failed = false

def Queried.Succeeds : Queried → Prop
  | .waiting => True
  | .finished _ used => used.Succeeds

/-- No result and no row fails, a query that does not start says so by a negative number, and no
event comes for a query that has failed. -/
def Event.Fine (mysql : Mysql) : Event → Prop
  | .query _ queried => queried.Succeeds ∧ ∀ ret used, queried = .finished ret used → ret ≤ 0
  | .socket queried fetched _ =>
    (mysql.state = .init ∨ mysql.query.inProgress = true) ∧ queried.Succeeds ∧ fetched.Succeeds

inductive Reach : Mysql → Prop
  | connected : Reach .connected
  | step {mysql : Mysql} {event : Event} (before : Reach mysql) (can : event.Can mysql)
      (fine : event.Fine mysql) : Reach (step mysql event)

/-- The calls of a query that is over, in the order of its rows: nothing yet where MariaDB is
waited for, `error` if and only if something has failed. -/
def Query.last (query : Query) : List Call :=
  if query.inProgress then [] else if .failure ∈ query.replies then [.error] else [.done]

def Query.due (query : Query) : List Call :=
  if query.accepted then List.replicate (query.replies.count .row) .work ++ query.last else []

/-- The callbacks that are there have been called as they are due, and no others. -/
def Query.Answered (query : Query) : Prop := query.calls = query.due.filter query.qcb.has

/-- A query that goes on: a callback for each row, and no end yet. -/
structure Query.Open (query : Query) : Prop where
  accepted : query.accepted = true
  calls : query.calls = (List.replicate (query.replies.count .row) .work).filter query.qcb.has
  sound : .failure ∉ query.replies

/-- What is there of the queries between two events. -/
structure Mysql.Sound (mysql : Mysql) : Prop where
  past : ∀ query ∈ mysql.past, query.Answered ∧ query.inProgress = false
  query : mysql.query.Answered
  going : mysql.query.inProgress = true → mysql.query.Open ∧ mysql.state ≠ .init
  rownum : mysql.rownum = mysql.query.replies.count .row

section
variable {mysql : Mysql}

/-- In the middle of a call. -/
structure Mysql.Going (mysql : Mysql) : Prop where
  past : ∀ query ∈ mysql.past, query.Answered ∧ query.inProgress = false
  query : mysql.query.Open
  rownum : mysql.rownum = mysql.query.replies.count .row

theorem sound_going (h : mysql.Sound) (hp : mysql.query.inProgress = true) : mysql.Going :=
  ⟨h.past, (h.going hp).1, h.rownum⟩

theorem state_going (h : mysql.Going) (state : State) : (mysql.setState state).Going :=
  ⟨h.past, h.query, h.rownum⟩

theorem progress_report (mysql : Mysql) (reply : Reply) :
    (mysql.report reply).query.inProgress = decide (reply = .waiting) := by
  simp [Query.inProgress, Mysql.report]

/-- A reply that is no row and no failure leaves the query going. -/
theorem report_going (h : mysql.Going) {reply : Reply} (hrow : reply ≠ .row) (hfailure : reply ≠ .failure) :
    (mysql.report reply).Going := by
  have hcount : (mysql.query.replies ++ [reply]).count .row = mysql.query.replies.count .row := by
    simp [List.count_append, hrow]
  refine ⟨h.past, ⟨h.query.accepted, ?_, ?_⟩, ?_⟩
  · exact h.query.calls.trans (by rw [Mysql.report, hcount])
  · simp [Mysql.report, h.query.sound, Ne.symm hfailure]
  · exact h.rownum.trans hcount.symm

theorem waiting_sound (h : mysql.Going) (hstate : mysql.state ≠ .init) : (mysql.report .waiting).Sound := by
  have hgoing := report_going h (by decide : Reply.waiting ≠ .row) (by decide)
  have hprogress := progress_report mysql .waiting
  refine ⟨h.past, ?_, fun _ => ⟨hgoing.query, hstate⟩, hgoing.rownum⟩
  rw [Query.Answered, Query.due, if_pos hgoing.query.accepted, Query.last, if_pos (by simpa using hprogress),
    List.append_nil]
  exact hgoing.query.calls

/-- A row has its callback. -/
theorem row_going (h : mysql.Going) : ((mysql.report .row).countRow.call .work).Going := by
  have hcount : (mysql.query.replies ++ [Reply.row]).count .row = mysql.query.replies.count .row + 1 := by
    simp [List.count_append]
  have hcalls := h.query.calls
  have hsound := h.query.sound
  unfold Mysql.call
  split
  · next hw =>
    refine ⟨h.past, ⟨h.query.accepted, ?_, ?_⟩, ?_⟩
    · simp only [Mysql.countRow, Mysql.report] at hw ⊢
      rw [hcount, List.replicate_succ', List.filter_append, ← hcalls]
      simp [hw]
    · simp [Mysql.countRow, Mysql.report, hsound]
    · simp [Mysql.countRow, Mysql.report, h.rownum, hcount]
  · next hw =>
    refine ⟨h.past, ⟨h.query.accepted, ?_, ?_⟩, ?_⟩
    · simp only [Mysql.countRow, Mysql.report] at hw ⊢
      rw [hcount, List.replicate_succ', List.filter_append, ← hcalls]
      simp [hw]
    · simp [Mysql.countRow, Mysql.report, hsound]
    · simp [Mysql.countRow, Mysql.report, h.rownum, hcount]

/-- The last callback, where nothing is waited for. -/
theorem call_sound {calls : List Call} {call : Call}
    (hpast : ∀ query ∈ mysql.past, query.Answered ∧ query.inProgress = false)
    (hcalls : mysql.query.calls = calls.filter mysql.query.qcb.has) (hdue : mysql.query.due = calls ++ [call])
    (hprogress : mysql.query.inProgress = false) (hrownum : mysql.rownum = mysql.query.replies.count .row) :
    (mysql.call call).Sound := by
  unfold Mysql.call
  split
  · next hw =>
    refine ⟨hpast, ?_, fun hp => ?_, hrownum⟩
    · exact Eq.trans (by simp [hcalls, hw]) (congrArg (List.filter mysql.query.qcb.has) hdue).symm
    · exact absurd (hprogress.symm.trans hp) (by decide)
  · next hw =>
    refine ⟨hpast, ?_, fun hp => ?_, hrownum⟩
    · rw [Query.Answered, hdue, hcalls]
      simp [hw]
    · exact absurd (hprogress.symm.trans hp) (by decide)

theorem free_cont_sound (h : mysql.Going) (hstate : mysql.state ≠ .init) (freed : Freed) :
    (mysql.rnsMysqlFreeCont freed).Sound := by
  cases freed with
  | waiting => exact waiting_sound h hstate
  | finished =>
    have hgoing := state_going (report_going h (by decide : Reply.success ≠ .row) (by decide)) .init
    have hprogress : ((mysql.report .success).setState .init).query.inProgress = false :=
      progress_report mysql .success
    refine call_sound hgoing.past hgoing.query.calls ?_ hprogress hgoing.rownum
    rw [Query.due, if_pos hgoing.query.accepted, Query.last, if_neg (by simp [hprogress]),
      if_neg hgoing.query.sound]

theorem free_sound (h : mysql.Going) (freed : Freed) : (mysql.rnsMysqlFree freed).Sound :=
  free_cont_sound (state_going h .free) (by simp [Mysql.setState]) freed

theorem end_going (h : mysql.Going) : (mysql.report (Mysql.ended false)).Going :=
  report_going h (by decide) (by decide)

theorem fetch_sound {fetched : Fetched} (h : mysql.Going) (hs : fetched.Succeeds) :
    (mysql.rnsMysqlFetch fetched).Sound := by
  induction fetched generalizing mysql with
  | waiting => exact waiting_sound (state_going h .fetch) (by simp [Mysql.setState])
  | row next ih => exact ih (row_going (state_going h .fetch)) hs
  | null failed freed =>
    have hf : failed = false := hs
    subst hf
    exact free_sound (end_going (state_going h .fetch)) freed

theorem fetch_cont_sound {fetched : Fetched} (h : mysql.Going) (hstate : mysql.state ≠ .init)
    (hs : fetched.Succeeds) : (mysql.rnsMysqlFetchCont fetched).Sound := by
  cases fetched with
  | waiting => exact waiting_sound h hstate
  | row next => exact fetch_sound (row_going h) hs
  | null failed freed =>
    have hf : failed = false := hs
    subst hf
    exact free_sound (end_going h) freed

theorem use_sound {used : Used} (h : mysql.Going) (hs : used.Succeeds) : (mysql.useResult used).Sound := by
  cases used with
  | result fetched => exact fetch_sound (end_going h) hs
  | null failed freed =>
    have hf : failed = false := hs
    subst hf
    exact free_sound (end_going h) freed

theorem query_cont_sound {queried : Queried} (h : mysql.Going) (hstate : mysql.state ≠ .init)
    (hs : queried.Succeeds) : (mysql.rnsMysqlQueryCont queried).Sound := by
  cases queried with
  | waiting => exact waiting_sound h hstate
  | finished ret used =>
    by_cases hret : ret ≠ 0
    · have hcount : (mysql.query.replies ++ [Reply.failure]).count .row = mysql.query.replies.count .row := by
        simp [List.count_append]
      have hprogress := progress_report mysql .failure
      have hcalls : (mysql.report .failure).query.calls =
          (List.replicate (mysql.query.replies.count .row) Call.work).filter mysql.query.qcb.has := h.query.calls
      have hdue : (mysql.report .failure).query.due =
          List.replicate (mysql.query.replies.count .row) .work ++ [.error] := by
        rw [Query.due, if_pos (by exact h.query.accepted), Query.last, if_neg (by simp [hprogress])]
        simp [Mysql.report, hcount]
      rw [Mysql.rnsMysqlQueryCont, if_pos hret]
      exact call_sound h.past hcalls hdue hprogress (h.rownum.trans hcount.symm)
    · rw [Mysql.rnsMysqlQueryCont, if_neg hret]
      exact use_sound (end_going h) hs

/-- A new query on a connection where none is in progress. -/
theorem query_sound {cb : Option Cb} {queried : Queried} (h : mysql.Sound)
    (hidle : mysql.query.inProgress = false) (hs : queried.Succeeds)
    (hret : ∀ ret used, queried = .finished ret used → ret ≤ 0) : (mysql.rnsMysqlQuery cb queried).2.Sound := by
  have hpast : ∀ query ∈ mysql.past ++ [mysql.query], query.Answered ∧ query.inProgress = false := by
    intro query hq
    rcases List.mem_append.mp hq with hq | hq
    · exact h.past query hq
    · rw [List.mem_singleton.mp hq]
      exact ⟨h.query, hidle⟩
  have hnew : (mysql.setQcb cb true).Going := ⟨hpast, ⟨rfl, rfl, by simp [Mysql.setQcb]⟩, rfl⟩
  cases queried with
  | waiting => exact waiting_sound (state_going hnew .query) (by simp [Mysql.setState])
  | finished ret used =>
    by_cases hneg : ret < 0
    · rw [Mysql.rnsMysqlQuery, if_pos hneg]
      exact ⟨hpast, rfl, fun hp => absurd ((progress_report _ _).symm.trans hp) (by decide), rfl⟩
    · have hzero : ret = 0 := Int.le_antisymm (hret ret used rfl) (Int.not_lt.mp hneg)
      subst hzero
      rw [Mysql.rnsMysqlQuery, if_neg hneg]
      exact use_sound (end_going (state_going hnew .init)) hs

theorem step_sound {event : Event} (h : mysql.Sound) (hcan : event.Can mysql) (hfine : event.Fine mysql) :
    (step mysql event).Sound := by
  cases event with
  | query cb queried => exact query_sound h hcan hfine.1 hfine.2
  | socket queried fetched freed =>
    obtain ⟨hgoing, hqueried, hfetched⟩ := hfine
    change (mysql.readFunc queried fetched freed).Sound
    unfold Mysql.readFunc
    cases hstate : mysql.state with
    | init => exact h
    | query =>
      have hne : mysql.state ≠ .init := by simp [hstate]
      exact query_cont_sound (sound_going h (hgoing.resolve_left hne)) hne hqueried
    | fetch =>
      have hne : mysql.state ≠ .init := by simp [hstate]
      exact fetch_cont_sound (sound_going h (hgoing.resolve_left hne)) hne hfetched
    | free =>
      have hne : mysql.state ≠ .init := by simp [hstate]
      exact free_cont_sound (sound_going h (hgoing.resolve_left hne)) hne freed

theorem reach_sound (h : Reach mysql) : mysql.Sound := by
  induction h with
  | connected => exact ⟨by simp [Mysql.connected], rfl, fun hp => absurd hp (by decide), rfl⟩
  | step before can fine ih => exact step_sound ih can fine

end

/-- Each query that is accepted has had its `work` callback once for each row, and once nothing is
waited for any more one of `done` and `error`, which is `error` if and only if something has failed.
A query that is waited for is carried on by the next event of the socket. -/
theorem queries_end {mysql : Mysql} (h : Reach mysql) :
    (∀ query ∈ mysql.past, query.Answered ∧ query.inProgress = false) ∧ mysql.query.Answered ∧
      (mysql.query.inProgress = true → mysql.query.accepted = true ∧ mysql.state ≠ .init) := by
  have hsound := reach_sound h
  exact ⟨hsound.past, hsound.query, fun hp => ⟨(hsound.going hp).1.accepted, (hsound.going hp).2⟩⟩

/-- All three callbacks. -/
def Cb.full : Cb := ⟨true, true, true⟩

def run (mysql : Mysql) (events : List Event) : Mysql := events.foldl step mysql

/-- A query that is waited for, and a row and the end of its result behind one event. -/
def rowEvents : List Event :=
  [.query (some .full) .waiting, .socket (.finished 0 (.result (.row (.null false .finished)))) .waiting .waiting]

theorem queries_end_row :
    (∀ query ∈ (run .connected rowEvents).past, query.Answered ∧ query.inProgress = false) ∧
      (run .connected rowEvents).query.Answered ∧
      ((run .connected rowEvents).query.inProgress = true →
        (run .connected rowEvents).query.accepted = true ∧ (run .connected rowEvents).state ≠ .init) := by
  have hcan : Event.Can .connected (.query (some .full) .waiting) := (rfl : Query.inProgress _ = false)
  have hfine : Event.Fine .connected (.query (some .full) .waiting) := And.intro trivial (by simp)
  have hcan' : Event.Can (run .connected [.query (some .full) .waiting])
      (.socket (.finished 0 (.result (.row (.null false .finished)))) .waiting .waiting) := trivial
  have hfine' : Event.Fine (run .connected [.query (some .full) .waiting])
      (.socket (.finished 0 (.result (.row (.null false .finished)))) .waiting .waiting) :=
    And.intro (.inr rfl) (And.intro rfl trivial)
  exact queries_end (.step (.step .connected hcan hfine) hcan' hfine')

/-- A fetch that fails ends its query in `done`; so does a query that fails at once with a positive
result. A query that has failed calls `error` once more with the next event of the socket. -/
theorem query_ends_otherwise :
    (∃ events, .failure ∈ (run .connected events).query.replies ∧
      (run .connected events).query.calls = [.done]) ∧
    ∃ events, (run .connected events).query.accepted ∧
      (run .connected events).query.calls = [.error, .error] :=
  ⟨⟨[.query (some .full) (.finished 0 (.result (.null true .finished)))], by decide, rfl⟩,
    [.query (some .full) .waiting, .socket (.finished 1 (.null false .finished)) .waiting .waiting,
      .socket (.finished 1 (.null false .finished)) .waiting .waiting], rfl, rfl⟩

end Yclib.Db.Queries
