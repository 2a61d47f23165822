import Mathlib.Algebra.BigOperators.Group.List.Basic
import Mathlib.Algebra.Order.Group.Multiset
import Mathlib.Tactic.Abel

namespace Yclib.Trs.Join

/-! The requests `/third/marks/get` and `/third/playhistory/get`, which start a query for
each set-top box of a user, one for each phone of a box and one for the entries of a phone,
and answer when the last of them is over. -/

/-- How a query that is started ends: with an error, or with all its rows. -/
inductive Result (ρ : Type)
  | error
  | done (rows : List ρ)

/-- What comes of a row that a query is started for: it cannot be parsed, there is no
connection left in the pool, the query does not start, or it does. -/
inductive Start (α : Type)
  | unparsed
  | noConn
  | failed
  | started (query : α)

variable {ε : Type}

/-- The marks or the play history of a phone; a row that cannot be parsed has no entry. -/
abbrev Items (ε : Type) := Result (Option ε)

abbrev Phones (ε : Type) := Result (Start (Items ε))

abbrev Stbs (ε : Type) := Result (Start (Phones ε))

/-- The first query of a request. -/
inductive First (ε : Type)
  | noConn
  | failed
  | started (query : Stbs ε)

/-- A query in progress, with what is still to come of it. -/
inductive Running (ε : Type)
  | stbs (query : Stbs ε)
  | phones (query : Phones ε)
  | items (query : Items ε)

/-- `rns_ctx_t` with its `number` and its `array`; the queries are fewer than 2^32. -/
structure Ctx (ε : Type) where
  number : Nat
  array : List ε

/-- `rns_hconn_resp2`. -/
structure Response (ε : Type) where
  code : Nat
  entries : List ε

/-- What a callback does: the query it belongs to may go on, queries are started, the
context is there or is freed, and the request may be answered. -/
structure Called (ε : Type) where
  rest : List (Running ε)
  started : List (Running ε)
  ctx : Option (Ctx ε)
  responses : List (Response ε)

/-- The end of every `done` and `error`: the last one answers, and frees the context. -/
def countDown (ctx : Ctx ε) (response : Response ε) : Called ε :=
  if ctx.number - 1 = 0 then ⟨[], [], none, [response]⟩
  else ⟨[], [], some { ctx with number := ctx.number - 1 }, []⟩

/-- `third_error`. -/
def thirdError (ctx : Ctx ε) : Called ε := countDown ctx ⟨400, []⟩

/-- `mstb_get_done` and `fstb_get_done`. -/
def mstbGetDone (ctx : Ctx ε) : Called ε := countDown ctx ⟨400, []⟩

/-- `phone_get_done` and `fphone_get_done`. -/
def phoneGetDone (ctx : Ctx ε) : Called ε := countDown ctx ⟨400, []⟩

/-- `phone_mark_get_done` and `fphone_playhistory_get_done`. -/
def phoneMarkGetDone (ctx : Ctx ε) : Called ε := countDown ctx ⟨200, ctx.array⟩

/-- A row of the query `rest` that another query is started for: it is counted before it is
started, and stays so if it is not. -/
def startQuery {α : Type} (rest : Running ε) (running : α → Running ε) (ctx : Ctx ε) :
    Start α → Called ε
  | .unparsed => ⟨[rest], [], some ctx, []⟩
  | .noConn => ⟨[rest], [], some ctx, []⟩
  | .failed => ⟨[rest], [], some { ctx with number := ctx.number + 1 }, []⟩
  | .started query => ⟨[rest], [running query], some { ctx with number := ctx.number + 1 }, []⟩

/-- `stb_get` and `fstb_get`. -/
def stbGet (rows : List (Start (Phones ε))) (ctx : Ctx ε) (row : Start (Phones ε)) : Called ε :=
  startQuery (.stbs (.done rows)) .phones ctx row

/-- `phone_get` and `fphone_get`. -/
def phoneGet (rows : List (Start (Items ε))) (ctx : Ctx ε) (row : Start (Items ε)) : Called ε :=
  startQuery (.phones (.done rows)) .items ctx row

/-- `phone_mark_get_work` and `fphone_playhistory_get_work`. -/
def phoneMarkGetWork (rows : List (Option ε)) (ctx : Ctx ε) (row : Option ε) : Called ε :=
  ⟨[.items (.done rows)], [], some { ctx with array := ctx.array ++ row.toList }, []⟩

/-- The next callback of a query. -/
def callback (ctx : Ctx ε) : Running ε → Called ε
  | .stbs .error => thirdError ctx
  | .stbs (.done []) => mstbGetDone ctx
  | .stbs (.done (row :: rows)) => stbGet rows ctx row
  | .phones .error => thirdError ctx
  | .phones (.done []) => phoneGetDone ctx
  | .phones (.done (row :: rows)) => phoneGet rows ctx row
  | .items .error => thirdError ctx
  | .items (.done []) => phoneMarkGetDone ctx
  | .items (.done (row :: rows)) => phoneMarkGetWork rows ctx row

/-- A request: its context, the queries in progress, the responses with the number of other
queries that were in progress then, and how often the context has been freed. -/
structure Request (ε : Type) where
  ctx : Option (Ctx ε)
  running : List (Running ε)
  responses : List (Response ε × Nat)
  freed : Nat

/-- The callback of one of the queries in progress; there is no result where it goes to a
context that is freed. -/
def Request.call (request : Request ε) (front : List (Running ε)) (query : Running ε)
    (back : List (Running ε)) : Option (Request ε) :=
  request.ctx.map fun ctx =>
    let called := callback ctx query
    { ctx := called.ctx
      running := front ++ called.rest ++ back ++ called.started
      responses := request.responses ++ called.responses.map fun r => (r, front.length + back.length)
      freed := if called.ctx.isNone then request.freed + 1 else request.freed }

/-- A callback of any query in progress. -/
inductive Step (request : Request ε) : Option (Request ε) → Prop
  | call (front : List (Running ε)) (query : Running ε) (back : List (Running ε))
      (h : request.running = front ++ query :: back) : Step request (request.call front query back)

/-- So many callbacks, in any order. -/
inductive Runs (request : Request ε) : Nat → Option (Request ε) → Prop
  | refl : Runs request 0 (some request)
  | step {n : Nat} {request' : Request ε} {result : Option (Request ε)}
      (hr : Runs request n (some request')) (hs : Step request' result) : Runs request (n + 1) result

theorem Runs.call {request request' request'' : Request ε} {n : Nat}
    (hr : Runs request n (some request')) (front : List (Running ε)) (query : Running ε)
    (back : List (Running ε)) (h : request'.running = front ++ query :: back)
    (hcall : request'.call front query back = some request'') : Runs request (n + 1) (some request'') :=
  hcall ▸ .step hr (.call front query back h)

/-- `phone_mark_get`. -/
def phoneMarkGet : First ε → Request ε
  | .noConn => ⟨none, [], [(⟨400, []⟩, 0)], 1⟩
  | .failed => ⟨none, [], [(⟨400, []⟩, 0)], 1⟩
  | .started query => ⟨some ⟨1, []⟩, [.stbs query], [], 0⟩

/-- `phone_playhistory_get`, which returns where there is no connection. -/
def phonePlayhistoryGet : First ε → Request ε
  | .noConn => ⟨some ⟨0, []⟩, [], [], 0⟩
  | .failed => ⟨none, [], [(⟨400, []⟩, 0)], 1⟩
  | .started query => ⟨some ⟨1, []⟩, [.stbs query], [], 0⟩

/-- The request is answered once, with no query in progress, and its context freed once. -/
def Request.Answered (request : Request ε) : Prop :=
  request.ctx = none ∧ request.freed = 1 ∧ ∃ response, request.responses = [(response, 0)]

/-- Whatever order the callbacks come in, they come to an end, none of them goes to a freed
context, there is no answer before the last query is over, and then there is one. -/
def Joins (request : Request ε) : Prop :=
  ∃ bound, ∀ n result, Runs request n result → n ≤ bound ∧ ∃ request', result = some request' ∧
    (request'.running ≠ [] → request'.responses = [] ∧ request'.freed = 0) ∧
    (request'.running = [] → request'.Answered)

/-- Whatever order the callbacks come in, the answers are the same in the end. -/
def OrderFree (request : Request ε) : Prop :=
  ∀ m n request₁ request₂, Runs request m (some request₁) → Runs request n (some request₂) →
    request₁.running = [] → request₂.running = [] →
      List.Forall₂ (fun r₁ r₂ => r₁.1.code = r₂.1.code ∧ r₁.1.entries.Perm r₂.1.entries)
        request₁.responses request₂.responses

/-! What is still to come of a query, summed up over its rows and theirs. -/

section
variable {M : Type} [AddCommMonoid M]

def Start.total {α : Type} (fail : M) (query : α → M) : Start α → M
  | .unparsed => 0
  | .noConn => 0
  | .failed => fail
  | .started q => query q

def Result.total {ρ : Type} (row : ρ → M) : Result ρ → M
  | .error => 0
  | .done rows => (rows.map row).sum

def Phones.total (fail : M) (items : Items ε → M) (query : Phones ε) : M :=
  Result.total (Start.total fail items) query

def Stbs.total (fail : M) (items : Items ε → M) (query : Stbs ε) : M :=
  Result.total (Start.total fail (Phones.total fail items)) query

def Running.total (fail : M) (items : Items ε → M) : Running ε → M
  | .stbs query => Stbs.total fail items query
  | .phones query => Phones.total fail items query
  | .items query => items query

end

/-- The queries that do not start. -/
def Running.fails (query : Running ε) : Nat := query.total 1 fun _ => 0

def Items.succeeds : Items ε → Nat
  | .error => 0
  | .done _ => 1

/-- The queries for entries that end without an error. -/
def Running.succeeds (query : Running ε) : Nat := query.total 0 Items.succeeds

def Items.entries (query : Items ε) : Multiset ε :=
  Result.total (fun row => (row.toList : Multiset ε)) query

def Running.entries (query : Running ε) : Multiset ε := query.total 0 Items.entries

def Start.size {α : Type} (query : α → Nat) : Start α → Nat
  | .started q => query q + 1
  | _ => 1

def Result.size {ρ : Type} (row : ρ → Nat) : Result ρ → Nat
  | .error => 1
  | .done rows => (rows.map row).sum + 1

def Items.size (query : Items ε) : Nat := Result.size (fun _ => 1) query

def Phones.size (query : Phones ε) : Nat := Result.size (Start.size Items.size) query

/-- The callbacks still to come. -/
def Running.size : Running ε → Nat
  | .stbs query => Result.size (Start.size Phones.size) query
  | .phones query => Phones.size query
  | .items query => Items.size query

/-- The query starts others. -/
def Running.outer : Running ε → Bool
  | .items _ => false
  | _ => true

/-- A query that goes on with `rest` and has perhaps started another one, where `fail`
queries have not started and the items have been collected. -/
structure Goes (ctx : Ctx ε) (query rest : Running ε) (started : List (Running ε)) (fail : Nat)
    (items : List ε) : Prop where
  called : callback ctx query =
    ⟨[rest], started, some ⟨ctx.number + started.length + fail, ctx.array ++ items⟩, []⟩
  fails : query.fails = fail + rest.fails + (started.map Running.fails).sum
  succeeds : query.succeeds = rest.succeeds + (started.map Running.succeeds).sum
  entries : query.entries = items + rest.entries + (started.map Running.entries).sum
  size : rest.size + (started.map Running.size).sum < query.size
  outer : rest.outer = query.outer

/-- A query that is over. -/
structure Ends (ctx : Ctx ε) (query : Running ε) (response : Response ε) : Prop where
  called : callback ctx query = countDown ctx response
  fails : query.fails = 0
  entries : query.entries = 0
  response : query.succeeds = 0 ∧ response = ⟨400, []⟩ ∨
    query.succeeds = 1 ∧ query.outer = false ∧ response = ⟨200, ctx.array⟩

section
variable {ctx : Ctx ε}

/-- A row that a query is started for, of queries of either kind. -/
theorem start_goes {α : Type} {outer : Result (Start α) → Running ε} {inner : α → Running ε}
    (htotal : ∀ {M : Type} [AddCommMonoid M] (fail : M) (items : Items ε → M) (query),
      (outer query).total fail items =
        Result.total (Start.total fail fun q => (inner q).total fail items) query)
    (hsize : ∀ query, (outer query).size = Result.size (Start.size fun q => (inner q).size) query)
    (houter : ∀ query, (outer query).outer = true)
    (hcall : ∀ row rows, callback ctx (outer (.done (row :: rows))) =
      startQuery (outer (.done rows)) inner ctx row) (row : Start α) (rows : List (Start α)) :
    ∃ started fail, Goes ctx (outer (.done (row :: rows))) (outer (.done rows)) started fail [] := by
  cases row with
  | unparsed | noConn =>
    refine ⟨[], 0, by simp [hcall, startQuery], ?_, ?_, ?_, ?_, by simp [houter]⟩
    · simp [Running.fails, htotal, Result.total, Start.total]
    · simp [Running.succeeds, htotal, Result.total, Start.total]
    · simp [Running.entries, htotal, Result.total, Start.total]
    · simp [hsize, Result.size, Start.size]
  | failed =>
    refine ⟨[], 1, by simp [hcall, startQuery], ?_, ?_, ?_, ?_, by simp [houter]⟩
    · simp [Running.fails, htotal, Result.total, Start.total]
    · simp [Running.succeeds, htotal, Result.total, Start.total]
    · simp [Running.entries, htotal, Result.total, Start.total]
    · simp [hsize, Result.size, Start.size]
  | started query =>
    refine ⟨[inner query], 0, by simp [hcall, startQuery], ?_, ?_, ?_, ?_, by simp [houter]⟩
    · simp [Running.fails, htotal, Result.total, Start.total, add_comm]
    · simp [Running.succeeds, htotal, Result.total, Start.total, add_comm]
    · simp [Running.entries, htotal, Result.total, Start.total, add_comm]
    · simp only [hsize, Result.size, Start.size, List.map_cons, List.map_nil, List.sum_cons, List.sum_nil]
      omega

theorem items_goes (row : Option ε) (rows : List (Option ε)) :
    Goes ctx (.items (.done (row :: rows))) (.items (.done rows)) [] 0 row.toList := by
  refine ⟨by simp [callback, phoneMarkGetWork], ?_, ?_, ?_, ?_, rfl⟩
  · simp [Running.fails, Running.total]
  · simp [Running.succeeds, Running.total, Items.succeeds]
  · simp [Running.entries, Running.total, Items.entries, Result.total]
  · simp [Running.size, Items.size, Result.size]

/-- A callback either takes a row of its query or ends it. -/
theorem callback_cases (ctx : Ctx ε) (query : Running ε) :
    (∃ rest started fail items, Goes ctx query rest started fail items) ∨
      ∃ response, Ends ctx query response := by
  cases query with
  | stbs query =>
    rcases query with _ | ⟨_ | ⟨row, rows⟩⟩
    · exact .inr ⟨_, rfl, rfl, rfl, .inl ⟨rfl, rfl⟩⟩
    · exact .inr ⟨_, rfl, rfl, rfl, .inl ⟨rfl, rfl⟩⟩
    · obtain ⟨started, fail, hgoes⟩ := @start_goes ε ctx (Phones ε) Running.stbs Running.phones
        (fun _ _ _ => rfl) (fun _ => rfl) (fun _ => rfl) (fun _ _ => rfl) row rows
      exact .inl ⟨_, started, fail, [], hgoes⟩
  | phones query =>
    rcases query with _ | ⟨_ | ⟨row, rows⟩⟩
    · exact .inr ⟨_, rfl, rfl, rfl, .inl ⟨rfl, rfl⟩⟩
    · exact .inr ⟨_, rfl, rfl, rfl, .inl ⟨rfl, rfl⟩⟩
    · obtain ⟨started, fail, hgoes⟩ := @start_goes ε ctx (Items ε) Running.phones Running.items
        (fun _ _ _ => rfl) (fun _ => rfl) (fun _ => rfl) (fun _ _ => rfl) row rows
      exact .inl ⟨_, started, fail, [], hgoes⟩
  | items query =>
    rcases query with _ | ⟨_ | ⟨row, rows⟩⟩
    · exact .inr ⟨_, rfl, rfl, rfl, .inl ⟨rfl, rfl⟩⟩
    · exact .inr ⟨_, rfl, rfl, rfl, .inr ⟨rfl, rfl, rfl⟩⟩
    · exact .inl ⟨_, [], 0, row.toList, items_goes row rows⟩

end

/-- A sum over all queries in progress. -/
def Request.sum {M : Type} [AddCommMonoid M] (request : Request ε) (f : Running ε → M) : M :=
  (request.running.map f).sum

/-- Where a request is that is not answered, `failed` queries of which have not started so
far, and `fails` will not have in the end. -/
structure Pending (fails : Nat) (entries : Multiset ε) (request : Request ε) (ctx : Ctx ε)
    (failed : Nat) : Prop where
  there : request.ctx = some ctx
  number : ctx.number = request.running.length + failed
  pos : 0 < ctx.number
  fails : failed + request.sum Running.fails = fails
  entries : ctx.array + request.sum Running.entries = entries
  responses : request.responses = []
  freed : request.freed = 0

/-- A request that is answered, and how. -/
structure Over (entries : Multiset ε) (request : Request ε) (response : Response ε) : Prop where
  ctx : request.ctx = none
  running : request.running = []
  responses : request.responses = [(response, 0)]
  freed : request.freed = 1
  response : response = ⟨400, []⟩ ∨ response.code = 200 ∧ (response.entries : Multiset ε) = entries

section
variable {fails : Nat} {entries : Multiset ε} {request : Request ε} {ctx : Ctx ε} {failed : Nat}

theorem sum_split {M : Type} [AddCommMonoid M] (f : Running ε → M) {front back : List (Running ε)}
    {query : Running ε} (h : request.running = front ++ query :: back) :
    request.sum f = f query + ((front ++ back).map f).sum := by
  simp only [Request.sum, h, List.map_append, List.map_cons, List.sum_append, List.sum_cons]
  rw [add_left_comm]

/-- A query in progress takes a row. -/
theorem goes_step (h : Pending fails entries request ctx failed) {front back started : List (Running ε)}
    {query rest : Running ε} {fail : Nat} {items : List ε} (hsplit : request.running = front ++ query :: back)
    (hgoes : Goes ctx query rest started fail items) :
    ∃ request' ctx' failed', request.call front query back = some request' ∧
      Pending fails entries request' ctx' failed' ∧
      request'.running = front ++ [rest] ++ back ++ started ∧
      request'.sum Running.succeeds = request.sum Running.succeeds ∧
      request'.sum Running.size < request.sum Running.size := by
  have hfails := h.fails
  have hentries := h.entries
  rw [sum_split _ hsplit, hgoes.fails] at hfails
  rw [sum_split _ hsplit, hgoes.entries] at hentries
  refine ⟨⟨some ⟨ctx.number + started.length + fail, ctx.array ++ items⟩,
      front ++ [rest] ++ back ++ started, request.responses, request.freed⟩,
    ⟨ctx.number + started.length + fail, ctx.array ++ items⟩, failed + fail, ?_,
    ⟨rfl, ?_, ?_, ?_, ?_, h.responses, h.freed⟩, rfl, ?_, ?_⟩
  · rw [Request.call, h.there, Option.map_some, hgoes.called]
    simp
  · have hnumber := h.number
    simp only [hsplit, List.length_append, List.length_cons, List.length_nil] at hnumber ⊢
    omega
  · have hpos := h.pos
    dsimp only
    omega
  · simp only [Request.sum, List.map_append, List.map_cons, List.map_nil, List.sum_append, List.sum_cons,
      List.sum_nil] at hfails ⊢
    omega
  · rw [← hentries]
    simp only [Request.sum, List.map_append, List.map_cons, List.map_nil, List.sum_append, List.sum_cons,
      List.sum_nil, ← Multiset.coe_add, add_zero]
    abel
  · rw [sum_split _ hsplit, hgoes.succeeds]
    simp only [Request.sum, List.map_append, List.map_cons, List.map_nil, List.sum_append, List.sum_cons,
      List.sum_nil]
    omega
  · have hsize := hgoes.size
    rw [sum_split _ hsplit]
    simp only [Request.sum, List.map_append, List.map_cons, List.map_nil, List.sum_append, List.sum_cons,
      List.sum_nil]
    omega

/-- A query in progress is over. It is the last one only if no query has failed to start. -/
theorem ends_step (h : Pending fails entries request ctx failed) {front back : List (Running ε)}
    {query : Running ε} {response : Response ε} (hsplit : request.running = front ++ query :: back)
    (hends : Ends ctx query response) :
    (∃ request' ctx' failed', request.call front query back = some request' ∧
      Pending fails entries request' ctx' failed' ∧ request'.running = front ++ back ∧
      0 < front.length + back.length + failed) ∨
    ∃ request', request.call front query back = some request' ∧ Over entries request' response ∧
      front.length + back.length = 0 ∧ failed = 0 ∧ fails = 0 := by
  have hnumber := h.number
  have hfails := h.fails
  have hentries := h.entries
  rw [sum_split _ hsplit, hends.fails] at hfails
  rw [sum_split _ hsplit, hends.entries, zero_add] at hentries
  simp only [hsplit, List.length_append, List.length_cons] at hnumber
  by_cases hlast : ctx.number - 1 = 0
  · right
    have hfront : front = [] := List.eq_nil_of_length_eq_zero (by omega)
    have hback : back = [] := List.eq_nil_of_length_eq_zero (by omega)
    subst hfront hback
    refine ⟨⟨none, [], request.responses ++ [(response, 0)], request.freed + 1⟩, ?_,
      ⟨rfl, rfl, by simp [h.responses], by simp [h.freed], ?_⟩, rfl, by omega, ?_⟩
    · rw [Request.call, h.there, Option.map_some, hends.called, countDown, if_pos hlast]
      rfl
    · rcases hends.response with ⟨-, rfl⟩ | ⟨-, -, rfl⟩
      · exact .inl rfl
      · exact .inr ⟨rfl, by simpa using hentries⟩
    · simp only [List.append_nil, List.map_nil, List.sum_nil] at hfails
      omega
  · left
    refine ⟨⟨some { ctx with number := ctx.number - 1 }, front ++ back, request.responses, request.freed⟩,
      { ctx with number := ctx.number - 1 }, failed, ?_, ⟨rfl, ?_, ?_, ?_, hentries, h.responses, h.freed⟩,
      rfl, by omega⟩
    · rw [Request.call, h.there, Option.map_some, hends.called, countDown, if_neg hlast]
      simp
    · simp only [List.length_append]
      omega
    · dsimp only
      omega
    · simpa [Request.sum] using hfails

theorem size_pos (query : Running ε) : 0 < query.size := by
  cases query with
  | stbs query => cases query <;> exact Nat.succ_pos _
  | phones query => cases query <;> exact Nat.succ_pos _
  | items query => cases query <;> exact Nat.succ_pos _

/-- A request that is pending or answered, out of one that is pending. -/
def Reached (fails : Nat) (entries : Multiset ε) (succeeds : Nat) (request : Request ε) : Prop :=
  (∃ ctx failed, Pending fails entries request ctx failed) ∨
    ∃ response, fails = 0 ∧ Over entries request response ∧ (response.code = 200 → 0 < succeeds)

/-- Every callback finds its context, and leaves less to come. -/
theorem step_reached (h : Pending fails entries request ctx failed) {result : Option (Request ε)}
    (hs : Step request result) : ∃ request', result = some request' ∧
      request'.sum Running.size < request.sum Running.size ∧
      request'.sum Running.succeeds ≤ request.sum Running.succeeds ∧
      Reached fails entries (request.sum Running.succeeds) request' := by
  obtain ⟨front, query, back, hsplit⟩ := hs
  rcases callback_cases ctx query with ⟨rest, started, fail, items, hgoes⟩ | ⟨response, hends⟩
  · obtain ⟨request', ctx', failed', hcall, hpending, -, hsucceeds, hsize⟩ := goes_step h hsplit hgoes
    exact ⟨request', hcall, hsize, hsucceeds.le, .inl ⟨ctx', failed', hpending⟩⟩
  · have hpos := size_pos query
    rw [sum_split Running.size hsplit, sum_split Running.succeeds hsplit]
    rcases ends_step h hsplit hends with ⟨request', ctx', failed', hcall, hpending, hrunning, -⟩ |
      ⟨request', hcall, hover, hlast, -, hfails⟩
    · refine ⟨request', hcall, ?_, ?_, .inl ⟨ctx', failed', hpending⟩⟩
      · rw [Request.sum, hrunning]
        omega
      · rw [Request.sum, hrunning]
        omega
    · refine ⟨request', hcall, ?_, ?_, .inr ⟨response, hfails, hover, fun hcode => ?_⟩⟩
      · rw [Request.sum, hover.running, List.map_nil, List.sum_nil]
        omega
      · rw [Request.sum, hover.running, List.map_nil, List.sum_nil]
        exact Nat.zero_le _
      · rcases hends.response with ⟨-, rfl⟩ | ⟨hone, -⟩
        · cases hcode
        · omega

theorem runs_reached (h : Pending fails entries request ctx failed) {n : Nat}
    {result : Option (Request ε)} (hr : Runs request n result) : ∃ request', result = some request' ∧
      n + request'.sum Running.size ≤ request.sum Running.size ∧
      request'.sum Running.succeeds ≤ request.sum Running.succeeds ∧
      Reached fails entries (request.sum Running.succeeds) request' := by
  induction hr with
  | refl => exact ⟨request, rfl, by omega, le_refl _, .inl ⟨ctx, failed, h⟩⟩
  | step _ hs ih =>
    obtain ⟨request₁, heq, hsize, hsucceeds, hreached⟩ := ih
    cases heq
    rcases hreached with ⟨ctx₁, failed₁, hpending⟩ | ⟨response, -, hover, -⟩
    · obtain ⟨request₂, heq, hsize', hsucceeds', hreached'⟩ := step_reached hpending hs
      refine ⟨request₂, heq, by omega, by omega, ?_⟩
      rcases hreached' with hpending' | ⟨response, hfails, hover, hcode⟩
      · exact .inl hpending'
      · exact .inr ⟨response, hfails, hover, fun hc => by have := hcode hc; omega⟩
    · obtain ⟨front, query, back, hsplit⟩ := hs
      rw [hover.running] at hsplit
      simp at hsplit

theorem runs_head {n : Nat} {request₁ : Request ε} {result : Option (Request ε)}
    (hs : Step request (some request₁)) (hr : Runs request₁ n result) : Runs request (n + 1) result := by
  induction hr with
  | refl => exact .step .refl hs
  | step _ hs' ih => exact .step ih hs'

/-- The callbacks of a request come to an end. -/
theorem completes (h : Pending fails entries request ctx failed) :
    ∃ n request', Runs request n (some request') ∧ request'.running = [] := by
  induction hsize : request.sum Running.size using Nat.strong_induction_on generalizing request ctx failed with
  | _ size ih =>
    cases hrunning : request.running with
    | nil => exact ⟨0, request, .refl, hrunning⟩
    | cons query back =>
      have hstep : Step request (request.call [] query back) := .call [] query back hrunning
      obtain ⟨request₁, heq, hless, -, hreached⟩ := step_reached h hstep
      rw [heq] at hstep
      rcases hreached with ⟨ctx₁, failed₁, hpending⟩ | ⟨response, -, hover, -⟩
      · obtain ⟨n, request', hr, hnone⟩ := ih _ (hsize ▸ hless) hpending rfl
        exact ⟨n + 1, request', runs_head hstep hr, hnone⟩
      · exact ⟨1, request₁, runs_head hstep .refl, hover.running⟩

/-- One of the queries of a kind can be left to the last, and answers. -/
theorem answers_last {K : Running ε → Prop} {Q : Response ε → Prop} (hfails : fails = 0)
    (hgoes : ∀ {ctx query rest started fail items}, Goes ctx query rest started fail items → K query →
      K rest ∨ ∃ query' ∈ started, K query')
    (hends : ∀ {ctx query response}, Ends ctx query response → K query → Q response)
    (h : Pending fails entries request ctx failed) (hkind : ∃ query ∈ request.running, K query) :
    ∃ n request' response, Runs request n (some request') ∧ Over entries request' response ∧ Q response := by
  induction hsize : request.sum Running.size using Nat.strong_induction_on generalizing request ctx failed with
  | _ size ih =>
    obtain ⟨query, hmem, hquery⟩ := hkind
    obtain ⟨front, back, hsplit⟩ := List.append_of_mem hmem
    cases hothers : front ++ back with
    | nil =>
      -- the query is alone, and goes on until it is over
      have hstep : Step request (request.call front query back) := .call front query back hsplit
      rcases callback_cases ctx query with ⟨rest, started, fail, items, hgo⟩ | ⟨response, hend⟩
      · obtain ⟨request₁, ctx₁, failed₁, heq, hpending, hrunning, -, hless⟩ := goes_step h hsplit hgo
        rw [heq] at hstep
        have hkind₁ : ∃ query ∈ request₁.running, K query := by
          rw [hrunning]
          rcases hgoes hgo hquery with hrest | ⟨query', hm, hquery'⟩
          · exact ⟨rest, by simp, hrest⟩
          · exact ⟨query', by simp [hm], hquery'⟩
        obtain ⟨n, request', response, hr, hover⟩ := ih _ (hsize ▸ hless) hpending hkind₁ rfl
        exact ⟨n + 1, request', response, runs_head hstep hr, hover⟩
      · rcases ends_step h hsplit hend with ⟨request₁, ctx₁, failed₁, -, -, -, hmore⟩ |
          ⟨request₁, heq, hover, -⟩
        · have hfailed : failed = 0 := by have := h.fails; omega
          have hlength := congrArg List.length hothers
          simp only [List.length_append, List.length_nil] at hlength
          omega
        · rw [heq] at hstep
          exact ⟨1, request₁, response, runs_head hstep .refl, hover, hends hend hquery⟩
    | cons other others =>
      -- another query is called first, and this one stays
      have hother : other ∈ front ++ back := by simp [hothers]
      have hkeep : ∃ front' back', request.running = front' ++ other :: back' ∧ query ∈ front' ++ back' := by
        rcases List.mem_append.mp hother with hm | hm
        · obtain ⟨xs, ys, rfl⟩ := List.append_of_mem hm
          exact ⟨xs, ys ++ query :: back, by simp [hsplit], by simp⟩
        · obtain ⟨xs, ys, rfl⟩ := List.append_of_mem hm
          exact ⟨front ++ query :: xs, ys, by simp [hsplit], by simp⟩
      obtain ⟨front', back', hsplit', hkept⟩ := hkeep
      have hstep : Step request (request.call front' other back') := .call front' other back' hsplit'
      obtain ⟨request₀, heq₀, hless, -⟩ := step_reached h hstep
      have hnext : ∃ ctx₁ failed₁, Pending fails entries request₀ ctx₁ failed₁ ∧ query ∈ request₀.running := by
        rcases callback_cases ctx other with ⟨rest, started, fail, items, hgo⟩ | ⟨response, hend⟩
        · obtain ⟨request₁, ctx₁, failed₁, heq, hpending, hrunning, -⟩ := goes_step h hsplit' hgo
          obtain rfl := Option.some.inj (heq₀.symm.trans heq)
          refine ⟨ctx₁, failed₁, hpending, ?_⟩
          rw [hrunning]
          rcases List.mem_append.mp hkept with hm | hm <;> simp [hm]
        · rcases ends_step h hsplit' hend with ⟨request₁, ctx₁, failed₁, heq, hpending, hrunning, -⟩ |
            ⟨request₁, -, -, hnone, -⟩
          · obtain rfl := Option.some.inj (heq₀.symm.trans heq)
            exact ⟨ctx₁, failed₁, hpending, by rw [hrunning]; exact hkept⟩
          · have hlength := List.length_pos_of_mem hkept
            simp only [List.length_append] at hlength
            omega
      obtain ⟨ctx₁, failed₁, hpending, hm⟩ := hnext
      rw [heq₀] at hstep
      obtain ⟨n, request', response, hr, hover⟩ := ih _ (hsize ▸ hless) hpending ⟨query, hm, hquery⟩ rfl
      exact ⟨n + 1, request', response, runs_head hstep hr, hover⟩

theorem over_answered {response : Response ε} (h : Over entries request response) : request.Answered :=
  ⟨h.ctx, h.freed, response, h.responses⟩

/-- A pending request with no query in progress waits for one that has not started. -/
theorem stuck_fails (h : Pending fails entries request ctx failed) (hnone : request.running = []) :
    fails ≠ 0 := by
  have hnumber := h.number
  have hpos := h.pos
  have hfails := h.fails
  simp only [hnone, List.length_nil] at hnumber
  omega

theorem joins_pending (h : Pending fails entries request ctx failed) : Joins request ↔ fails = 0 := by
  constructor
  · rintro ⟨bound, hall⟩
    by_contra hfails
    obtain ⟨n, request', hr, hnone⟩ := completes h
    obtain ⟨-, request'', heq, -, hanswered⟩ := hall n _ hr
    cases heq
    obtain ⟨request'', heq, -, -, hreached⟩ := runs_reached h hr
    cases heq
    obtain ⟨-, -, response, hresponse⟩ := hanswered hnone
    rcases hreached with ⟨ctx', failed', hpending⟩ | ⟨_, hzero, -⟩
    · rw [hpending.responses] at hresponse
      cases hresponse
    · exact hfails hzero
  · intro hfails
    refine ⟨request.sum Running.size, fun n result hr => ?_⟩
    obtain ⟨request', rfl, hsize, -, hreached⟩ := runs_reached h hr
    refine ⟨by omega, request', rfl, ?_, ?_⟩
    · intro hsome
      rcases hreached with ⟨ctx', failed', hpending⟩ | ⟨response, -, hover, -⟩
      · exact ⟨hpending.responses, hpending.freed⟩
      · exact absurd hover.running hsome
    · intro hnone
      rcases hreached with ⟨ctx', failed', hpending⟩ | ⟨response, -, hover, -⟩
      · exact absurd hfails (stuck_fails hpending hnone)
      · exact over_answered hover

/-- How a request ends whose queries are all over. -/
theorem ended (h : Pending fails entries request ctx failed) {n : Nat} {request' : Request ε}
    (hr : Runs request n (some request')) (hnone : request'.running = []) :
    fails ≠ 0 ∧ request'.responses = [] ∨ ∃ response, fails = 0 ∧ request'.responses = [(response, 0)] ∧
      (response.code = 200 → 0 < request.sum Running.succeeds) ∧
      (response = ⟨400, []⟩ ∨ response.code = 200 ∧ (response.entries : Multiset ε) = entries) := by
  obtain ⟨request'', heq, -, -, hreached⟩ := runs_reached h hr
  cases heq
  rcases hreached with ⟨ctx', failed', hpending⟩ | ⟨response, hfails, hover, hcode⟩
  · exact .inl ⟨stuck_fails hpending hnone, hpending.responses⟩
  · exact .inr ⟨response, hfails, hover.responses, hcode, hover.response⟩

/-- An answer that can be a list of entries can be an error, too. -/
theorem order_pending (h : Pending fails entries request ctx failed)
    (houter : ∃ query ∈ request.running, query.outer = true) :
    OrderFree request ↔ fails ≠ 0 ∨ request.sum Running.succeeds = 0 := by
  constructor
  · intro hfree
    by_contra hn
    rw [not_or, not_not] at hn
    obtain ⟨hfails, hsucceeds⟩ := hn
    obtain ⟨m, request₁, response₁, hr₁, hover₁, herror⟩ := answers_last
      (K := fun query => query.outer = true) (Q := fun response => response = ⟨400, []⟩) hfails
      (fun hgo hk => .inl (hgo.outer.trans hk))
      (fun hend hk => by
        rcases hend.response with ⟨-, he⟩ | ⟨-, hin, -⟩
        · exact he
        · rw [hk] at hin
          cases hin) h houter
    have hitems : ∃ query ∈ request.running, 0 < query.succeeds := by
      by_contra hnone
      simp only [not_exists, not_and, Nat.not_lt, Nat.le_zero] at hnone
      refine hsucceeds (List.sum_eq_zero fun x hx => ?_)
      obtain ⟨query, hm, rfl⟩ := List.mem_map.mp hx
      exact hnone query hm
    obtain ⟨n, request₂, response₂, hr₂, hover₂, hsome⟩ := answers_last
      (K := fun query => 0 < query.succeeds) (Q := fun response => response.code = 200) hfails
      (fun hgo hk => by
        by_contra hnone
        rw [not_or] at hnone
        simp only [not_exists, not_and, Nat.not_lt, Nat.le_zero] at hnone
        rw [hgo.succeeds, hnone.1, List.sum_eq_zero (fun x hx => by
          obtain ⟨query, hm, rfl⟩ := List.mem_map.mp hx
          exact hnone.2 query hm)] at hk
        cases hk)
      (fun hend hk => by
        rcases hend.response with ⟨hzero, -⟩ | ⟨-, -, rfl⟩
        · omega
        · rfl) h hitems
    have hsame := hfree m n request₁ request₂ hr₁ hr₂ hover₁.running hover₂.running
    rw [hover₁.responses, hover₂.responses, herror] at hsame
    rcases hsame with _ | ⟨⟨hcode, -⟩, -⟩
    rw [hsome] at hcode
    cases hcode
  · intro hcase m n request₁ request₂ hr₁ hr₂ hnone₁ hnone₂
    rcases ended h hr₁ hnone₁ with ⟨hfails₁, he₁⟩ | ⟨response₁, hfails₁, he₁, hcode₁, hkind₁⟩ <;>
    rcases ended h hr₂ hnone₂ with ⟨hfails₂, he₂⟩ | ⟨response₂, hfails₂, he₂, hcode₂, hkind₂⟩
    · rw [he₁, he₂]
      exact .nil
    · exact absurd hfails₂ hfails₁
    · exact absurd hfails₁ hfails₂
    · have hzero : request.sum Running.succeeds = 0 := hcase.resolve_left (fun hn => hn hfails₁)
      obtain rfl : response₁ = ⟨400, []⟩ := hkind₁.resolve_right fun hc => by have := hcode₁ hc.1; omega
      obtain rfl : response₂ = ⟨400, []⟩ := hkind₂.resolve_right fun hc => by have := hcode₂ hc.1; omega
      rw [he₁, he₂]
      exact .cons ⟨rfl, .refl _⟩ .nil

end

/-- The queries that are to be started and do not start. -/
def First.fails : First ε → Nat
  | .started query => (Running.stbs query).fails
  | _ => 0

/-- The queries for entries that are started and end without an error. -/
def First.succeeds : First ε → Nat
  | .started query => (Running.stbs query).succeeds
  | _ => 0

theorem started_pending (query : Stbs ε) : Pending (Running.stbs query).fails (Running.stbs query).entries
    ⟨some ⟨1, []⟩, [.stbs query], [], 0⟩ ⟨1, []⟩ 0 :=
  ⟨rfl, rfl, Nat.one_pos, by simp [Request.sum], by simp [Request.sum], rfl, rfl⟩

/-- Nothing is called back any more. -/
theorem runs_idle {request : Request ε} (hidle : request.running = []) {n : Nat}
    {result : Option (Request ε)} (hr : Runs request n result) : n = 0 ∧ result = some request := by
  induction hr with
  | refl => exact ⟨rfl, rfl⟩
  | step _ hs ih =>
    obtain ⟨-, heq⟩ := ih
    cases heq
    obtain ⟨front, query, back, hsplit⟩ := hs
    rw [hidle] at hsplit
    simp at hsplit

theorem joins_idle {request : Request ε} (hidle : request.running = []) :
    Joins request ↔ request.Answered := by
  constructor
  · rintro ⟨bound, hall⟩
    obtain ⟨-, request', heq, -, hanswered⟩ := hall 0 _ .refl
    cases heq
    exact hanswered hidle
  · refine fun h => ⟨0, fun n result hr => ?_⟩
    obtain ⟨rfl, rfl⟩ := runs_idle hidle hr
    exact ⟨le_refl _, request, rfl, fun hn => absurd hidle hn, fun _ => h⟩

theorem order_idle {request : Request ε} (hidle : request.running = []) : OrderFree request := by
  intro m n request₁ request₂ hr₁ hr₂ _ _
  obtain ⟨-, heq₁⟩ := runs_idle hidle hr₁
  obtain ⟨-, heq₂⟩ := runs_idle hidle hr₂
  cases heq₁
  cases heq₂
  exact List.forall₂_same.mpr fun _ _ => ⟨rfl, .refl _⟩

/-- A request is answered as it should be if and only if every query that is to be started
starts, and the one for the play history has a connection for its first query. -/
theorem joins_iff (first : First ε) : (Joins (phoneMarkGet first) ↔ first.fails = 0) ∧
    (Joins (phonePlayhistoryGet first) ↔ first.fails = 0 ∧ first ≠ .noConn) := by
  cases first with
  | noConn =>
    refine ⟨(joins_idle rfl).trans ⟨fun _ => rfl, fun _ => ⟨rfl, rfl, _, rfl⟩⟩, (joins_idle rfl).trans ?_⟩
    refine ⟨fun h => ?_, fun h => absurd rfl h.2⟩
    cases h.1
  | failed =>
    refine ⟨(joins_idle rfl).trans ⟨fun _ => rfl, fun _ => ⟨rfl, rfl, _, rfl⟩⟩, (joins_idle rfl).trans ?_⟩
    exact ⟨fun _ => ⟨rfl, fun hc => by cases hc⟩, fun _ => ⟨rfl, rfl, _, rfl⟩⟩
  | started query =>
    refine ⟨joins_pending (started_pending query), (joins_pending (started_pending query)).trans ?_⟩
    exact ⟨fun h => ⟨h, fun hc => by cases hc⟩, fun h => h.1⟩

/-- The order makes no difference if and only if there are no entries to lose, or no answer
because of a query that does not start. -/
theorem order_iff (first : First ε) :
    (OrderFree (phoneMarkGet first) ↔ first.fails ≠ 0 ∨ first.succeeds = 0) ∧
      (OrderFree (phonePlayhistoryGet first) ↔ first.fails ≠ 0 ∨ first.succeeds = 0) := by
  cases first with
  | noConn =>
    exact ⟨⟨fun _ => .inr rfl, fun _ => order_idle rfl⟩, fun _ => .inr rfl, fun _ => order_idle rfl⟩
  | failed =>
    exact ⟨⟨fun _ => .inr rfl, fun _ => order_idle rfl⟩, fun _ => .inr rfl, fun _ => order_idle rfl⟩
  | started query =>
    have hfree := order_pending (started_pending query) ⟨.stbs query, by simp, rfl⟩
    have hsum : Request.sum (⟨some ⟨1, []⟩, [.stbs query], [], 0⟩ : Request ε) Running.succeeds =
        (Running.stbs query).succeeds := by simp [Request.sum]
    rw [hsum] at hfree
    exact ⟨hfree, hfree⟩

/-- A user with one box, whose query for phones does not start. -/
theorem failed_start_unanswered : ¬ ∀ first : First Nat, Joins (phoneMarkGet first) := by
  intro hall
  obtain ⟨bound, hruns⟩ := hall (.started (.done [.failed]))
  have hrow : Runs (phoneMarkGet (.started (.done [.failed]))) 1
      (some ⟨some ⟨2, ([] : List Nat)⟩, [.stbs (.done [])], [], 0⟩) :=
    .step .refl (.call [] (.stbs (.done [.failed])) [] rfl)
  have hdone : Runs (phoneMarkGet (.started (.done [.failed]))) 2
      (some ⟨some ⟨1, ([] : List Nat)⟩, [], [], 0⟩) :=
    .step hrow (.call [] (.stbs (.done [])) [] rfl)
  obtain ⟨-, request', heq, -, hanswered⟩ := hruns 2 _ hdone
  cases heq
  cases (hanswered rfl).1

/-- A user with one box, one phone and one mark: with the query for the mark last the mark
is the answer, and with the one for the box last it is an error. -/
theorem mark_or_error : ¬ ∀ first : First Nat, OrderFree (phoneMarkGet first) := by
  intro hall
  have hstb : Runs (phoneMarkGet (.started (.done [.started (.done [.started (.done [some 7])])]))) 1
      (some ⟨some ⟨2, []⟩, [.stbs (.done []), .phones (.done [.started (.done [some 7])])], [], 0⟩) :=
    Runs.call .refl [] (.stbs (.done [.started (.done [.started (.done [some 7])])])) [] rfl rfl
  have hphone : Runs (phoneMarkGet (.started (.done [.started (.done [.started (.done [some 7])])]))) 2
      (some ⟨some ⟨3, []⟩, [.stbs (.done []), .phones (.done []), .items (.done [some 7])], [], 0⟩) :=
    hstb.call [.stbs (.done [])] (.phones (.done [.started (.done [some 7])])) [] rfl rfl
  have hmark : Runs (phoneMarkGet (.started (.done [.started (.done [.started (.done [some 7])])]))) 3
      (some ⟨some ⟨3, [7]⟩, [.stbs (.done []), .phones (.done []), .items (.done [])], [], 0⟩) :=
    hphone.call [.stbs (.done []), .phones (.done [])] (.items (.done [some 7])) [] rfl rfl
  have hstbs : Runs (phoneMarkGet (.started (.done [.started (.done [.started (.done [some 7])])]))) 4
      (some ⟨some ⟨2, [7]⟩, [.phones (.done []), .items (.done [])], [], 0⟩) :=
    hmark.call [] (.stbs (.done [])) [.phones (.done []), .items (.done [])] rfl rfl
  have hmarks : Runs (phoneMarkGet (.started (.done [.started (.done [.started (.done [some 7])])]))) 4
      (some ⟨some ⟨2, [7]⟩, [.stbs (.done []), .phones (.done [])], [], 0⟩) :=
    hmark.call [.stbs (.done []), .phones (.done [])] (.items (.done [])) [] rfl rfl
  have hfirst : Runs (phoneMarkGet (.started (.done [.started (.done [.started (.done [some 7])])]))) 6
      (some ⟨none, [], [(⟨200, [7]⟩, 0)], 1⟩) := by
    have hphones : Runs _ 5 (some ⟨some ⟨1, [7]⟩, [.items (.done [])], [], 0⟩) :=
      hstbs.call [] (.phones (.done [])) [.items (.done [])] rfl rfl
    exact hphones.call [] (.items (.done [])) [] rfl rfl
  have hlast : Runs (phoneMarkGet (.started (.done [.started (.done [.started (.done [some 7])])]))) 6
      (some ⟨none, [], [(⟨400, []⟩, 0)], 1⟩) := by
    have hphones : Runs _ 5 (some ⟨some ⟨1, [7]⟩, [.stbs (.done [])], [], 0⟩) :=
      hmarks.call [.stbs (.done [])] (.phones (.done [])) [] rfl rfl
    exact hphones.call [] (.stbs (.done [])) [] rfl rfl
  rcases hall _ 6 6 _ _ hfirst hlast rfl rfl with _ | ⟨⟨hcode, -⟩, -⟩
  cases hcode

end Yclib.Trs.Join
