import Mathlib.Data.List.Basic

namespace Yclib.Http.Lifetime

/-! When a server connection is destroyed: `read_func`, `write_func`, `rns_hconn_resp` and
`rns_hconn_secure`, with what the socket and the handlers do left open. -/

/-- What comes of a call of a task's `work`: some bytes are sent, all have been, none can be
sent now, or the socket fails. -/
inductive Sent
  | some
  | all
  | block
  | error

/-- `rns_http_task_t` by its callbacks: a buffer to send, or the end of a response. -/
inductive Task
  | buffer
  | resp
deriving DecidableEq

/-- `rns_hconn_t`. `done` tells whether the state of the request read is DONE, `keeps`
whether the headers of the response ask for the connection to be kept. -/
structure Hconn where
  phase : Bool
  destroy : Bool
  write : Bool
  done : Bool
  keeps : Bool
  tasks : List Task

/-- A connection that may have been freed, and the requests it has handed out: those their
handlers are still at, and those answered whose completion has not run. `early` tells
whether it was freed with one of them about. -/
structure Life where
  hconn : Option Hconn
  waiting : Nat
  answered : Nat
  destroyed : Nat
  early : Bool

def Life.outstanding (life : Life) : Nat := life.waiting + life.answered

/-- A connection `accept_func` makes. -/
def Life.accepted : Life where
  hconn := some ⟨false, false, false, false, false, []⟩
  waiting := 0
  answered := 0
  destroyed := 0
  early := false

/-- `rns_hconn_destroy`. -/
def rnsHconnDestroy (life : Life) (hconn : Hconn) : Life :=
  if hconn.phase then { life with hconn := some { hconn with destroy := true } }
  else { life with
    hconn := none
    destroyed := life.destroyed + 1
    early := life.early || decide (0 < life.outstanding) }

/-- `rns_hconn_secure`. -/
def rnsHconnSecure (life : Life) (hconn : Hconn) : Life :=
  rnsHconnDestroy life { hconn with phase := false }

/-- `rns_hconn_resp_close`. -/
def rnsHconnRespClose (life : Life) (hconn : Hconn) : Life :=
  let hconn := { hconn with write := false }
  if hconn.keeps = false ∨ hconn.destroy then rnsHconnDestroy life hconn
  else { life with hconn := some { hconn with done := false, keeps := false } }

/-- `rns_hconn_resp_done`, which ends the request. -/
def rnsHconnRespDone (life : Life) (hconn : Hconn) : Life × Hconn :=
  ({ life with answered := life.answered - 1 }, { hconn with phase := false })

/-- `write_func` on the tasks left, `errored` if the task before them failed: the size it
left is what a task without `work` is judged by. -/
def writeFunc (life : Life) (hconn : Hconn) : List Sent → Bool → List Task → Life
  | _, _, [] => { life with hconn := some { hconn with tasks := [] } }
  | sents, true, .resp :: tasks => writeFunc life hconn sents true tasks
  | _, false, .resp :: tasks =>
    let (life, hconn) := rnsHconnRespDone life { hconn with tasks := tasks }
    rnsHconnRespClose life hconn
  | [], _, .buffer :: tasks => { life with hconn := some { hconn with tasks := .buffer :: tasks } }
  | .block :: _, _, .buffer :: tasks =>
    { life with hconn := some { hconn with tasks := .buffer :: tasks } }
  | .some :: sents, _, .buffer :: tasks => writeFunc life hconn sents false (.buffer :: tasks)
  | .all :: sents, _, .buffer :: tasks => writeFunc life hconn sents false tasks
  | .error :: sents, _, .buffer :: tasks => writeFunc life hconn sents true tasks
termination_by sents _ tasks => sents.length + tasks.length

/-- The response of a handler: its buffers, whether its headers keep the connection, and
what the socket does should it be written at once. -/
structure Response where
  buffers : Nat
  keeps : Bool
  sents : List Sent

/-- The connection with the headers, the buffers and the end of a response. -/
def Hconn.answer (hconn : Hconn) (response : Response) : Hconn :=
  { hconn with
    keeps := response.keeps
    tasks := hconn.tasks ++ List.replicate response.buffers .buffer ++ [.resp] }

/-- `rns_hconn_resp2`, down to `rns_hconn_resp`. -/
def rnsHconnResp (life : Life) (hconn : Hconn) (response : Response) : Life :=
  let life := { life with answered := life.answered + 1, hconn := some (hconn.answer response) }
  if hconn.write then
    writeFunc life (hconn.answer response) response.sents false (hconn.answer response).tasks
  else life

/-- What `read_func` hands to `work`: a part of a body that the handler keeps to itself, or
a request, which it answers at once or later. `whole` tells whether the state is DONE,
`more` whether bytes are left in the buffer behind it. -/
inductive Dispatch
  | part
  | request (answer : Option Response) (whole more : Bool)

/-- `RNS_HCONN_STATE_EXEC`. -/
def exec (life : Life) (hconn : Hconn) : Dispatch → Life
  | .part => { life with hconn := some { hconn with phase := true, done := false } }
  | .request answer whole more =>
    let hconn := { hconn with phase := true, done := whole }
    let life := match answer with
      | none => { life with waiting := life.waiting + 1, hconn := some hconn }
      | some response => rnsHconnResp life hconn response
    { life with hconn := life.hconn.map fun hconn => { hconn with done := hconn.done && !more } }

/-- How the reads of an event end: with `EAGAIN`, with zero or with an error. -/
inductive ReadEnd
  | again (sents : List Sent)
  | closed
  | failed

/-- `read_func`. There is no result once it goes on with a connection that is freed. -/
def readFunc (life : Life) (hconn : Hconn) : List Dispatch → ReadEnd → Option Life
  | [], .again sents =>
    if hconn.done then some (writeFunc life { hconn with write := true } sents false hconn.tasks)
    else some { life with hconn := some hconn }
  | [], .closed => some (rnsHconnDestroy life hconn)
  | [], .failed => some (rnsHconnDestroy life hconn)
  | dispatch :: rest, fin =>
    let life := exec life hconn dispatch
    match life.hconn with
    | none => none
    | some hconn => readFunc life hconn rest fin

inductive Event
  | read (dispatches : List Dispatch) (fin : ReadEnd)
  | complete (response : Response)
  | expire
  | writable (sents : List Sent)

/-- An event on the connection. A connection that is freed has no timer and is out of the
epoll set, but its handlers still know it. -/
def step (life : Life) (event : Event) : Option Life :=
  match life.hconn, event with
  | none, .complete _ => if life.waiting = 0 then some life else none
  | none, _ => some life
  | some hconn, .read dispatches fin => readFunc life hconn dispatches fin
  | some hconn, .complete response =>
    if life.waiting = 0 then some life
    else some (rnsHconnResp { life with waiting := life.waiting - 1 } hconn response)
  | some hconn, .expire => some (rnsHconnSecure life hconn)
  | some hconn, .writable sents => some (writeFunc life hconn sents false hconn.tasks)

def run (life : Life) : List Event → Option Life
  | [] => some life
  | event :: events => (step life event).bind (run · events)

/-- The requests among what is handed out. -/
def requests : List Dispatch → Nat
  | [] => 0
  | .part :: rest => requests rest
  | .request .. :: rest => requests rest + 1

/-- No request is handed out beside another one, and the timer does not go off with one
about. -/
def Quiet (life : Life) : Event → Prop
  | .read dispatches _ => life.outstanding + requests dispatches ≤ 1 ∨ requests dispatches = 0
  | .expire => life.outstanding = 0
  | _ => True

/-- The events are quiet where they come. -/
def Quietly (life : Life) : List Event → Prop
  | [] => True
  | event :: events => Quiet life event ∧ ∀ life', step life event = some life' → Quietly life' events

/-- What holds of a connection with so many outstanding requests. -/
structure Held (life : Life) (hconn : Hconn) : Prop where
  phase : 0 < life.outstanding → hconn.phase = true
  write : hconn.write = true → 0 < life.outstanding
  done : hconn.done = true → 0 < life.outstanding
  resps : hconn.tasks.count .resp ≤ life.answered

structure Inv (life : Life) : Prop where
  early : life.early = false
  few : life.outstanding ≤ 1
  gone : life.hconn = none → life.destroyed = 1 ∧ life.outstanding = 0
  live : ∀ hconn, life.hconn = some hconn → life.destroyed = 0 ∧ Held life hconn

/-- The same of a connection that a callback is at. -/
structure Open (life : Life) (hconn : Hconn) : Prop where
  early : life.early = false
  few : life.outstanding ≤ 1
  destroyed : life.destroyed = 0
  held : Held life hconn

section
variable {life : Life} {hconn : Hconn}

theorem open_inv (h : Open life hconn) (hsame : life.hconn = some hconn) : Inv life := by
  refine ⟨h.early, h.few, fun hnone => ?_, fun hconn' hsome => ?_⟩
  · rw [hsame] at hnone
    cases hnone
  · rw [hsame] at hsome
    cases hsome
    exact ⟨h.destroyed, h.held⟩

theorem inv_open (h : Inv life) (hsame : life.hconn = some hconn) : Open life hconn :=
  ⟨h.early, h.few, (h.live hconn hsame).1, (h.live hconn hsame).2⟩

/-- What is kept in place of the connection does not matter to `Open`. -/
theorem open_put (h : Open life hconn) : Inv { life with hconn := some hconn } :=
  open_inv ⟨h.early, h.few, h.destroyed, h.held.phase, h.held.write, h.held.done, h.held.resps⟩ rfl

/-- With no request about, a connection may be freed. -/
theorem freed_inv (hearly : life.early = false) (hdestroyed : life.destroyed = 0)
    (hnone : life.outstanding = 0) : Inv { life with
      hconn := none
      destroyed := life.destroyed + 1
      early := life.early || decide (0 < life.outstanding) } := by
  refine ⟨?_, by simp only [Life.outstanding] at hnone ⊢; omega, fun _ => ⟨?_, hnone⟩, ?_⟩
  · simp [hearly, hnone]
  · simp [hdestroyed]
  · intro hconn hsome
    cases hsome

theorem destroy_inv (h : Open life hconn) : Inv (rnsHconnDestroy life hconn) := by
  unfold rnsHconnDestroy
  split
  · exact open_put ⟨h.early, h.few, h.destroyed, h.held.phase, h.held.write, h.held.done, h.held.resps⟩
  · rename_i hphase
    apply freed_inv h.early h.destroyed
    by_contra hn
    exact hphase (h.held.phase (by omega))

theorem resp_close_inv (hearly : life.early = false) (hdestroyed : life.destroyed = 0)
    (hnone : life.outstanding = 0) (hphase : hconn.phase = false)
    (hresps : hconn.tasks.count .resp = 0) : Inv (rnsHconnRespClose life hconn) := by
  simp only [rnsHconnRespClose]
  split
  · simp only [rnsHconnDestroy, hphase]
    exact freed_inv hearly hdestroyed hnone
  · refine open_put ⟨hearly, by omega, hdestroyed, ?_, ?_, ?_, ?_⟩
    · omega
    · simp
    · simp
    · rw [hresps]
      exact Nat.zero_le _

/-- Whatever the socket does, `write_func` runs the completion of a request before it
closes its connection. -/
theorem write_inv {sents : List Sent} {errored : Bool} {tasks : List Task}
    (h : Open life { hconn with tasks := tasks }) :
    Inv (writeFunc life hconn sents errored tasks) := by
  fun_induction writeFunc life hconn sents errored tasks with
  | case1 => exact open_put h
  | case2 sents tasks ih =>
    refine ih ⟨h.early, h.few, h.destroyed, h.held.phase, h.held.write, h.held.done, ?_⟩
    have hresps := h.held.resps
    simp only [List.count_cons_self] at hresps
    simp only
    omega
  | case3 sents tasks life' hconn' heq =>
    have hresps := h.held.resps
    have hfew := h.few
    simp only [rnsHconnRespDone, Prod.mk.injEq] at heq
    obtain ⟨rfl, rfl⟩ := heq
    simp only [List.count_cons_self] at hresps
    simp only [Life.outstanding] at hfew
    refine resp_close_inv h.early h.destroyed ?_ rfl ?_
    · simp only [Life.outstanding]
      omega
    · simp only
      omega
  | case4 => exact open_put h
  | case5 => exact open_put h
  | case6 sents errored tasks ih => exact ih h
  | case7 sents errored tasks ih =>
    refine ih ⟨h.early, h.few, h.destroyed, h.held.phase, h.held.write, h.held.done, ?_⟩
    simpa using h.held.resps
  | case8 sents errored tasks ih =>
    refine ih ⟨h.early, h.few, h.destroyed, h.held.phase, h.held.write, h.held.done, ?_⟩
    simpa using h.held.resps

/-- The answer of the only request. -/
theorem answer_open (hearly : life.early = false) (hdestroyed : life.destroyed = 0)
    (hnone : life.outstanding = 0) (hphase : hconn.phase = true)
    (hresps : hconn.tasks.count .resp = 0) (response : Response) :
    Open { life with answered := life.answered + 1, hconn := some (hconn.answer response) }
      (hconn.answer response) := by
  simp only [Life.outstanding] at hnone
  have hpos : 0 < life.waiting + (life.answered + 1) := by omega
  refine ⟨hearly, by simp only [Life.outstanding]; omega, hdestroyed, fun _ => hphase,
    fun _ => hpos, fun _ => hpos, ?_⟩
  simp [Hconn.answer, List.count_replicate, hresps]

theorem resp_inv (hearly : life.early = false) (hdestroyed : life.destroyed = 0)
    (hnone : life.outstanding = 0) (hphase : hconn.phase = true)
    (hresps : hconn.tasks.count .resp = 0) (response : Response) :
    Inv (rnsHconnResp life hconn response) := by
  have hopen := answer_open hearly hdestroyed hnone hphase hresps response
  simp only [rnsHconnResp]
  split
  · exact write_inv hopen
  · exact open_inv hopen rfl

/-- What is handed out with no request about does not free the connection. -/
theorem exec_open (dispatch : Dispatch) (h : Open life hconn)
    (hquiet : life.outstanding + requests [dispatch] ≤ 1 ∨ requests [dispatch] = 0) :
    ∃ hconn', (exec life hconn dispatch).hconn = some hconn' ∧
      Open (exec life hconn dispatch) hconn' ∧
      (exec life hconn dispatch).outstanding = life.outstanding + requests [dispatch] := by
  cases dispatch with
  | part =>
    exact ⟨_, rfl, ⟨h.early, h.few, h.destroyed, fun _ => rfl, h.held.write, by simp, h.held.resps⟩,
      rfl⟩
  | request answer whole more =>
    have hnone : life.outstanding = 0 := by
      simp only [requests] at hquiet
      omega
    have hsum := hnone
    simp only [Life.outstanding] at hsum
    have hwrite : hconn.write = false := by
      by_contra hw
      have := h.held.write (by simpa using hw)
      omega
    have hresps : hconn.tasks.count .resp = 0 := by
      have := h.held.resps
      omega
    cases answer with
    | none =>
      have hpos : 0 < life.waiting + 1 + life.answered := by omega
      refine ⟨_, rfl, ⟨h.early, ?_, h.destroyed, fun _ => rfl, fun _ => hpos, fun _ => hpos,
        h.held.resps⟩, ?_⟩
      · simp only [exec, Life.outstanding]
        omega
      · simp only [exec, Life.outstanding, requests]
        omega
    | some response =>
      have hopen := @answer_open life { hconn with phase := true, done := whole } h.early h.destroyed
        hnone rfl hresps response
      have hpos : 0 < life.waiting + (life.answered + 1) := by omega
      have hexec : exec life hconn (.request (some response) whole more) =
          { life with
            answered := life.answered + 1
            hconn := some { ({ hconn with phase := true, done := whole } : Hconn).answer response with
              done := whole && !more } } := by
        simp only [exec, rnsHconnResp, hwrite]
        rfl
      rw [hexec]
      refine ⟨_, rfl, ⟨hopen.early, hopen.few, hopen.destroyed, hopen.held.phase, fun _ => hpos,
        fun _ => hpos, hopen.held.resps⟩, ?_⟩
      simp only [Life.outstanding, requests]
      omega

theorem read_inv {dispatches : List Dispatch} {fin : ReadEnd} (h : Open life hconn)
    (hquiet : life.outstanding + requests dispatches ≤ 1 ∨ requests dispatches = 0) :
    ∃ life', readFunc life hconn dispatches fin = some life' ∧ Inv life' := by
  induction dispatches generalizing life hconn with
  | nil =>
    cases fin with
    | again sents =>
      by_cases hdone : hconn.done = true
      · refine ⟨_, by simp only [readFunc, hdone, if_true]; rfl, write_inv ?_⟩
        exact ⟨h.early, h.few, h.destroyed, h.held.phase, fun _ => h.held.done hdone,
          fun _ => h.held.done hdone, h.held.resps⟩
      · exact ⟨_, by simp only [readFunc, hdone]; rfl, open_put h⟩
    | closed => exact ⟨_, rfl, destroy_inv h⟩
    | failed => exact ⟨_, rfl, destroy_inv h⟩
  | cons dispatch rest ih =>
    have hcount : requests (dispatch :: rest) = requests [dispatch] + requests rest := by
      cases dispatch <;> simp only [requests] <;> omega
    obtain ⟨hconn', hsome, hopen, hsum⟩ := exec_open dispatch h (by omega)
    obtain ⟨life', hread, hinv⟩ := ih hopen (by omega)
    exact ⟨life', by simp only [readFunc, hsome, hread], hinv⟩

end

/-- A quiet event comes back, and keeps the connection as long as a request is about. -/
theorem step_inv {life : Life} {event : Event} (h : Inv life) (hquiet : Quiet life event) :
    ∃ life', step life event = some life' ∧ Inv life' := by
  cases hsame : life.hconn with
  | none =>
    have hnone := (h.gone hsame).2
    simp only [Life.outstanding] at hnone
    cases event with
    | complete response =>
      exact ⟨life, by simp only [step, hsame]; rw [if_pos (by omega)], h⟩
    | read => exact ⟨life, by simp only [step, hsame], h⟩
    | expire => exact ⟨life, by simp only [step, hsame], h⟩
    | writable => exact ⟨life, by simp only [step, hsame], h⟩
  | some hconn =>
    have hopen := inv_open h hsame
    cases event with
    | read dispatches fin =>
      obtain ⟨life', hread, hinv⟩ := @read_inv _ _ _ fin hopen hquiet
      exact ⟨life', by simp only [step, hsame, hread], hinv⟩
    | writable sents =>
      exact ⟨writeFunc life hconn sents false hconn.tasks, by simp only [step, hsame],
        write_inv hopen⟩
    | expire =>
      refine ⟨rnsHconnSecure life hconn, by simp only [step, hsame], ?_⟩
      exact freed_inv hopen.early hopen.destroyed hquiet
    | complete response =>
      by_cases hwaiting : life.waiting = 0
      · exact ⟨life, by simp only [step, hsame, hwaiting, if_true], h⟩
      · have hfew := h.few
        have hresps := hopen.held.resps
        simp only [Life.outstanding] at hfew
        have hnone : Life.outstanding { life with waiting := life.waiting - 1 } = 0 := by
          simp only [Life.outstanding]
          omega
        have hphase : hconn.phase = true := hopen.held.phase (by
          simp only [Life.outstanding]
          omega)
        have hinv : Inv (rnsHconnResp { life with waiting := life.waiting - 1 } hconn response) := by
          refine resp_inv ?_ ?_ hnone hphase (by omega) response
          · exact h.early
          · exact hopen.destroyed
        exact ⟨_, by simp only [step, hsame, hwaiting, if_false], hinv⟩

theorem run_inv {life : Life} {events : List Event} (h : Inv life) (hquiet : Quietly life events) :
    ∃ life', run life events = some life' ∧ Inv life' := by
  induction events generalizing life with
  | nil => exact ⟨life, rfl, h⟩
  | cons event events ih =>
    obtain ⟨hevent, hrest⟩ := hquiet
    obtain ⟨life', hstep, hinv⟩ := step_inv h hevent
    obtain ⟨life'', hrun, hinv'⟩ := ih hinv (hrest life' hstep)
    exact ⟨life'', by simp only [run, hstep, Option.bind_some, hrun], hinv'⟩

/-- As long as requests come one after the other and the timer does not go off with one
about, the connection outlives every request and is destroyed once at most. -/
theorem destroyed_in_time (events : List Event) (hquiet : Quietly .accepted events) :
    ∃ life, run .accepted events = some life ∧ life.early = false ∧ life.destroyed ≤ 1 := by
  have hstart : Inv .accepted := by
    refine ⟨rfl, by decide, fun hnone => (by cases hnone), fun hconn hsome => ?_⟩
    cases hsome
    exact ⟨rfl, by simp [Life.accepted, Life.outstanding], by simp, by simp, by simp⟩
  obtain ⟨life, hrun, hinv⟩ := run_inv hstart hquiet
  refine ⟨life, hrun, hinv.early, ?_⟩
  cases hsame : life.hconn with
  | none => exact Nat.le_of_eq (hinv.gone hsame).1
  | some hconn => rw [(hinv.live hconn hsame).1]; exact Nat.zero_le _

/-- A request that is answered after its connection is closed by the peer. -/
theorem destroyed_in_time_closed :
    ∃ life, run .accepted [.read [.request none true false] .closed, .complete ⟨1, true, [.all]⟩] =
      some life ∧ life.early = false ∧ life.destroyed ≤ 1 :=
  destroyed_in_time _ ⟨.inl (by decide), fun _ _ => ⟨trivial, fun _ _ => trivial⟩⟩

/-- The timer takes the connection away from under the handler of its request. -/
theorem expiry_destroys_early : ¬ ∀ events : List Event,
    ∃ life, run .accepted events = some life ∧ life.early = false ∧ life.destroyed ≤ 1 := by
  intro hall
  obtain ⟨life, hrun, hearly, -⟩ := hall [.read [.request none true false] (.again []), .expire]
  have hlost : (run .accepted [.read [.request none true false] (.again []), .expire]).map
      Life.early = some true := by
    simp [run, step, readFunc, exec, writeFunc, rnsHconnSecure, rnsHconnDestroy, Life.accepted,
      Life.outstanding]
  rw [hrun] at hlost
  simp [hearly] at hlost

end Yclib.Http.Lifetime
