import Mathlib.Data.List.Basic
import Mathlib.Data.List.Forall2

namespace Yclib.Http.Writing

/-! The queue that `write_func` sends from: buffers, and the task at the end of a response,
whose `work` is NULL. -/

/-- What `send` does: it takes so many of the bytes and one, or all if there are fewer, or
it would block, or it fails. -/
inductive Sent
  | sent (more : Nat)
  | block
  | error

/-- `errno` after a `send` that fails. -/
inductive Errno
  | again
  | other
deriving DecidableEq

/-- `rns_http_task_t` by its callbacks: `rns_http_attach_buffer` with its `rns_data_t`, and
`rns_hconn_resp`, where `keeps` tells whether `rns_hconn_resp_close` keeps the connection. -/
inductive Task
  | buffer (data : List UInt8) (offset : Nat)
  | resp (keeps : Bool)

/-- What is seen of the tasks: the bytes sent, and the callbacks run. -/
inductive Act
  | byte (b : UInt8)
  | error
  | done
  | close

/-- `rns_hconn_t`, with what has been seen so far. -/
structure Hconn where
  tasks : List Task
  write : Bool
  destroyed : Bool
  acts : List Act

/-- What a task has come to: the size that its `work` returns, the task, and what is left of
what `send` does. -/
structure Worked where
  size : Int
  errno : Errno
  task : Task
  sents : List Sent
  acts : List Act

/-- `rns_http_send_buffer_work`. A socket nothing is said of would block. -/
def rnsHttpSendBufferWork (errno : Errno) (sents : List Sent) (data : List UInt8) (offset : Nat) :
    Worked :=
  if data.length ≤ offset then ⟨0, errno, .buffer data offset, sents, []⟩
  else
    match sents with
    | [] => ⟨-1, .again, .buffer data offset, [], []⟩
    | .block :: sents => ⟨-1, .again, .buffer data offset, sents, []⟩
    | .error :: sents => ⟨-1, .other, .buffer data offset, sents, []⟩
    | .sent more :: sents =>
      let ret := min (more + 1) (data.length - offset)
      ⟨ret, errno, .buffer data (offset + ret), sents, ((data.drop offset).take ret).map .byte⟩

/-- `task->cb.work`. Without one, the size stays what the task before has left. -/
def work (size : Int) (errno : Errno) (sents : List Sent) : Task → Worked
  | .buffer data offset => rnsHttpSendBufferWork errno sents data offset
  | .resp keeps => ⟨size, errno, .resp keeps, sents, []⟩

/-- `task->cb.error`. -/
def Task.error : Task → List Act
  | .buffer _ _ => [.error]
  | .resp _ => []

/-- `task->cb.close` of the end of a response, behind `task->cb.done`. -/
def rnsHconnRespClose (hconn : Hconn) (keeps : Bool) : Hconn :=
  let hconn := { hconn with write := false, acts := hconn.acts ++ [.done, .close] }
  if keeps then hconn else { hconn with tasks := [], destroyed := true }

/-- The loop of `write_func`, in so many rounds. -/
def writeLoop : Nat → Int → Errno → List Sent → Hconn → Option Hconn
  | 0, _, _, _, _ => none
  | fuel + 1, size, errno, sents, hconn =>
    match hconn.tasks with
    | [] => some hconn
    | task :: tasks =>
      let worked := work size errno sents task
      let acts := hconn.acts ++ worked.acts
      if worked.size < 0 ∧ worked.errno = .again then
        some { hconn with tasks := worked.task :: tasks, acts := acts }
      else if worked.size < 0 then
        writeLoop fuel worked.size worked.errno worked.sents
          { hconn with tasks := tasks, acts := acts ++ worked.task.error }
      else if worked.size = 0 then
        match worked.task with
        | .buffer _ _ =>
          writeLoop fuel worked.size worked.errno worked.sents
            { hconn with tasks := tasks, acts := acts }
        | .resp keeps => some (rnsHconnRespClose { hconn with tasks := tasks, acts := acts } keeps)
      else
        writeLoop fuel worked.size worked.errno worked.sents
          { hconn with tasks := worked.task :: tasks, acts := acts }

/-- `write_func`; each round takes a task or something that `send` does. -/
def writeFunc (sents : List Sent) (errno : Errno) (hconn : Hconn) : Option Hconn :=
  writeLoop (sents.length + hconn.tasks.length + 1) 0 errno sents hconn

inductive Event
  | attach (data : List UInt8)
  | resp (keeps : Bool) (sents : List Sent) (errno : Errno)
  | writable (sents : List Sent) (errno : Errno)
  | readDone (sents : List Sent) (errno : Errno)

/-- An event on a connection that is not destroyed: a buffer is queued, or the end of a
response, the socket can be written to, or the whole of a request is read. -/
def step (hconn : Hconn) : Event → Option Hconn
  | .attach data => some { hconn with tasks := hconn.tasks ++ [.buffer data 0] }
  | .resp keeps sents errno =>
    let hconn := { hconn with tasks := hconn.tasks ++ [.resp keeps] }
    if hconn.write then writeFunc sents errno hconn else some hconn
  | .writable sents errno => writeFunc sents errno hconn
  | .readDone sents errno => writeFunc sents errno { hconn with write := true }

/-- What is queued, as long as the connection is there. -/
inductive Item
  | buffer (data : List UInt8)
  | resp

def queue : Event → List Item
  | .attach data => [.buffer data]
  | .resp _ _ _ => [.resp]
  | _ => []

/-- A connection that is made has nothing queued. -/
def Hconn.create : Hconn := ⟨[], false, false, []⟩

/-- What is reached by events that all meet `P`, and all that has been queued. -/
inductive Reach (P : Hconn → Event → Prop) : Option Hconn → List Item → Prop
  | create : Reach P (some .create) []
  | step {hconn : Hconn} {items : List Item} {event : Event} (hr : Reach P (some hconn) items)
      (hopen : hconn.destroyed = false) (hp : P hconn event) :
      Reach P (step hconn event) (items ++ queue event)

/-- What is seen of an item that is finished: its bytes, all or those before an error, or
the callbacks at the end of a response. -/
inductive Finished : Item → List Act → Prop
  | sent (data : List UInt8) : Finished (.buffer data) (data.map .byte)
  | failed (data : List UInt8) (n : Nat) :
      Finished (.buffer data) ((data.take n).map .byte ++ [.error])
  | resp : Finished .resp [.done, .close]

def Task.item : Task → Item
  | .buffer data _ => .buffer data
  | .resp _ => .resp

/-- What is seen of the first task, which may be sent in part. -/
def begun : List Task → List Act
  | .buffer data offset :: _ => (data.take offset).map .byte
  | _ => []

/-- Nothing of the task has been sent. -/
def Task.Unsent : Task → Prop
  | .buffer _ offset => offset = 0
  | .resp _ => True

/-- The items in front are finished, one after the other, and the others are in the queue
as long as the connection is there, the first of them perhaps begun. -/
def Sends (items : List Item) (hconn : Hconn) : Prop :=
  ∃ finished rest acts, items = finished ++ rest ∧ List.Forall₂ Finished finished acts ∧
    hconn.acts = acts.flatten ++ begun hconn.tasks ∧
    (hconn.destroyed = false → rest = hconn.tasks.map Task.item)

/-- No buffer fails that the end of a response is right behind. -/
def Spared : List Sent → List Task → Prop
  | [], _ => True
  | _, [] => True
  | _, .resp _ :: _ => True
  | sent :: sents, .buffer data offset :: tasks =>
    if data.length ≤ offset then Spared (sent :: sents) tasks
    else
      match sent with
      | .block => True
      | .error => (∀ keeps, tasks.head? ≠ some (.resp keeps)) ∧ Spared sents tasks
      | .sent more =>
        Spared sents (.buffer data (offset + min (more + 1) (data.length - offset)) :: tasks)
termination_by sents tasks => sents.length + tasks.length

/-- The tasks that an event sends from spare the ends of the responses. -/
def Sparing (hconn : Hconn) : Event → Prop
  | .attach _ => True
  | .resp keeps sents _ => hconn.write = true → Spared sents (hconn.tasks ++ [.resp keeps])
  | .writable sents _ => Spared sents hconn.tasks
  | .readDone sents _ => Spared sents hconn.tasks

/-- Where a connection is that is there, with such tasks and such acts seen. -/
structure Inv (items finished : List Item) (acts : List (List Act)) (tasks : List Task)
    (seen : List Act) : Prop where
  items : items = finished ++ tasks.map Task.item
  finished : List.Forall₂ Finished finished acts
  acts : seen = acts.flatten ++ begun tasks
  unsent : ∀ task ∈ tasks.tail, task.Unsent

/-- What an event leaves. -/
structure Left (items : List Item) (hconn : Hconn) : Prop where
  sends : Sends items hconn
  inv : hconn.destroyed = false → ∃ finished acts, Inv items finished acts hconn.tasks hconn.acts

section
variable {items finished : List Item} {acts : List (List Act)} {tasks : List Task} {seen : List Act}

theorem inv_left {hconn : Hconn} (h : Inv items finished acts hconn.tasks hconn.acts) :
    Left items hconn :=
  ⟨⟨finished, _, acts, h.items, h.finished, h.acts, fun _ => rfl⟩, fun _ => ⟨finished, acts, h⟩⟩

theorem begun_unsent (h : ∀ task ∈ tasks, task.Unsent) : begun tasks = [] := by
  cases tasks with
  | nil => rfl
  | cons task tasks =>
    cases task with
    | resp => rfl
    | buffer data offset =>
      have hzero : offset = 0 := h _ List.mem_cons_self
      simp [begun, hzero]

/-- The first task is finished, and the queue goes on behind it. -/
theorem finish_inv {task : Task} {more : List Act} (h : Inv items finished acts (task :: tasks) seen)
    (hmore : Finished task.item (begun (task :: tasks) ++ more)) :
    Inv items (finished ++ [task.item]) (acts ++ [begun (task :: tasks) ++ more]) tasks
      (seen ++ more) := by
  have hnone : begun tasks = [] := begun_unsent h.unsent
  refine ⟨?_, ?_, ?_, ?_⟩
  · rw [h.items]
    simp
  · exact List.rel_append h.finished (.cons hmore .nil)
  · simp only [h.acts, hnone, List.flatten_append, List.flatten_singleton, List.append_assoc,
      List.append_nil]
  · exact fun task hm => h.unsent task (List.mem_of_mem_tail hm)

/-- The first buffer is sent for some more bytes. -/
theorem more_inv {data : List UInt8} {offset n : Nat}
    (h : Inv items finished acts (.buffer data offset :: tasks) seen) :
    Inv items finished acts (.buffer data (offset + n) :: tasks)
      (seen ++ ((data.drop offset).take n).map .byte) := by
  refine ⟨h.items, h.finished, ?_, h.unsent⟩
  rw [h.acts]
  simp only [begun, List.append_assoc]
  rw [← List.map_append, ← List.take_add]

/-- Once the end of a response runs its callbacks, `write_func` is over. -/
theorem close_left {keeps write destroyed : Bool} (h : Inv items finished acts (.resp keeps :: tasks) seen) :
    Left items (rnsHconnRespClose ⟨tasks, write, destroyed, seen⟩ keeps) := by
  have hinv : Inv items (finished ++ [.resp]) (acts ++ [[.done, .close]]) tasks
      (seen ++ [.done, .close]) := finish_inv h .resp
  have hnone : begun tasks = [] := begun_unsent h.unsent
  simp only [rnsHconnRespClose]
  split
  · exact inv_left hinv
  · refine ⟨⟨_, _, _, hinv.items, hinv.finished, ?_, fun hc => by cases hc⟩, fun hc => by cases hc⟩
    rw [hinv.acts, hnone]
    rfl

/-- What a completion is judged by is zero when it is taken first. -/
def Judged (size : Int) (tasks : List Task) : Prop :=
  ∀ keeps, tasks.head? = some (.resp keeps) → size = 0

/-- The loop comes to an end, and what it has sent is in order. -/
theorem loop_left {fuel : Nat} {size : Int} {errno : Errno} {sents : List Sent} {write destroyed : Bool}
    (hfuel : sents.length + tasks.length < fuel) (h : Inv items finished acts tasks seen)
    (hspared : Spared sents tasks) (hsize : Judged size tasks) :
    ∃ hconn', writeLoop fuel size errno sents ⟨tasks, write, destroyed, seen⟩ = some hconn' ∧
      Left items hconn' := by
  induction fuel generalizing size errno sents tasks seen finished acts with
  | zero => omega
  | succ fuel ih =>
    rcases tasks with _ | ⟨⟨data, offset⟩ | ⟨keeps⟩, tasks⟩
    · exact ⟨_, rfl, inv_left h⟩
    · by_cases hend : data.length ≤ offset
      · -- the whole buffer is sent, and the size is zero for whatever comes next
        have hall : begun (.buffer data offset :: tasks) = data.map Act.byte := by
          rw [begun, List.take_of_length_le hend]
        have hsent : Finished (Task.buffer data offset).item (begun (.buffer data offset :: tasks) ++ []) := by
          rw [hall, List.append_nil]
          exact .sent data
        have hspared' : Spared sents tasks := by
          cases sents with
          | nil => unfold Spared; trivial
          | cons sent sents => cases sent <;> rwa [Spared, if_pos hend] at hspared
        simp only [List.length_cons] at hfuel
        obtain ⟨hconn', hloop, hleft⟩ : ∃ hconn', writeLoop fuel 0 errno sents
            ⟨tasks, write, destroyed, seen ++ []⟩ = some hconn' ∧ Left items hconn' :=
          ih (by omega) (finish_inv h hsent) hspared' (fun _ _ => rfl)
        refine ⟨hconn', ?_, hleft⟩
        simpa [writeLoop, work, rnsHttpSendBufferWork, hend] using hloop
      · rcases sents with _ | ⟨more | _ | _, sents⟩
        · refine ⟨⟨.buffer data offset :: tasks, write, destroyed, seen⟩, ?_, inv_left h⟩
          simp [writeLoop, work, rnsHttpSendBufferWork, hend]
        · -- some bytes are sent, and the buffer stays first
          rw [Spared, if_neg hend] at hspared
          simp only [List.length_cons] at hfuel
          have hret : 0 < min (more + 1) (data.length - offset) := by omega
          have hpos : ¬ ((min (more + 1) (data.length - offset) : Nat) : Int) < 0 := by omega
          have hne : ¬ ((min (more + 1) (data.length - offset) : Nat) : Int) = 0 := by omega
          obtain ⟨hconn', hloop, hleft⟩ := @ih _ _ _ _ (min (more + 1) (data.length - offset) : Nat) errno
            sents (by simp only [List.length_cons]; omega) (more_inv h) hspared (fun _ hc => by cases hc)
          refine ⟨hconn', ?_, hleft⟩
          simp only [writeLoop, work, rnsHttpSendBufferWork, if_neg hend, hpos, hne, false_and, if_false]
          exact hloop
        · refine ⟨⟨.buffer data offset :: tasks, write, destroyed, seen⟩, ?_, inv_left h⟩
          simp [writeLoop, work, rnsHttpSendBufferWork, hend]
        · -- the buffer fails, so that the size is negative for what comes next
          rw [Spared, if_neg hend] at hspared
          simp only [List.length_cons] at hfuel
          have hfin := finish_inv h (.failed data offset)
          obtain ⟨hconn', hloop, hleft⟩ : ∃ hconn', writeLoop fuel (-1) .other sents
              ⟨tasks, write, destroyed, seen ++ [.error]⟩ = some hconn' ∧ Left items hconn' :=
            ih (by omega) hfin hspared.2 (fun keeps hc => absurd hc (hspared.1 keeps))
          refine ⟨hconn', ?_, hleft⟩
          simpa [writeLoop, work, rnsHttpSendBufferWork, hend, Task.error] using hloop
    · obtain rfl := hsize keeps rfl
      refine ⟨rnsHconnRespClose ⟨tasks, write, destroyed, seen⟩ keeps, ?_, close_left h⟩
      simp [writeLoop, work]

end

theorem write_left {items finished : List Item} {acts : List (List Act)} {hconn : Hconn}
    {sents : List Sent} {errno : Errno} (h : Inv items finished acts hconn.tasks hconn.acts)
    (hspared : Spared sents hconn.tasks) :
    ∃ hconn', writeFunc sents errno hconn = some hconn' ∧ Left items hconn' :=
  loop_left (Nat.lt_succ_self _) h hspared (fun _ _ => rfl)

/-- A task that is queued is the last. -/
theorem queue_inv {items finished : List Item} {acts : List (List Act)} {tasks : List Task}
    {seen : List Act} (h : Inv items finished acts tasks seen) {task : Task} (hnew : task.Unsent) :
    Inv (items ++ [task.item]) finished acts (tasks ++ [task]) seen := by
  refine ⟨?_, h.finished, ?_, ?_⟩
  · rw [h.items]
    simp
  · rw [h.acts]
    cases tasks with
    | nil =>
      have hnone : begun [task] = [] := begun_unsent (by simp [hnew])
      rw [List.nil_append, hnone]
      rfl
    | cons first tasks => cases first <;> rfl
  · intro other hm
    cases tasks with
    | nil => cases hm
    | cons first tasks =>
      rcases List.mem_append.mp (show other ∈ tasks ++ [task] from hm) with hm | hm
      · exact h.unsent other hm
      · rwa [List.mem_singleton.mp hm]

theorem step_left {items : List Item} {hconn : Hconn} {event : Event} (h : Left items hconn)
    (hopen : hconn.destroyed = false) (hp : Sparing hconn event) :
    ∃ hconn', step hconn event = some hconn' ∧ Left (items ++ queue event) hconn' := by
  obtain ⟨finished, acts, hinv⟩ := h.inv hopen
  cases event with
  | attach data => exact ⟨_, rfl, inv_left (@queue_inv _ _ _ _ _ hinv (.buffer data 0) rfl)⟩
  | resp keeps sents errno =>
    have hqueue : Inv (items ++ [.resp]) finished acts (hconn.tasks ++ [.resp keeps]) hconn.acts :=
      @queue_inv _ _ _ _ _ hinv (.resp keeps) trivial
    simp only [step]
    split
    · rename_i hwrite
      exact write_left hqueue (hp hwrite)
    · exact ⟨_, rfl, inv_left hqueue⟩
  | writable sents errno =>
    simp only [queue, List.append_nil]
    exact write_left hinv hp
  | readDone sents errno =>
    simp only [queue, List.append_nil]
    exact @write_left _ _ _ { hconn with write := true } _ _ hinv hp

/-- Whatever is queued and whatever `send` does, the items are sent in order, and once the
queue is empty each of them is finished. -/
theorem queue_sent {result : Option Hconn} {items : List Item} (hr : Reach Sparing result items) :
    ∃ hconn, result = some hconn ∧ Sends items hconn := by
  have hleft : ∃ hconn, result = some hconn ∧ Left items hconn := by
    generalize hP : Sparing = P at hr
    induction hr with
    | create => exact ⟨_, rfl, inv_left ⟨rfl, .nil, rfl, fun _ hm => by cases hm⟩⟩
    | step _ hopen hp ih =>
      subst hP
      obtain ⟨hconn, heq, hleft⟩ := ih
      cases heq
      exact step_left hleft hopen hp
  obtain ⟨hconn, heq, h⟩ := hleft
  exact ⟨hconn, heq, h.sends⟩

/-- A response whose buffer goes out in two parts. -/
theorem queue_sent_parts : ∃ hconn,
    ((step .create (.attach [1, 2, 3])).bind (step · (.resp true [] .other))).bind
        (step · (.writable [.sent 1, .sent 5] .other)) = some hconn ∧
      Sends [.buffer [1, 2, 3], .resp] hconn := by
  have hattach := @Reach.step Sparing _ _ (.attach [1, 2, 3]) .create rfl trivial
  have hresp := @Reach.step Sparing _ _ (.resp true [] .other) hattach rfl (fun hc => by cases hc)
  have hsparing : Sparing ⟨[.buffer [1, 2, 3] 0, .resp true], false, false, []⟩
      (.writable [.sent 1, .sent 5] .other) := by
    simp [Sparing, Spared]
  exact queue_sent (@Reach.step Sparing _ _ (.writable [.sent 1, .sent 5] .other) hresp rfl hsparing)

/-- Behind a buffer that fails, the end of the response is dropped. -/
theorem completion_dropped : ¬ ∀ (result : Option Hconn) (items : List Item),
    Reach (fun _ _ => True) result items → ∃ hconn, result = some hconn ∧ Sends items hconn := by
  intro hall
  have hattach := @Reach.step (fun _ _ => True) _ _ (.attach [1]) .create rfl trivial
  have hresp := @Reach.step (fun _ _ => True) _ _ (.resp true [] .other) hattach rfl trivial
  have hwrite := @Reach.step (fun _ _ => True) _ _ (.writable [.error] .other) hresp rfl trivial
  obtain ⟨hconn, heq, finished, rest, acts, hitems, hfinished, hacts, hrest⟩ := hall _ _ hwrite
  have hend : step ⟨[.buffer [1] 0, .resp true], false, false, []⟩ (.writable [.error] .other) =
      some ⟨[], false, false, [.error]⟩ := rfl
  obtain rfl : ⟨[], false, false, [.error]⟩ = hconn := Option.some.inj (hend.symm.trans heq)
  obtain rfl : rest = [] := hrest rfl
  obtain rfl : [.buffer [1], .resp] = finished := by simpa [queue] using hitems
  rcases hfinished with _ | ⟨hbuffer, _ | ⟨hresp, ⟨⟩⟩⟩
  cases hresp
  have hlength := congrArg List.length hacts
  simp [begun] at hlength

end Yclib.Http.Writing
