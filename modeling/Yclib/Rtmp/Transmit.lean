import Mathlib

namespace Yclib.Rtmp.Transmit

/-! The transmit queue of a connection: `rtmp_attach_buffer`, `rtmp_clean_buffer` and
`write_func`. -/

/-- `rns_data_t`: a buffer and how much of it the socket has taken. -/
structure Data where
  data : List UInt8
  offset : Nat
  within : offset ≤ data.length

/-- `rns_sock_task_t` by its `work` function: a buffer to send, or one to free. -/
inductive Task
  | send (rdata : Data)
  | clean

/-- The list of tasks, from what `rns_list_first` finds on. -/
abbrev Tasks := List Task

/-- `rns_list_add` puts a task where `rns_list_first` comes to it last. -/
def rnsListAdd (task : Task) (tasks : Tasks) : Tasks := tasks ++ [task]

/-- `rns_list_add_first` puts it where `rns_list_first` finds it. -/
def rnsListAddFirst (task : Task) (tasks : Tasks) : Tasks := task :: tasks

def rtmpAttachBuffer (buf : List UInt8) (tasks : Tasks) : Tasks :=
  rnsListAdd (.send ⟨buf, 0, Nat.zero_le _⟩) tasks

def rtmpCleanBuffer (tasks : Tasks) : Tasks := rnsListAdd .clean tasks

/-- What is left of a buffer. -/
def Data.rest (rdata : Data) : List UInt8 := rdata.data.drop rdata.offset

/-- What `send` takes of a buffer when the socket has room for `room` bytes. -/
def Data.taken (rdata : Data) (room : Nat) : List UInt8 := rdata.rest.take room

def Data.advance (rdata : Data) (room : Nat) : Data where
  data := rdata.data
  offset := rdata.offset + (rdata.taken room).length
  within := by
    have := rdata.within
    simp only [Data.taken, Data.rest, List.length_take, List.length_drop]
    omega

/-- The answers of the socket to the calls of `send` in one write event: room for so many
bytes, at least one, and after the last of them that it would block. -/
abbrev Rooms := List { room : Nat // 0 < room }

/-- `write_func`: what it passes to the socket and the tasks it leaves. -/
def writeFunc : Rooms → Tasks → List UInt8 × Tasks
  | _, [] => ([], [])
  | rooms, .clean :: tasks => writeFunc rooms tasks
  | rooms, .send rdata :: tasks =>
    -- `rtmp_send_buffer_work` returns zero without a call of `send`
    if rdata.data.length ≤ rdata.offset then writeFunc rooms tasks
    else match rooms with
      | [] => ([], rnsListAddFirst (.send rdata) tasks)
      | room :: rooms =>
        let later := writeFunc rooms (rnsListAddFirst (.send (rdata.advance room)) tasks)
        (rdata.taken room ++ later.1, later.2)
termination_by rooms tasks => rooms.length + tasks.length
decreasing_by all_goals simp only [rnsListAddFirst, List.length_cons]; omega

/-- What can happen to the queue of a connection. -/
inductive Event
  | attach (buf : List UInt8)
  | clean
  | write (rooms : Rooms)

/-- The bytes sent so far, and the tasks. -/
structure Queue where
  sent : List UInt8
  tasks : Tasks

def Queue.step (q : Queue) : Event → Queue
  | .attach buf => { q with tasks := rtmpAttachBuffer buf q.tasks }
  | .clean => { q with tasks := rtmpCleanBuffer q.tasks }
  | .write rooms =>
    let (bytes, tasks) := writeFunc rooms q.tasks
    ⟨q.sent ++ bytes, tasks⟩

def Queue.run (q : Queue) (events : List Event) : Queue := events.foldl Queue.step q

/-- The buffers attached by the events, one behind the other. -/
def attached (events : List Event) : List UInt8 :=
  events.flatMap fun
    | .attach buf => buf
    | .clean => []
    | .write _ => []

/-- The bytes that wait in the queue. -/
def pending (tasks : Tasks) : List UInt8 :=
  tasks.flatMap fun
    | .send rdata => rdata.rest
    | .clean => []

theorem pending_add (task : Task) (tasks : Tasks) :
    pending (rnsListAdd task tasks) = pending tasks ++ pending [task] := by
  simp [pending, rnsListAdd]

theorem taken_advance (rdata : Data) (room : Nat) :
    rdata.taken room ++ (rdata.advance room).rest = rdata.rest := by
  have hrest : (rdata.advance room).rest = rdata.rest.drop (rdata.taken room).length := by
    simp [Data.rest, Data.advance, List.drop_drop]
  rw [hrest]
  simp only [Data.taken, List.length_take]
  by_cases h : room ≤ rdata.rest.length
  · rw [Nat.min_eq_left h, List.take_append_drop]
  · rw [Nat.min_eq_right (by omega), List.take_of_length_le (by omega), List.drop_length,
      List.append_nil]

/-- What a write event sends was at the front of what was waiting. -/
theorem write_pending (rooms : Rooms) (tasks : Tasks) :
    (writeFunc rooms tasks).1 ++ pending (writeFunc rooms tasks).2 = pending tasks := by
  fun_induction writeFunc rooms tasks with
  | case1 => simp
  | case2 rooms tasks ih =>
    rw [ih]
    simp [pending]
  | case3 rooms tasks rdata hdone ih =>
    rw [ih]
    simp [pending, Data.rest, List.drop_eq_nil_of_le hdone]
  | case4 tasks rdata hdone => rfl
  | case5 rdata tasks hdone room rooms later ih =>
    simp only [List.append_assoc, later, ih]
    simp only [pending, rnsListAddFirst, List.flatMap_cons, ← List.append_assoc, taken_advance]

/-- In every step, what was sent and what waits is what was attached. -/
theorem step_sent (q : Queue) (event : Event) :
    (q.step event).sent ++ pending (q.step event).tasks =
      q.sent ++ pending q.tasks ++ attached [event] := by
  cases event with
  | attach buf =>
    simp only [Queue.step, rtmpAttachBuffer, pending_add]
    simp [attached, pending, Data.rest]
  | clean =>
    simp only [Queue.step, rtmpCleanBuffer, pending_add]
    simp [attached, pending]
  | write rooms => simp [Queue.step, attached, List.append_assoc, write_pending]

theorem run_sent (q : Queue) (events : List Event) :
    (q.run events).sent ++ pending (q.run events).tasks =
      q.sent ++ pending q.tasks ++ attached events := by
  induction events generalizing q with
  | nil => simp [Queue.run, attached]
  | cons event events ih =>
    have hstep := step_sent q event
    have hsplit : attached (event :: events) = attached [event] ++ attached events := by
      simp [attached]
    rw [Queue.run, List.foldl_cons, ← Queue.run, ih, hstep, hsplit, List.append_assoc]

/-- The socket is passed what was attached, in order: a first part of it at any time, and
all of it once the queue is empty. -/
theorem sent_in_order (events : List Event) :
    ((Queue.mk [] []).run events).sent <+: attached events ∧
      (((Queue.mk [] []).run events).tasks = [] →
        ((Queue.mk [] []).run events).sent = attached events) := by
  have hrun := run_sent ⟨[], []⟩ events
  rw [show pending (Queue.mk [] []).tasks = [] from rfl] at hrun
  simp only [List.nil_append] at hrun
  refine ⟨⟨_, hrun⟩, fun hempty => ?_⟩
  rw [hempty] at hrun
  simpa [pending] using hrun

end Yclib.Rtmp.Transmit
