import Yclib.Util.CString
import Yclib.Util.Network

namespace Yclib.Log
open Network

/-! The records of `rns_log`, on their way through the pipe to `do_log`. -/

/-- The `size` of a log, which both of its buffers have. -/
def logSize : Nat := 10240

/-- `RNS_LOG_LEVEL_ERROR`. -/
def levelError : Nat := 3

/-- A `rns_log_t`, with what is in its pipe and what has been written to its file. -/
structure Logger where
  level : Nat
  writeBuf : List UInt8
  readBuf : List UInt8
  pipe : List UInt8
  file : List (List UInt8)

/-- A call of `rns_log`: the text in front of the message, the message, and how many bytes the pipe takes
when the length and when the record is written, unless it takes none. -/
structure Call where
  level : Nat
  head : List UInt8
  message : List UInt8
  lengthTaken : Option Nat
  recordTaken : Option Nat

/-- A store into a buffer, where it is inside. -/
def store (buf : List UInt8) (offset : Nat) (bytes : List UInt8) : Option (List UInt8) :=
  if offset + bytes.length ≤ buf.length then
    some (buf.take offset ++ bytes ++ buf.drop (offset + bytes.length))
  else none

/-- `snprintf` of a text with room for `size` bytes. -/
def snprintf (buf : List UInt8) (offset size : Nat) (text : List UInt8) : Option (List UInt8) :=
  if size = 0 then some buf else store buf offset (text.take (size - 1) ++ [0])

/-- What `rns_log` makes of its buffer; the record has a byte more than the two texts. -/
def formatRecord (buf head message : List UInt8) : Option (List UInt8) := do
  let buf ← snprintf buf 0 logSize head
  let buf ← snprintf buf head.length (u32Sub logSize head.length) message
  let total := head.length + message.length
  let buf ← snprintf buf total (u32Sub logSize total) [10]
  store buf (total + 1) [0]

/-- The bytes of a `uint32_t` in memory. -/
def sizeBytes (n : Nat) : List UInt8 := (List.range 4).map fun i => UInt8.ofNat (n >>> (8 * i))

/-- `rns_log`; there is no result where it writes outside of its buffer. -/
def Logger.rnsLog (log : Logger) (call : Call) : Option Logger :=
  if call.level < log.level ∨ levelError < call.level then some log
  else
    (formatRecord log.writeBuf call.head call.message).map fun buf =>
      let log := { log with writeBuf := buf }
      let total := call.head.length + call.message.length + 1
      match call.lengthTaken with
      | none => log
      | some taken =>
        let log := { log with pipe := log.pipe ++ (sizeBytes total).take taken }
        match call.recordTaken with
        | none => log
        | some taken => { log with pipe := log.pipe ++ (buf.take total).take taken }

/-- The loop of `do_log`. A read gives what there is, up to the size that is asked for, and nothing from an
empty pipe; what it leaves of `size` and of the buffer stays there. -/
def Logger.doLog : Nat → Logger → Nat → Logger
  | 0, log, _ => log
  | rounds + 1, log, size =>
    if log.pipe = [] then log
    else
      let got := log.pipe.take 4
      let size := min (ofHostBytes (got ++ (sizeBytes size).drop got.length)) logSize
      let log := { log with pipe := log.pipe.drop 4 }
      if log.pipe = [] ∨ size = 0 then log
      else
        let got := log.pipe.take size
        let buf := got ++ log.readBuf.drop got.length
        let log := { log with pipe := log.pipe.drop size, readBuf := buf, file := log.file ++ [buf.take size] }
        Logger.doLog rounds log size

inductive Event
  | log (call : Call)
  | poll

/-- An event; `do_log` takes a byte in each round at least. -/
def Logger.step (log : Logger) : Event → Option Logger
  | .log call => log.rnsLog call
  | .poll => some (log.doLog log.pipe.length 0)

def Logger.run (log : Logger) (events : List Event) : Option Logger := events.foldlM Logger.step log

/-- A logger that `rns_log_init` has made. -/
def Logger.init (level : Nat) : Logger :=
  ⟨level, List.replicate logSize 0, List.replicate logSize 0, [], []⟩

/-- The record of a call. -/
def Call.record (call : Call) : List UInt8 := call.head ++ call.message ++ [10]

/-- The call is one that logs at the level. -/
def Call.Logs (level : Nat) (call : Call) : Prop := level ≤ call.level ∧ call.level ≤ levelError

instance (level : Nat) (call : Call) : Decidable (call.Logs level) := inferInstanceAs (Decidable (_ ∧ _))

/-- The records that a logger of the level logs. -/
def records (level : Nat) : List Event → List (List UInt8)
  | [] => []
  | .log call :: events => if call.Logs level then call.record :: records level events else records level events
  | .poll :: events => records level events

/-- The two texts leave two bytes of the buffer. -/
def Call.Fits (call : Call) : Prop := call.head.length + call.message.length + 2 ≤ logSize

/-- The pipe takes all of both writes. -/
def Call.Taken (call : Call) : Prop :=
  (∃ taken, call.lengthTaken = some taken ∧ 4 ≤ taken) ∧
    ∃ taken, call.recordTaken = some taken ∧ call.record.length ≤ taken

/-- The property over a run: no call leaves its buffer, what is in the file are the first of the records, and
the next run of `do_log` completes them. -/
def Recovered (level : Nat) (events : List Event) : Prop :=
  ∃ log, (Logger.init level).run events = some log ∧ log.file <+: records level events ∧
    (log.doLog log.pipe.length 0).file = records level events

section
variable {buf buf' head message xs ys bytes text : List UInt8} {offset size : Nat}

theorem store_inside (h : store buf offset bytes = some buf') :
    offset + bytes.length ≤ buf.length ∧ buf'.length = buf.length := by
  unfold store at h
  split at h
  · rename_i hle
    cases h
    simp only [List.length_append, List.length_take, List.length_drop]
    omega
  · cases h

theorem snprintf_length (h : snprintf buf offset size text = some buf') : buf'.length = buf.length := by
  unfold snprintf at h
  split at h
  · cases h
    rfl
  · exact (store_inside h).2

theorem store_behind (h : bytes.length ≤ ys.length) :
    store (xs ++ ys) xs.length bytes = some (xs ++ bytes ++ ys.drop bytes.length) := by
  rw [store, if_pos (by rw [List.length_append]; omega), List.take_left, ← List.drop_drop, List.drop_left]

theorem snprintf_behind (hsize : text.length < size) (h : text.length < ys.length) :
    snprintf (xs ++ ys) xs.length size text = some (xs ++ text ++ 0 :: ys.drop (text.length + 1)) := by
  have htake : text.take (size - 1) = text := List.take_of_length_le (by omega)
  have hlen : (text ++ [(0 : UInt8)]).length = text.length + 1 := by simp
  rw [snprintf, if_neg (by omega), htake, store_behind (by omega), hlen]
  simp

/-- A record that leaves two bytes of the buffer is in it as it was formatted. -/
theorem format_fits (hbuf : buf.length = logSize) (h : head.length + message.length + 2 ≤ logSize) :
    ∃ buf', formatRecord buf head message = some buf' ∧ buf'.length = logSize ∧
      buf'.take (head.length + message.length + 1) = head ++ message ++ [10] := by
  have hroom : ∀ n, n ≤ logSize → u32Sub logSize n = logSize - n := fun n hn => u32_sub_of_le hn (by decide)
  obtain ⟨rest1, hrest1⟩ : ∃ rest, rest = 0 :: buf.drop (head.length + 1) := ⟨_, rfl⟩
  obtain ⟨rest2, hrest2⟩ : ∃ rest, rest = 0 :: rest1.drop (message.length + 1) := ⟨_, rfl⟩
  obtain ⟨rest3, hrest3⟩ : ∃ rest, rest = (0 : UInt8) :: rest2.drop 2 := ⟨_, rfl⟩
  have hlen1 : rest1.length = logSize - head.length := by
    rw [hrest1, List.length_cons, List.length_drop]
    omega
  have hlen2 : rest2.length = logSize - head.length - message.length := by
    rw [hrest2, List.length_cons, List.length_drop]
    omega
  have hlen3 : rest3.length = logSize - head.length - message.length - 1 := by
    rw [hrest3, List.length_cons, List.length_drop]
    omega
  have h1 : snprintf buf 0 logSize head = some (head ++ rest1) := by
    have hfirst : snprintf ([] ++ buf) 0 logSize head = some ([] ++ head ++ 0 :: buf.drop (head.length + 1)) :=
      snprintf_behind (by omega) (by omega)
    simpa [hrest1] using hfirst
  have h2 : snprintf (head ++ rest1) head.length (logSize - head.length) message = some (head ++ message ++ rest2) := by
    rw [hrest2]
    exact snprintf_behind (by omega) (by omega)
  have h3 : snprintf (head ++ message ++ rest2) (head.length + message.length)
      (logSize - (head.length + message.length)) [10] = some (head ++ message ++ [10] ++ rest3) := by
    rw [hrest3, ← List.length_append]
    exact snprintf_behind (by rw [List.length_append]; simp only [List.length_singleton]; omega)
      (by simp only [List.length_singleton]; omega)
  have h4 : store (head ++ message ++ [10] ++ rest3) (head.length + message.length + 1) [0] =
      some (head ++ message ++ [10] ++ ([0] ++ rest3.drop 1)) := by
    have hoffset : head.length + message.length + 1 = (head ++ message ++ [(10 : UInt8)]).length := by simp [Nat.add_assoc]
    rw [hoffset, store_behind (by simp only [List.length_singleton]; omega), List.append_assoc _ [0]]
    rfl
  refine ⟨head ++ message ++ [10] ++ ([0] ++ rest3.drop 1), ?_, ?_, ?_⟩
  · simp only [formatRecord, hroom head.length (by omega), hroom (head.length + message.length) (by omega),
      Option.bind_eq_bind, h1, Option.bind_some, h2, h3, h4]
  · simp only [List.length_append, List.length_singleton, List.length_drop]
    omega
  · have hoffset : head.length + message.length + 1 = (head ++ message ++ [(10 : UInt8)]).length := by simp [Nat.add_assoc]
    rw [hoffset, List.take_left]

/-- No other one is formatted inside the buffer. -/
theorem format_inside (hbuf : buf.length = logSize) (h : formatRecord buf head message = some buf') :
    head.length + message.length + 2 ≤ logSize ∧ buf'.length = logSize := by
  unfold formatRecord at h
  obtain ⟨buf1, h1, h⟩ := Option.bind_eq_some_iff.mp h
  obtain ⟨buf2, h2, h⟩ := Option.bind_eq_some_iff.mp h
  obtain ⟨buf3, h3, h⟩ := Option.bind_eq_some_iff.mp h
  have hlen := snprintf_length h1
  have hlen2 := snprintf_length h2
  have hlen3 := snprintf_length h3
  obtain ⟨hinside, hlen4⟩ := store_inside h
  rw [List.length_singleton] at hinside
  omega

end

/-- The bytes of a record in the pipe. -/
def frame (record : List UInt8) : List UInt8 := sizeBytes record.length ++ record

/-- What is known of a logger that has been given the records: the first are in the file, the others in the
pipe. -/
structure Carries (level : Nat) (given : List (List UInt8)) (log : Logger) : Prop where
  level : log.level = level
  write : log.writeBuf.length = logSize
  read : log.readBuf.length = logSize
  split : ∃ pending, given = log.file ++ pending ∧ log.pipe = pending.flatMap frame ∧
    ∀ record ∈ pending, 0 < record.length ∧ record.length < logSize

theorem size_bytes_length (n : Nat) : (sizeBytes n).length = 4 := rfl

theorem size_bytes_value {n : Nat} (h : n < 2 ^ 32) : ofHostBytes (sizeBytes n) = n := by
  simp only [sizeBytes, List.range, List.range.loop, List.map, ofHostBytes, UInt8.toNat_ofNat',
    Nat.shiftRight_eq_div_pow]
  omega

section
variable {level rounds : Nat} {log log' : Logger} {given pending : List (List UInt8)} {call : Call}

/-- A round takes a record out of the pipe. -/
theorem do_log_frame {record rest : List UInt8} (size rounds : Nat) (hpipe : log.pipe = frame record ++ rest)
    (hpos : 0 < record.length) (hlt : record.length < logSize) :
    log.doLog (rounds + 1) size =
      Logger.doLog rounds { log with
        pipe := rest, readBuf := record ++ log.readBuf.drop record.length, file := log.file ++ [record] }
        record.length := by
  have hlength : ofHostBytes (sizeBytes record.length) = record.length :=
    size_bytes_value (hlt.trans (by decide))
  have htake : (sizeBytes record.length ++ (record ++ rest)).take 4 = sizeBytes record.length :=
    List.take_left' (size_bytes_length _)
  have hdrop : (sizeBytes record.length ++ (record ++ rest)).drop 4 = record ++ rest :=
    List.drop_left' (size_bytes_length _)
  have hsize : (sizeBytes size).drop (sizeBytes record.length).length = [] := by
    rw [size_bytes_length]
    exact List.drop_of_length_le (by rw [size_bytes_length])
  have hmin : min record.length logSize = record.length := Nat.min_eq_left hlt.le
  have hsome : sizeBytes record.length ++ (record ++ rest) ≠ [] := by simp [sizeBytes]
  have hmore : ¬ (record ++ rest = [] ∨ record.length = 0) := by
    rintro (hnil | hzero)
    · rw [(List.append_eq_nil_iff.mp hnil).1] at hpos
      exact absurd hpos (Nat.lt_irrefl 0)
    · omega
  rw [frame, List.append_assoc] at hpipe
  rw [Logger.doLog, hpipe, if_neg hsome]
  simp only [htake, hdrop, hsize, List.append_nil, hlength, hmin, if_neg hmore, List.take_left, List.drop_left]

/-- `do_log` writes one record after the other. -/
theorem do_log_drains (size : Nat) (hpipe : log.pipe = pending.flatMap frame)
    (hrecords : ∀ record ∈ pending, 0 < record.length ∧ record.length < logSize)
    (hread : log.readBuf.length = logSize) (hrounds : pending.length ≤ rounds) :
    (log.doLog rounds size).file = log.file ++ pending ∧ (log.doLog rounds size).pipe = [] ∧
      (log.doLog rounds size).readBuf.length = logSize ∧ (log.doLog rounds size).writeBuf = log.writeBuf ∧
      (log.doLog rounds size).level = log.level := by
  induction pending generalizing log size rounds with
  | nil =>
    have hempty : log.pipe = [] := hpipe
    cases rounds with
    | zero => simp [Logger.doLog, hempty, hread]
    | succ rounds => simp [Logger.doLog, hempty, hread]
  | cons record pending ih =>
    obtain ⟨rounds, rfl⟩ := Nat.exists_eq_add_of_le' (Nat.lt_of_lt_of_le (Nat.succ_pos _) hrounds)
    obtain ⟨hpos, hlt⟩ := hrecords record (by simp)
    rw [List.flatMap_cons] at hpipe
    obtain ⟨next, hnext⟩ : ∃ next, next = { log with
        pipe := pending.flatMap frame, readBuf := record ++ log.readBuf.drop record.length
        file := log.file ++ [record] } := ⟨_, rfl⟩
    have hbuf : next.readBuf.length = logSize := by
      simp only [hnext, List.length_append, List.length_drop]
      omega
    have hmore : pending.length ≤ rounds := by simpa using hrounds
    have hlater : ∀ record ∈ pending, 0 < record.length ∧ record.length < logSize :=
      fun record hm => hrecords record (List.mem_cons_of_mem _ hm)
    rw [do_log_frame size rounds hpipe hpos hlt, ← hnext]
    obtain ⟨hfile, hempty, hread, hwrite, hlevel⟩ := ih record.length (by rw [hnext]) hlater hbuf hmore
    refine ⟨?_, hempty, hread, by rw [hwrite, hnext], by rw [hlevel, hnext]⟩
    rw [hfile, hnext, List.append_assoc]
    rfl

theorem poll_carries (h : Carries level given log) :
    Carries level given (log.doLog log.pipe.length 0) ∧ (log.doLog log.pipe.length 0).file = given := by
  obtain ⟨pending, hgiven, hpipe, hrecords⟩ := h.split
  have hrounds : pending.length ≤ log.pipe.length := by
    rw [hpipe, List.length_flatMap]
    calc pending.length = (pending.map fun _ => 1).sum := by simp
      _ ≤ (pending.map fun record => (frame record).length).sum := by
        apply List.sum_le_sum
        intro record _
        rw [frame, List.length_append, size_bytes_length]
        omega
  obtain ⟨hfile, hempty, hread, hwrite, hlevel⟩ := do_log_drains 0 hpipe hrecords h.read hrounds
  refine ⟨⟨hlevel.trans h.level, by rw [hwrite, h.write], hread, [], ?_, hempty, by simp⟩, ?_⟩
  · rw [hfile, List.append_nil, hgiven]
  · rw [hfile, hgiven]

/-- A record that fits and is taken by the pipe is given. -/
theorem log_carries (h : Carries level given log) (hlogs : call.Logs level) (hfits : call.Fits) (htaken : call.Taken) :
    ∃ log', log.rnsLog call = some log' ∧ Carries level (given ++ [call.record]) log' := by
  obtain ⟨buf, hformat, hbuf, hrecord⟩ := format_fits h.write hfits
  obtain ⟨⟨lengthTaken, hl, hlfull⟩, recordTaken, hr, hrfull⟩ := htaken
  obtain ⟨pending, hgiven, hpipe, hrecords⟩ := h.split
  have hlen : call.record.length = call.head.length + call.message.length + 1 := by
    simp [Call.record, Nat.add_assoc]
  have hon : ¬ (call.level < log.level ∨ levelError < call.level) := by
    rw [h.level]
    rw [Call.Logs] at hlogs
    omega
  refine ⟨_, by rw [Logger.rnsLog, if_neg hon, hformat, Option.map_some], ?_⟩
  simp only [hl, hr, hrecord]
  refine ⟨h.level, hbuf, h.read, pending ++ [call.record], by rw [hgiven, List.append_assoc], ?_, ?_⟩
  · rw [List.take_of_length_le (by rw [size_bytes_length]; exact hlfull), List.flatMap_append, hpipe]
    rw [← Call.record, List.take_of_length_le hrfull, ← hlen]
    simp [frame]
  · intro record hm
    rcases List.mem_append.mp hm with hm | hm
    · exact hrecords record hm
    · obtain rfl := List.mem_singleton.mp hm
      rw [Call.Fits] at hfits
      omega

theorem log_skips (hlevel : log.level = level) (hlogs : ¬ call.Logs level) : log.rnsLog call = some log := by
  rw [Logger.rnsLog, if_pos]
  rw [Call.Logs] at hlogs
  omega

/-- In a run in which each record fits and is taken, all that was given is carried. -/
theorem run_carries {events : List Event} (h : Carries level given log)
    (hcalls : ∀ call, .log call ∈ events → call.Logs level → call.Fits ∧ call.Taken) :
    ∃ log', log.run events = some log' ∧ Carries level (given ++ records level events) log' := by
  induction events generalizing log given with
  | nil => exact ⟨log, rfl, by simpa [records] using h⟩
  | cons event events ih =>
    have hrest : ∀ call, .log call ∈ events → call.Logs level → call.Fits ∧ call.Taken :=
      fun call hm => hcalls call (List.mem_cons_of_mem _ hm)
    cases event with
    | poll =>
      obtain ⟨log', hrun, hcarries⟩ := ih (poll_carries h).1 hrest
      exact ⟨log', by rw [Logger.run, List.foldlM_cons]; exact hrun, hcarries⟩
    | log call =>
      by_cases hlogs : call.Logs level
      · obtain ⟨hfits, htaken⟩ := hcalls call (by simp) hlogs
        obtain ⟨next, hlog, hnext⟩ := log_carries h hlogs hfits htaken
        obtain ⟨log', hrun, hcarries⟩ := ih hnext hrest
        refine ⟨log', ?_, ?_⟩
        · rw [Logger.run, List.foldlM_cons, Logger.step, hlog]
          exact hrun
        · rw [records, if_pos hlogs]
          rwa [List.append_assoc] at hcarries
      · obtain ⟨log', hrun, hcarries⟩ := ih h hrest
        refine ⟨log', ?_, ?_⟩
        · rw [Logger.run, List.foldlM_cons, Logger.step, log_skips h.level hlogs]
          exact hrun
        · rwa [records, if_neg hlogs]

theorem do_log_keeps (rounds size : Nat) (log : Logger) :
    (log.doLog rounds size).level = log.level ∧ (log.doLog rounds size).writeBuf = log.writeBuf := by
  induction rounds generalizing log size with
  | zero => exact ⟨rfl, rfl⟩
  | succ rounds ih =>
    rw [Logger.doLog]
    split
    · exact ⟨rfl, rfl⟩
    · dsimp only
      split
      · exact ⟨rfl, rfl⟩
      · exact ih _ _

/-- A call leaves the level and the size of the buffer; if it logs, its record fits. -/
theorem log_inside (hlevel : log.level = level) (hwrite : log.writeBuf.length = logSize)
    (h : log.rnsLog call = some log') :
    log'.level = level ∧ log'.writeBuf.length = logSize ∧ (call.Logs level → call.Fits) := by
  rw [Logger.rnsLog] at h
  split at h
  · rename_i hoff
    cases h
    refine ⟨hlevel, hwrite, fun hlogs => ?_⟩
    rw [Call.Logs] at hlogs
    omega
  · obtain ⟨buf, hformat, rfl⟩ := Option.map_eq_some_iff.mp h
    obtain ⟨hfits, hbuf⟩ := format_inside hwrite hformat
    dsimp only
    refine ⟨?_, ?_, fun _ => hfits⟩
    · split
      · exact hlevel
      · split <;> exact hlevel
    · split
      · exact hbuf
      · split <;> exact hbuf

theorem log_some (hwrite : log.writeBuf.length = logSize) (hfits : call.Logs log.level → call.Fits) :
    ∃ log', log.rnsLog call = some log' := by
  by_cases hlogs : call.Logs log.level
  · obtain ⟨buf, hformat, -⟩ := format_fits hwrite (hfits hlogs)
    rw [Logger.rnsLog]
    split
    · exact ⟨_, rfl⟩
    · exact ⟨_, by rw [hformat, Option.map_some]⟩
  · exact ⟨log, log_skips rfl hlogs⟩

/-- A run leaves no buffer exactly when each of its records fits. -/
theorem run_inside {events : List Event} (hlevel : log.level = level) (hwrite : log.writeBuf.length = logSize) :
    (log.run events).isSome ↔ ∀ call, .log call ∈ events → call.Logs level → call.Fits := by
  induction events generalizing log with
  | nil => simp [Logger.run]
  | cons event events ih =>
    cases event with
    | poll =>
      obtain ⟨hkeep, hsame⟩ := do_log_keeps log.pipe.length 0 log
      have hrest := ih (hkeep.trans hlevel) (by rw [hsame, hwrite])
      rw [Logger.run, List.foldlM_cons]
      simpa [Logger.step, Logger.run] using hrest
    | log call =>
      by_cases hfits : call.Logs level → call.Fits
      · obtain ⟨next, hlog⟩ := log_some hwrite (hlevel ▸ hfits)
        obtain ⟨hkeep, hbuf, -⟩ := log_inside hlevel hwrite hlog
        have hrest := ih hkeep hbuf
        rw [Logger.run, List.foldlM_cons, Logger.step, hlog]
        refine hrest.trans ⟨fun h other hm => ?_, fun h other hm => h other (List.mem_cons_of_mem _ hm)⟩
        rcases List.mem_cons.mp hm with heq | hm
        · obtain rfl := Event.log.inj heq
          exact hfits
        · exact h other hm
      · refine iff_of_false (fun hsome => ?_) fun h => hfits (h call (by simp))
        obtain ⟨log', hrun⟩ := Option.isSome_iff_exists.mp hsome
        rw [Logger.run, List.foldlM_cons] at hrun
        obtain ⟨next, hlog, -⟩ := Option.bind_eq_some_iff.mp hrun
        exact hfits (log_inside hlevel hwrite hlog).2.2

theorem init_carries (level : Nat) : Carries level [] (Logger.init level) :=
  ⟨rfl, by simp [Logger.init], by simp [Logger.init], [], rfl, rfl, by simp⟩

/-- A run stays inside its buffers exactly when every record that is logged leaves two bytes of them; and where
the pipe takes these records, `do_log` recovers them. -/
theorem log_recovered {events : List Event} :
    (((Logger.init level).run events).isSome ↔ ∀ call, .log call ∈ events → call.Logs level → call.Fits) ∧
      ((∀ call, .log call ∈ events → call.Logs level → call.Fits ∧ call.Taken) → Recovered level events) := by
  constructor
  · exact run_inside rfl (by simp [Logger.init])
  · intro hcalls
    obtain ⟨log, hrun, hcarries⟩ := run_carries (init_carries level) hcalls
    rw [List.nil_append] at hcarries
    obtain ⟨pending, hgiven, -⟩ := hcarries.split
    exact ⟨log, hrun, ⟨pending, hgiven.symm⟩, (poll_carries hcarries).2⟩

/-- A message that fills the buffer. -/
def wideCall : Call := ⟨3, ascii "[yms]:", List.replicate logSize 97, some 4, some 20000⟩

/-- It is written over the end of the buffer. -/
theorem wide_outside : (Logger.init 0).run [.log wideCall] = none ∧ ¬ Recovered 0 [.log wideCall] := by
  have hlogs : wideCall.Logs 0 := by decide
  have hnone : (Logger.init 0).run [.log wideCall] = none := by
    rw [← Option.not_isSome_iff_eq_none, run_inside rfl (by simp [Logger.init])]
    intro hfits
    have hwide := hfits wideCall (by simp) hlogs
    simp only [Call.Fits, wideCall, List.length_replicate] at hwide
    omega
  refine ⟨hnone, ?_⟩
  rintro ⟨log, hrun, -⟩
  rw [hnone] at hrun
  cases hrun

end

end Yclib.Log
