import Yclib.Amf.RoundTrip
import Yclib.Rtmp.ControlBuffer

namespace Yclib.Rtmp.Commands
open Network Amf

/-! The command handlers: how much of `cbuf` each of them takes. -/

variable {ω : Type}

/-- What a handler reads of its arguments at one place. -/
inductive Field
  /-- A value with its type, as the transaction id. -/
  | value
  /-- The byte `SD_TYPE_NULL`. -/
  | null
  /-- A byte that is skipped: the type of what comes next. -/
  | gap
  | str | dbl | ui8 | obj
  /-- The name that `play` uses whether or not it could be read. -/
  | name
  /-- The length behind it, which `play` does not look at. -/
  | spare
deriving DecidableEq

/-- The handler has returned, or it goes on with the walker behind `args`. -/
inductive Take
  | stop (used : Nat)
  | go (args : List SdValue) (walker : Nat)

section
variable (m : Mem) (size walker : Nat)

/-- `walker = bytes ? end : buf`, or on behind what was read. -/
def taken (value : Option SdValue) (bytes : Nat) : Take :=
  match value with
  | none => .stop (if bytes ≠ 0 then size else 0)
  | some v => .go [v] (walker + bytes)

/-- One field of the arguments, which have `size` bytes. Each reader is given
`end - walker` bytes. -/
def Field.read (field : Field) : Option Take :=
  let buf := Mem.from m walker
  let rest := u32Sub size walker
  match field with
  | .value => do
    let (v, bytes) ← (readValue buf rest).ret
    return taken size walker v bytes
  | .null =>
    if size < walker + 1 then some (.stop 0)
    else if m walker ≠ 5 then some (.stop size)
    else some (.go [] (walker + 1))
  | .gap => some (.go [] (walker + 1))
  | .str => do
    let (s, bytes) ← (sdStrRead buf rest 0).ret
    return taken size walker (s.map .str) bytes
  | .dbl => do
    let (d, bytes) ← (sdDblRead buf rest 0).ret
    return taken size walker (d.map .dbl) bytes
  | .ui8 => do
    let (b, bytes) ← (sdUi8Read buf rest 0).ret
    return taken size walker (b.map .ui8) bytes
  | .obj => do
    let (o, bytes) ← (sdObjRead buf rest (readFuel rest + 1) 0 0).ret
    return taken size walker (o.map .obj) bytes
  | .name => do
    let (s, bytes) ← (sdStrRead buf rest 0).ret
    -- the answer that the name is missing reads it through NULL
    let s ← s
    return .go [.str s] (walker + bytes)
  | .spare => do
    let (_, bytes) ← (readValue buf rest).ret
    return .go [] (walker + bytes)

end

/-- The fields of a handler one after another, with the walker at `walker`. -/
def takeFields (m : Mem) (size : Nat) : List Field → Nat → Option Take
  | [], walker => some (.go [] walker)
  | field :: fields, walker =>
    match field.read m size walker with
    | none => none
    | some (.stop used) => some (.stop used)
    | some (.go args walker) =>
      match takeFields m size fields walker with
      | none => none
      | some (.stop used) => some (.stop used)
      | some (.go args' walker) => some (.go (args ++ args') walker)

/-- What the commands do once their arguments are read, the answers they send among it:
the session after it, and whether the command went wrong. There is no result if it
does not come back. -/
structure Effects (ω : Type) where
  act : Command → Nat → List SdValue → Sess ω → Option (Sess ω × Bool)

/-- The handler of a command with these fields; some `skip` to the end of the buffer when
the command went wrong. -/
def handler (e : Effects ω) (command : Command) (skips : Bool) (fields : List Field)
    (sess : Sess ω) (curchunk : Nat) (m : Mem) (size : Nat) : Option (Sess ω × Nat) :=
  match takeFields m size fields 0 with
  | none => none
  | some (.stop used) => some (sess, used)
  | some (.go args walker) =>
    match e.act command curchunk args sess with
    | none => none
    | some (sess, wrong) => some (sess, if skips && wrong then size else walker)

section
variable (e : Effects ω)

def rtmpCommandConnect := handler e .connect true [.value, .gap, .obj, .gap]
def rtmpCommandCall := handler e .call true [.value, .gap, .obj, .gap, .obj]
def rtmpCommandReleaseStream := handler e .releaseStream false [.value, .null, .value]
def rtmpCommandCreateStream := handler e .createStream true [.value, .null]
def rtmpCommandGetStreamLength := handler e .getStreamLength false [.value, .null, .value]
def rtmpCommandCheckbw := handler e .checkbw false [.value, .null]
def rtmpCommandPlay := handler e .play true [.value, .null, .gap, .name, .spare]
def rtmpCommandDeleteStream := handler e .deleteStream false [.value, .null, .gap, .dbl]
def rtmpCommandCloseStream := handler e .closeStream false [.value, .null]
def rtmpCommandReceiveAudio := handler e .receiveAudio false [.value, .null, .gap, .ui8]
def rtmpCommandReceiveVideo := handler e .receiveVideo false [.value, .null, .gap, .ui8]
def rtmpCommandPublish := handler e .publish true [.value, .null, .gap, .str, .gap, .str]
def rtmpCommandSeek := handler e .seek false [.value, .null, .gap, .dbl]
def rtmpCommandPause := handler e .pause false [.value, .null, .gap, .ui8, .gap, .dbl]

def rtmpCommandPlay2 (sess : Sess ω) (_curchunk : Nat) (_m : Mem) (_size : Nat) :
    Option (Sess ω × Nat) := some (sess, 0)

/-- The handlers by their commands. -/
def rtmpCommand : Command → Sess ω → Nat → Mem → Nat → Option (Sess ω × Nat)
  | .connect => rtmpCommandConnect e
  | .call => rtmpCommandCall e
  | .releaseStream => rtmpCommandReleaseStream e
  | .createStream => rtmpCommandCreateStream e
  | .getStreamLength => rtmpCommandGetStreamLength e
  | .checkbw => rtmpCommandCheckbw e
  | .play => rtmpCommandPlay e
  | .play2 => rtmpCommandPlay2
  | .deleteStream => rtmpCommandDeleteStream e
  | .closeStream => rtmpCommandCloseStream e
  | .receiveAudio => rtmpCommandReceiveAudio e
  | .receiveVideo => rtmpCommandReceiveVideo e
  | .publish => rtmpCommandPublish e
  | .seek => rtmpCommandSeek e
  | .pause => rtmpCommandPause e

end

/-- A server whose commands have these effects. -/
def serving (h : Handlers ω) (e : Effects ω) : Handlers ω := { h with command := rtmpCommand e }

/-! Where a handler takes its arguments to the last byte. -/

/-- The bytes a field is read from, and the arguments it gives. -/
inductive Field.Reads : Field → List UInt8 → List SdValue → Prop
  | value {v : SdValue} (hv : v.Whole) : Reads .value v.bytes [v]
  | null : Reads .null [5] []
  | gap {b : UInt8} : Reads .gap [b] []
  | str {s : SdStr} : Reads .str (rnsHtob16 s.str.length ++ s.str) [.str s]
  | dbl {d : UInt64} : Reads .dbl (rnsHtobd d) [.dbl d]
  | ui8 {b : UInt8} : Reads .ui8 [b] [.ui8 b]
  | obj {o : SdObj} (ho : o.Whole) : Reads .obj o.bytes [.obj o]
  | name {s : SdStr} : Reads .name (rnsHtob16 s.str.length ++ s.str) [.str s]
  | spare {v : SdValue} (hv : v.Whole) : Reads .spare v.bytes []

/-- The bytes the fields are read from, with `more` bytes of the buffer behind them. -/
inductive Encodes (more : Nat) : List Field → List UInt8 → List SdValue → Prop
  | nil : Encodes more [] [] []
  | cons {field : Field} {fields : List Field} {bs bs' : List UInt8} {args args' : List SdValue}
      (h : field.Reads bs args) (hs : Encodes more fields bs' args') :
      Encodes more (field :: fields) (bs ++ bs') (args ++ args')
  /-- The length that `play` does not need, at the end of the buffer. -/
  | absent (hmore : more = 0) : Encodes more [.spare] [] []

section
variable {m : Mem} {size w : Nat}

theorem holds_from {bs : List UInt8} : Holds (Mem.from m w) 0 bs ↔ Holds m w bs := by
  simp [Holds, Mem.from]

theorem str_read {s : SdStr} {e : Nat} (h : Holds m w (rnsHtob16 s.str.length ++ s.str))
    (he : w + s.size ≤ e) : (sdStrRead m e w).ret = some (some s, s.size) := by
  obtain ⟨hnamed, hcount, hstr⟩ := named_at (e := e) h he
  have hclean := clean_str.mpr (if_pos hnamed).symm
  rw [hclean.1, hstr, hcount, SdStr.size, Nat.add_comm]

theorem dbl_read {d : UInt64} {e : Nat} (h : Holds m w (rnsHtobd d)) (he : w + 8 ≤ e) :
    (sdDblRead m e w).ret = some (some d, 8) := by
  rw [(clean_dbl.mpr rfl).1, if_neg (by omega), leafLen, if_neg (by omega), btohd_htobd h]

theorem ui8_read {b : UInt8} {e : Nat} (h : Holds m w [b]) (he : w + 1 ≤ e) :
    (sdUi8Read m e w).ret = some (some b, 1) := by
  rw [(clean_ui8.mpr rfl).1, if_neg (by omega), leafLen, if_neg (by omega), (holds_cons.mp h).1]

theorem value_reads {v : SdValue} {e : Nat} (hv : v.Whole) (h : Holds m 0 v.bytes)
    (he : v.size ≤ e) (hs : e < 2 ^ 32) : (readValue m e).ret = some (some v, v.size) :=
  (value_read v 0 (readFuel e) hv h (by omega) hs (by simp [readFuel])).1

theorem obj_reads {o : SdObj} {e : Nat} (ho : o.Whole) (h : Holds m 0 o.bytes)
    (he : o.size ≤ e) (hs : e < 2 ^ 32) :
    (sdObjRead m e (readFuel e + 1) 0 0).ret = some (some o, o.size) := by
  have hread := obj_read o 0 0 (readFuel e + 1) ho h le_rfl (show 0 + o.size ≤ e by omega) hs
    (by simp only [readFuel]; omega)
  rw [hread.1, Nat.zero_add, Nat.sub_zero]

/-- A field whose bytes are there is read to their end. -/
theorem field_reads {field : Field} {bs : List UInt8} {args : List SdValue}
    (hf : field.Reads bs args) (h : Holds m w bs) (hw : w + bs.length ≤ size)
    (hsize : size < 2 ^ 32) : field.read m size w = some (.go args (w + bs.length)) := by
  have hrest : u32Sub size w = size - w := u32_sub_of_le (by omega) hsize
  have hbuf := holds_from.mpr h
  have hname (s : SdStr) : (rnsHtob16 s.str.length ++ s.str).length = s.size := by
    simp only [List.length_append, rnsHtob16, htob_length, SdStr.size]
    omega
  cases hf with
  | @value v hv =>
    rw [value_bytes_length] at hw ⊢
    have hread := value_reads hv hbuf (show v.size ≤ size - w by omega) (by omega)
    simp only [Field.read, hrest, hread]
    rfl
  | null =>
    simp only [List.length_singleton] at hw
    simp only [Field.read, (holds_cons.mp h).1]
    rw [if_neg (by omega), if_neg (by simp)]
    rfl
  | gap => rfl
  | @str s =>
    rw [hname] at hw ⊢
    simp only [Field.read, hrest, str_read hbuf (show 0 + s.size ≤ size - w by omega)]
    rfl
  | @dbl d =>
    rw [rnsHtobd_length] at hw ⊢
    simp only [Field.read, hrest, dbl_read hbuf (show 0 + 8 ≤ size - w by omega)]
    rfl
  | @ui8 b =>
    simp only [List.length_singleton] at hw
    simp only [Field.read, hrest, ui8_read hbuf (show 0 + 1 ≤ size - w by omega)]
    rfl
  | @obj o ho =>
    rw [obj_bytes_length] at hw ⊢
    have hread := obj_reads ho hbuf (show o.size ≤ size - w by omega) (by omega)
    simp only [Field.read, hrest, hread]
    rfl
  | @name s =>
    rw [hname] at hw ⊢
    simp only [Field.read, hrest, str_read hbuf (show 0 + s.size ≤ size - w by omega)]
    rfl
  | @spare v hv =>
    rw [value_bytes_length] at hw ⊢
    have hread := value_reads hv hbuf (show v.size ≤ size - w by omega) (by omega)
    simp only [Field.read, hrest, hread]
    rfl

/-- Fields whose bytes are there are read to their end. -/
theorem take_fields {more : Nat} {fields : List Field} {bs : List UInt8} {args : List SdValue}
    (he : Encodes more fields bs args) (h : Holds m w bs) (hw : w + bs.length + more = size)
    (hsize : size < 2 ^ 32) : takeFields m size fields w = some (.go args (w + bs.length)) := by
  induction he generalizing w with
  | nil => rfl
  | @cons field fields bs bs' args args' hf _ ih =>
    rw [List.length_append] at hw
    obtain ⟨hbs, hbs'⟩ := holds_append.mp h
    rw [takeFields, field_reads hf hbs (by omega) hsize]
    simp only
    rw [ih hbs' (by omega), List.length_append, Nat.add_assoc]
  | absent hmore =>
    have hend : w = size := by
      rw [List.length_nil] at hw
      omega
    have hrest : u32Sub size size = 0 := by rw [u32_sub_of_le le_rfl hsize, Nat.sub_self]
    have hnone : (readValue (Mem.from m size) 0).ret = some (none, 0) := rfl
    have hspare : Field.spare.read m size size = some (.go [] size) := by
      simp only [Field.read, hrest, hnone]
      rfl
    rw [takeFields, hend, hspare]
    rfl

end

/-- What the handlers read of their arguments; `play2` does not look at them. -/
def fields : Command → Option (List Field)
  | .connect => some [.value, .gap, .obj, .gap]
  | .call => some [.value, .gap, .obj, .gap, .obj]
  | .releaseStream | .getStreamLength => some [.value, .null, .value]
  | .createStream | .checkbw | .closeStream => some [.value, .null]
  | .play => some [.value, .null, .gap, .name, .spare]
  | .play2 => none
  | .deleteStream | .seek => some [.value, .null, .gap, .dbl]
  | .receiveAudio | .receiveVideo => some [.value, .null, .gap, .ui8]
  | .publish => some [.value, .null, .gap, .str, .gap, .str]
  | .pause => some [.value, .null, .gap, .ui8, .gap, .dbl]

/-- The commands that skip to the end of the buffer when they go wrong. -/
def skips : Command → Bool
  | .connect | .call | .createStream | .play | .publish => true
  | _ => false

theorem command_handler (e : Effects ω) {command : Command} {fs : List Field}
    (hf : fields command = some fs) : rtmpCommand e command = handler e command (skips command) fs := by
  cases command <;> cases hf <;> rfl

theorem fields_value {command : Command} {fs : List Field} (hf : fields command = some fs) :
    ∃ fs', fs = .value :: fs' := by
  cases command <;> cases hf <;> exact ⟨_, rfl⟩

/-- The handler takes the arguments `bs` to their last byte, with `more` bytes of the
buffer behind them. -/
inductive Served (e : Effects ω) (sess : Sess ω) (curchunk : Nat) (command : Command)
    (bs : List UInt8) (more : Nat) : Prop
  /-- They are what it reads, and nothing is behind it if it skips to the end. -/
  | through {fs : List Field} {args : List SdValue} {sess' : Sess ω} {wrong : Bool}
      (hf : fields command = some fs) (hargs : Encodes more fs bs args)
      (hact : e.act command curchunk args sess = some (sess', wrong))
      (hend : skips command = true → wrong = true → more = 0)
  /-- It skips to the end over an argument that is not `null`. -/
  | notNull {fs : List Field} {v : SdValue} {byte : UInt8} {tail : List UInt8}
      (hf : fields command = some (.value :: .null :: fs)) (hv : v.Whole) (hbyte : byte ≠ 5)
      (hbs : bs = v.bytes ++ byte :: tail) (hmore : more = 0)
  /-- It skips to the end over a transaction id it does not know the type of. -/
  | noId {fs : List Field} {byte : UInt8} {tail : List UInt8} (hf : fields command = some fs)
      (hbyte : sdTypeEnd ≤ byte.toNat) (hbs : bs = byte :: tail) (hmore : more = 0)

section
variable {e : Effects ω} {sess : Sess ω} {curchunk : Nat} {command : Command} {bs : List UInt8}
  {more : Nat} {m : Mem} {size : Nat}

/-- The first reader is given the whole buffer. -/
theorem first_whole (m : Mem) (hsize : size < 2 ^ 32) : Mem.from m 0 = m ∧ u32Sub size 0 = size := by
  constructor
  · funext i
    rw [Mem.from, Nat.zero_add]
  · rw [u32_sub_of_le (Nat.zero_le _) hsize, Nat.sub_zero]

theorem id_stops {fs : List Field} (hpos : 0 < size) (hsize : size < 2 ^ 32)
    (hbyte : sdTypeEnd ≤ (m 0).toNat) : takeFields m size (.value :: fs) 0 = some (.stop size) := by
  obtain ⟨hbuf, hrest⟩ := first_whole m hsize
  have hread : (readValue m size).ret = some (none, size) := by
    rw [readValue, readFuel, sdValueRead, if_neg (by omega)]
    rw [ret_bind]
    refine ⟨(), rfl, ?_⟩
    rw [if_pos hbyte]
    simp only [give, Nat.sub_zero, u32_of_lt hsize]
  have hfield : Field.value.read m size 0 = some (.stop size) := by
    simp only [Field.read, hrest, hbuf, hread]
    show some (taken size 0 none size) = _
    rw [taken, if_pos (by omega)]
  rw [takeFields, hfield]

theorem null_stops {fs : List Field} {v : SdValue} {byte : UInt8} {tail : List UInt8}
    (hv : v.Whole) (hbyte : byte ≠ 5) (h : Holds m 0 (v.bytes ++ byte :: tail))
    (hlen : (v.bytes ++ byte :: tail).length ≤ size) (hsize : size < 2 ^ 32) :
    takeFields m size (.value :: .null :: fs) 0 = some (.stop size) := by
  obtain ⟨hid, hnull⟩ := holds_append.mp h
  rw [List.length_append, List.length_cons] at hlen
  have hfield : Field.null.read m size (0 + v.bytes.length) = some (.stop size) := by
    simp only [Field.read, (holds_cons.mp hnull).1]
    rw [if_neg (by omega), if_pos hbyte]
  rw [takeFields, field_reads (.value hv) hid (by omega) hsize]
  simp only
  rw [takeFields, hfield]

theorem served_length (hs : Served e sess curchunk command bs more) : 0 < bs.length := by
  cases hs with
  | through hf hargs =>
    obtain ⟨fs', rfl⟩ := fields_value hf
    cases hargs with
    | cons h _ =>
      cases h with
      | value hv =>
        rw [List.length_append, value_bytes_length]
        exact Nat.lt_of_lt_of_le (value_size_pos _) (Nat.le_add_right _ _)
  | notNull _ _ _ hbs => simp [hbs]
  | noId _ _ hbs => simp [hbs]

/-- A handler that serves its arguments takes all of them. -/
theorem command_takes (hs : Served e sess curchunk command bs more) (h : Holds m 0 bs)
    (hlen : bs.length + more = size) (hsize : size < 2 ^ 32) :
    ∃ sess', rtmpCommand e command sess curchunk m size = some (sess', bs.length) := by
  have hpos := served_length hs
  cases hs with
  | @through fs args sess' wrong hf hargs hact hend =>
    refine ⟨sess', ?_⟩
    rw [command_handler e hf, handler, take_fields hargs h (by omega) hsize]
    simp only [hact, Nat.zero_add]
    split
    · rename_i hskip
      obtain ⟨hskips, hwrong⟩ := Bool.and_eq_true_iff.mp hskip
      rw [← hlen, hend hskips hwrong, Nat.add_zero]
    · rfl
  | @notNull fs v byte tail hf hv hbyte hbs hmore =>
    refine ⟨sess, ?_⟩
    rw [command_handler e hf, handler, null_stops hv hbyte (hbs ▸ h) (by rw [← hbs]; omega) hsize]
    simp only
    rw [← hlen, hmore, Nat.add_zero]
  | @noId fs byte tail hf hbyte hbs hmore =>
    refine ⟨sess, ?_⟩
    obtain ⟨fs', rfl⟩ := fields_value hf
    have hfirst : m 0 = byte := (holds_cons.mp (hbs ▸ h)).1
    rw [command_handler e hf, handler, id_stops (by omega) hsize (hfirst ▸ hbyte)]
    simp only
    rw [← hlen, hmore, Nat.add_zero]

end

/-! What comes of a command message. -/

/-- The bytes of a command message: the type of its name, the name and the arguments. -/
def messageBytes (kind : UInt8) (name : SdStr) (args : List UInt8) : List UInt8 :=
  kind :: ((rnsHtob16 name.str.length ++ name.str) ++ args)

/-- The chunk holds the whole command message `payload`, and the piece does. -/
structure Whole (rconn : Conn ω) (payload rest : List UInt8) : Prop where
  header : ∃ chunk, rconn.sess.chunkstreams rconn.curchunk = some chunk ∧
    chunk.msgtype = rtmpMsgtypeCommandAmf0 ∧ chunk.msglen = payload.length
  single : payload.length ≤ rconn.ichunksize
  arrived : payload <+: rest

/-- How many bytes behind a whole message go into `cbuf` with it: the chunk is taken to be
as long as it may be. -/
def behind (rconn : Conn ω) (payload rest : List UInt8) : Nat :=
  min rconn.ichunksize rest.length - payload.length

/-- The message is a command that the server knows and whose handler takes the arguments
that are there. -/
structure Known (e : Effects ω) (rconn : Conn ω) (payload rest : List UInt8) : Prop where
  fits : min rconn.ichunksize rest.length ≤ cbufSize
  command : ∃ kind name args command, payload = messageBytes kind name args ∧
    commandNamed name = some command ∧
    Served e rconn.sess rconn.curchunk command args (behind rconn payload rest)

section
variable {h : Handlers ω} {e : Effects ω} {rconn : Conn ω} {payload rest : List UInt8}

theorem message_length (kind : UInt8) (name : SdStr) (args : List UInt8) :
    (messageBytes kind name args).length = 1 + name.size + args.length := by
  simp only [messageBytes, List.length_cons, List.length_append, rnsHtob16, htob_length,
    SdStr.size]
  omega

/-- `rtmp_command_parse` behind the name. -/
theorem name_parse {sess : Sess ω} {curchunk : Nat} {kind : UInt8} {name : SdStr}
    {args : List UInt8} {m : Mem} {size : Nat} (hm : Holds m 0 (messageBytes kind name args))
    (hlen : (messageBytes kind name args).length ≤ size) (hsize : size < 2 ^ 32) :
    rtmpCommandParse h sess curchunk m size =
      (match commandNamed name with
      | none => some (sess, 0)
      | some command => h.command command sess curchunk (Mem.from m (1 + name.size))
          (size - (1 + name.size))).map fun (p : Sess ω × Nat) =>
        (p.1, if p.2 = 0 then 0 else u32 (1 + name.size + p.2)) := by
  rw [message_length] at hlen
  have hstr := (holds_append.mp (holds_cons.mp hm).2).1
  have hfirst : u32Sub size 1 = size - 1 := u32_sub_of_le (by omega) hsize
  have hrest : u32Sub size (1 + name.size) = size - (1 + name.size) :=
    u32_sub_of_le (by omega) hsize
  have hread := str_read hstr (show 0 + 1 + name.size ≤ 1 + (size - 1) by omega)
  rw [Nat.zero_add] at hread
  simp only [rtmpCommandParse, hfirst, hread, Option.bind_eq_bind, Option.bind_some, hrest]
  cases commandNamed name with
  | none => rfl
  | some command => exact (Option.map_eq_bind ..).symm

/-- A command that is served is parsed to its last byte. -/
theorem command_parse {sess : Sess ω} {curchunk : Nat} {kind : UInt8} {name : SdStr}
    {args : List UInt8} {command : Command} {m : Mem} {size more : Nat}
    (hname : commandNamed name = some command) (hs : Served e sess curchunk command args more)
    (hm : Holds m 0 (messageBytes kind name args))
    (hlen : (messageBytes kind name args).length + more = size) (hsize : size < 2 ^ 32) :
    ∃ sess', rtmpCommandParse (serving h e) sess curchunk m size =
      some (sess', (messageBytes kind name args).length) := by
  have hpos := served_length hs
  rw [name_parse hm (by omega) hsize, hname]
  rw [message_length] at hlen ⊢
  obtain ⟨-, hargs⟩ := holds_append.mp (holds_cons.mp hm).2
  have hargs' : Holds (Mem.from m (1 + name.size)) 0 args := by
    rw [holds_from]
    have hnlen : (rnsHtob16 name.str.length ++ name.str).length = name.size := by
      simp only [List.length_append, rnsHtob16, htob_length, SdStr.size]
      omega
    rwa [hnlen, Nat.zero_add] at hargs
  obtain ⟨sess', htake⟩ := command_takes hs hargs' (show _ = size - (1 + name.size) by omega)
    (by omega)
  refine ⟨sess', ?_⟩
  simp only [serving, htake, Option.map_some]
  rw [if_neg (by omega), u32_of_lt (by omega)]

/-- What of a whole message is copied into `cbuf`. -/
theorem whole_copied (hw : Whole rconn payload rest) (m : Mem) :
    ∃ ext, ext.length = behind rconn payload rest ∧
      payload.length + ext.length = min rconn.ichunksize rest.length ∧
      slice (memOf rest m) 0 (min rconn.ichunksize rest.length) = payload ++ ext := by
  have hsingle := hw.single
  obtain ⟨ys, rfl⟩ := hw.arrived
  have hlen : (payload ++ ys).length = payload.length + ys.length := List.length_append
  refine ⟨ys.take (behind rconn payload (payload ++ ys)), ?_, ?_, ?_⟩
  · rw [List.length_take, behind]
    omega
  · rw [List.length_take, behind]
    omega
  · rw [slice_mem_of (by omega), List.drop_zero, List.take_append, behind,
      List.take_of_length_le (by omega)]

/-- `rtmp_msg_parse` on a whole command message, with `cbuf` empty. -/
theorem whole_parse (hcbuf : rconn.cbuf = []) (hw : Whole rconn payload rest)
    (hfits : min rconn.ichunksize rest.length ≤ cbufSize) (b : Behind) :
    ∃ ext, payload.length + ext.length = min rconn.ichunksize rest.length ∧
      ext.length = behind rconn payload rest ∧
      rtmpMsgParse cbufHolds h rconn (memOf rest b.past) (min rconn.ichunksize rest.length) b.stale =
        match rtmpCommandParse h rconn.sess rconn.curchunk (memOf (payload ++ ext) b.stale)
          (min rconn.ichunksize rest.length) with
        | none => .lost
        | some (sess, s) =>
          if 0 < s then .ret { rconn with sess := sess, cbuf := [] } (u32 (u32Sub s 0))
          else .ret { rconn with sess := sess, cbuf := payload ++ ext } 0 := by
  obtain ⟨chunk, hc, ht, -⟩ := hw.header
  obtain ⟨ext, hext, hlen, hslice⟩ := whole_copied hw b.past
  refine ⟨ext, hlen, hext, ?_⟩
  generalize min rconn.ichunksize rest.length = size at *
  have hcopy : copySize 0 size = size := by
    rw [copySize, if_pos (Nat.zero_le _), Nat.sub_zero]
  have hall : (payload ++ ext).length = size := by rw [List.length_append, hlen]
  have hroom : cbufHolds size = true := by simpa [cbufHolds] using hfits
  rw [cbuf_parse (by rw [ht]; rfl) hc]
  cases hcmd : rtmpCommandParse h rconn.sess rconn.curchunk (memOf (payload ++ ext) b.stale) size with
  | none =>
    simp only [cbufParse, hcbuf, List.length_nil, List.nil_append, Nat.zero_add, hcopy, hslice, hall,
      hroom, hcmd, if_true]
  | some p =>
    obtain ⟨sess, s⟩ := p
    simp only [cbufParse, hcbuf, List.length_nil, List.nil_append, Nat.zero_add, hcopy, hslice, hall,
      hroom, hcmd, if_true]

/-- A known command is taken to its last byte, and `cbuf` is empty behind it. -/
theorem known_step (hst : rconn.state = .chunkPayload) (hcbuf : rconn.cbuf = [])
    (hw : Whole rconn payload rest) (hk : Known e rconn payload rest) (b : Behind) :
    ∃ sess, rtmpStep cbufHolds (serving h e) b rconn rest =
      .next { rconn with sess := sess, cbuf := [], state := .chunkFmt, curlen := 0 }
        payload.length := by
  obtain ⟨kind, name, args, command, rfl, hname, hserved⟩ := hk.command
  obtain ⟨chunk, hc, -, -⟩ := hw.header
  obtain ⟨ext, hlen, hext, hparse⟩ := whole_parse (h := serving h e) hcbuf hw hk.fits b
  have hcap : cbufSize = 1024 := rfl
  have hfits := hk.fits
  have hpos : 0 < (messageBytes kind name args).length := Nat.succ_pos _
  obtain ⟨sess', hcommand⟩ := @command_parse _ h _ rconn.sess rconn.curchunk _ _ _ _
    (memOf (messageBytes kind name args ++ ext) b.stale) _ _ hname hserved
    (mem_of_holds _ _ _) (hext ▸ hlen) (by omega)
  refine ⟨sess', ?_⟩
  have hused : u32 (u32Sub (messageBytes kind name args).length 0) =
      (messageBytes kind name args).length := by
    rw [u32_sub_of_le (Nat.zero_le _) (by omega), Nat.sub_zero, u32_of_lt (by omega)]
  rw [hcommand] at hparse
  simp only [if_pos hpos, hused] at hparse
  rw [payload_step hst hc]
  exact payload_over hparse (.inl ⟨hpos, rfl⟩)

/-- A command that is not known stays in `cbuf`. -/
theorem unknown_step {kind : UInt8} {name : SdStr} {args : List UInt8}
    (hst : rconn.state = .chunkPayload) (hcbuf : rconn.cbuf = [])
    (hw : Whole rconn (messageBytes kind name args) rest)
    (hfits : min rconn.ichunksize rest.length ≤ cbufSize) (hname : commandNamed name = none)
    (b : Behind) :
    ∃ r, rtmpStep cbufHolds h b rconn rest = .next r (min rconn.ichunksize rest.length) ∧
      r.cbuf ≠ [] := by
  obtain ⟨chunk, hc, -, -⟩ := hw.header
  obtain ⟨ext, hlen, hext, hparse⟩ := whole_parse (h := h) hcbuf hw hfits b
  have hcap : cbufSize = 1024 := rfl
  rw [name_parse (mem_of_holds _ _ _) (by omega) (by omega), hname] at hparse
  simp only [Option.map_some, if_true, lt_irrefl, if_false] at hparse
  rw [payload_step hst hc]
  simp only [rtmpPayloadStep, hparse, lt_irrefl, if_false]
  split
  · exact ⟨_, rfl, by simp [messageBytes]⟩
  · exact ⟨_, rfl, by simp [messageBytes]⟩

/-- A message of another way than through `cbuf` leaves it alone. -/
theorem plain_keeps {chunk : RtmpChunk} {b : Behind} {r : Conn ω} {n : Nat}
    (hst : rconn.state = .chunkPayload)
    (hc : rconn.sess.chunkstreams rconn.curchunk = some chunk)
    (ht : cbufSkip chunk.msgtype = none) (hstep : rtmpStep cbufHolds h b rconn rest = .next r n) :
    r.cbuf = rconn.cbuf := by
  have hret {m : Mem} {size used : Nat} {r' : Conn ω}
      (hp : rtmpMsgParse cbufHolds h rconn m size b.stale = .ret r' used) :
      r'.cbuf = rconn.cbuf := by
    by_cases hf : FourBytes chunk.msgtype
    · obtain ⟨read, hread, hkeeps⟩ := four_bytes_parse (h := h) hf hc
      rw [hread] at hp
      split at hp
      · cases hp
        rfl
      · cases hp
        exact (hkeeps _).1
    by_cases hm : Media chunk.msgtype
    · rw [media_parse hm hc] at hp
      split at hp
      · cases hp
      · cases hp
        rfl
    · have hnone : cbufParser h chunk.msgtype = none := by
        rw [← cbuf_parser_skip h] at ht
        exact Option.map_eq_none_iff.mp ht
      rw [other_parse hnone hf hm hc] at hp
      cases hp
      rfl
  rw [payload_step hst hc] at hstep
  simp only [rtmpPayloadStep] at hstep
  split at hstep
  · cases hstep
  · cases hstep
  · rename_i r' s hp
    have hkept := hret hp
    split at hstep
    · cases hstep
      exact hkept
    · cases hstep
      exact hkept

/-- There is one whole message in a chunk. -/
theorem whole_unique {payload' : List UInt8} (hw : Whole rconn payload rest)
    (hw' : Whole rconn payload' rest) : payload = payload' := by
  obtain ⟨chunk, hc, -, hlen⟩ := hw.header
  obtain ⟨chunk', hc', -, hlen'⟩ := hw'.header
  obtain rfl := Option.some.inj (hc.symm.trans hc')
  exact (List.prefix_of_prefix_length_le hw.arrived hw'.arrived (by omega)).eq_of_length (by omega)

end

/-- A message that goes through `cbuf` is a whole command message of a known command. -/
def CommandAhead (e : Effects ω) (rconn : Conn ω) (rest : List UInt8) : Prop :=
  rconn.state = .chunkPayload → ∀ chunk, rconn.sess.chunkstreams rconn.curchunk = some chunk →
    cbufSkip chunk.msgtype ≠ none → ∃ payload, Whole rconn payload rest ∧ Known e rconn payload rest

/-- Nothing is left in `cbuf`, and of a whole command message nothing will be: the parser
goes on with the header of a chunk right behind it. -/
def Independent (h : Handlers ω) (rconn : Conn ω) (rest : List UInt8) : Prop :=
  rconn.cbuf = [] ∧ (rconn.state = .chunkPayload → ∀ payload, Whole rconn payload rest →
    ∀ b, ∃ sess, rtmpStep cbufHolds h b rconn rest =
      .next { rconn with sess := sess, cbuf := [], state := .chunkFmt, curlen := 0 } payload.length)

theorem ahead_step {h : Handlers ω} {e : Effects ω} {rconn r : Conn ω} {rest : List UInt8} {n : Nat}
    {b : Behind} (hcbuf : rconn.cbuf = []) (ha : CommandAhead e rconn rest)
    (hstep : rtmpStep cbufHolds (serving h e) b rconn rest = .next r n) : r.cbuf = [] := by
  by_cases hst : rconn.state = .chunkPayload
  · cases hc : rconn.sess.chunkstreams rconn.curchunk with
    | none => simp [rtmpStep, hst, hc] at hstep
    | some chunk =>
      by_cases ht : cbufSkip chunk.msgtype = none
      · rw [plain_keeps hst hc ht hstep, hcbuf]
      · obtain ⟨payload, hw, hk⟩ := ha hst chunk hc ht
        obtain ⟨sess, hnext⟩ := known_step (h := h) hst hcbuf hw hk b
        rw [hnext] at hstep
        cases hstep
        rfl
  · rw [(header_keeps hst hstep).1, hcbuf]

/-- In a run whose command messages are all known and take their arguments to the last
byte, none of them leaves anything behind for the next. -/
theorem commands_independent (h : Handlers ω) (e : Effects ω) {rconn : Conn ω}
    (hcbuf : rconn.cbuf = []) {ps : List (Behind × List UInt8)}
    (hahead : Feed.Meets (rtmpStep cbufHolds (serving h e)) (CommandAhead e) rconn ps) :
    Feed.Meets (rtmpStep cbufHolds (serving h e)) (Independent (serving h e)) rconn ps := by
  intro r rest hv hne
  have hempty : r.cbuf = [] := by
    refine @Feed.visits_invariant _ (Conn ω) _ _ (CommandAhead e) (fun r => r.cbuf = []) ?_ _ _
      hahead hcbuf _ _ hv
    intro b r xs r' n hr ha hstep
    exact ahead_step hr ha hstep
  refine ⟨hempty, fun hst payload hw b => ?_⟩
  obtain ⟨chunk, hc, ht, -⟩ := hw.header
  obtain ⟨payload', hw', hk⟩ := hahead r rest hv hne hst chunk hc (by rw [ht]; decide)
  obtain rfl := whole_unique hw hw'
  exact known_step hst hempty hw hk b

/-- Effects that change nothing. -/
def Effects.idle : Effects Unit := ⟨fun _ _ _ sess => some (sess, false)⟩

/-- `_checkbw` with its transaction id and its `null`. -/
def checkbwMessage : List UInt8 :=
  messageBytes 2 ⟨ascii "_checkbw", by decide⟩ ((SdValue.dbl 0).bytes ++ [5])

/-- A connection that has read the header of a command on channel 3. -/
def atCommand (msglen : Nat) : Conn Unit :=
  { Conn.create [] (fun _ => none) () with
    state := .chunkPayload, curchunk := 3
    sess := Sess.setChunk ⟨fun _ => none, fun _ => none, ()⟩ 3
      { channel := 3, msglen, msgtype := rtmpMsgtypeCommandAmf0 } }

theorem commands_independent_checkbw :
    Feed.Meets (rtmpStep cbufHolds (serving .silent .idle)) (Independent (serving .silent .idle))
      (atCommand checkbwMessage.length) [(⟨fun _ => 0, fun _ => 0⟩, checkbwMessage)] := by
  have hw : Whole (atCommand checkbwMessage.length) checkbwMessage checkbwMessage :=
    ⟨⟨_, set_chunk_self _ _ _, rfl, rfl⟩, by decide, List.prefix_refl _⟩
  have hk : Known .idle (atCommand checkbwMessage.length) checkbwMessage checkbwMessage :=
    ⟨by decide, 2, _, _, .checkbw, rfl, by decide, .through rfl
      (.cons (.value trivial) (.cons .null .nil)) rfl nofun⟩
  obtain ⟨sess, hstep⟩ := known_step (h := .silent) rfl rfl hw hk ⟨fun _ => 0, fun _ => 0⟩
  refine commands_independent .silent .idle rfl (Feed.meets_next _ (by decide)
    (fun _ _ _ _ => ⟨_, hw, hk⟩) hstep ?_)
  rw [List.drop_length]
  exact Feed.meets_done _ (Feed.meets_nil _ _ _)

/-- A command message as a client sends it, in one chunk with a full header. -/
structure CommandMsg where
  channel : Nat
  timestamp : Nat
  streamid : Nat
  name : SdStr
  args : List SdValue

def CommandMsg.payload (msg : CommandMsg) : List UInt8 :=
  messageBytes 2 msg.name (msg.args.map SdValue.bytes).flatten

def CommandMsg.header (msg : CommandMsg) : MsgHeader :=
  .full msg.timestamp msg.payload.length rtmpMsgtypeCommandAmf0 msg.streamid

def CommandMsg.chunk (msg : CommandMsg) : List UInt8 :=
  basicHeader 0 msg.channel ++ (msg.header.encode ++ msg.payload)

/-- The message is in one chunk of the size a connection begins with. -/
structure CommandMsg.Single (msg : CommandMsg) : Prop where
  channel : 2 ≤ msg.channel ∧ msg.channel < 65600
  header : msg.header.Fits
  args : ∀ arg ∈ msg.args, arg.Whole
  payload : msg.payload.length ≤ 128

/-- A message whose name the server does not know, from its first byte to its last. -/
theorem unknown_passes (h : Handlers ω) {rconn : Conn ω} {msg : CommandMsg}
    (hst : rconn.state = .chunkFmt) (hcbuf : rconn.cbuf = []) (hsize : rconn.ichunksize = 128)
    (hsingle : msg.Single) (hname : commandNamed msg.name = none) (b : Behind) :
    ∃ r, Feed.Passes (rtmpStep cbufHolds h) b rconn msg.chunk r [] ∧ r.cbuf ≠ [] := by
  have hne : msg.payload ≠ [] := by simp [CommandMsg.payload, messageBytes]
  have hfits : min rconn.ichunksize msg.payload.length ≤ cbufSize := by
    rw [hsize]
    exact (Nat.min_le_left _ _).trans (show 128 ≤ 1024 by omega)
  have hchunk := @chunk_passes _ cbufHolds h b _ _ _ _ hst hsingle.channel.1 hsingle.channel.2
    hsingle.header trivial hne
  have hbehind : ∃ r, r = { rconn with
      state := .chunkPayload, curfmt := msg.header.fmt, curchunk := msg.channel
      sess := rconn.sess.setChunk msg.channel
        ((rconn.sess.channel msg.channel msg.header.fmt).read msg.header) } := ⟨_, rfl⟩
  obtain ⟨r₀, hr₀⟩ := hbehind
  rw [← hr₀] at hchunk
  have hw : Whole r₀ msg.payload msg.payload := by
    subst hr₀
    exact ⟨⟨_, set_chunk_self _ _ _, rfl, rfl⟩, hsingle.payload.trans hsize.ge, List.prefix_refl _⟩
  have hsize₀ : r₀.ichunksize = rconn.ichunksize := by rw [hr₀]
  obtain ⟨r, hstep, hleft⟩ := unknown_step (h := h) (by rw [hr₀]) (by rw [hr₀, ← hcbuf]) hw
    (hsize₀ ▸ hfits) hname b
  refine ⟨r, Feed.passes_trans _ hchunk (.next hne hstep ?_), hleft⟩
  rw [hsize₀, hsize, Nat.min_eq_right hsingle.payload, List.drop_length]
  exact .here

/-- A command whose name the server does not know stays in `cbuf`. -/
theorem unknown_command_left :
    ¬ ∀ (h : Handlers Unit) (e : Effects Unit) (CS1 c1 : List UInt8) (b : Behind)
      (msgs : List CommandMsg), CS1.length = 1536 → c1.length = 1536 →
      (∀ msg ∈ msgs, msg.Single) → ∀ r,
      Feed.Visits (rtmpStep cbufHolds (serving h e)) (Conn.create CS1 (fun _ => none) ())
        ((b, [3]) :: (b, c1) :: (b, CS1) :: msgs.map fun msg => (b, msg.chunk)) r [] → r.cbuf = [] := by
  intro hall
  obtain ⟨b⟩ : Nonempty Behind := ⟨⟨fun _ => 0, fun _ => 0⟩⟩
  have hlen : (List.replicate 1536 (0 : UInt8)).length = 1536 := List.length_replicate
  have hname : commandNamed ⟨ascii "foo", by decide⟩ = none := by decide
  have hsingle : (⟨3, 0, 0, ⟨ascii "foo", by decide⟩, [.dbl 1, .null 5]⟩ : CommandMsg).Single :=
    ⟨by decide, by decide, by simp [SdValue.Whole], by decide⟩
  obtain ⟨world, hvisits⟩ := @handshake_visits _ cbufHolds (serving .silent .idle) _ _
    (fun _ => none) () hlen hlen 3 b
  obtain ⟨r, hpass, hleft⟩ := @unknown_passes _ (serving .silent .idle)
    { Conn.create (List.replicate 1536 0) (fun _ => none) world with state := .chunkFmt } _
    rfl rfl rfl hsingle hname b
  exact hleft (hall .silent .idle _ _ b [_] hlen hlen (by simpa using hsingle) r
    (hvisits _ _ _ (.here hpass)))

end Yclib.Rtmp.Commands
