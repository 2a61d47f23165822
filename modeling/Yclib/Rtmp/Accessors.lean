import Yclib.Rtmp.Commands
import Yclib.Util.CString

namespace Yclib.Rtmp.Accessors
open Network Amf Commands

/-! What the command handlers look into their arguments with. -/

/-- The functions a value's payload is cast for; `objppts` is the list of an object. -/
inductive Accessor
  | sdDblValue | sdUi8Value | sdStrValue | objppts
deriving DecidableEq

/-- The AMF0 type whose payload the accessor expects. -/
def Accessor.type : Accessor → Nat
  | .sdDblValue => 0
  | .sdUi8Value => 1
  | .sdStrValue => 2
  | .objppts => 3

/-- The payload is there, and it is what the accessor casts it to. -/
def Accessor.Takes : Accessor → SdValue → Prop
  | .sdDblValue, .dbl _ => True
  | .sdUi8Value, .ui8 _ => True
  | .sdStrValue, .str _ => True
  | .objppts, .obj _ => True
  | _, _ => False

/-- An accessor is applied: the type that the body gives the value, if it has the value,
and the value that was read, none where NULL was. -/
structure Access where
  accessor : Accessor
  type : Option Nat
  value : Option SdValue

def Access.Safe (a : Access) : Prop :=
  a.type = some a.accessor.type ∧ ∃ v, a.value = some v ∧ a.accessor.Takes v

/-- A handler looks into a value that was read with its type. -/
def own (accessor : Accessor) (v : SdValue) : Access := ⟨accessor, some v.type, some v⟩

/-- What a handler finds beside its body, and what comes of what it sends. -/
structure Around where
  /-- `rbt_search_int(&rconn->chunkstreams, rconn->curchunk)` finds one. -/
  chunkstream : Bool
  /-- `rbt_search_str(&rconn->rtmp->mstreams, name)` finds one. -/
  mstream : SdStr → Bool
  created : Bool
  /-- The `n`-th `rtmp_resp_connect` is not negative. -/
  connected : Nat → Bool
  chunksize : Bool
  streamBegin : Bool

section
variable (m : Mem) (size : Nat)

/-- The type in the body of what comes behind these fields, at the byte that the handlers
step over without a look. -/
def typeBehind (before : List Field) : Option Nat :=
  match takeFields m size before 0 with
  | some (.go _ walker) => some (m walker).toNat
  | _ => none

/-- A handler looks into what it read behind these fields. -/
def behind (before : List Field) (accessor : Accessor) (v : SdValue) : Access :=
  ⟨accessor, typeBehind m size before, some v⟩

variable (around : Around)

/-- The loop of `rtmp_command_connect`, with `n` answers sent before. -/
def connectLoop (id : SdValue) : SdObj → Nat → List Access
  | .nil, _ => []
  | .add name value rest, n =>
    if strncmpEq name.str (ascii "app") 3 then
      own .sdStrValue value :: own .sdDblValue id ::
        if around.connected n then connectLoop id rest (n + 1) else []
    else connectLoop id rest n

/-- How often `rtmp_command_publish` compares the type. -/
def typeTests (type : SdStr) : Nat :=
  if strncmpEq type.str (ascii "live") 4 then 1
  else if strncmpEq type.str (ascii "append") 6 then 2
  else 3

def publishAccesses (id : SdValue) (name type : SdStr) : List Access :=
  let number := own .sdDblValue id
  let name' := behind m size [.value, .null] .sdStrValue (.str name)
  let type' := behind m size [.value, .null, .gap, .str] .sdStrValue (.str type)
  if around.chunkstream then
    if around.mstream name then name' :: (List.replicate (typeTests type) type' ++ [number, name'])
    else if around.created then
      name' :: name' :: (List.replicate (typeTests type) type' ++ [number, name'])
    else [name', name', number, name']
  else []

def playAccesses (id : SdValue) (name : SdStr) : List Access :=
  let number := own .sdDblValue id
  let name' := behind m size [.value, .null] .sdStrValue (.str name)
  name' ::
    if around.mstream name then
      if around.chunkstream then
        if around.chunksize then
          if around.streamBegin then [number, name', number, name'] else [number, name']
        else []
      else [number, name']
    else [number, name']

/-- What a handler looks into once its arguments are read. -/
def accesses : Command → List SdValue → List Access
  | .connect, [id, .obj obj] => behind m size [.value] .objppts (.obj obj) :: connectLoop around id obj 0
  | .call, id :: _ => [own .sdDblValue id]
  | .createStream, id :: _ => [own .sdDblValue id]
  | .getStreamLength, id :: _ => [own .sdDblValue id]
  | .play, [id, .str name] => playAccesses m size around id name
  | .publish, [id, .str name, .str type] => publishAccesses m size around id name type
  | .deleteStream, [_, streamid] => [behind m size [.value, .null] .sdDblValue streamid]
  | .receiveAudio, [_, flag] => [behind m size [.value, .null] .sdUi8Value flag]
  | .receiveVideo, [_, flag] => [behind m size [.value, .null] .sdUi8Value flag]
  | .seek, [_, playseek] => [behind m size [.value, .null] .sdDblValue playseek]
  | .pause, [_, p, ptime] =>
    [behind m size [.value, .null] .sdUi8Value p,
      behind m size [.value, .null, .gap, .ui8] .sdDblValue ptime]
  | _, _ => []

/-- The transaction id, where `sd_str_read` has given NULL for the name. -/
def unnamedId (args : List SdValue) : Option (Option SdStr × Nat) → Option SdValue
  | some (none, _) => args.head?
  | _ => none

/-- The transaction id, where `sd_str_read` finds no name behind it. -/
def unnamed : Option Take → Option SdValue
  | some (.go args walker) =>
    unnamedId args (sdStrRead (Mem.from m walker) (u32Sub size walker) 0).ret
  | _ => none

/-- The transaction id with which `play` answers that `stream_name` is NULL. -/
def nameless : Option SdValue := unnamed m size (takeFields m size [.value, .null, .gap] 0)

/-- What a handler looks into, from what came of its arguments. Without a name `play` answers
before it is through with them. -/
def looked (command : Command) (nameless : Option SdValue) (take : Option Take) :
    Option (List Access) :=
  match command, nameless with
  | .play, some id => some [own .sdDblValue id, ⟨.sdStrValue, none, none⟩]
  | command, _ =>
    match take with
    | none => none
    | some (.stop _) => some []
    | some (.go args _) => some (accesses m size around command args)

/-- The accessors that the handler of a command applies to the body. There is no result
if a reader does not come back. -/
def applied (command : Command) : Option (List Access) :=
  match fields command with
  | none => some []
  | some fs => looked m size around command (nameless m size) (takeFields m size fs 0)

end

/-- Whatever is around it, the handler comes through the body and applies its accessors to
values of the types they expect. -/
def TypeSafe (m : Mem) (size : Nat) (command : Command) : Prop :=
  ∀ around, ∃ log, applied m size around command = some log ∧ ∀ a ∈ log, a.Safe

/-! The bodies for which it does. -/

/-- The properties of an object. -/
def ppts : SdObj → List (SdStr × SdValue)
  | .nil => []
  | .add name value rest => (name, value) :: ppts rest

/-- The name of a property that `rtmp_command_connect` takes for the application's. -/
def IsApp (name : SdStr) : Prop := strncmpEq name.str (ascii "app") 3 = true

section
variable (m : Mem) (size : Nat)

/-- The body begins with a number. -/
def Number : Prop := m 0 = 0 ∧ 9 ≤ size

/-- The arguments have the types that the handler takes them for without a look. -/
def Typed : Command → List SdValue → Prop
  | .connect, [_, .obj obj] =>
    typeBehind m size [.value] = some 3 ∧
      ∀ p ∈ ppts obj, IsApp p.1 → Accessor.sdStrValue.Takes p.2 ∧ Number m size
  | .call, _ => Number m size
  | .createStream, _ => Number m size
  | .getStreamLength, _ => Number m size
  | .play, _ => Number m size ∧ typeBehind m size [.value, .null] = some 2
  | .publish, _ =>
    Number m size ∧ typeBehind m size [.value, .null] = some 2 ∧
      typeBehind m size [.value, .null, .gap, .str] = some 2
  | .deleteStream, _ => typeBehind m size [.value, .null] = some 0
  | .receiveAudio, _ => typeBehind m size [.value, .null] = some 1
  | .receiveVideo, _ => typeBehind m size [.value, .null] = some 1
  | .seek, _ => typeBehind m size [.value, .null] = some 0
  | .pause, _ =>
    typeBehind m size [.value, .null] = some 1 ∧
      typeBehind m size [.value, .null, .gap, .ui8] = some 0
  | _, _ => True

/-- The readers come back from the arguments, and if all of them are there, they are typed. -/
def Fits (command : Command) : Prop :=
  ∀ fs, fields command = some fs → ∃ take, takeFields m size fs 0 = some take ∧
    ∀ args walker, take = .go args walker → Typed m size command args

end

/-! What the readers give. -/

section
variable {m : Mem} {size w : Nat}

/-- The values a field can give. -/
def Gives : Field → List SdValue → Prop
  | .value, args => ∃ v, args = [v]
  | .str, args => ∃ s, args = [.str s]
  | .dbl, args => ∃ d, args = [.dbl d]
  | .ui8, args => ∃ b, args = [.ui8 b]
  | .obj, args => ∃ o, args = [.obj o]
  | .name, args => ∃ s, args = [.str s]
  | .null, args => args = []
  | .gap, args => args = []
  | .spare, args => args = []

/-- The values that fields can give one after another. -/
def Given : List Field → List SdValue → Prop
  | [], args => args = []
  | field :: fields, args => ∃ args₁ args₂, Gives field args₁ ∧ Given fields args₂ ∧ args = args₁ ++ args₂

theorem taken_go {v : Option SdValue} {bytes walker : Nat} {args : List SdValue}
    (h : taken size w v bytes = .go args walker) : ∃ x, v = some x ∧ args = [x] := by
  cases v with
  | none => cases h
  | some x =>
    cases h
    exact ⟨x, rfl, rfl⟩

theorem mapped_go {α : Type} {f : α → SdValue} {v : Option α} {bytes walker : Nat} {args : List SdValue}
    (h : taken size w (v.map f) bytes = .go args walker) : ∃ x, args = [f x] := by
  obtain ⟨x, hx, rfl⟩ := taken_go h
  obtain ⟨y, -, rfl⟩ := Option.map_eq_some_iff.mp hx
  exact ⟨y, rfl⟩

theorem value_go {args : List SdValue} {walker : Nat}
    (h : Field.value.read m size w = some (.go args walker)) :
    ∃ v n, (readValue (Mem.from m w) (u32Sub size w)).ret = some (some v, n) ∧ args = [v] := by
  obtain ⟨⟨v, n⟩, hv, h⟩ := Option.bind_eq_some_iff.mp h
  obtain ⟨x, rfl, rfl⟩ := taken_go (Option.some.inj h)
  exact ⟨x, n, hv, rfl⟩

theorem read_gives {field : Field} {args : List SdValue} {walker : Nat}
    (h : field.read m size w = some (.go args walker)) : Gives field args := by
  cases field with
  | value =>
    obtain ⟨v, n, -, rfl⟩ := value_go h
    exact ⟨v, rfl⟩
  | null =>
    simp only [Field.read] at h
    split at h
    · cases h
    · split at h
      · cases h
      · cases h
        rfl
  | gap =>
    cases h
    rfl
  | str =>
    obtain ⟨⟨s, bytes⟩, -, h⟩ := Option.bind_eq_some_iff.mp h
    exact mapped_go (Option.some.inj h)
  | dbl =>
    obtain ⟨⟨d, bytes⟩, -, h⟩ := Option.bind_eq_some_iff.mp h
    exact mapped_go (Option.some.inj h)
  | ui8 =>
    obtain ⟨⟨b, bytes⟩, -, h⟩ := Option.bind_eq_some_iff.mp h
    exact mapped_go (Option.some.inj h)
  | obj =>
    obtain ⟨⟨o, bytes⟩, -, h⟩ := Option.bind_eq_some_iff.mp h
    exact mapped_go (Option.some.inj h)
  | name =>
    obtain ⟨⟨s, bytes⟩, -, h⟩ := Option.bind_eq_some_iff.mp h
    obtain ⟨s, -, h⟩ := Option.bind_eq_some_iff.mp h
    cases h
    exact ⟨s, rfl⟩
  | spare =>
    obtain ⟨⟨v, bytes⟩, -, h⟩ := Option.bind_eq_some_iff.mp h
    cases h
    rfl

/-- The first field was read, and the rest behind it. -/
theorem take_cons {field : Field} {fs : List Field} {args : List SdValue} {walker : Nat}
    (h : takeFields m size (field :: fs) w = some (.go args walker)) :
    ∃ args₁ args₂ next, field.read m size w = some (.go args₁ next) ∧
      takeFields m size fs next = some (.go args₂ walker) ∧ args = args₁ ++ args₂ := by
  rw [takeFields] at h
  split at h
  · cases h
  · cases h
  · rename_i args₁ next hread
    split at h
    · cases h
    · cases h
    · rename_i args₂ walker' htake
      cases h
      exact ⟨args₁, args₂, next, hread, htake, rfl⟩

/-- What is lost behind some fields is lost in front of them. -/
theorem take_lost {fs gs : List Field} {args : List SdValue} {walker : Nat}
    (h : takeFields m size fs w = some (.go args walker)) (hlost : takeFields m size gs walker = none) :
    takeFields m size (fs ++ gs) w = none := by
  induction fs generalizing w args with
  | nil =>
    cases h
    exact hlost
  | cons field fs ih =>
    obtain ⟨args₁, args₂, next, hread, htake, rfl⟩ := take_cons h
    rw [List.cons_append, takeFields, hread]
    simp only [ih htake]

theorem take_given {fs : List Field} {args : List SdValue} {walker : Nat}
    (h : takeFields m size fs w = some (.go args walker)) : Given fs args := by
  induction fs generalizing w args with
  | nil =>
    cases h
    rfl
  | cons field fs ih =>
    obtain ⟨args₁, args₂, next, hread, htake, rfl⟩ := take_cons h
    exact ⟨args₁, args₂, read_gives hread, ih htake, rfl⟩

/-- What `sd_read` gives is a number only for its type, and with eight bytes. -/
theorem sd_read_number {e fuel type w : Nat} {r : SdValue × Nat} (h : (sdRead m e fuel type w).ret = some r) :
    Accessor.sdDblValue.Takes r.1 ↔ type = 0 ∧ w + 8 ≤ e := by
  cases fuel with
  | zero => cases h
  | succ fuel =>
    unfold sdRead at h
    obtain ⟨_, -, h⟩ := ret_bind.mp h
    split at h
    · obtain ⟨⟨d, bytes⟩, hd, h⟩ := ret_bind.mp h
      cases h
      unfold sdDblRead at hd
      split at hd
      · cases hd
        simp [Accessor.Takes]
        omega
      · cases hd
        simp [Accessor.Takes]
        omega
    · obtain ⟨⟨d, bytes⟩, hd, h⟩ := ret_bind.mp h
      cases h
      cases d <;> simp [Accessor.Takes]
    · obtain ⟨⟨d, bytes⟩, hd, h⟩ := ret_bind.mp h
      cases h
      cases d <;> simp [Accessor.Takes]
    · obtain ⟨⟨d, bytes⟩, hd, h⟩ := ret_bind.mp h
      cases h
      cases d <;> simp [Accessor.Takes]
    · cases h
      simp [Accessor.Takes]
    · cases h
      simp [Accessor.Takes]
    · cases h
      simp [Accessor.Takes]
    · cases h
      simp [Accessor.Takes]
    · obtain ⟨⟨d, bytes⟩, hd, h⟩ := ret_bind.mp h
      cases h
      cases d <;> simp [Accessor.Takes]
    · cases h

/-- A value is a number when its type says so and its eight bytes are there. -/
theorem value_number {v : SdValue} {n : Nat} (h : (readValue m size).ret = some (some v, n)) :
    Accessor.sdDblValue.Takes v ↔ Number m size := by
  rw [readValue, readFuel, sdValueRead] at h
  split at h
  · cases h
  · rw [ret_bind] at h
    obtain ⟨_, -, h⟩ := h
    split at h
    · cases h
    · rw [ret_bind] at h
      obtain ⟨r, hr, h⟩ := h
      cases h
      rw [sd_read_number hr, Number, ← UInt8.toNat_inj]
      rfl

/-- The transaction id of a body of `size` bytes is a number when the body begins with one. -/
theorem id_number {fs : List Field} {id : SdValue} {args : List SdValue} {walker : Nat}
    (hsize : size < 2 ^ 32) (h : takeFields m size (.value :: fs) 0 = some (.go (id :: args) walker)) :
    Accessor.sdDblValue.Takes id ↔ Number m size := by
  obtain ⟨args₁, args₂, next, hread, -, hargs⟩ := take_cons h
  obtain ⟨v, n, hv, rfl⟩ := value_go hread
  obtain ⟨rfl, -⟩ := List.cons.inj hargs
  obtain ⟨hbuf, hrest⟩ := first_whole m hsize
  rw [hbuf, hrest] at hv
  exact value_number hv

end

/-! What the handlers look into. -/

section
variable {m : Mem} {size : Nat} {around : Around} {id v : SdValue}

theorem own_safe {accessor : Accessor} : (own accessor v).Safe ↔ accessor.Takes v := by
  constructor
  · intro h
    obtain ⟨-, x, hx, htakes⟩ := h
    cases hx
    exact htakes
  · intro h
    refine ⟨?_, v, rfl, h⟩
    cases accessor <;> cases v <;> first | rfl | exact h.elim

theorem behind_safe {before : List Field} {accessor : Accessor} (h : accessor.Takes v) :
    (behind m size before accessor v).Safe ↔ typeBehind m size before = some accessor.type := by
  constructor
  · intro hsafe
    exact hsafe.1
  · intro htype
    exact ⟨htype, v, rfl, h⟩

theorem behind_dbl {before : List Field} {d : UInt64} :
    (behind m size before .sdDblValue (.dbl d)).Safe ↔ typeBehind m size before = some 0 :=
  @behind_safe m size (.dbl d) before .sdDblValue trivial

theorem behind_ui8 {before : List Field} {b : UInt8} :
    (behind m size before .sdUi8Value (.ui8 b)).Safe ↔ typeBehind m size before = some 1 :=
  @behind_safe m size (.ui8 b) before .sdUi8Value trivial

theorem behind_str {before : List Field} {s : SdStr} :
    (behind m size before .sdStrValue (.str s)).Safe ↔ typeBehind m size before = some 2 :=
  @behind_safe m size (.str s) before .sdStrValue trivial

theorem behind_obj {before : List Field} {o : SdObj} :
    (behind m size before .objppts (.obj o)).Safe ↔ typeBehind m size before = some 3 :=
  @behind_safe m size (.obj o) before .objppts trivial

/-- The loop over the properties looks into those of the application, as far as it gets. -/
theorem loop_safe {obj : SdObj} {n : Nat}
    (h : ∀ p ∈ ppts obj, IsApp p.1 → Accessor.sdStrValue.Takes p.2 ∧ Accessor.sdDblValue.Takes id) :
    ∀ a ∈ connectLoop around id obj n, a.Safe := by
  match obj with
  | .nil =>
    intro a ha
    cases ha
  | .add name value rest =>
    have hrest : ∀ p ∈ ppts rest, IsApp p.1 → Accessor.sdStrValue.Takes p.2 ∧ Accessor.sdDblValue.Takes id :=
      fun p hp => h p (.tail _ hp)
    intro a ha
    rw [connectLoop] at ha
    split at ha
    · rename_i happ
      obtain ⟨hvalue, hid⟩ := h (name, value) (.head _) happ
      cases ha with
      | head => exact own_safe.mpr hvalue
      | tail _ ha =>
        cases ha with
        | head => exact own_safe.mpr hid
        | tail _ ha =>
          split at ha
          · exact loop_safe hrest a ha
          · cases ha
    · exact loop_safe hrest a ha

/-- Where every answer goes out, it gets to all of them. -/
theorem safe_loop {obj : SdObj} {n : Nat} (hgoes : ∀ n, around.connected n = true)
    (h : ∀ a ∈ connectLoop around id obj n, a.Safe) :
    ∀ p ∈ ppts obj, IsApp p.1 → Accessor.sdStrValue.Takes p.2 ∧ Accessor.sdDblValue.Takes id := by
  match obj with
  | .nil =>
    intro p hp
    cases hp
  | .add name value rest =>
    intro p hp happ
    rw [connectLoop] at h
    split at h
    · rw [if_pos (hgoes n)] at h
      cases hp with
      | head => exact ⟨own_safe.mp (h _ (.head _)), own_safe.mp (h _ (.tail _ (.head _)))⟩
      | tail _ hp => exact safe_loop hgoes (fun a ha => h a (.tail _ (.tail _ ha))) p hp happ
    · rename_i hother
      cases hp with
      | head => exact absurd happ hother
      | tail _ hp => exact safe_loop hgoes h p hp happ

/-- All is found, and all that is sent goes out. -/
def served : Around := ⟨true, fun _ => true, true, fun _ => true, true, true⟩

theorem connect_safe {obj : SdObj} (hid : Accessor.sdDblValue.Takes id ↔ Number m size) :
    (∀ around, ∀ a ∈ accesses m size around .connect [id, .obj obj], a.Safe) ↔
      Typed m size .connect [id, .obj obj] := by
  constructor
  · intro h
    have hobj := behind_obj.mp (h served _ (.head _))
    refine ⟨hobj, ?_⟩
    intro p hp happ
    obtain ⟨hvalue, hnumber⟩ :=
      safe_loop (fun _ => rfl) (fun a ha => h served a (.tail _ ha)) p hp happ
    exact ⟨hvalue, hid.mp hnumber⟩
  · intro h around a ha
    obtain ⟨hobj, hppts⟩ := h
    cases ha with
    | head => exact behind_obj.mpr hobj
    | tail _ ha => exact loop_safe (fun p hp happ => (hppts p hp happ).imp_right hid.mpr) a ha

theorem publish_safe {name type : SdStr} (hid : Accessor.sdDblValue.Takes id ↔ Number m size) :
    (∀ around, ∀ a ∈ accesses m size around .publish [id, .str name, .str type], a.Safe) ↔
      Typed m size .publish [id, .str name, .str type] := by
  have hnumber := own_safe.trans hid
  constructor
  · intro h
    have htests : 0 < typeTests type := by
      unfold typeTests
      split
      · exact Nat.one_pos
      · split
        · exact Nat.two_pos
        · exact Nat.succ_pos 2
    have hall := h served
    refine ⟨hnumber.mp (hall _ ?_), (behind_str (s := name)).mp (hall _ ?_),
      (behind_str (s := type)).mp (hall _ ?_)⟩
    · simp [accesses, publishAccesses, served]
    · simp [accesses, publishAccesses, served]
    · simp [accesses, publishAccesses, served, htests.ne']
  · intro h around a ha
    obtain ⟨hid, hstr, hkind⟩ := h
    have hsafe : a = own .sdDblValue id ∨ a = behind m size [.value, .null] .sdStrValue (.str name) ∨
        a = behind m size [.value, .null, .gap, .str] .sdStrValue (.str type) := by
      simp only [accesses, publishAccesses] at ha
      grind
    rcases hsafe with rfl | rfl | rfl
    · exact hnumber.mpr hid
    · exact behind_str.mpr hstr
    · exact behind_str.mpr hkind

theorem play_safe {name : SdStr} (hid : Accessor.sdDblValue.Takes id ↔ Number m size) :
    (∀ around, ∀ a ∈ accesses m size around .play [id, .str name], a.Safe) ↔
      Typed m size .play [id, .str name] := by
  have hnumber := own_safe.trans hid
  constructor
  · intro h
    have hall := h served
    refine ⟨hnumber.mp (hall _ ?_), behind_str.mp (hall _ (.head _))⟩
    simp [accesses, playAccesses, served]
  · intro h around a ha
    obtain ⟨hid, hstr⟩ := h
    have hsafe : a = own .sdDblValue id ∨ a = behind m size [.value, .null] .sdStrValue (.str name) := by
      simp only [accesses, playAccesses] at ha
      grind
    rcases hsafe with rfl | rfl
    · exact hnumber.mpr hid
    · exact behind_str.mpr hstr

/-- A handler that looks into one value. -/
theorem one_safe {command : Command} {args : List SdValue} {a : Access}
    (h : ∀ around, accesses m size around command args = [a]) :
    (∀ around, ∀ b ∈ accesses m size around command args, b.Safe) ↔ a.Safe := by
  simp only [h, List.mem_singleton, forall_eq]
  exact ⟨fun h => h served, fun h _ => h⟩

theorem pause_safe {p : UInt8} {ptime : UInt64} :
    (∀ around, ∀ a ∈ accesses m size around .pause [id, .ui8 p, .dbl ptime], a.Safe) ↔
      Typed m size .pause [id, .ui8 p, .dbl ptime] := by
  constructor
  · intro h
    exact ⟨behind_ui8.mp (h served _ (.head _)), behind_dbl.mp (h served _ (.tail _ (.head _)))⟩
  · intro h around a ha
    cases ha with
    | head => exact behind_ui8.mpr h.1
    | tail _ ha =>
      obtain rfl := List.mem_singleton.mp ha
      exact behind_dbl.mpr h.2

/-- Where the arguments are there, it comes down to their types. -/
theorem args_safe {command : Command} {fs : List Field} {args : List SdValue} {walker : Nat}
    (hsize : size < 2 ^ 32) (hf : fields command = some fs)
    (h : takeFields m size fs 0 = some (.go args walker)) :
    (∀ around, ∀ a ∈ accesses m size around command args, a.Safe) ↔ Typed m size command args := by
  have hgiven := take_given h
  cases command <;> cases hf
  case connect =>
    obtain ⟨id, obj, rfl⟩ : ∃ id obj, args = [id, .obj obj] := by simpa [Given, Gives] using hgiven
    exact connect_safe (id_number hsize h)
  case call =>
    obtain ⟨id, obj, args', rfl⟩ : ∃ id obj args', args = [id, .obj obj, .obj args'] := by
      simpa [Given, Gives] using hgiven
    exact (one_safe fun _ => rfl).trans (own_safe.trans (id_number hsize h))
  case createStream =>
    obtain ⟨id, rfl⟩ : ∃ id, args = [id] := by simpa [Given, Gives] using hgiven
    exact (one_safe fun _ => rfl).trans (own_safe.trans (id_number hsize h))
  case getStreamLength =>
    obtain ⟨id, str, rfl⟩ : ∃ id str, args = [id, str] := by simpa [Given, Gives] using hgiven
    exact (one_safe fun _ => rfl).trans (own_safe.trans (id_number hsize h))
  case play =>
    obtain ⟨id, name, rfl⟩ : ∃ id name, args = [id, .str name] := by simpa [Given, Gives] using hgiven
    exact play_safe (id_number hsize h)
  case publish =>
    obtain ⟨id, name, type, rfl⟩ : ∃ id name type, args = [id, .str name, .str type] := by
      simpa [Given, Gives] using hgiven
    exact publish_safe (id_number hsize h)
  case pause =>
    obtain ⟨id, p, ptime, rfl⟩ : ∃ id p ptime, args = [id, .ui8 p, .dbl ptime] := by
      simpa [Given, Gives] using hgiven
    exact pause_safe
  case deleteStream =>
    obtain ⟨id, d, rfl⟩ : ∃ id d, args = [id, .dbl d] := by simpa [Given, Gives] using hgiven
    exact (one_safe fun _ => rfl).trans behind_dbl
  case seek =>
    obtain ⟨id, d, rfl⟩ : ∃ id d, args = [id, .dbl d] := by simpa [Given, Gives] using hgiven
    exact (one_safe fun _ => rfl).trans behind_dbl
  case receiveAudio =>
    obtain ⟨id, flag, rfl⟩ : ∃ id flag, args = [id, .ui8 flag] := by simpa [Given, Gives] using hgiven
    exact (one_safe fun _ => rfl).trans behind_ui8
  case receiveVideo =>
    obtain ⟨id, flag, rfl⟩ : ∃ id flag, args = [id, .ui8 flag] := by simpa [Given, Gives] using hgiven
    exact (one_safe fun _ => rfl).trans behind_ui8
  all_goals simp [accesses, Typed]

theorem name_lost {walker : Nat} {n : Nat}
    (h : (sdStrRead (Mem.from m walker) (u32Sub size walker) 0).ret = some (none, n)) :
    takeFields m size [.name, .spare] walker = none := by
  have hread : Field.name.read m size walker = none := by
    simp only [Field.read, h]
    rfl
  rw [takeFields, hread]

theorem unnamed_id {args : List SdValue} {name : Option (Option SdStr × Nat)}
    (h : unnamedId args name = some id) : ∃ n, name = some (none, n) := by
  unfold unnamedId at h
  split at h
  · exact ⟨_, rfl⟩
  · cases h

theorem unnamed_go {take : Option Take} (h : unnamed m size take = some id) :
    ∃ args walker, take = some (.go args walker) ∧ takeFields m size [.name, .spare] walker = none := by
  cases take with
  | none => cases h
  | some take =>
    cases take with
    | stop used => cases h
    | go args walker =>
      obtain ⟨n, hname⟩ := unnamed_id h
      exact ⟨args, walker, rfl, name_lost hname⟩

/-- `play` without a name does not read its arguments to the end. -/
theorem nameless_lost (h : nameless m size = some id) :
    takeFields m size [.value, .null, .gap, .name, .spare] 0 = none := by
  obtain ⟨args, walker, htake, hname⟩ := unnamed_go h
  have hlost := take_lost htake hname
  exact hlost

theorem applied_looked {command : Command} {fs : List Field} (hf : fields command = some fs) :
    applied m size around command =
      looked m size around command (nameless m size) (takeFields m size fs 0) := by
  rw [applied, hf]

theorem nameless_faults (h : nameless m size = some id) : ¬ TypeSafe m size .play := by
  intro hsafe
  obtain ⟨log, hlog, hall⟩ := hsafe served
  rw [applied_looked rfl, h] at hlog
  cases hlog
  obtain ⟨htype, -⟩ := hall _ (.tail _ (.head _))
  cases htype

/-- With its name, if it needs one, a handler looks into its arguments once they are read. -/
theorem looked_named {command : Command} {nameless : Option SdValue} {take : Option Take}
    (hname : command = .play → nameless = none) :
    looked m size around command nameless take =
      match take with
      | none => none
      | some (.stop _) => some []
      | some (.go args _) => some (accesses m size around command args) := by
  unfold looked
  split
  · cases hname rfl
  · rfl

/-- Arguments that are rejected are not looked into, and leave the session as it was. -/
theorem stop_silent {ω : Type} (e : Effects ω) {command : Command} {fs : List Field} {used : Nat}
    (sess : Sess ω) (curchunk : Nat) (hf : fields command = some fs)
    (h : takeFields m size fs 0 = some (.stop used)) :
    rtmpCommand e command sess curchunk m size = some (sess, used) ∧
      applied m size around command = some [] := by
  constructor
  · rw [command_handler e hf, handler, h]
  · rw [applied_looked hf, h]
    apply looked_named
    intro hplay
    subst hplay
    cases hf
    cases hname : nameless m size with
    | none => rfl
    | some id => cases (nameless_lost hname).symm.trans h

/-- Whatever came of the arguments, it is right when they are read and typed. -/
theorem looked_safe {command : Command} {nameless : Option SdValue} {take : Option Take}
    (hname : command = .play → nameless = none)
    (hargs : ∀ args walker, take = some (.go args walker) →
      ((∀ around, ∀ a ∈ accesses m size around command args, a.Safe) ↔ Typed m size command args)) :
    (∀ around, ∃ log, looked m size around command nameless take = some log ∧ ∀ a ∈ log, a.Safe) ↔
      ∃ t, take = some t ∧ ∀ args walker, t = .go args walker → Typed m size command args := by
  cases take with
  | none =>
    simp only [looked_named hname]
    constructor
    · intro h
      obtain ⟨log, hlog, -⟩ := h served
      cases hlog
    · intro h
      obtain ⟨t, hnone, -⟩ := h
      cases hnone
  | some take =>
    cases take with
    | stop used =>
      simp only [looked_named hname]
      constructor
      · intro _
        exact ⟨.stop used, rfl, fun _ _ h => nomatch h⟩
      · intro _ around
        exact ⟨[], rfl, fun _ h => nomatch h⟩
    | go args walker =>
      simp only [looked_named hname]
      have hargs := hargs args walker rfl
      constructor
      · intro h
        refine ⟨.go args walker, rfl, ?_⟩
        intro args' walker' heq
        cases heq
        apply hargs.mp
        intro around
        obtain ⟨log, hlog, hall⟩ := h around
        cases hlog
        exact hall
      · intro h around
        obtain ⟨t, heq, htyped⟩ := h
        cases heq
        exact ⟨_, rfl, hargs.mpr (htyped args walker rfl) around⟩

theorem fields_safe {command : Command} {fs : List Field} (hsize : size < 2 ^ 32)
    (hf : fields command = some fs) (hname : command = .play → nameless m size = none) :
    TypeSafe m size command ↔ Fits m size command := by
  have hlooked := looked_safe (m := m) hname fun args walker h => args_safe hsize hf h
  simp only [TypeSafe, applied_looked hf, hlooked, Fits, hf, Option.some.injEq, forall_eq']

end

/-- The accessors of a command are applied to values of the types they expect, and to no NULL,
whatever is around, exactly for the bodies that fit the command. -/
theorem accessors_safe_iff (command : Command) (m : Mem) (size : UInt32) :
    TypeSafe m size.toNat command ↔ Fits m size.toNat command := by
  cases hf : fields command with
  | none =>
    constructor
    · intro _ fs h
      cases hf.symm.trans h
    · intro _ around
      exact ⟨[], by rw [applied, hf], fun _ h => nomatch h⟩
  | some fs =>
    by_cases hname : command = .play ∧ (nameless m size.toNat).isSome
    · obtain ⟨rfl, hname⟩ := hname
      obtain ⟨id, hid⟩ := Option.isSome_iff_exists.mp hname
      constructor
      · intro h
        exact absurd h (nameless_faults hid)
      · intro h
        obtain ⟨take, htake, -⟩ := h _ rfl
        rw [nameless_lost hid] at htake
        cases htake
    · apply fields_safe size.toNat_lt hf
      intro hplay
      by_contra hsome
      exact hname ⟨hplay, Option.isSome_iff_ne_none.mpr hsome⟩

/-- The transaction id of `createStream` may be `null`, and it is looked into as a number. -/
theorem id_through_null : ¬ ∀ (command : Command) (m : Mem) (size : UInt32), TypeSafe m size.toNat command := by
  intro hall
  have hsafe := hall .createStream (fun _ => 5) 2
  rw [show (2 : UInt32).toNat = 2 from rfl] at hsafe
  have hfits := (fields_safe (by decide) (show fields .createStream = some [.value, .null] from rfl)
    nofun).mp hsafe
  obtain ⟨take, htake, htyped⟩ := hfits _ rfl
  have hbody : Encodes 0 [.value, .null] ((SdValue.null 5).bytes ++ ([5] ++ [])) _ :=
    .cons (.value ⟨by decide, by decide⟩) (.cons .null .nil)
  have hholds : Holds (fun _ => 5) 0 ((SdValue.null 5).bytes ++ ([5] ++ [])) :=
    holds_cons.mpr ⟨rfl, holds_cons.mpr ⟨rfl, holds_nil _ _⟩⟩
  have hgo := take_fields hbody hholds (show 0 + 2 + 0 = 2 from rfl) (by decide)
  cases htake.symm.trans hgo
  obtain ⟨-, hlen⟩ := htyped _ _ rfl
  omega

end Yclib.Rtmp.Accessors
