import Yclib.Rtmp.Commands

namespace Yclib.Rtmp.Bounds
open Network Amf Commands

/-! What the parser inspects, what it hands on as a remaining size, and what it reports. -/

variable {ω : Type}

/-- It inspects `n` bytes from `off` on, a value reader does something with the bytes it was given, it
hands on `end - walker`, or it reports a consumed count; each in a buffer of `size` bytes. -/
inductive Note
  | look (off n size : Nat)
  | reader (touch : Touch) (size : Nat)
  | rest (walker size : Nat)
  | used (count size : Nat)

def Note.Inside : Note → Prop
  | .look off n size => off + n ≤ size
  | .reader touch size => touch.Inside size
  | .rest walker size => walker ≤ size
  | .used count size => count ≤ size

def Within (notes : List Note) : Prop := ∀ note ∈ notes, note.Inside

/-- What a value reader does with `size` bytes. -/
def reading {α : Type} (x : Rd α) (size : Nat) : List Note := x.log.map fun touch => .reader touch size

/-- The count of a function that comes back. -/
def reported {α : Type} (ret : Option (α × Nat)) (size : Nat) : List Note :=
  (ret.map fun r => Note.used r.2 size).toList

section
variable (m : Mem) (size : Nat)

def fieldNotes (walker : Nat) (field : Field) : List Note :=
  let buf := Mem.from m walker
  let rest := u32Sub size walker
  match field with
  | .value | .spare => .rest walker size :: reading (readValue buf rest) rest
  | .null => if size < walker + 1 then [] else [.look walker 1 size]
  | .gap => []
  | .str | .name => .rest walker size :: reading (sdStrRead buf rest 0) rest
  | .dbl => .rest walker size :: reading (sdDblRead buf rest 0) rest
  | .ui8 => .rest walker size :: reading (sdUi8Read buf rest 0) rest
  | .obj => .rest walker size :: reading (sdObjRead buf rest (readFuel rest + 1) 0 0) rest

def takeNotes : List Field → Nat → List Note
  | [], _ => []
  | field :: fields, walker => fieldNotes m size walker field ++
    match field.read m size walker with
    | some (.go _ walker) => takeNotes fields walker
    | _ => []

end

section
variable (h : Handlers ω) (e : Effects ω)

/-- `rtmp_command_connect` and its siblings. -/
def handlerNotes (command : Command) (sess : Sess ω) (curchunk : Nat) (m : Mem) (size : Nat) :
    List Note :=
  ((fields command).elim [] fun fs => takeNotes m size fs 0) ++
    reported (rtmpCommand e command sess curchunk m size) size

def commandNotes (sess : Sess ω) (curchunk : Nat) (m : Mem) (size : Nat) : List Note :=
  let name := sdStrRead m (1 + u32Sub size 1) 1
  .rest 1 size :: (reading name (1 + u32Sub size 1) ++
    (match name.ret with
    | some (some name, bytes) =>
      let walker := 1 + bytes
      (commandNamed name).elim [] fun command =>
        .rest walker size :: handlerNotes e command sess curchunk (Mem.from m walker) (u32Sub size walker)
    | _ => []) ++
    reported (rtmpCommandParse (serving h e) sess curchunk m size) size)

end

/-! Where the bytes are enough. -/

section
variable (m : Mem) (size : Nat)

/-- The properties of the object at `w` come to an end marker, or to something that ends the reading. -/
def Listed (m : Mem) (size w : Nat) : Prop := ∃ s, ObjSpan m size w w s

/-- The reader of the field is called in the buffer, and its bytes are delimited. -/
def FieldFits (walker : Nat) : Field → Prop
  | .value | .spare => walker ≤ size ∧ Delimited (Mem.from m walker) (size - walker)
  | .obj => walker ≤ size ∧ Listed (Mem.from m walker) (size - walker) 0
  | .str | .name | .dbl | .ui8 => walker ≤ size
  | .null | .gap => True

/-- The fields fit, up to the one where the handler returns, and `ends` holds behind them. -/
def TakeFits (ends : List SdValue → Nat → Prop) : List Field → List SdValue → Nat → Prop
  | [], args, walker => ends args walker
  | field :: fields, args, walker => FieldFits m size walker field ∧
      ∀ args' walker', field.read m size walker = some (.go args' walker') →
        TakeFits ends fields (args ++ args') walker'

/-- The fields of the command fit, and `ends` holds where it goes on behind them. -/
def HandlerFits (e : Effects ω) (ends : Nat → Prop) (command : Command) (sess : Sess ω) (curchunk : Nat) :
    Prop :=
  ∀ fs, fields command = some fs → TakeFits m size
    (fun args walker => ∀ sess' wrong, e.act command curchunk args sess = some (sess', wrong) →
      (skips command && wrong) = true ∨ ends walker) fs [] 0

/-- `rtmp_command_parse` has a byte to leave out, and the command's arguments fit. -/
def CommandFits (e : Effects ω) (counts : Nat → Prop) (sess : Sess ω) (curchunk : Nat) : Prop :=
  1 ≤ size ∧ (Named m size 1 → ∀ command, commandNamed (strAt m 1) = some command →
    let walker := 1 + (2 + rnsBtoh16 m 1)
    HandlerFits (Mem.from m walker) (size - walker) e
      (fun used => used ≤ size - walker ∧ counts (walker + used)) command sess curchunk)

end

/-- What it did is inside, and what it says it has taken, if anything, is as `counts` says. -/
def Reports (counts : Nat → Prop) (notes : List Note) (ret : Option (Sess ω × Nat)) : Prop :=
  Within notes ∧ ∀ sess used, ret = some (sess, used) → 0 < used → counts used

section
variable {m : Mem} {size w : Nat} {notes notes' : List Note} {note : Note}

@[simp] theorem within_nil : Within [] := List.forall_mem_nil _

@[simp] theorem within_cons : Within (note :: notes) ↔ note.Inside ∧ Within notes := List.forall_mem_cons

@[simp] theorem within_append : Within (notes ++ notes') ↔ Within notes ∧ Within notes' :=
  List.forall_mem_append

theorem reading_within {α : Type} {x : Rd α} : Within (reading x size) ↔ Safe size x := by
  simp only [Within, reading, List.forall_mem_map]
  exact Iff.rfl

theorem reported_within {α : Type} {ret : Option (α × Nat)} :
    Within (reported ret size) ↔ ∀ a used, ret = some (a, used) → used ≤ size := by
  cases ret with
  | none => simp [reported]
  | some r =>
    obtain ⟨a, used⟩ := r
    simp [reported, Note.Inside]

/-- A reader that is called in the buffer. -/
theorem rest_within {α : Type} {P : Prop} (x : Nat → Rd α) (hsize : size < 2 ^ 32)
    (hx : w ≤ size → (Safe (size - w) (x (size - w)) ↔ P)) :
    Within (.rest w size :: reading (x (u32Sub size w)) (u32Sub size w)) ↔ w ≤ size ∧ P := by
  rw [within_cons]
  apply and_congr_right
  intro hw
  have hle : w ≤ size := hw
  rw [reading_within, u32_sub_of_le hle hsize, hx hle]

/-- A reader that checks its size before every byte. -/
theorem checked_within {α : Type} (x : Nat → Rd α) (hsize : size < 2 ^ 32)
    (hx : Safe (size - w) (x (size - w))) :
    Within (.rest w size :: reading (x (u32Sub size w)) (u32Sub size w)) ↔ w ≤ size := by
  rw [rest_within x hsize fun _ => iff_of_true hx trivial, and_true]

theorem field_within {field : Field} (hsize : size < 2 ^ 32) :
    Within (fieldNotes m size w field) ↔ FieldFits m size w field := by
  cases field with
  | value | spare =>
    exact rest_within (fun rest => readValue (Mem.from m w) rest) hsize fun _ => value_safe (by omega)
  | null =>
    simp only [fieldNotes, FieldFits, iff_true]
    split
    · exact within_nil
    · simp only [within_cons, within_nil, and_true, Note.Inside]
      omega
  | gap => exact iff_of_true within_nil trivial
  | str | name =>
    exact checked_within (fun rest => sdStrRead (Mem.from m w) rest 0) hsize (clean_str.mpr rfl).2
  | dbl => exact checked_within (fun rest => sdDblRead (Mem.from m w) rest 0) hsize (clean_dbl.mpr rfl).2
  | ui8 => exact checked_within (fun rest => sdUi8Read (Mem.from m w) rest 0) hsize (clean_ui8.mpr rfl).2
  | obj =>
    apply rest_within (fun rest => sdObjRead (Mem.from m w) rest (readFuel rest + 1) 0 0) hsize
    intro _
    apply object_safe (by omega) (Nat.zero_le _)
    simp only [readFuel]
    omega

/-- The handler's fields are taken inside the buffer, with `ends` behind them, exactly where they fit. -/
theorem take_within {ends : List SdValue → Nat → Prop} {fs : List Field} {args : List SdValue}
    (hsize : size < 2 ^ 32) :
    (Within (takeNotes m size fs w) ∧
        ∀ args' w', takeFields m size fs w = some (.go args' w') → ends (args ++ args') w') ↔
      TakeFits m size ends fs args w := by
  induction fs generalizing args w with
  | nil => simp [takeNotes, takeFields, TakeFits]
  | cons field fs ih =>
    rw [takeNotes, takeFields, TakeFits, within_append, field_within hsize, and_assoc]
    apply and_congr_right
    intro _
    cases hread : field.read m size w with
    | none => simp
    | some take =>
      cases take with
      | stop used => simp
      | go args' w' =>
        have hgo : (∀ args'' w'', some (Take.go args' w') = some (Take.go args'' w'') →
            TakeFits m size ends fs (args ++ args'') w'') ↔ TakeFits m size ends fs (args ++ args') w' :=
          ⟨fun h => h _ _ rfl, fun h _ _ heq => by cases heq; exact h⟩
        rw [hgo, ← ih]
        apply and_congr_right
        intro _
        dsimp only
        cases htake : takeFields m size fs w' with
        | none => simp
        | some take =>
          cases take with
          | stop used => simp
          | go args'' w'' =>
            constructor
            · intro h _ _ heq
              cases heq
              rw [List.append_assoc]
              exact h _ _ rfl
            · intro h _ _ heq
              cases heq
              rw [← List.append_assoc]
              exact h _ _ rfl

theorem field_stops {field : Field} {used : Nat} (h : field.read m size w = some (.stop used)) :
    used = 0 ∨ used = size := by
  have htaken : ∀ {v : Option SdValue} {bytes : Nat}, taken size w v bytes = .stop used →
      used = 0 ∨ used = size := by
    intro v bytes htake
    cases v with
    | none =>
      obtain rfl := Take.stop.inj htake
      split
      · exact .inr rfl
      · exact .inl rfl
    | some v => cases htake
  cases field with
  | value | str | dbl | ui8 | obj =>
    obtain ⟨r, -, hr⟩ := Option.bind_eq_some_iff.mp h
    exact htaken (Option.some.inj hr)
  | null =>
    simp only [Field.read] at h
    split at h
    · exact .inl (Take.stop.inj (Option.some.inj h)).symm
    · split at h
      · exact .inr (Take.stop.inj (Option.some.inj h)).symm
      · cases h
  | gap => cases h
  | name =>
    obtain ⟨r, -, hr⟩ := Option.bind_eq_some_iff.mp h
    obtain ⟨s, -, hs⟩ := Option.bind_eq_some_iff.mp hr
    cases hs
  | spare =>
    obtain ⟨r, -, hr⟩ := Option.bind_eq_some_iff.mp h
    cases hr

/-- The walker does not go back. -/
theorem field_goes {field : Field} {args : List SdValue} {w' : Nat}
    (h : field.read m size w = some (.go args w')) : w ≤ w' := by
  have htaken : ∀ {v : Option SdValue} {bytes : Nat}, taken size w v bytes = .go args w' → w ≤ w' := by
    intro v bytes htake
    cases v with
    | none => cases htake
    | some v =>
      obtain ⟨-, rfl⟩ := Take.go.inj htake
      exact Nat.le_add_right w bytes
  cases field with
  | value | str | dbl | ui8 | obj =>
    obtain ⟨r, -, hr⟩ := Option.bind_eq_some_iff.mp h
    exact htaken (Option.some.inj hr)
  | null =>
    simp only [Field.read] at h
    split at h
    · cases h
    · split at h
      · cases h
      · cases h
        exact Nat.le_succ w
  | gap =>
    cases h
    exact Nat.le_succ w
  | name =>
    obtain ⟨r, -, hr⟩ := Option.bind_eq_some_iff.mp h
    obtain ⟨s, -, hs⟩ := Option.bind_eq_some_iff.mp hr
    cases hs
    exact Nat.le_add_right w r.2
  | spare =>
    obtain ⟨r, -, hr⟩ := Option.bind_eq_some_iff.mp h
    cases hr
    exact Nat.le_add_right w r.2

/-- A handler that returns has taken nothing or all. -/
theorem take_stops {fs : List Field} {used : Nat} (h : takeFields m size fs w = some (.stop used)) :
    used = 0 ∨ used = size := by
  induction fs generalizing w with
  | nil => cases h
  | cons field fs ih =>
    rw [takeFields] at h
    split at h
    · cases h
    · rename_i hread
      cases h
      exact field_stops hread
    · split at h
      · cases h
      · rename_i htake
        cases h
        exact ih htake
      · cases h

theorem take_goes {fs : List Field} {args : List SdValue} {w' : Nat}
    (h : takeFields m size fs w = some (.go args w')) : w ≤ w' := by
  induction fs generalizing w args with
  | nil =>
    cases h
    exact le_rfl
  | cons field fs ih =>
    rw [takeFields] at h
    split at h
    · cases h
    · cases h
    · rename_i hread
      split at h
      · cases h
      · cases h
      · rename_i htake
        cases h
        exact (field_goes hread).trans (ih htake)

/-- What begins with a value takes some of the buffer. -/
theorem take_pos {fs : List Field} {args : List SdValue} {w' : Nat} (hsize : size < 2 ^ 32)
    (hfit : Within (takeNotes m size (.value :: fs) w))
    (h : takeFields m size (.value :: fs) w = some (.go args w')) : w < w' := by
  rw [takeNotes, within_append, field_within hsize] at hfit
  obtain ⟨hw, hdelimited⟩ := hfit.1
  rw [takeFields] at h
  split at h
  · cases h
  · cases h
  · rename_i args' w'' hread
    have hfirst : w < w'' := by
      simp only [Field.read, u32_sub_of_le hw hsize] at hread
      obtain ⟨⟨v, bytes⟩, hret, hr⟩ := Option.bind_eq_some_iff.mp hread
      cases v with
      | none => cases hr
      | some v =>
        cases hr
        have hpos := value_pos (by omega) ((value_safe (by omega)).mpr hdelimited) hret
        omega
    split at h
    · cases h
    · cases h
    · rename_i htake
      cases h
      exact hfirst.trans_le (take_goes htake)

end

section
variable {e : Effects ω} {command : Command} {sess : Sess ω} {curchunk : Nat} {m : Mem} {size : Nat}
  {P : Nat → Prop}

/-- A handler stays inside its arguments exactly where they fit. -/
theorem handler_within (hsize : size < 2 ^ 32) (hall : P size) :
    (Within (handlerNotes e command sess curchunk m size) ∧ ∀ sess' used,
        rtmpCommand e command sess curchunk m size = some (sess', used) → 0 < used → P used) ↔
      HandlerFits m size e (fun walker => walker ≤ size ∧ P walker) command sess curchunk := by
  cases hf : fields command with
  | none =>
    have hplay2 : rtmpCommand e command sess curchunk m size = some (sess, 0) := by
      cases command <;> cases hf
      rfl
    have hno : HandlerFits m size e (fun walker => walker ≤ size ∧ P walker) command sess curchunk := by
      intro fs hfs
      rw [hf] at hfs
      cases hfs
    refine iff_of_true ⟨?_, ?_⟩ hno
    · simp [handlerNotes, hf, hplay2, reported, Note.Inside]
    · intro sess' used hret hpos
      rw [hplay2] at hret
      cases hret
      cases hpos
  | some fs =>
    have hfits : HandlerFits m size e (fun walker => walker ≤ size ∧ P walker) command sess curchunk ↔
        TakeFits m size (fun args walker => ∀ sess' wrong, e.act command curchunk args sess = some (sess', wrong) →
          (skips command && wrong) = true ∨ walker ≤ size ∧ P walker) fs [] 0 := by
      simp [HandlerFits, hf]
    obtain ⟨fs', rfl⟩ := fields_value hf
    rw [hfits, ← take_within hsize, handlerNotes, hf, Option.elim_some, within_append, and_assoc,
      reported_within, command_handler e hf, handler]
    apply and_congr_right
    intro hnotes
    cases htake : takeFields m size (.value :: fs') 0 with
    | none => simp
    | some take =>
      cases take with
      | stop used =>
        have hused := take_stops htake
        refine iff_of_true ⟨?_, ?_⟩ (fun _ _ h => by cases h)
        · intro sess' used' hret
          cases hret
          omega
        · intro sess' used' hret hpos
          cases hret
          obtain rfl : used = size := by omega
          exact hall
      | go args w' =>
        have hpos := take_pos hsize hnotes htake
        have hgo : (∀ args'' w'', some (Take.go args w') = some (Take.go args'' w'') →
            ∀ sess' wrong, e.act command curchunk ([] ++ args'') sess = some (sess', wrong) →
              (skips command && wrong) = true ∨ w'' ≤ size ∧ P w'') ↔
            ∀ sess' wrong, e.act command curchunk args sess = some (sess', wrong) →
              (skips command && wrong) = true ∨ w' ≤ size ∧ P w' := by
          constructor
          · intro h
            exact h _ _ rfl
          · intro h _ _ heq
            cases heq
            exact h
        rw [hgo]
        cases hact : e.act command curchunk args sess with
        | none => simp [hact]
        | some r =>
          obtain ⟨sess', wrong⟩ := r
          have hone : (∀ sess'' wrong', some (sess', wrong) = some (sess'', wrong') →
              (skips command && wrong') = true ∨ w' ≤ size ∧ P w') ↔
              (skips command && wrong) = true ∨ w' ≤ size ∧ P w' := by
            constructor
            · intro h
              exact h _ _ rfl
            · intro h _ _ heq
              cases heq
              exact h
          rw [hone]
          by_cases hskip : (skips command && wrong) = true
          · simp [hact, hskip, hall]
          · simp [hact, hskip, hpos]

end

section
variable {h : Handlers ω} {e : Effects ω} {sess : Sess ω} {curchunk : Nat} {m : Mem} {size : Nat}
  {counts : Nat → Prop}

theorem command_within (hsize : size < 2 ^ 32) (hall : counts size) :
    Reports counts (commandNotes h e sess curchunk m size)
        (rtmpCommandParse (serving h e) sess curchunk m size) ↔
      CommandFits m size e counts sess curchunk := by
  rcases Nat.eq_zero_or_pos size with rfl | hpos
  · refine iff_of_false ?_ fun hfit => absurd hfit.1 (by decide)
    intro hreports
    have hrest : (Note.rest 1 0).Inside := hreports.1 _ (List.mem_cons_self ..)
    exact absurd hrest (by simp [Note.Inside])
  have hrest : 1 + u32Sub size 1 = size := by
    rw [u32_sub_of_le hpos hsize]
    omega
  have hread := (@clean_str m size 1 _).mpr rfl
  have hinside : Within (reading (sdStrRead m size 1) size) := reading_within.mpr hread.2
  have hone : (Note.rest 1 size).Inside := hpos
  rw [CommandFits, and_iff_right (show 1 ≤ size from hpos)]
  by_cases hn : Named m size 1
  · have hend := named_end hpos hn
    obtain ⟨walker, hwalker⟩ : ∃ walker, walker = 1 + (2 + rnsBtoh16 m 1) := ⟨_, rfl⟩
    rw [if_pos hn] at hread
    have hparse : rtmpCommandParse (serving h e) sess curchunk m size =
        ((commandNamed (strAt m 1)).elim (some (sess, 0)) fun command =>
          rtmpCommand e command sess curchunk (Mem.from m walker) (u32Sub size walker)).bind
          fun r => some (r.1, if r.2 = 0 then 0 else u32 (walker + r.2)) := by
      rw [rtmpCommandParse, hrest, hread.1, hwalker]
      simp only [Option.bind_eq_bind, Option.bind_some]
      cases commandNamed (strAt m 1) with
      | none => rfl
      | some command => rfl
    have hnotes : commandNotes h e sess curchunk m size = .rest 1 size :: (reading (sdStrRead m size 1) size ++
        ((commandNamed (strAt m 1)).elim [] fun command =>
          .rest walker size :: handlerNotes e command sess curchunk (Mem.from m walker) (u32Sub size walker)) ++
        reported (rtmpCommandParse (serving h e) sess curchunk m size) size) := by
      rw [commandNotes, hrest, hread.1, hwalker]
    rw [Reports, hnotes, hparse]
    simp only [within_cons, within_append, hone, hinside, true_and, reported_within, hn, forall_const, ← hwalker]
    cases commandNamed (strAt m 1) with
    | none => simp
    | some command =>
      have hin : (Note.rest walker size).Inside := hwalker ▸ hend
      have hhandler := @handler_within _ e command sess curchunk (Mem.from m walker) (size - walker)
        (fun used => counts (walker + used)) (by omega) (by rwa [Nat.add_sub_cancel' (hwalker ▸ hend)])
      simp only [Option.some.injEq, forall_eq', ← hhandler, Option.elim_some, within_cons, hin, true_and,
        u32_sub_of_le hin hsize, and_assoc]
      apply and_congr_right
      intro hin'
      have hused := reported_within.mp (within_append.mp hin').2
      cases hret : rtmpCommand e command sess curchunk (Mem.from m walker) (size - walker) with
      | none => simp
      | some r =>
        obtain ⟨sess', psize⟩ := r
        have hfew := hused sess' psize hret
        have hle : walker ≤ size := hin
        have hsum : u32 (walker + psize) = walker + psize := u32_of_lt (by omega)
        rcases Nat.eq_zero_or_pos psize with rfl | hpos
        · simp
        · have hwhole : walker + psize ≤ size := by omega
          simp [hsum, hpos.ne', hwhole, hpos]
  · rw [if_neg hn] at hread
    have hparse : rtmpCommandParse (serving h e) sess curchunk m size = some (sess, size) := by
      rw [rtmpCommandParse, hrest, hread.1]
      rfl
    simp only [Reports, commandNotes, hparse, hrest, hread.1, within_cons, within_append, hone, hinside, hn,
      reported_within]
    simp [hall]

theorem command_reported (hwithin : Within (commandNotes h e sess curchunk m size)) :
    Within (reported (rtmpCommandParse (serving h e) sess curchunk m size) size) := by
  rw [commandNotes, within_cons, within_append] at hwithin
  exact hwithin.2.2

end

end Yclib.Rtmp.Bounds
