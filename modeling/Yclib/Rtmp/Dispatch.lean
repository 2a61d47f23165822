import Yclib.Rtmp.Commands

namespace Yclib.Rtmp.Dispatch
open Network Amf Commands

/-! Which handler `rtmp_command_parse` calls for a name. -/

/-- Handlers that note what they are called for. -/
def noting : Handlers (List Command) where
  sendS0S1 := id
  sendS2 _ := id
  msgSend _ _ sess := sess
  msgSend_keeps _ _ _ := ⟨rfl, fun _ chunk hc => ⟨chunk.fmt, chunk.timestamp, hc⟩⟩
  command command sess _ _ _ := some ({ sess with world := command :: sess.world }, 0)

/-- The message in the first `size` bytes is parsed, and the handler of the command is called
for it. -/
def Runs (sess : Sess (List Command)) (curchunk : Nat) (m : Mem) (size : Nat) (command : Command) :
    Prop :=
  ∃ sess' used, rtmpCommandParse noting sess curchunk m size = some (sess', used) ∧
    sess'.world = command :: sess.world

/-- The name is compared equal to the literal: it is a first part of it, or goes on behind it
with a NUL. -/
def Taken (name lit : List UInt8) : Prop := name <+: lit ∨ lit ++ [0] <+: name

/-- The name is a literal in full, or begins none that has a handler. Those that begin with
`cl` are taken for `close`, which has none. -/
def Exact (name : List UInt8) : Prop :=
  (∃ c ∈ commands, name = ascii c.1) ∨ (2 ≤ name.length ∧ Taken name (ascii "close")) ∨
    ∀ c ∈ commands, c.2 ≠ none → ¬ Taken name (ascii c.1)

theorem strncmp_taken {name lit : List UInt8} (hlit : 0 ∉ lit) :
    strncmpEq name lit name.length = true ↔ Taken name lit := by
  induction name generalizing lit with
  | nil => simp [strncmpEq, Taken]
  | cons b name ih =>
    cases lit with
    | nil =>
      simp only [strncmpEq, Taken, List.headD_cons, List.headD_nil, List.length_cons, List.nil_append,
        List.prefix_nil, reduceCtorEq, false_or, List.cons_prefix_cons, List.nil_prefix, and_true,
        Bool.and_eq_true, Bool.or_eq_true, beq_iff_eq]
      constructor
      · intro h
        exact h.1.symm
      · intro h
        exact ⟨h.symm, .inl h.symm⟩
    | cons c lit =>
      simp only [List.mem_cons, not_or] at hlit
      have hrest := ih hlit.2
      simp only [Taken] at hrest
      simp only [strncmpEq, List.headD_cons, List.tail_cons, List.length_cons, Taken,
        List.cons_append, List.cons_prefix_cons, Bool.and_eq_true, Bool.or_eq_true, beq_iff_eq, hrest]
      constructor
      · intro h
        obtain ⟨rfl, hzero | htail⟩ := h
        · exact absurd hzero.symm hlit.1
        · exact htail.imp (fun h => ⟨rfl, h⟩) (fun h => ⟨rfl, h⟩)
      · intro h
        rcases h with ⟨rfl, h⟩ | ⟨rfl, h⟩
        · exact ⟨rfl, .inr (.inl h)⟩
        · exact ⟨rfl, .inr (.inr h)⟩

theorem ascii_close : ascii "close" = [99, 108, 111, 115, 101] := by decide

theorem literal_text : ∀ c ∈ commands, 0 ∉ ascii c.1 := by decide

/-- Which branch is taken: the first one whose literal takes the name. -/
theorem named_some {name : SdStr} {command : Command} (h : commandNamed name = some command) :
    ∃ c ∈ commands, c.2 = some command ∧ Taken name.str (ascii c.1) := by
  unfold commandNamed at h
  cases hfind : commands.find? (fun c => strncmpEq name.str (ascii c.1) name.str.length) with
  | none =>
    rw [hfind] at h
    cases h
  | some c =>
    rw [hfind] at h
    have hmem := List.mem_of_find?_eq_some hfind
    have hfound := List.find?_some hfind
    exact ⟨c, hmem, h, (strncmp_taken (literal_text c hmem)).mp hfound⟩

/-- A name that is taken is taken somewhere: for a command, or for `close`. -/
theorem named_none {name : SdStr} (h : commandNamed name = none) {c : String × Option Command}
    (hc : c ∈ commands) (ht : Taken name.str (ascii c.1)) :
    2 ≤ name.str.length ∧ Taken name.str (ascii "close") := by
  have hequal := (strncmp_taken (literal_text c hc)).mpr ht
  unfold commandNamed at h
  cases hfind : commands.find? (fun c => strncmpEq name.str (ascii c.1) name.str.length) with
  | none => exact absurd hequal (List.find?_eq_none.mp hfind c hc)
  | some d =>
    rw [hfind] at h
    have hmem := List.mem_of_find?_eq_some hfind
    have hfound := List.find?_some hfind
    have hclose : d.1 = "close" := by
      have honly : ∀ d ∈ commands, d.2 = none → d.1 = "close" := by decide
      exact honly d hmem h
    rw [hclose] at hfound
    have htaken := (strncmp_taken (by decide)).mp hfound
    refine ⟨?_, htaken⟩
    by_contra hshort
    have hfirst : name.str = [] ∨ name.str = [99] := by
      rw [ascii_close] at htaken
      generalize name.str = str at htaken hshort
      rcases htaken with hpre | hpre
      · cases str with
        | nil => exact .inl rfl
        | cons b str =>
          have hnil : str = [] := by
            rw [← List.length_eq_zero_iff]
            simp only [List.length_cons] at hshort
            omega
          subst hnil
          exact .inr (by rw [(List.cons_prefix_cons.mp hpre).1])
      · have hlen := hpre.length_le
        simp only [List.length_append, List.length_cons, List.length_nil] at hlen
        omega
    have hconnect : commands.find? (fun c => strncmpEq name.str (ascii c.1) name.str.length) =
        some ("connect", some .connect) := by
      rcases hfirst with hname | hname
      · rw [hname]
        decide
      · rw [hname]
        decide
    rw [hconnect] at hfind
    cases hfind
    cases h

theorem runs_iff {kind : UInt8} {name : SdStr} {args : List UInt8} {m : Mem} {size : Nat}
    (sess : Sess (List Command)) (curchunk : Nat) (hm : Holds m 0 (messageBytes kind name args))
    (hlen : (messageBytes kind name args).length ≤ size) (hsize : size < 2 ^ 32) (command : Command) :
    Runs sess curchunk m size command ↔ commandNamed name = some command := by
  unfold Runs
  rw [name_parse hm hlen hsize]
  cases commandNamed name with
  | none => simp
  | some found => simp [noting]

/-- A literal in full calls its own handler. -/
theorem literal_named : ∀ c ∈ commands, ∀ h, commandNamed ⟨ascii c.1, h⟩ = c.2 := by
  decide

theorem literal_injective : ∀ c ∈ commands, ∀ d ∈ commands, ascii c.1 = ascii d.1 → c = d := by
  decide

/-- The names that begin with `cl` are taken for nothing in front of `close`. -/
theorem close_named {name : SdStr} (hlen : 2 ≤ name.str.length)
    (ht : Taken name.str (ascii "close")) : commandNamed name = none := by
  have hclose := (strncmp_taken (by decide)).mpr ht
  have hbegins : ∃ rest, name.str = 99 :: 108 :: rest := by
    rw [ascii_close] at ht
    generalize name.str = str at ht hlen
    rcases ht with hpre | ⟨rest, rfl⟩
    · match str, hlen with
      | b :: c :: str, _ =>
        obtain ⟨rfl, hrest⟩ := List.cons_prefix_cons.mp hpre
        obtain ⟨rfl, -⟩ := List.cons_prefix_cons.mp hrest
        exact ⟨str, rfl⟩
    · exact ⟨[111, 115, 101] ++ [0] ++ rest, rfl⟩
  obtain ⟨rest, hname⟩ := hbegins
  have hconnect : strncmpEq name.str (ascii "connect") name.str.length = false := by
    rw [hname]
    rfl
  have hcall : strncmpEq name.str (ascii "call") name.str.length = false := by
    rw [hname]
    rfl
  simp only [commandNamed, commands, List.find?_cons, hconnect, hcall, hclose, Option.map_some,
    Option.getD_some]

/-- The handler of a command is called for the literals of the command and no other name,
exactly when the name is as `Exact` says. -/
theorem dispatch_iff {kind : UInt8} {name : SdStr} {args : List UInt8} {m : Mem} {size : Nat}
    (sess : Sess (List Command)) (curchunk : Nat) (hm : Holds m 0 (messageBytes kind name args))
    (hlen : (messageBytes kind name args).length ≤ size) (hsize : size < 2 ^ 32) :
    (∀ command, Runs sess curchunk m size command ↔
      ∃ lit, (lit, some command) ∈ commands ∧ name.str = ascii lit) ↔ Exact name.str := by
  simp only [runs_iff sess curchunk hm hlen hsize]
  constructor
  · intro hall
    cases hnamed : commandNamed name with
    | some command =>
      obtain ⟨lit, hmem, hlit⟩ := (hall command).mp hnamed
      exact .inl ⟨_, hmem, hlit⟩
    | none =>
      by_cases hfree : ∀ c ∈ commands, c.2 ≠ none → ¬ Taken name.str (ascii c.1)
      · exact .inr (.inr hfree)
      · simp only [not_forall, not_not] at hfree
        obtain ⟨c, hc, -, ht⟩ := hfree
        exact .inr (.inl (named_none hnamed hc ht))
  · intro hexact command
    by_cases hlit : ∃ c ∈ commands, name.str = ascii c.1
    · obtain ⟨c, hc, hname⟩ := hlit
      obtain ⟨str, hshort⟩ := name
      simp only at hname
      subst hname
      rw [literal_named c hc]
      constructor
      · intro hcommand
        refine ⟨c.1, ?_, rfl⟩
        rw [← hcommand]
        exact hc
      · intro h
        obtain ⟨lit, hmem, heq⟩ := h
        rw [literal_injective c hc _ hmem heq]
    · have hnamed : commandNamed name = none := by
        rcases hexact with hlit' | ⟨htwo, hclose⟩ | hfree
        · exact absurd hlit' hlit
        · exact close_named htwo hclose
        · by_contra hsome
          obtain ⟨command, hcommand⟩ := Option.ne_none_iff_exists'.mp hsome
          obtain ⟨c, hc, hhas, ht⟩ := named_some hcommand
          exact hfree c hc (by rw [hhas]; exact Option.some_ne_none _) ht
      rw [hnamed]
      constructor
      · intro h
        cases h
      · intro h
        obtain ⟨lit, hmem, heq⟩ := h
        exact absurd ⟨_, hmem, heq⟩ hlit

theorem dispatch_iff_checkbw :
    (∀ command, Runs ⟨fun _ => none, fun _ => none, []⟩ 3 (memOf checkbwMessage fun _ => 0)
        checkbwMessage.length command ↔
      ∃ lit, (lit, some command) ∈ commands ∧ ascii "_checkbw" = ascii lit) ↔
      Exact (ascii "_checkbw") := by
  have hm := mem_of_holds checkbwMessage [] fun _ => 0
  rw [List.append_nil] at hm
  exact @dispatch_iff 2 ⟨ascii "_checkbw", by decide⟩ _ _ _ ⟨fun _ => none, fun _ => none, []⟩ 3 hm le_rfl
    (by decide)

/-- A message without a name connects. -/
theorem empty_name_connects : ¬ ∀ (sess : Sess (List Command)) (curchunk : Nat) (kind : UInt8)
    (name : SdStr) (args : List UInt8) (m : Mem) (size : Nat),
    Holds m 0 (messageBytes kind name args) → (messageBytes kind name args).length ≤ size →
    size < 2 ^ 32 → ∀ command, Runs sess curchunk m size command ↔
      ∃ lit, (lit, some command) ∈ commands ∧ name.str = ascii lit := by
  intro hall
  have hm := mem_of_holds (messageBytes 2 ⟨[], by decide⟩ []) [] fun _ => 0
  rw [List.append_nil] at hm
  have hconnect := hall ⟨fun _ => none, fun _ => none, []⟩ 3 2 ⟨[], by decide⟩ [] _ 3 hm (by decide)
    (by decide) .connect
  rw [runs_iff _ _ hm (by decide) (by decide)] at hconnect
  obtain ⟨lit, hmem, hlit⟩ := hconnect.mp (by decide)
  have hsome : ∀ c ∈ commands, [] ≠ ascii c.1 := by decide
  exact hsome _ hmem hlit

end Yclib.Rtmp.Dispatch
