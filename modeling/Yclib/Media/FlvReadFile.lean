import Yclib.Media.FlvRuns
import Yclib.Util.Loop

namespace Yclib.Media.Flv
open Network Loop

/-! `flv_read_file`. Its rounds over a tag are those of `flv_read_tag`, each behind a test that its bytes
are in the buffer. Allocations are taken to succeed. -/

/-- `flv_header_t`. -/
structure FlvHeader where
  version : UInt8
  audio : UInt8
  video : UInt8
  dataOffset : Nat
deriving DecidableEq

/-- `flv_mod_t`, a tag of a file. -/
structure FlvMod where
  prevTagSize : Nat
  tag : Tag
deriving DecidableEq

/-- `flv_read_header`, which passes over 5 bytes. -/
def flvReadHeader (m : Mem) (w : Nat) : FlvHeader where
  version := m (w + 3)
  audio := if m (w + 4) ||| 0x04 > 2 then 1 else 0
  video := m (w + 4) ||| 0x01
  dataOffset := rnsBtoh32 m (w + 5)

/-- What a file meets: whether it can be opened, what `lseek` returns as an `int32_t`, and what is read,
none for an error, each by the turn it is. -/
structure Input where
  opens : Bool
  lseek : Nat → Nat → Int
  read : Nat → Option (List UInt8)

/-- `rns_file_sseek_backward`, which seeks by the negative of an unsigned offset. -/
def Input.sseekBackward (file : Input) (turn offset : Nat) : Int := file.lseek turn (u32Sub 0 offset)

/-- `rns_file_read` into the buffer, as the `uint32_t` that its result goes to. -/
def Input.size (file : Input) (turn : Nat) : Nat :=
  (file.read turn).elim (2 ^ 32 - 1) fun bytes => (bytes.take 10240).length

/-- How a function over a file ends; it has no defined end behind a null pointer or a wild one. -/
inductive Ending
  | returned (ret : Int)
  | undefined

/-- `flv` and the local variables of `flv_read_file`. No state stands for a value that is none, no tag for
a null pointer. -/
structure FileReading where
  header : FlvHeader
  state : Option State
  stateSave : State
  buf : Mem
  walker : Nat
  stop : Nat
  mod : Option FlvMod
  dataSize : Nat
  modList : List FlvMod
  turn : Nat

namespace FileReading

/-- More data is asked for. -/
def ask (s : FileReading) (state : State) : FileReading := { s with state := some .bufNeed, stateSave := state }

/-- How many bytes a round over a tag asks for. -/
def needs (s : FileReading) : State → Nat
  | .tagHeader => 11
  | .audioHeader | .audioPacketType | .videoHeader => 1
  | .videoPacketType => 4
  | .data => s.dataSize
  | _ => 0

/-- A round of `flv_read_tag` on the tag of the file, with the state of the file in place of its own. -/
def tagRound (s : FileReading) (state : State) (mod : FlvMod) : Round FileReading Ending :=
  (Reading.step s.buf ⟨{ mod.tag with state := state }, s.walker, s.dataSize⟩).elim (.go s) fun r =>
    let tag := { r.tag with state := mod.tag.state }
    .go { s with
      state := some r.tag.state, walker := r.walker, dataSize := r.dataSize, mod := some { mod with tag := tag } }

/-- One round of the loop of `flv_read_file`. -/
def round (file : Input) (s : FileReading) : Round FileReading Ending :=
  s.state.elim (.go s) fun state =>
    match state with
    | .bufNeed =>
      -- the state that was saved is not restored
      if file.sseekBackward s.turn (u32Sub s.stop s.walker) < 0 then .exit (.returned (-1))
      else
        let bytes := ((file.read s.turn).getD []).take 10240
        .go { s with
          buf := fun i => bytes.getD i (s.buf i), walker := 0, stop := file.size s.turn, turn := s.turn + 1 }
    | .fileHeader =>
      if s.stop < s.walker + 9 then .go (s.ask .fileHeader)
      else .go { s with
        header := flvReadHeader s.buf s.walker, walker := s.walker + 5, state := some .prevSize }
    | .prevSize =>
      if s.stop < s.walker + 4 then .go (s.ask .prevSize)
      else
        let tag : Tag := ⟨⟨0, 0, 0, 0, 0⟩, ⟨0, 0, 0, 0, 0⟩, ⟨0, 0, 0, 0⟩, [], .bufNeed⟩
        .go { s with
          mod := some ⟨rnsBtoh32 s.buf s.walker, tag⟩, walker := s.walker + 4, state := some .tagHeader }
    | .dataAttr => s.mod.elim (.exit .undefined) (s.tagRound .dataAttr)
    | .done =>
      s.mod.elim (.exit .undefined) fun mod =>
        .go { s with modList := s.modList ++ [mod], state := some .prevSize }
    | state =>
      if s.stop < s.walker + s.needs state then .go (s.ask state)
      else s.mod.elim (.exit .undefined) (s.tagRound state)

/-- The local variables where the loop begins. -/
def start (header : FlvHeader) (state : Option State) (modList : List FlvMod) : FileReading :=
  ⟨header, state, .bufNeed, fun _ => 0, 0, 0, none, 0, modList, 0⟩

end FileReading

/-- How `flv_read_file` ends. A file that cannot be opened leads to the release of pointers that are not
set yet. -/
def FlvReadFile (file : Input) (header : FlvHeader) (state : Option State) (modList : List FlvMod)
    (ending : Ending) : Prop :=
  if file.opens then Ends (FileReading.round file) (FileReading.start header state modList) ending
  else ending = .undefined

/-- The states in which more data is asked for at once. -/
def State.Asks (state : State) : Prop :=
  state = .fileHeader ∨ state = .prevSize ∨ state = .tagHeader ∨ state.Header

/-- The offset that a turn seeks back by: nothing at first, then all that was read. -/
def Input.asked (file : Input) : Nat → Nat
  | 0 => 0
  | turn + 1 => file.size turn

/-- Some turn cannot seek. -/
def Input.SeekFails (file : Input) : Prop := ∃ turn, file.sseekBackward turn (file.asked turn) < 0

section
variable {file : Input} {header : FlvHeader} {modList : List FlvMod} {s s' : FileReading} {ending : Ending}

theorem size_lt (file : Input) (turn : Nat) : file.size turn < 2 ^ 32 := by
  unfold Input.size
  cases file.read turn with
  | none => decide
  | some bytes =>
    rw [Option.elim_some, List.length_take]
    omega

theorem asked_lt (file : Input) (turn : Nat) : file.asked turn < 2 ^ 32 := by
  cases turn with
  | zero => exact Nat.two_pow_pos 32
  | succ turn => exact size_lt file turn

/-- The reader waits for more data. -/
structure Waits (file : Input) (s : FileReading) : Prop where
  state : s.state = some .bufNeed
  walker : s.walker = 0
  stop : s.stop = file.asked s.turn

theorem waits_offset (h : Waits file s) : u32Sub s.stop s.walker = file.asked s.turn := by
  rw [h.walker, h.stop, u32_sub_of_le (Nat.zero_le _) (asked_lt file s.turn), Nat.sub_zero]

theorem waits_fails (h : Waits file s) (hseek : file.sseekBackward s.turn (file.asked s.turn) < 0) :
    FileReading.round file s = .exit (.returned (-1)) := by
  simp only [FileReading.round, h.state, Option.elim_some, waits_offset h]
  rw [if_pos hseek]

/-- With the data there the reader waits again. -/
theorem waits_on (h : Waits file s) (hseek : ¬ file.sseekBackward s.turn (file.asked s.turn) < 0) :
    ∃ s', FileReading.round file s = .go s' ∧ Waits file s' ∧ s'.turn = s.turn + 1 := by
  simp only [FileReading.round, h.state, Option.elim_some, waits_offset h]
  rw [if_neg hseek]
  exact ⟨_, rfl, ⟨rfl, rfl, rfl⟩, rfl⟩

/-- A reader that waits ends only by a turn that cannot seek. -/
theorem waits_ends (h : Waits file s) : Ends (FileReading.round file) s ending ↔
    ending = .returned (-1) ∧ ∃ turn, s.turn ≤ turn ∧ file.sseekBackward turn (file.asked turn) < 0 := by
  constructor
  · intro hends
    induction hends with
    | @exit s ending hexit =>
      by_cases hseek : file.sseekBackward s.turn (file.asked s.turn) < 0
      · rw [waits_fails h hseek] at hexit
        cases hexit
        exact ⟨rfl, s.turn, le_refl _, hseek⟩
      · obtain ⟨s', hgo, -⟩ := waits_on h hseek
        rw [hexit] at hgo
        cases hgo
    | @go s s' ending hgo _ ih =>
      by_cases hseek : file.sseekBackward s.turn (file.asked s.turn) < 0
      · rw [waits_fails h hseek] at hgo
        cases hgo
      · obtain ⟨next, hnext, hwaits, hturn⟩ := waits_on h hseek
        rw [hgo, Round.go.injEq] at hnext
        subst hnext
        obtain ⟨hret, turn, hle, hfails⟩ := ih hwaits
        exact ⟨hret, turn, by omega, hfails⟩
  · rintro ⟨rfl, turn, hle, hfails⟩
    induction hn : turn - s.turn generalizing s with
    | zero =>
      obtain rfl : turn = s.turn := by omega
      exact .exit (waits_fails h hfails)
    | succ n ih =>
      by_cases hseek : file.sseekBackward s.turn (file.asked s.turn) < 0
      · exact .exit (waits_fails h hseek)
      · obtain ⟨next, hnext, hwaits, hturn⟩ := waits_on h hseek
        exact .go hnext (ih hwaits (by omega) (by omega))

/-- At the beginning nothing is in the buffer. -/
theorem start_asks {state : State} (h : state.Asks) :
    FileReading.round file (FileReading.start header (some state) modList) =
      .go ((FileReading.start header (some state) modList).ask state) := by
  rcases h with h | h | h | h | h | h | h <;> subst h <;> rfl

theorem start_waits : Waits file (FileReading.start header (some .bufNeed) modList) := ⟨rfl, rfl, rfl⟩

theorem ask_waits (state : State) (from' : Option State) :
    Waits file ((FileReading.start header from' modList).ask state) := ⟨rfl, rfl, rfl⟩

end

/-- `flv_read_file` returns, and a reader that asked for more data is in its state again once it has it. -/
structure ReadsFile (file : Input) (header : FlvHeader) (state : Option State) (modList : List FlvMod) : Prop where
  ends : ∃ ret, FlvReadFile file header state modList (.returned ret)
  resumes : ∀ s s' s'' stopped, Reaches (FileReading.round file) (FileReading.start header state modList) s →
    s.state = some stopped → stopped ≠ .bufNeed → FileReading.round file s = .go s' → s'.state = some .bufNeed →
    FileReading.round file s' = .go s'' → s''.state = some stopped

/-- The file can be opened, and a turn cannot seek: the first one, or any if the reader waits from the
beginning. -/
def FileFails (file : Input) (state : Option State) : Prop :=
  file.opens = true ∧ ((state = some .bufNeed ∧ file.SeekFails) ∨
    ∃ asking : State, state = some asking ∧ asking.Asks ∧ file.sseekBackward 0 0 < 0)

section
variable {file : Input} {header : FlvHeader} {modList : List FlvMod} {ending : Ending}

theorem opened (h : file.opens = true) (state : Option State) : FlvReadFile file header state modList ending ↔
    Ends (FileReading.round file) (FileReading.start header state modList) ending := by
  rw [FlvReadFile, if_pos h]

/-- A value that is no state is never left. -/
theorem unknown_spins (h : file.opens = true) : ¬ FlvReadFile file header none modList ending := by
  rw [opened h]
  have hround : ∀ s : FileReading, s.state = none → ∃ s', FileReading.round file s = .go s' ∧ s'.state = none := by
    intro s hs
    exact ⟨s, by simp only [FileReading.round, hs, Option.elim_none], hs⟩
  exact never_ends hround rfl

/-- In the other states the null pointer is followed. -/
theorem start_null (h : file.opens = true) {state : State}
    (hnull : state = .dataAttr ∨ state = .data ∨ state = .done) :
    FlvReadFile file header (some state) modList ending ↔ ending = .undefined := by
  rw [opened h]
  rcases hnull with h | h | h <;> subst h <;> exact ends_exit rfl

/-- A reader that waits from the beginning. -/
theorem wait_returns (h : file.opens = true) :
    FlvReadFile file header (some .bufNeed) modList ending ↔ ending = .returned (-1) ∧ file.SeekFails := by
  rw [opened h, waits_ends start_waits]
  simp [Input.SeekFails, FileReading.start]

/-- A reader that asks for data at once. -/
theorem ask_returns (h : file.opens = true) {state : State} (hasks : state.Asks) :
    FlvReadFile file header (some state) modList ending ↔ ending = .returned (-1) ∧ file.SeekFails := by
  rw [opened h, ends_go (start_asks hasks), waits_ends (ask_waits state (some state))]
  simp [Input.SeekFails, FileReading.start, FileReading.ask]

theorem state_cases (state : State) :
    state = .bufNeed ∨ state.Asks ∨ state = .dataAttr ∨ state = .data ∨ state = .done := by
  cases state <;> simp [State.Asks, State.Header]

theorem asks_not_waiting {state : State} (h : state.Asks) : state ≠ .bufNeed := by
  rintro rfl
  simp [State.Asks, State.Header] at h

/-- In a reader that waits from the beginning nobody has to come back to a state. -/
theorem wait_resumes (s : FileReading)
    (hr : Reaches (FileReading.round file) (FileReading.start header (some .bufNeed) modList) s) :
    s.state = some .bufNeed := by
  have hwaits : Waits file s := by
    apply reaches_keeps _ hr start_waits
    intro s s' hs hgo
    by_cases hseek : file.sseekBackward s.turn (file.asked s.turn) < 0
    · rw [waits_fails hs hseek] at hgo
      cases hgo
    · obtain ⟨next, hnext, hwaits, -⟩ := waits_on hs hseek
      rw [hgo, Round.go.injEq] at hnext
      subst hnext
      exact hwaits
  exact hwaits.state

/-- Where already the first turn cannot seek, no data comes. -/
theorem ask_stops {state : State} (hasks : state.Asks) (hseek : file.sseekBackward 0 0 < 0) (s : FileReading)
    (hr : Reaches (FileReading.round file) (FileReading.start header (some state) modList) s) :
    s = FileReading.start header (some state) modList ∨
      s = (FileReading.start header (some state) modList).ask state := by
  apply reaches_keeps _ hr (.inl rfl)
  rintro s s' (rfl | rfl) hgo
  · rw [start_asks hasks, Round.go.injEq] at hgo
    exact .inr hgo.symm
  · rw [waits_fails (ask_waits state (some state)) hseek] at hgo
    cases hgo

end

/-- The state in which a reader stopped is saved and never restored. -/
theorem reads_file_iff (file : Input) (header : FlvHeader) (state : Option State) (modList : List FlvMod) :
    ReadsFile file header state modList ↔ FileFails file state := by
  constructor
  · rintro ⟨⟨ret, hret⟩, hresumes⟩
    have hopens : file.opens = true := by
      by_contra hclosed
      rw [FlvReadFile, if_neg hclosed] at hret
      cases hret
    apply And.intro hopens
    cases state with
    | none => exact absurd hret (unknown_spins hopens)
    | some state =>
      rcases state_cases state with rfl | hasks | hnull
      · exact .inl ⟨rfl, ((wait_returns hopens).mp hret).2⟩
      · refine .inr ⟨state, rfl, hasks, ?_⟩
        by_contra hseek
        have hasked : Waits file ((FileReading.start header (some state) modList).ask state) :=
          ask_waits state (some state)
        obtain ⟨s', hgo, hwaits, -⟩ := waits_on hasked hseek
        have hback := hresumes _ _ _ state (.here _) rfl (asks_not_waiting hasks) (start_asks hasks) rfl hgo
        rw [hwaits.state] at hback
        exact asks_not_waiting hasks (Option.some.inj hback).symm
      · cases (start_null hopens hnull).mp hret
  · rintro ⟨hopens, hwait | ⟨asking, hstate, hasks, hseek⟩⟩
    · obtain ⟨rfl, hfails⟩ := hwait
      constructor
      · exact ⟨-1, (wait_returns hopens).mpr ⟨rfl, hfails⟩⟩
      · intro s s' s'' stopped hr hstopped hne
        rw [wait_resumes s hr] at hstopped
        exact absurd (Option.some.inj hstopped).symm hne
    · subst hstate
      constructor
      · exact ⟨-1, (ask_returns hopens hasks).mpr ⟨rfl, 0, hseek⟩⟩
      · intro s s' s'' stopped hr hstopped hne hgo _ hgo'
        rcases ask_stops hasks hseek s hr with rfl | rfl
        · rw [start_asks hasks, Round.go.injEq] at hgo
          subst hgo
          rw [waits_fails (ask_waits asking (some asking)) hseek] at hgo'
          cases hgo'
        · exact absurd (Option.some.inj hstopped).symm hne

/-- Which runs over tags and files end: those over a tag that is not filtered and whose type is known,
and those over a file that cannot seek. -/
theorem flv_runs_end (m : Mem) (tag tag' : Tag) (file : Input) (header : FlvHeader) (state : Option State)
    (modList : List FlvMod) :
    ((∃ rounds, (flvReadTag m tag rounds).isSome) ↔ tag.ReadEnds m) ∧
      ((∃ rounds, (flvWriteTag tag' rounds).isSome) ↔ tag'.WriteEnds) ∧
      (ReadsFile file header state modList ↔ FileFails file state) :=
  ⟨read_tag_returns m tag, write_tag_returns tag', reads_file_iff file header state modList⟩

/-- A filtered script tag is never written to its end, a buffer that begins with one never read, and a
file of no bytes never either. -/
theorem filtered_never_ends :
    (¬ ∃ rounds, (flvWriteTag ⟨⟨1, 18, 0, 0, 0⟩, ⟨0, 0, 0, 0, 0⟩, ⟨0, 0, 0, 0⟩, [], .tagHeader⟩ rounds).isSome) ∧
      (¬ ∃ rounds, (flvReadTag (fun i => if i = 0 then 0x32 else 0)
        ⟨⟨0, 0, 0, 0, 0⟩, ⟨0, 0, 0, 0, 0⟩, ⟨0, 0, 0, 0⟩, [], .tagHeader⟩ rounds).isSome) ∧
      ¬ ReadsFile ⟨true, fun _ _ => 0, fun _ => some []⟩ ⟨0, 0, 0, 0⟩ (some .fileHeader) [] := by
  refine ⟨?_, ?_, ?_⟩
  · rw [write_tag_returns]
    intro hends
    exact absurd (hends.1 rfl).2 (by decide)
  · rw [read_tag_returns]
    intro hends
    obtain ⟨k, hfirst, hfilter⟩ := hends.1 rfl
    have hzero : FirstKnown (fun i => if i = 0 then 0x32 else 0) 0 0 := first_known_zero.mpr (by decide)
    rcases Nat.eq_zero_or_pos k with rfl | hpos
    · exact absurd hfilter (by decide)
    · exact hfirst.1 0 hpos hzero.2
  · rw [reads_file_iff]
    rintro ⟨-, hwait | ⟨asking, -, -, hseek⟩⟩
    · cases hwait.1
    · exact absurd hseek (by decide)

end Yclib.Media.Flv
