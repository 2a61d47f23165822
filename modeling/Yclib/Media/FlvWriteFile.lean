import Yclib.Media.FlvReadFile
import Yclib.Util.IndexAppend

namespace Yclib.Media.Flv
open Network Loop FileMgr

/-! `flv_write_file`. Its rounds over the headers of a tag are those of `flv_write_tag`, each behind a test
that there is room in the buffer. Allocations are taken to succeed. -/

/-- `flv_t`, its tags in the order in which `rns_list_first` and `rns_list_next` give them. -/
structure FlvFile where
  header : FlvHeader
  modList : List FlvMod
  state : Option State

/-- `flv_write_header`, as the 9 bytes that it puts. -/
def flvWriteHeader (header : FlvHeader) : List UInt8 :=
  [0x46, 0x4C, 0x56, header.version, (header.audio <<< 2) ||| header.video] ++ rnsHtob32 header.dataOffset

/-- How many of them it passes over: the last step over `data_offset` is missing. -/
def flvWriteHeaderSize : Nat := 5

/-- What a file meets: whether it can be opened, and for each `write` how many bytes it takes at most,
none for an error. -/
structure Output where
  opens : Bool
  write : Nat → Option Nat

/-- How `flv_write_file` ends, with what it has appended to the file then. -/
inductive Written
  | returned (ret : Int) (file : List UInt8)
  | undefined

/-- `flv` and the local variables of `flv_write_file`. The buffer is what is in front of the walker, and the
first of the tags is the one that `mod` points to; it is a null pointer if there are none. -/
structure FileWriting where
  state : Option State
  stateSave : State
  buf : List UInt8
  stop : Nat
  mods : List FlvMod
  dataSize : Nat
  file : List UInt8
  turn : Nat

namespace FileWriting

/-- The buffer is to be written first. -/
def ask (s : FileWriting) (state : State) : FileWriting := { s with state := some .bufNeed, stateSave := state }

/-- How many bytes a round over a tag needs room for. -/
def needs : State → Nat
  | .prevSize => 4
  | .tagHeader => 11
  | .videoPacketType => 4
  | _ => 1

/-- A round of `flv_write_tag` on the header of the tag or on one of its attributes. -/
def tagRound (s : FileWriting) (state : State) (mod : FlvMod) : Round FileWriting Written :=
  (Writing.step ⟨{ mod.tag with state := state }, s.buf, s.dataSize⟩).elim (.go s) fun w =>
    .go { s with state := some w.tag.state, buf := w.bytes, dataSize := w.dataSize }

/-- The payload of the tag. -/
def dataRound (s : FileWriting) (mod : FlvMod) : Round FileWriting Written :=
  if s.stop < s.buf.length + s.dataSize then .go (s.ask .data)
  else .go { s with buf := s.buf ++ mod.tag.data.take s.dataSize, state := some .done }

/-- The first of the tags, or else a null pointer. -/
def withMod (s : FileWriting) (next : FlvMod → Round FileWriting Written) : Round FileWriting Written :=
  s.mods.head?.elim (.exit .undefined) next

/-- One round of the loop of `flv_write_file`. -/
def round (out : Output) (flv : FlvFile) (s : FileWriting) : Round FileWriting Written :=
  s.state.elim (.exit (.returned 0 s.file)) fun state =>
    match state with
    | .bufNeed =>
      let written := rnsFileWrite s.file s.buf (out.write s.turn)
      .go { s with
        file := written.1, buf := [], stop := (written.2 % 2 ^ 32).toNat, state := some s.stateSave,
        turn := s.turn + 1 }
    | .fileHeader =>
      if s.stop < s.buf.length + 9 then .go (s.ask .fileHeader)
      else .go { s with
        buf := s.buf ++ (flvWriteHeader flv.header).take flvWriteHeaderSize, mods := flv.modList,
        state := some .prevSize }
    | .prevSize =>
      if s.stop < s.buf.length + needs .prevSize then .go (s.ask .prevSize)
      else s.withMod fun mod =>
        .go { s with buf := s.buf ++ rnsHtob32 mod.prevTagSize, state := some .tagHeader }
    | .dataAttr =>
      -- without a break the payload follows, whether the tag is filtered or not
      s.withMod fun mod =>
        if mod.tag.tagHeader.filter ≠ 0 then s.dataRound mod
        else ({ s with state := some .data } : FileWriting).dataRound mod
    | .data =>
      if s.stop < s.buf.length + s.dataSize then .go (s.ask .data)
      else s.withMod s.dataRound
    | .done =>
      -- the first tag is also the last one, and nobody writes the buffer
      s.withMod fun _ => .exit (.returned 0 s.file)
    | state =>
      if s.stop < s.buf.length + needs state then .go (s.ask state)
      else s.withMod (s.tagRound state)

/-- The local variables where the loop begins. -/
def start (flv : FlvFile) : FileWriting := ⟨flv.state, .fileHeader, [], 10240, [], 0, [], 0⟩

end FileWriting

/-- How `flv_write_file` ends. -/
def FlvWriteFile (out : Output) (flv : FlvFile) (ending : Written) : Prop :=
  if out.opens then Ends (FileWriting.round out flv) (FileWriting.start flv) ending
  else ending = .returned (-1) []

/-- The bytes of a tag of the file. -/
def FlvMod.bytes (mod : FlvMod) : List UInt8 :=
  rnsHtob32 mod.prevTagSize ++ flvWriteTagHeader mod.tag.tagHeader ++ mod.tag.attributes ++ mod.tag.data

/-- The bytes that an FLV is to have in its file. -/
def FlvFile.bytes (flv : FlvFile) : List UInt8 := flvWriteHeader flv.header ++ flv.modList.flatMap FlvMod.bytes

/-- `flv_write_file` reports completion, and the whole FLV is in the file. -/
def WritesAll (out : Output) (flv : FlvFile) : Prop := FlvWriteFile out flv (.returned 0 flv.bytes)

/-- How many bytes of attributes a tag has from a state on. -/
def Tag.ahead (tag : Tag) : State → Nat
  | .audioHeader => tag.audio.bytes.length
  | .audioPacketType => 1
  | .videoHeader => tag.video.bytes.length
  | .videoPacketType => 4
  | _ => 0

/-- What has been put at most where a tag is at a state. -/
def Within (mod : FlvMod) (total : Nat) (state : State) : Prop :=
  (state = .prevSize ∧ total ≤ 5) ∨
    (state = .tagHeader ∧ (mod.tag.tagHeader.tagType ∈ [packetTypeAudio, packetTypeVideo, packetTypeScript] →
      total ≤ 9)) ∨
    ((state.Attribute ∨ state = .data) ∧ total + mod.tag.ahead state ≤ 20 + mod.tag.attributes.length)

/-- The first tag is on its way into the file, at its state or waiting for room, or it is done and its
payload is still in the buffer. -/
structure Begun (mod : FlvMod) (rest : List FlvMod) (s : FileWriting) : Prop where
  mods : s.mods = mod :: rest
  place : (∃ state, (s.state = some state ∨ s.state = some .bufNeed ∧ s.stateSave = state) ∧
      Within mod (s.file.length + s.buf.length) state) ∨
    (s.state = some .done ∧ s.file.length ≤ 20 + mod.tag.attributes.length)

/-- No tag has been taken up: nothing has been put yet, or the header of an FLV without tags. -/
structure Idle (flv : FlvFile) (s : FileWriting) : Prop where
  mods : s.mods = []
  place : s.file.length + s.buf.length = 0 ∨
    (flv.modList = [] ∧ s.file.length + s.buf.length ≤ 5 ∧
      (s.state = some .prevSize ∨ s.state = some .bufNeed ∧ s.stateSave = .prevSize))

section
variable {out : Output} {flv : FlvFile} {s s' : FileWriting} {mod : FlvMod} {rest : List FlvMod}

theorem attributes_ahead (tag : Tag) : tag.attributes.length = tag.ahead (tag.tagHeader.next .tagHeader) := by
  rw [Tag.attributes, Tag.ahead.eq_def]
  have hnext : tag.tagHeader.next .tagHeader = .audioHeader ∨ tag.tagHeader.next .tagHeader = .videoHeader ∨
      tag.tagHeader.next .tagHeader = .dataAttr ∨ tag.tagHeader.next .tagHeader = .tagHeader := by
    unfold TagHeader.next
    split
    · simp
    · split
      · simp
      · split <;> simp
  rcases hnext with h | h | h | h <;> simp [h]

theorem put_ahead {w : Writing} {bytes : List UInt8} {state : State}
    (hstep : w.step = some ((w.put bytes).goTo state)) (hattr : state.Attribute)
    (hlength : bytes.length + w.tag.ahead state = w.tag.ahead w.tag.state) :
    ∃ w', w.step = some w' ∧ w'.tag.state.Attribute ∧
      w'.bytes.length + w.tag.ahead w'.tag.state = w.bytes.length + w.tag.ahead w.tag.state := by
  refine ⟨_, hstep, hattr, ?_⟩
  simp only [Writing.goTo, put_bytes, List.length_append]
  omega

/-- A round over an attribute header puts what it takes from the attributes that are to come. -/
theorem write_ahead {w : Writing} (h : w.tag.state.Header) : ∃ w', w.step = some w' ∧ w'.tag.state.Attribute ∧
    w'.bytes.length + w.tag.ahead w'.tag.state = w.bytes.length + w.tag.ahead w.tag.state := by
  rcases h with h | h | h | h
  · by_cases hformat : w.tag.audio.soundFormat = 10
    · have hstep : w.step = some ((w.put [w.tag.audio.byte]).goTo .audioPacketType) := by
        simp [Writing.step, h, hformat]
      apply put_ahead hstep (moves_attribute .audioType)
      simp [Tag.ahead, h, AudioHeader.bytes, hformat]
    · have hstep : w.step = some ((w.put [w.tag.audio.byte]).goTo .dataAttr) := by
        simp [Writing.step, h, hformat]
      apply put_ahead hstep (moves_attribute .audio)
      simp [Tag.ahead, h, AudioHeader.bytes, hformat]
  · have hstep : w.step = some ((w.put [w.tag.audio.packetType]).goTo .dataAttr) := by
      simp [Writing.step, h]
    apply put_ahead hstep (moves_attribute .audioDone)
    simp [Tag.ahead, h]
  · by_cases hcodec : w.tag.video.codecId = 7
    · have hstep : w.step = some ((w.put [w.tag.video.byte]).goTo .videoPacketType) := by
        simp [Writing.step, h, hcodec]
      apply put_ahead hstep (moves_attribute .videoType)
      simp [Tag.ahead, h, VideoHeader.bytes, hcodec, rnsHtob24]
    · have hstep : w.step = some ((w.put [w.tag.video.byte]).goTo .dataAttr) := by
        simp [Writing.step, h, hcodec]
      apply put_ahead hstep (moves_attribute .video)
      simp [Tag.ahead, h, VideoHeader.bytes, hcodec]
  · have hstep : w.step = some ((w.put (w.tag.video.packetType ::
        rnsHtob24 w.tag.video.compositionTime)).goTo .dataAttr) := by
      simp [Writing.step, h]
    apply put_ahead hstep (moves_attribute .videoDone)
    simp [Tag.ahead, h, rnsHtob24]

theorem within_mono {total total' : Nat} {state : State} (h : Within mod total state) (hle : total' ≤ total) :
    Within mod total' state := by
  rcases h with ⟨hs, hbound⟩ | ⟨hs, hbound⟩ | ⟨hs, hbound⟩
  · exact .inl ⟨hs, by omega⟩
  · exact .inr (.inl ⟨hs, fun hknown => le_trans hle (hbound hknown)⟩)
  · exact .inr (.inr ⟨hs, by omega⟩)

/-- Nothing comes into the file that was not in the buffer. -/
theorem written_le (file buf : List UInt8) (count : Option Nat) :
    (rnsFileWrite file buf count).1.length ≤ file.length + buf.length := by
  cases count with
  | none => exact Nat.le_add_right _ _
  | some n =>
    rw [rnsFileWrite, List.length_append, List.length_take]
    omega

theorem begun_ask {state : State} (hmods : s.mods = mod :: rest)
    (h : Within mod (s.file.length + s.buf.length) state) : Begun mod rest (s.ask state) :=
  ⟨hmods, .inl ⟨state, .inr ⟨rfl, rfl⟩, h⟩⟩

/-- What the payload does: it asks for room, or it stays in the buffer. -/
theorem data_round (hmods : s.mods = mod :: rest)
    (h : s.file.length + s.buf.length ≤ 20 + mod.tag.attributes.length) :
    ∃ s', s.dataRound mod = .go s' ∧ Begun mod rest s' := by
  unfold FileWriting.dataRound
  split
  · exact ⟨_, rfl, begun_ask hmods (.inr (.inr ⟨.inr rfl, by simpa only [Tag.ahead, Nat.add_zero] using h⟩))⟩
  · exact ⟨_, rfl, hmods, .inr ⟨rfl, by simp only; omega⟩⟩

theorem tag_round_header (hmods : s.mods = mod :: rest) {state : State} (hs : state.Header)
    (h : s.file.length + s.buf.length + mod.tag.ahead state ≤ 20 + mod.tag.attributes.length) :
    ∃ s', s.tagRound state mod = .go s' ∧ Begun mod rest s' := by
  obtain ⟨w, hstep, hattr, hahead⟩ := write_ahead (w := ⟨{ mod.tag with state := state }, s.buf, s.dataSize⟩) hs
  rw [FileWriting.tagRound, hstep, Option.elim_some]
  refine ⟨_, rfl, hmods, .inl ⟨w.tag.state, .inl rfl, .inr (.inr ⟨.inl hattr, ?_⟩)⟩⟩
  have hsame : ∀ state', Tag.ahead { mod.tag with state := state } state' = mod.tag.ahead state' := by
    intro state'
    cases state' <;> rfl
  simp only [hsame] at hahead ⊢
  omega

/-- The header of a tag of a known type is put once, one of another type again and again. -/
theorem tag_round_first (hmods : s.mods = mod :: rest)
    (h : mod.tag.tagHeader.tagType ∈ [packetTypeAudio, packetTypeVideo, packetTypeScript] →
      s.file.length + s.buf.length ≤ 9) :
    ∃ s', s.tagRound .tagHeader mod = .go s' ∧ Begun mod rest s' := by
  refine ⟨_, rfl, hmods, .inl ⟨mod.tag.tagHeader.next .tagHeader, .inl rfl, ?_⟩⟩
  by_cases hknown : mod.tag.tagHeader.tagType ∈ [packetTypeAudio, packetTypeVideo, packetTypeScript]
  · have htotal := h hknown
    refine .inr (.inr ⟨.inl (next_attribute hknown), ?_⟩)
    rw [attributes_ahead]
    simp only [Writing.goTo, List.length_append, write_tag_header_length]
    omega
  · exact .inr (.inl ⟨next_unknown hknown, fun hfalse => absurd hfalse hknown⟩)

/-- A round goes on with the first tag, or the end is reported with no more in the file than its
attributes. -/
theorem begun_round (out : Output) (flv : FlvFile) (h : Begun mod rest s) :
    (∃ s', FileWriting.round out flv s = .go s' ∧ Begun mod rest s') ∨
    (FileWriting.round out flv s = .exit (.returned 0 s.file) ∧
      s.file.length ≤ 20 + mod.tag.attributes.length) := by
  have hmods := h.mods
  have hmod : ∀ next, s.withMod next = next mod := by
    intro next
    rw [FileWriting.withMod, hmods]
    rfl
  rcases h.place with ⟨state, hstate | ⟨hstate, hsave⟩, hwithin⟩ | ⟨hstate, hfile⟩
  · left
    have hwithin' := hwithin
    rcases hwithin with ⟨rfl, htotal⟩ | ⟨rfl, htotal⟩ | ⟨(hheader | rfl) | rfl, htotal⟩
    · simp only [FileWriting.round, hstate, Option.elim_some]
      split
      · exact ⟨_, rfl, begun_ask hmods hwithin'⟩
      · rw [hmod]
        refine ⟨_, rfl, hmods, .inl ⟨.tagHeader, .inl rfl, .inr (.inl ⟨rfl, fun _ => ?_⟩)⟩⟩
        simp only [List.length_append, rnsHtob32, htob_length]
        omega
    · simp only [FileWriting.round, hstate, Option.elim_some]
      split
      · exact ⟨_, rfl, begun_ask hmods hwithin'⟩
      · rw [hmod]
        exact tag_round_first hmods htotal
    · have hround : FileWriting.round out flv s =
          if s.stop < s.buf.length + FileWriting.needs state then .go (s.ask state)
          else s.withMod (s.tagRound state) := by
        rcases hheader with rfl | rfl | rfl | rfl <;> simp only [FileWriting.round, hstate, Option.elim_some]
      rw [hround]
      split
      · exact ⟨_, rfl, begun_ask hmods hwithin'⟩
      · rw [hmod]
        exact tag_round_header hmods hheader htotal
    · simp only [FileWriting.round, hstate, Option.elim_some]
      rw [hmod]
      simp only [Tag.ahead, Nat.add_zero] at htotal
      split
      · exact data_round hmods htotal
      · exact data_round hmods htotal
    · simp only [FileWriting.round, hstate, Option.elim_some]
      simp only [Tag.ahead, Nat.add_zero] at htotal
      split
      · exact ⟨_, rfl, begun_ask hmods hwithin'⟩
      · rw [hmod]
        exact data_round hmods htotal
  · left
    simp only [FileWriting.round, hstate, Option.elim_some]
    refine ⟨_, rfl, hmods, .inl ⟨state, .inl (congrArg some hsave), within_mono hwithin ?_⟩⟩
    exact written_le s.file s.buf _
  · right
    simp only [FileWriting.round, hstate, Option.elim_some]
    rw [hmod]
    exact ⟨rfl, hfile⟩

theorem header_put_length (header : FlvHeader) : ((flvWriteHeader header).take flvWriteHeaderSize).length = 5 := rfl

/-- What may come of a round: it goes on, a null pointer is followed, or the end is reported with no
more in the file than a part of the header. -/
def IdleRound (flv : FlvFile) (s : FileWriting) : Round FileWriting Written → Prop
  | .go s' => Idle flv s' ∨ ∃ mod rest, flv.modList = mod :: rest ∧ Begun mod rest s'
  | .exit .undefined => True
  | .exit (.returned _ file) => file = s.file

theorem idle_null (hmods : s.mods = []) (next : FlvMod → Round FileWriting Written) :
    IdleRound flv s (s.withMod next) := by
  rw [FileWriting.withMod, hmods]
  trivial

theorem idle_ask (h : Idle flv s) {state : State} (hstate : s.state = some state) (hne : state ≠ .bufNeed) :
    IdleRound flv s (.go (s.ask state)) := by
  refine .inl ⟨h.mods, ?_⟩
  rcases h.place with hnone | ⟨hmods, htotal, hprev | hwait⟩
  · exact .inl hnone
  · rw [hstate, Option.some.injEq] at hprev
    exact .inr ⟨hmods, htotal, .inr ⟨rfl, hprev⟩⟩
  · rw [hstate, Option.some.injEq] at hwait
    exact absurd hwait.1 hne

/-- The header is put, and the first tag is taken up if there is one. -/
theorem idle_header (h : Idle flv s) (hstate : s.state = some .fileHeader) :
    IdleRound flv s (.go { s with
      buf := s.buf ++ (flvWriteHeader flv.header).take flvWriteHeaderSize, mods := flv.modList,
      state := some .prevSize }) := by
  have hnone : s.file.length + s.buf.length = 0 := by
    rcases h.place with hnone | ⟨-, -, hprev | hwait⟩
    · exact hnone
    · rw [hstate] at hprev
      cases hprev
    · rw [hstate] at hwait
      cases hwait.1
  have htotal : s.file.length + (s.buf ++ (flvWriteHeader flv.header).take flvWriteHeaderSize).length ≤ 5 := by
    rw [List.length_append, header_put_length]
    omega
  cases hmods : flv.modList with
  | nil => exact .inl ⟨rfl, .inr ⟨hmods, htotal, .inl rfl⟩⟩
  | cons mod rest => exact .inr ⟨mod, rest, hmods, rfl, .inl ⟨.prevSize, .inl rfl, .inl ⟨rfl, htotal⟩⟩⟩

theorem idle_round (out : Output) (h : Idle flv s) : IdleRound flv s (FileWriting.round out flv s) := by
  cases hstate : s.state with
  | none =>
    simp only [FileWriting.round, hstate, Option.elim_none]
    rfl
  | some state =>
    have hasking : state ≠ .bufNeed → ∀ room, ∀ next : FlvMod → Round FileWriting Written,
        IdleRound flv s (if s.stop < room then .go (s.ask state) else s.withMod next) := by
      intro hne room next
      split
      · exact idle_ask h hstate hne
      · exact idle_null h.mods next
    cases state <;> simp only [FileWriting.round, hstate, Option.elim_some]
    case bufNeed =>
      refine .inl ⟨h.mods, ?_⟩
      have hle := written_le s.file s.buf (out.write s.turn)
      rcases h.place with hnone | ⟨hmods, htotal, hprev | hwait⟩
      · left
        simp only [List.length_nil]
        omega
      · rw [hstate] at hprev
        cases hprev
      · refine .inr ⟨hmods, ?_, .inl (congrArg some hwait.2)⟩
        simp only [List.length_nil]
        omega
    case fileHeader =>
      split
      · exact idle_ask h hstate (by simp)
      · exact idle_header h hstate
    case dataAttr => exact idle_null h.mods _
    case done => exact idle_null h.mods _
    all_goals exact hasking (by simp) _ _

theorem bytes_length_nil (flv : FlvFile) : 9 ≤ flv.bytes.length := by
  simp only [FlvFile.bytes, flvWriteHeader, rnsHtob32, List.length_append, List.length_cons, htob_length]
  omega

theorem bytes_length_cons (h : flv.modList = mod :: rest) : 24 + mod.tag.attributes.length ≤ flv.bytes.length := by
  simp only [FlvFile.bytes, h, flvWriteHeader, FlvMod.bytes, rnsHtob32, List.flatMap_cons, List.length_append,
    List.length_cons, htob_length, write_tag_header_length]
  omega

/-- Where the end is reported, the file is too short. -/
theorem file_short {ret : Int} {file : List UInt8}
    (h : Idle flv s ∨ ∃ mod rest, flv.modList = mod :: rest ∧ Begun mod rest s)
    (hends : Ends (FileWriting.round out flv) s (.returned ret file)) : file.length < flv.bytes.length := by
  generalize hending : Written.returned ret file = ending at hends
  induction hends with
  | @exit s ending hexit =>
    subst hending
    rcases h with hidle | ⟨mod, rest, hlist, hbegun⟩
    · have hround := idle_round out hidle
      rw [hexit] at hround
      have hfile : file = s.file := hround
      have hbytes := bytes_length_nil flv
      rcases hidle.place with hnone | ⟨-, htotal, -⟩ <;> rw [hfile] <;> omega
    · rcases begun_round out flv hbegun with ⟨s', hgo, -⟩ | ⟨hreturn, hlength⟩
      · rw [hexit] at hgo
        cases hgo
      · rw [hexit, Round.exit.injEq, Written.returned.injEq] at hreturn
        have hbytes := bytes_length_cons hlist
        rw [hreturn.2]
        omega
  | @go s s' ending hgo _ ih =>
    apply ih _ hending
    rcases h with hidle | ⟨mod, rest, hlist, hbegun⟩
    · have hround := idle_round out hidle
      rw [hgo] at hround
      exact hround
    · rcases begun_round out flv hbegun with ⟨next, hnext, hkeeps⟩ | ⟨hreturn, -⟩
      · rw [hgo, Round.go.injEq] at hnext
        exact .inr ⟨mod, rest, hlist, hnext ▸ hkeeps⟩
      · rw [hgo] at hreturn
        cases hreturn

end

/-- The payload of the first tag never leaves the buffer, so no FLV is written. -/
theorem never_writes_all (out : Output) (flv : FlvFile) : ¬ WritesAll out flv := by
  intro h
  by_cases hopens : out.opens = true
  · rw [WritesAll, FlvWriteFile, if_pos hopens] at h
    exact lt_irrefl _ (file_short (.inl ⟨rfl, .inl rfl⟩) h)
  · rw [WritesAll, FlvWriteFile, if_neg hopens] at h
    cases h

/-- An FLV with one script tag. -/
def smallFile : FlvFile := ⟨⟨1, 0, 1, 9⟩, [⟨0, smallTag⟩], some .fileHeader⟩

/-- Success is reported, and nothing is in the file. -/
theorem small_file_empty : FlvWriteFile ⟨true, fun _ => some 10240⟩ smallFile (.returned 0 []) ∧
    ¬ WritesAll ⟨true, fun _ => some 10240⟩ smallFile := by
  constructor
  · rw [FlvWriteFile, if_pos rfl]
    exact .go rfl (.go rfl (.go rfl (.go rfl (.exit rfl))))
  · rw [WritesAll, FlvWriteFile, if_pos rfl]
    exact fun h => lt_irrefl _ (file_short (.inl ⟨rfl, .inl rfl⟩) h)

end Yclib.Media.Flv
