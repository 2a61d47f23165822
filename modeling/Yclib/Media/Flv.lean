import Yclib.Util.Network

namespace Yclib.Media.Flv
open Network

/-! The tags of an FLV file, as `flv_write_tag` writes them and `flv_read_tag` reads them. -/

inductive State
  | bufNeed
  | fileHeader
  | prevSize
  | tagHeader
  | audioHeader
  | audioPacketType
  | videoHeader
  | videoPacketType
  | dataAttr
  | data
  | done
deriving DecidableEq

def packetTypeAudio : UInt8 := 8
def packetTypeVideo : UInt8 := 9
def packetTypeScript : UInt8 := 18

/-- `flv_tag_header_t`. -/
structure TagHeader where
  filter : UInt8
  tagType : UInt8
  dataSize : Nat
  timeStamp : Nat
  streamId : Nat
deriving DecidableEq

structure AudioHeader where
  soundFormat : UInt8
  rate : UInt8
  sampleSize : UInt8
  type : UInt8
  packetType : UInt8
deriving DecidableEq

structure VideoHeader where
  frameType : UInt8
  codecId : UInt8
  packetType : UInt8
  compositionTime : Nat
deriving DecidableEq

/-- `flv_tag_t`; of the union the member that the type of the tag selects is used. -/
structure Tag where
  tagHeader : TagHeader
  audio : AudioHeader
  video : VideoHeader
  data : List UInt8
  state : State
deriving DecidableEq

/-- Where the header of a tag leads. -/
def TagHeader.next (header : TagHeader) (state : State) : State :=
  if header.tagType = packetTypeAudio then .audioHeader
  else if header.tagType = packetTypeVideo then .videoHeader
  else if header.tagType = packetTypeScript then .dataAttr
  else state

/-- `flv_read_tag_header`, which takes 12 bytes. -/
def flvReadTagHeader (m : Mem) (w : Nat) : TagHeader where
  filter := m w &&& 0x20
  tagType := m w &&& 0x1F
  dataSize := rnsBtoh24 m (w + 1)
  timeStamp := u32 (rnsBtoh24 m (w + 4) + (m (w + 7)).toNat * 2 ^ 24)
  streamId := rnsBtoh32 m (w + 8)

/-- `flv_write_tag_header`, which puts 11 bytes. -/
def flvWriteTagHeader (header : TagHeader) : List UInt8 :=
  ((header.filter <<< 5) ||| header.tagType) :: rnsHtob24 header.dataSize ++ rnsHtob24 header.timeStamp ++
    UInt8.ofNat (header.timeStamp / 2 ^ 24) :: rnsHtob24 header.streamId

/-- The local variables of the reader. -/
structure Reading where
  tag : Tag
  walker : Nat
  dataSize : Nat

namespace Reading

/-- The `size` bytes in front of the walker belong to a header. -/
def take (r : Reading) (size : Nat) : Reading :=
  { r with walker := r.walker + size, dataSize := u32Sub r.dataSize size }

def goTo (r : Reading) (state : State) : Reading := { r with tag := { r.tag with state := state } }

def setAudio (r : Reading) (audio : AudioHeader) : Reading := { r with tag := { r.tag with audio := audio } }

def setVideo (r : Reading) (video : VideoHeader) : Reading := { r with tag := { r.tag with video := video } }

/-- One round of the loop of `flv_read_tag`; there is none in a state that it does not know. -/
def step (m : Mem) (r : Reading) : Option Reading :=
  match r.tag.state with
  | .tagHeader =>
    let header := flvReadTagHeader m r.walker
    some ⟨{ r.tag with tagHeader := header, state := header.next r.tag.state }, r.walker + 12, header.dataSize⟩
  | .audioHeader =>
    let b := m r.walker
    let audio := { r.tag.audio with
      soundFormat := b &&& 0xF0, rate := b &&& 0x0C, sampleSize := b &&& 0x02, type := b &&& 0x01 }
    some (((r.setAudio audio).take 1).goTo (if audio.soundFormat = 10 then .audioPacketType else .dataAttr))
  | .audioPacketType =>
    some (((r.setAudio { r.tag.audio with packetType := m r.walker }).take 1).goTo .dataAttr)
  | .videoHeader =>
    let b := m r.walker
    let video := { r.tag.video with frameType := b &&& 0xF0, codecId := b &&& 0x0F }
    some (((r.setVideo video).take 1).goTo (if video.codecId = 7 then .videoPacketType else .dataAttr))
  | .videoPacketType =>
    let video := { r.tag.video with packetType := m r.walker, compositionTime := rnsBtoh24 m (r.walker + 1) }
    some (((r.setVideo video).take 4).goTo .dataAttr)
  | .dataAttr => some (if r.tag.tagHeader.filter ≠ 0 then r else r.goTo .data)
  | .data =>
    some ⟨{ r.tag with data := slice m r.walker r.dataSize, state := .done }, r.walker + r.dataSize, r.dataSize⟩
  | .done => some r
  | _ => none

/-- The loop of `flv_read_tag`, with the tag and the number of bytes that it returns. -/
def loop (m : Mem) : Nat → Reading → Option (Tag × Nat)
  | 0, _ => none
  | rounds + 1, r =>
    if r.tag.state = .done then some (r.tag, u32 r.walker)
    else match r.step m with
      | none => some (r.tag, 0)
      | some r => loop m rounds r

end Reading

/-- `flv_read_tag` with as many rounds as it takes. -/
def flvReadTag (m : Mem) (tag : Tag) (rounds : Nat) : Option (Tag × Nat) := Reading.loop m rounds ⟨tag, 0, 0⟩

/-- The byte in which the writer packs the fields of an audio header. -/
def AudioHeader.byte (audio : AudioHeader) : UInt8 :=
  (audio.soundFormat <<< 4) ||| (audio.rate <<< 2) ||| (audio.sampleSize <<< 1) ||| audio.type

def VideoHeader.byte (video : VideoHeader) : UInt8 := (video.frameType <<< 4) ||| video.codecId

/-- The local variables of the writer, with what it has put so far. -/
structure Writing where
  tag : Tag
  bytes : List UInt8
  dataSize : Nat

namespace Writing

/-- Bytes that are counted as data. -/
def put (w : Writing) (bytes : List UInt8) : Writing :=
  { w with bytes := w.bytes ++ bytes, dataSize := u32Sub w.dataSize bytes.length }

def goTo (w : Writing) (state : State) : Writing := { w with tag := { w.tag with state := state } }

/-- One round of the loop of `flv_write_tag`. -/
def step (w : Writing) : Option Writing :=
  match w.tag.state with
  | .tagHeader =>
    let header := w.tag.tagHeader
    some (Writing.goTo ⟨w.tag, w.bytes ++ flvWriteTagHeader header, header.dataSize⟩ (header.next w.tag.state))
  | .audioHeader =>
    let audio := w.tag.audio
    some ((w.put [audio.byte]).goTo (if audio.soundFormat = 10 then .audioPacketType else .dataAttr))
  | .audioPacketType => some ((w.put [w.tag.audio.packetType]).goTo .dataAttr)
  | .videoHeader =>
    let video := w.tag.video
    some ((w.put [video.byte]).goTo (if video.codecId = 7 then .videoPacketType else .dataAttr))
  | .videoPacketType =>
    some ((w.put (w.tag.video.packetType :: rnsHtob24 w.tag.video.compositionTime)).goTo .dataAttr)
  | .dataAttr => some (if w.tag.tagHeader.filter ≠ 0 then w else w.goTo .data)
  | .data => some (Writing.goTo ⟨w.tag, w.bytes ++ w.tag.data.take w.dataSize, w.dataSize⟩ .done)
  | .done => some w
  | _ => none

/-- The loop of `flv_write_tag`; it returns how many bytes it has put, or 0. -/
def loop : Nat → Writing → Option (List UInt8)
  | 0, _ => none
  | rounds + 1, w =>
    if w.tag.state = .done then some w.bytes
    else match w.step with
      | none => some []
      | some w => loop rounds w

end Writing

/-- `flv_write_tag` with as many rounds as it takes. -/
def flvWriteTag (tag : Tag) (rounds : Nat) : Option (List UInt8) := Writing.loop rounds ⟨tag, [], 0⟩

/-- The bytes of an audio header, and those of a video header. -/
def AudioHeader.bytes (audio : AudioHeader) : List UInt8 :=
  if audio.soundFormat = 10 then [audio.byte, audio.packetType] else [audio.byte]

def VideoHeader.bytes (video : VideoHeader) : List UInt8 :=
  if video.codecId = 7 then video.byte :: video.packetType :: rnsHtob24 video.compositionTime else [video.byte]

/-- The bytes between the header of a tag and its payload. -/
def Tag.attributes (tag : Tag) : List UInt8 :=
  match tag.tagHeader.next .tagHeader with
  | .audioHeader => tag.audio.bytes
  | .videoHeader => tag.video.bytes
  | _ => []

/-- An unfiltered tag of one of the three types before it is written: each field is within its bits,
and `data_size` counts the attributes and the payload. -/
structure Tag.Legal (tag : Tag) : Prop where
  start : tag.state = .tagHeader
  unfiltered : tag.tagHeader.filter = 0
  known : tag.tagHeader.tagType ∈ [packetTypeAudio, packetTypeVideo, packetTypeScript]
  timeStamp : tag.tagHeader.timeStamp < 2 ^ 32
  streamId : tag.tagHeader.streamId < 2 ^ 24
  dataSize : tag.tagHeader.dataSize < 2 ^ 24
  audio : tag.audio.soundFormat < 16 ∧ tag.audio.rate < 4 ∧ tag.audio.sampleSize < 2 ∧ tag.audio.type < 2
  video : tag.video.frameType < 16 ∧ tag.video.codecId < 16 ∧ tag.video.compositionTime < 2 ^ 24
  payload : tag.attributes.length + tag.data.length = tag.tagHeader.dataSize

/-- The two tags agree in all that the type of the tag puts into the file. -/
structure Tag.Same (a b : Tag) : Prop where
  header : a.tagHeader = b.tagHeader
  audio : b.tagHeader.tagType = packetTypeAudio →
    a.audio.soundFormat = b.audio.soundFormat ∧ a.audio.rate = b.audio.rate ∧
      a.audio.sampleSize = b.audio.sampleSize ∧ a.audio.type = b.audio.type ∧
      (b.audio.soundFormat = 10 → a.audio.packetType = b.audio.packetType)
  video : b.tagHeader.tagType = packetTypeVideo →
    a.video.frameType = b.video.frameType ∧ a.video.codecId = b.video.codecId ∧
      (b.video.codecId = 7 → a.video.packetType = b.video.packetType ∧
        a.video.compositionTime = b.video.compositionTime)
  data : a.data = b.data

/-- `flv_read_tag`, run on a tag that waits for its header, yields the tag and takes all of the bytes. -/
def ReadsBack (m : Mem) (start tag : Tag) (written : List UInt8) : Prop :=
  ∃ rounds got, flvReadTag m start rounds = some (got, written.length) ∧ got.Same tag

@[simp] theorem write_tag_header_length (header : TagHeader) : (flvWriteTagHeader header).length = 11 := by
  simp [flvWriteTagHeader, rnsHtob24]

theorem loop_round {w w' : Writing} (h : w.tag.state ≠ .done) (hs : w.step = some w') (rounds : Nat) :
    Writing.loop (rounds + 1) w = Writing.loop rounds w' := by
  rw [Writing.loop, if_neg h, hs]

/-- From the attributes on, an unfiltered tag has its payload copied and is done. -/
theorem loop_payload (w : Writing) (hf : w.tag.tagHeader.filter = 0) (hd : w.dataSize = w.tag.data.length)
    (rounds : Nat) : Writing.loop (rounds + 3) (w.goTo .dataAttr) = some (w.bytes ++ w.tag.data) := by
  have hattr : (w.goTo .dataAttr).step = some (w.goTo .data) := by
    simp [Writing.step, Writing.goTo, hf]
  rw [loop_round (by simp [Writing.goTo]) hattr]
  simp [Writing.loop, Writing.step, Writing.goTo, hd]

@[simp] theorem put_tag (w : Writing) (bytes : List UInt8) : (w.put bytes).tag = w.tag := rfl

@[simp] theorem put_bytes (w : Writing) (bytes : List UInt8) : (w.put bytes).bytes = w.bytes ++ bytes := rfl

@[simp] theorem go_tag_header (w : Writing) (state : State) : (w.goTo state).tag.tagHeader = w.tag.tagHeader := rfl

theorem put_counts {w : Writing} {bytes : List UInt8} {rest : Nat} (h : bytes.length + rest = w.dataSize)
    (hlt : w.dataSize < 2 ^ 24) : (w.put bytes).dataSize = rest := by
  simp only [Writing.put]
  rw [u32_sub_of_le (by omega) (by omega)]
  omega

/-- A header of one byte, and the payload behind it. -/
theorem loop_one {first : State} {byte : UInt8} (w : Writing) (hne : first ≠ .done)
    (hf : w.tag.tagHeader.filter = 0) (hlt : w.dataSize < 2 ^ 24) (hd : 1 + w.tag.data.length = w.dataSize)
    (hbyte : (w.goTo first).step = some ((w.put [byte]).goTo .dataAttr)) :
    Writing.loop 5 (w.goTo first) = some (w.bytes ++ [byte] ++ w.tag.data) := by
  have hone : (w.put [byte]).dataSize = w.tag.data.length := put_counts hd hlt
  have hrest := loop_payload (w.put [byte]) (by simpa only [put_tag] using hf)
    (by simpa only [put_tag] using hone) 1
  rw [loop_round (by simpa [Writing.goTo] using hne) hbyte, hrest]
  simp [Writing.put]

/-- A header whose first byte says that more of it follows. -/
theorem loop_two {first : State} {byte : UInt8} {more : List UInt8} (w : Writing) (second : State)
    (hne : first ≠ .done) (hne' : second ≠ .done) (hf : w.tag.tagHeader.filter = 0)
    (hlt : w.dataSize < 2 ^ 24) (hd : 1 + more.length + w.tag.data.length = w.dataSize)
    (hbyte : (w.goTo first).step = some ((w.put [byte]).goTo second))
    (htype : ((w.put [byte]).goTo second).step = some (((w.put [byte]).put more).goTo .dataAttr)) :
    Writing.loop 5 (w.goTo first) = some (w.bytes ++ byte :: more ++ w.tag.data) := by
  have hone : (w.put [byte]).dataSize = more.length + w.tag.data.length :=
    put_counts (by simp only [List.length_cons, List.length_nil]; omega) hlt
  have hmore : ((w.put [byte]).put more).dataSize = w.tag.data.length :=
    put_counts hone.symm (by omega)
  have hrest := loop_payload ((w.put [byte]).put more) (by simpa only [put_tag] using hf)
    (by simpa only [put_tag] using hmore) 0
  rw [loop_round (by simpa [Writing.goTo] using hne) hbyte,
    loop_round (by simpa [Writing.goTo] using hne') htype, hrest]
  simp [Writing.put]

theorem loop_audio (w : Writing) (hf : w.tag.tagHeader.filter = 0) (hlt : w.dataSize < 2 ^ 24)
    (hd : w.tag.audio.bytes.length + w.tag.data.length = w.dataSize) :
    Writing.loop 5 (w.goTo .audioHeader) = some (w.bytes ++ w.tag.audio.bytes ++ w.tag.data) := by
  by_cases hs : w.tag.audio.soundFormat = 10
  · rw [AudioHeader.bytes, if_pos hs] at hd ⊢
    refine loop_two w .audioPacketType (by simp) (by simp) hf hlt hd ?_ ?_
    · simp [Writing.step, Writing.goTo, Writing.put, hs]
    · simp [Writing.step, Writing.goTo, Writing.put]
  · rw [AudioHeader.bytes, if_neg hs] at hd ⊢
    refine loop_one w (by simp) hf hlt hd ?_
    simp [Writing.step, Writing.goTo, Writing.put, hs]

theorem loop_video (w : Writing) (hf : w.tag.tagHeader.filter = 0) (hlt : w.dataSize < 2 ^ 24)
    (hd : w.tag.video.bytes.length + w.tag.data.length = w.dataSize) :
    Writing.loop 5 (w.goTo .videoHeader) = some (w.bytes ++ w.tag.video.bytes ++ w.tag.data) := by
  by_cases hs : w.tag.video.codecId = 7
  · rw [VideoHeader.bytes, if_pos hs] at hd ⊢
    rw [List.length_cons] at hd
    refine loop_two w .videoPacketType (by simp) (by simp) hf hlt (by omega) ?_ ?_
    · simp [Writing.step, Writing.goTo, Writing.put, hs]
    · simp [Writing.step, Writing.goTo, Writing.put]
  · rw [VideoHeader.bytes, if_neg hs] at hd ⊢
    refine loop_one w (by simp) hf hlt hd ?_
    simp [Writing.step, Writing.goTo, Writing.put, hs]

/-- The writer puts the header, the attributes and the payload. -/
theorem write_tag_bytes {tag : Tag} (h : tag.Legal) :
    flvWriteTag tag 6 = some (flvWriteTagHeader tag.tagHeader ++ tag.attributes ++ tag.data) := by
  have hpayload := h.payload
  have hknown := h.known
  simp only [List.mem_cons, List.not_mem_nil, or_false] at hknown
  have hheader : Writing.step ⟨tag, [], 0⟩ = some (Writing.goTo ⟨tag,
      flvWriteTagHeader tag.tagHeader, tag.tagHeader.dataSize⟩ (tag.tagHeader.next .tagHeader)) := by
    simp [Writing.step, h.start]
  rw [flvWriteTag, loop_round (by simp [h.start]) hheader]
  rcases hknown with hk | hk | hk
  · have hnext : tag.tagHeader.next .tagHeader = .audioHeader := if_pos hk
    simp only [Tag.attributes, hnext] at hpayload ⊢
    exact loop_audio _ h.unfiltered h.dataSize hpayload
  · have hnext : tag.tagHeader.next .tagHeader = .videoHeader := by
      simp [TagHeader.next, hk, packetTypeAudio, packetTypeVideo]
    simp only [Tag.attributes, hnext] at hpayload ⊢
    exact loop_video _ h.unfiltered h.dataSize hpayload
  · have hnext : tag.tagHeader.next .tagHeader = .dataAttr := by
      simp [TagHeader.next, hk, packetTypeAudio, packetTypeVideo, packetTypeScript]
    simp only [Tag.attributes, hnext, List.length_nil, Nat.zero_add] at hpayload ⊢
    refine (loop_payload _ h.unfiltered hpayload.symm 2).trans ?_
    simp

/-- What the reader has passed and what it still counts on make 12 bytes more than the data size. -/
def Reading.Spends (dataSize : Nat) (r : Reading) : Prop :=
  match r.tag.state with
  | .tagHeader => False
  | .done => u32 r.walker = 12 + dataSize
  | _ => u32 (r.walker + r.dataSize) = 12 + dataSize

theorem spends_take {r : Reading} {dataSize size : Nat} (h : u32 (r.walker + r.dataSize) = 12 + dataSize) :
    u32 ((r.take size).walker + (r.take size).dataSize) = 12 + dataSize := by
  simp only [u32, Reading.take, u32Sub] at h ⊢
  omega

theorem spends_go {r : Reading} {dataSize : Nat} {state : State} (h : u32 (r.walker + r.dataSize) = 12 + dataSize)
    (hs : state ≠ .tagHeader ∧ state ≠ .done) : (r.goTo state).Spends dataSize := by
  cases state
  case tagHeader => exact absurd rfl hs.1
  case done => exact absurd rfl hs.2
  all_goals exact h

/-- Each round of the reader keeps the account. -/
theorem step_spends {m : Mem} {r r' : Reading} {dataSize : Nat} (h : r.Spends dataSize)
    (hs : r.step m = some r') : r'.Spends dataSize := by
  unfold Reading.step at hs
  cases hr : r.tag.state <;> simp only [Reading.Spends, hr] at h <;>
    simp only [hr, reduceCtorEq, Option.some.injEq] at hs <;> subst hs
  case audioHeader =>
    apply spends_go (spends_take h)
    split <;> decide
  case audioPacketType => exact spends_go (spends_take h) (by decide)
  case videoHeader =>
    apply spends_go (spends_take h)
    split <;> decide
  case videoPacketType => exact spends_go (spends_take h) (by decide)
  case dataAttr =>
    split
    · simpa only [Reading.Spends, hr] using h
    · exact h
  case data => exact h
  case done => simpa only [Reading.Spends, hr] using h

/-- Whatever the reader returns after a header, it is not 11 bytes more than the data size. -/
theorem loop_spends {m : Mem} {r : Reading} {dataSize rounds n : Nat} {got : Tag} (h : r.Spends dataSize)
    (hl : Reading.loop m rounds r = some (got, n)) : n = 0 ∨ n = 12 + dataSize := by
  induction rounds generalizing r with
  | zero => simp [Reading.loop] at hl
  | succ rounds ih =>
    rw [Reading.loop] at hl
    split at hl
    · rename_i hdone
      simp only [Reading.Spends, hdone] at h
      simp only [Option.some.injEq, Prod.mk.injEq] at hl
      right
      omega
    · split at hl
      · simp only [Option.some.injEq, Prod.mk.injEq] at hl
        left
        exact hl.2.symm
      · rename_i hs
        exact ih (step_spends h hs) hl

/-- The type and the data size of a header come back, whatever becomes of its other fields. -/
theorem read_tag_header {m : Mem} {tag : Tag} (h : tag.Legal)
    (hm : Holds m 0 (flvWriteTagHeader tag.tagHeader)) :
    (flvReadTagHeader m 0).tagType = tag.tagHeader.tagType ∧
      (flvReadTagHeader m 0).dataSize = tag.tagHeader.dataSize := by
  rw [flvWriteTagHeader, List.cons_append, List.cons_append, holds_cons, List.append_assoc, holds_append] at hm
  obtain ⟨hbyte, hsize, -⟩ := hm
  constructor
  · have hknown := h.known
    simp only [List.mem_cons, List.not_mem_nil, or_false] at hknown
    simp only [flvReadTagHeader, hbyte, h.unfiltered]
    rcases hknown with hk | hk | hk <;> rw [hk] <;> rfl
  · calc (flvReadTagHeader m 0).dataSize = btoh m (0 + 1) 3 := rfl
      _ = tag.tagHeader.dataSize % 256 ^ 3 := btoh_htob hsize
      _ = tag.tagHeader.dataSize := Nat.mod_eq_of_lt h.dataSize

theorem next_known {header : TagHeader} {state : State}
    (h : header.tagType ∈ [packetTypeAudio, packetTypeVideo, packetTypeScript]) :
    header.next state ∈ [.audioHeader, .videoHeader, .dataAttr] := by
  simp only [List.mem_cons, List.not_mem_nil, or_false] at h
  unfold TagHeader.next
  rcases h with h | h | h <;> simp [h, packetTypeAudio, packetTypeVideo, packetTypeScript]

/-- With a header of 12 bytes read, the account is open. -/
theorem header_spends {m : Mem} {tag start : Tag} (h : tag.Legal) (hs : start.state = .tagHeader)
    (hm : Holds m 0 (flvWriteTagHeader tag.tagHeader)) :
    ∃ r, Reading.step m ⟨start, 0, 0⟩ = some r ∧ r.Spends tag.tagHeader.dataSize := by
  obtain ⟨htype, hsize⟩ := read_tag_header h hm
  have hlt := h.dataSize
  have hnext : (flvReadTagHeader m 0).next start.state ∈ [.audioHeader, .videoHeader, .dataAttr] := by
    apply next_known
    rw [htype]
    exact h.known
  have hsum : u32 (0 + 12 + (flvReadTagHeader m 0).dataSize) = 12 + tag.tagHeader.dataSize := by
    rw [hsize, u32]
    omega
  simp only [Reading.step, hs]
  refine ⟨_, rfl, ?_⟩
  rw [hs] at hnext
  simp only [List.mem_cons, List.not_mem_nil, or_false] at hnext
  rcases hnext with hn | hn | hn <;> simpa only [Reading.Spends, hn] using hsum

/-- A tag never comes back from its bytes with all of them consumed: the reader takes 32 bits of stream
id where the writer put 24. -/
theorem tag_never_back {tag : Tag} (h : tag.Legal) :
    ∃ rounds written, flvWriteTag tag rounds = some written ∧
      ∀ m start, Holds m 0 written → start.state = .tagHeader → ¬ ReadsBack m start tag written := by
  refine ⟨6, _, write_tag_bytes h, ?_⟩
  rintro m start hm hs ⟨rounds, got, hread, -⟩
  rw [List.append_assoc, holds_append] at hm
  obtain ⟨r, hstep, hspends⟩ := header_spends h hs hm.1
  cases rounds with
  | zero => simp [flvReadTag, Reading.loop] at hread
  | succ rounds =>
    rw [flvReadTag, Reading.loop, if_neg (by simp [hs]), hstep] at hread
    have hn := loop_spends hspends hread
    have hpayload := h.payload
    simp only [List.length_append, write_tag_header_length] at hn
    omega

/-- A script tag of one byte. -/
def smallTag : Tag := ⟨⟨0, packetTypeScript, 1, 0, 0⟩, ⟨0, 0, 0, 0, 0⟩, ⟨0, 0, 0, 0⟩, [5], .tagHeader⟩

theorem small_legal : smallTag.Legal where
  start := rfl
  unfiltered := rfl
  known := by decide
  timeStamp := by decide
  streamId := by decide
  dataSize := by decide
  audio := by decide
  video := by decide
  payload := rfl

theorem small_tag_never_back : ∃ rounds written, flvWriteTag smallTag rounds = some written ∧
    ∀ m start, Holds m 0 written → start.state = .tagHeader → ¬ ReadsBack m start smallTag written :=
  tag_never_back small_legal

/-- Thirteen bytes are taken where twelve were put, and the payload is the byte behind the tag. -/
theorem small_tag_shifted :
    flvWriteTag smallTag 6 = some [18, 0, 0, 1, 0, 0, 0, 0, 0, 0, 0, 5] ∧
      flvReadTag (fun i => [18, 0, 0, 1, 0, 0, 0, 0, 0, 0, 0, 5, 77].getD i 0) smallTag 6 =
        some ({ smallTag with tagHeader.streamId := 5, data := [77], state := .done }, 13) := by
  decide

end Yclib.Media.Flv
