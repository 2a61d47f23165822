import Yclib.Live.Archive

namespace Yclib.Live
open Multimap Network

/-! A channel with its files, where `gop_write` has `yms_channel_recd` record the blocks that are full. -/

/-- What a round of `gop_write` comes upon: what a call of `yms_channel_recd` meets, whether there is
memory for a `block_t`, and what is in the memory that the pool gives. -/
structure Come where
  meets : RecdMeets
  block : Bool
  fill : Mem

structure Recording where
  archive : Archive
  channel : Channel

namespace Recording

/-- Where no block has the key, the last one is recorded. -/
def recd (rec : Recorder) (s : Recording) (meets : RecdMeets) (align : Nat) : Archive × Bool :=
  if (searchKey align s.channel.blocks).isSome then (s.archive, false)
  else
    match s.channel.blocks.getLast? with
    | none => (s.archive, false)
    | some (key, block) => ymsChannelRecd rec s.archive meets (slice block.buf 0 blockSize) key

/-- The block that a round goes on with. -/
def findBlock (rec : Recorder) (s : Recording) (come : Come) (align : Nat) : Recording × Bool :=
  let recd := s.recd rec come.meets align
  let found := s.channel.findBlock ⟨recd.2, come.block, come.fill⟩ align
  (⟨recd.1, found.1⟩, found.2)

def fillBlock (s : Recording) (align dst : Nat) (bytes : List UInt8) : Recording :=
  { s with channel := s.channel.fillBlock align dst bytes }

/-- The loop of `gop_write`, with the files. -/
def gopWriteLoop (rec : Recorder) : Nat → (Nat → Come) → Recording → Gop → List UInt8 → Recording × Gop
  | 0, _, s, gop, _ => (s, gop)
  | rounds + 1, come, s, gop, buf =>
    if buf = [] then (s, gop)
    else
      let offset := gop.offset + gop.len
      let align := blockAlign offset
      let found := s.findBlock rec (come 0) align
      if found.2 then
        let len := min buf.length (blockSize - (offset - align))
        gopWriteLoop rec rounds (fun n => come (n + 1)) (found.1.fillBlock align (offset - align) (buf.take len))
          { gop with len := gop.len + len, written := gop.written ++ buf.take len } (buf.drop len)
      else (found.1, gop)

def gopWrite (rec : Recorder) (come : Nat → Come) (s : Recording) (gop : Gop) (buf : List UInt8) : Recording × Gop :=
  s.gopWriteLoop rec buf.length come gop buf

end Recording

/-- What is done to the gops of a channel that is recorded. -/
inductive RecdWrite
  | gop
  | media (come : Nat → Come) (buf : List UInt8)

namespace Recording

def write (rec : Recorder) (s : Recording) : RecdWrite → Recording
  | .gop => { s with channel := s.channel.write .gop }
  | .media come buf =>
    match s.channel.gops.getLast? with
    | none => s
    | some gop =>
      let result := s.gopWrite rec come gop buf
      { result.1 with channel := { result.1.channel with gops := s.channel.gops.dropLast ++ [result.2] } }

def writes (rec : Recorder) (s : Recording) (ops : List RecdWrite) : Recording := ops.foldl (write rec) s

/-- A new channel whose directory has no files. -/
def create (gopsize : Nat) : Recording := ⟨⟨⟨[], []⟩, fun _ => []⟩, Channel.create gopsize⟩

/-- `gop_write` takes all that it is given. -/
def Taken (rec : Recorder) (s : Recording) : RecdWrite → Prop
  | .gop => True
  | .media come buf => ∀ gop ∈ s.channel.gops.getLast?, (s.gopWrite rec come gop buf).2.len = gop.len + buf.length

end Recording

section
variable {rec : Recorder} {s : Recording} {gop : Gop} {buf : List UInt8} {come : Nat → Come}

end

/-- All that has come in is in a block or in a file, where `next` is the key of the last block, or where
the next one begins when all of them are recorded. -/
structure Recorded (rec : Recorder) (s : Recording) (bytes : List UInt8) (next : Nat) : Prop where
  place : InPlace rec s.archive bytes next
  ends : next ≤ bytes.length
  aligned : blockSize ∣ next
  keys : ∀ entry ∈ s.channel.blocks, entry.1 ≤ next ∧ blockSize ∣ entry.1
  kept : ∀ entry ∈ s.channel.blocks, ∀ i < blockSize, (h : entry.1 + i < bytes.length) →
    entry.2.buf i = bytes[entry.1 + i]
  saved : ∀ entry ∈ s.channel.blocks, entry.2.state = .saved → entry.1 + blockSize ≤ next ∧
    ∀ p, entry.1 ≤ p → p < entry.1 + blockSize → s.archive.byte p = bytes[p]?
  found : ∀ p < bytes.length, blockAlign p ∈ s.channel.blocks.map Prod.fst ∨ s.archive.byte p = bytes[p]?

/-- Between two rounds the last block has something in it, if there is one. -/
def Between (s : Recording) (bytes : List UInt8) (next : Nat) : Prop :=
  (bytes = [] ∧ s.channel.blocks = [] ∧ next = 0) ∨
    ∃ block, s.channel.blocks.getLast? = some (next, block) ∧ next < bytes.length ∧
      bytes.length ≤ next + blockSize

section
variable {rec : Recorder} {s : Recording} {bytes more : List UInt8} {next : Nat} {meets : RecdMeets} {come : Come}
  {archive : Archive} {channel : Channel} {supply : Supply}

theorem size_pos : 0 < blockSize := by decide

theorem align_le (p : Nat) : blockAlign p ≤ p := Nat.div_mul_le_self p blockSize

end

section
variable {rec : Recorder} {s : Recording} {bytes buf : List UInt8} {next : Nat} {gop : Gop} {come : Nat → Come}

/-- A channel between two writes, with all that its gops have. -/
structure Running (rec : Recorder) (s : Recording) : Prop where
  laid : Laid 0 s.channel.gops
  held : ∃ next, Recorded rec s (stream s.channel.gops) next ∧ Between s (stream s.channel.gops) next

end

end Yclib.Live
