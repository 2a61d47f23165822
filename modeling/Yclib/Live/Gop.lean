import Yclib.Util.Multimap
import Yclib.Util.Network

namespace Yclib.Live
open Multimap

/-! Where a live channel keeps its media: the gops of a channel share blocks of one size, which
are found by their offset in all that the channel has received. -/

/-- `BLOCK_SIZE`. -/
def blockSize : Nat := 524288

/-- `offset & BLOCK_MASK`: the mask clears what is below a block's size. -/
def blockAlign (offset : Nat) : Nat := offset / blockSize * blockSize

/-- The blocks that `rns_mpool_alloc` gives of a pool of `BLOCK_NUM`, 2000: the first one has the
header of the pool, and the last is kept back. -/
def mpoolBlocks : Nat := 1998

inductive BlockState
  | writing
  | full
  | saved
deriving DecidableEq

/-- A `block_t`. -/
structure Block where
  buf : Mem
  state : BlockState

/-- A `gop_t`. Beside what the code keeps of it, `written` is what `gop_write` has copied for it. -/
structure Gop where
  idx : Nat
  offset : Nat
  len : Nat
  written : List UInt8

/-- A `channel_t`. `gops` has the oldest gop first, `blocks` are by their keys, and `mp` is the
number of blocks that the pool still gives. Beside what the code keeps, `freed` has the keys of
the blocks that were freed for new content, which are reported to the log. -/
structure Channel where
  gops : List Gop
  gopId : Nat
  gopsize : Nat
  pat : List UInt8
  pmt : List UInt8
  pmtPid : Nat
  pcrPid : Nat
  blocks : List (Nat × Block)
  mp : Nat
  freed : List Nat

/-- What a round of `gop_write` comes upon: whether `yms_channel_recd` has the last block in its
file, whether there is memory for a `block_t`, and what is in the memory that the pool gives. -/
structure Supply where
  recd : Bool
  block : Bool
  fill : Mem

/-- Where the file takes every block and there is always memory. -/
def ample : Nat → Supply := fun _ => ⟨true, true, fun _ => 0⟩

/-- `rns_memcpy` into a buffer. -/
def memcpy (buf : Mem) (dst : Nat) (bytes : List UInt8) : Mem := fun i =>
  if dst ≤ i ∧ i < dst + bytes.length then bytes.getD (i - dst) 0 else buf i

namespace Channel

/-- A channel that `yms_channel_create` has made and `yms_channel_start` has started. -/
def create (gopsize : Nat) : Channel where
  gops := []
  gopId := 0
  gopsize := gopsize
  pat := List.replicate 188 0
  pmt := List.replicate 188 0
  pmtPid := 0
  pcrPid := 0
  blocks := []
  mp := mpoolBlocks
  freed := []

/-- The last block is full, and saved when it is in a file. -/
def recdLast (channel : Channel) (supply : Supply) : Channel :=
  match channel.blocks.getLast? with
  | none => channel
  | some (key, block) =>
    let state := if supply.recd then .saved else .full
    { channel with blocks := channel.blocks.dropLast ++ [(key, { block with state := state })] }

/-- The branch of `gop_write` where no block has the key, and whether one has it then. -/
def takeBlock (channel : Channel) (supply : Supply) (align : Nat) : Channel × Bool :=
  let channel := channel.recdLast supply
  if channel.mp = 0 then
    match channel.blocks.find? fun entry => entry.2.state = .saved with
    | none => (channel, false)
    | some (key, block) =>
      let rest := channel.blocks.eraseP fun entry => entry.2.state = .saved
      ({ channel with
        blocks := insertKey align { block with state := .writing } rest
        freed := channel.freed ++ [key] }, true)
  else if supply.block then
    ({ channel with
      mp := channel.mp - 1
      blocks := insertKey align ⟨supply.fill, .writing⟩ channel.blocks }, true)
  else ({ channel with mp := channel.mp - 1 }, false)

/-- The block that a round of `gop_write` goes on with. -/
def findBlock (channel : Channel) (supply : Supply) (align : Nat) : Channel × Bool :=
  if (searchKey align channel.blocks).isSome then (channel, true) else channel.takeBlock supply align

/-- Bytes go into the block with the key. -/
def fillBlock (channel : Channel) (align dst : Nat) (bytes : List UInt8) : Channel :=
  { channel with
    blocks := channel.blocks.map fun entry =>
      (entry.1,
        if entry.1 = align then { entry.2 with buf := memcpy entry.2.buf dst bytes } else entry.2) }

end Channel

/-- The loop of `gop_write`. A round copies a byte at least, so there are no more rounds than
bytes. -/
def gopWriteLoop : Nat → (Nat → Supply) → Channel → Gop → List UInt8 → Channel × Gop
  | 0, _, channel, gop, _ => (channel, gop)
  | rounds + 1, supply, channel, gop, buf =>
    if buf = [] then (channel, gop)
    else
      let offset := gop.offset + gop.len
      let align := blockAlign offset
      let found := channel.findBlock (supply 0) align
      if found.2 then
        let len := min buf.length (blockSize - (offset - align))
        gopWriteLoop rounds (fun n => supply (n + 1)) (found.1.fillBlock align (offset - align) (buf.take len))
          { gop with len := gop.len + len, written := gop.written ++ buf.take len } (buf.drop len)
      else (found.1, gop)

/-- `gop_write`. -/
def gopWrite (supply : Nat → Supply) (channel : Channel) (gop : Gop) (buf : List UInt8) : Channel × Gop :=
  gopWriteLoop buf.length supply channel gop buf

/-- `yms_attach_buffer`, with the buffers it hands to `rns_http_attach_buffer`. Where no block is
found, the loop goes on with what it had. -/
def ymsAttachBuffer (channel : Channel) (gop : Gop) : Nat → Nat → Option (List (List UInt8))
  | 0, _ => none
  | rounds + 1, sendbytes =>
    if sendbytes < gop.len then
      let offset := gop.offset + sendbytes
      let align := blockAlign offset
      match searchKey align channel.blocks with
      | none => ymsAttachBuffer channel gop rounds sendbytes
      | some block =>
        let len := min (blockSize - (offset - align)) (gop.len - sendbytes)
        (ymsAttachBuffer channel gop rounds (u32 (sendbytes + len))).map
          (slice block.buf (offset - align) len :: ·)
    else some []

/-- What is done to the gops of a channel: there is a new one, or media is written to the last. -/
inductive Write
  | gop
  | media (supply : Nat → Supply) (buf : List UInt8)

namespace Channel

/-- The gop that comes behind those of the channel. -/
def newGop (channel : Channel) : Gop where
  idx := channel.gopId
  offset := match channel.gops.getLast? with
    | none => 0
    | some gop => gop.offset + gop.len
  len := 0
  written := []

def write (channel : Channel) : Write → Channel
  | .gop => { channel with gops := channel.gops ++ [channel.newGop], gopId := u32 (channel.gopId + 1) }
  | .media supply buf =>
    match channel.gops.getLast? with
    | none => channel
    | some gop =>
      let result := gopWrite supply channel gop buf
      { result.1 with gops := channel.gops.dropLast ++ [result.2] }

def writes (channel : Channel) (ops : List Write) : Channel := ops.foldl write channel

end Channel

/-- What there is to find of blocks, whatever has been saved of them. -/
def bufs (blocks : List (Nat × Block)) : List (Nat × Mem) := blocks.map fun entry => (entry.1, entry.2.buf)

/-- The byte at an offset, in the block that a search for it finds. -/
def Channel.byte (channel : Channel) (p : Nat) : Option UInt8 :=
  (searchKey (blockAlign p) (bufs channel.blocks)).map fun buf => buf (p - blockAlign p)

theorem search_bufs (key : Nat) (blocks : List (Nat × Block)) :
    searchKey key (bufs blocks) = (searchKey key blocks).map Block.buf :=
  search_map (fun _ block => Block.buf block)

theorem bufs_length (blocks : List (Nat × Block)) : (bufs blocks).length = blocks.length :=
  List.length_map _

section
variable {channel : Channel} {supply : Supply} {align : Nat}

theorem recd_blocks : ∃ blocks, channel.recdLast supply = { channel with blocks := blocks } ∧
    bufs blocks = bufs channel.blocks := by
  rw [Channel.recdLast]
  split
  · exact ⟨channel.blocks, rfl, rfl⟩
  · rename_i key block hlast
    obtain ⟨rest, hrest⟩ := List.getLast?_eq_some_iff.mp hlast
    exact ⟨_, rfl, by simp [bufs, hrest]⟩

/-- Without a block that has the key, `gop_write` gives up, has one of the pool, or has the first
of those that are saved. -/
theorem take_cases :
    (∃ blocks mp, channel.takeBlock supply align = ({ channel with blocks := blocks, mp := mp }, false) ∧
      bufs blocks = bufs channel.blocks ∧ mp ≤ channel.mp) ∨
    (∃ blocks mp, channel.takeBlock supply align = ({ channel with blocks := blocks, mp := mp }, true) ∧
      bufs blocks = insertKey align supply.fill (bufs channel.blocks) ∧ mp + 1 = channel.mp) ∨
    ∃ blocks key buf rest, channel.takeBlock supply align =
        ({ channel with blocks := blocks, freed := channel.freed ++ [key] }, true) ∧
      bufs blocks = insertKey align buf rest ∧ (bufs channel.blocks).Perm ((key, buf) :: rest) := by
  obtain ⟨blocks, hrecd, hbufs⟩ := @recd_blocks channel supply
  rw [Channel.takeBlock, hrecd]
  by_cases hmp : channel.mp = 0
  · simp only [hmp, if_true]
    split
    · exact .inl ⟨blocks, 0, by rw [← hmp], hbufs, le_refl 0⟩
    · rename_i key block hfind
      obtain ⟨hsaved, front, back, rfl, hfront⟩ := List.find?_eq_some_iff_append.mp hfind
      have hstate : block.state = .saved := of_decide_eq_true hsaved
      have herase : (front ++ (key, block) :: back).eraseP (fun entry => entry.2.state = .saved) =
          front ++ back := by
        rw [List.eraseP_append_right _ (by simpa using hfront)]
        simp [hstate]
      refine .inr (.inr ⟨_, key, block.buf, bufs (front ++ back), rfl, ?_, ?_⟩)
      · rw [herase]
        exact insert_map Block.buf
      · rw [← hbufs]
        simp only [bufs, List.map_append, List.map_cons]
        exact List.perm_middle
  · simp only [hmp, if_false]
    split
    · refine .inr (.inl ⟨_, _, rfl, ?_, by omega⟩)
      rw [← hbufs]
      exact insert_map Block.buf
    · exact .inl ⟨blocks, _, rfl, hbufs, by omega⟩

theorem fill_bufs {dst : Nat} {bytes : List UInt8} :
    bufs (channel.fillBlock align dst bytes).blocks = (bufs channel.blocks).map fun entry =>
      (entry.1, if entry.1 = align then memcpy entry.2 dst bytes else entry.2) := by
  simp only [bufs, Channel.fillBlock, List.map_map]
  refine List.map_congr_left fun entry _ => ?_
  simp only [Function.comp]
  split <;> rfl

theorem find_freed : channel.freed <+: (channel.findBlock supply align).1.freed := by
  rw [Channel.findBlock]
  split
  · exact List.prefix_refl _
  · obtain ⟨blocks, mp, htake, -⟩ | ⟨blocks, mp, htake, -⟩ | ⟨blocks, key, buf, rest, htake, -⟩ :=
      @take_cases channel supply align
    · rw [htake]
    · rw [htake]
    · rw [htake]
      exact List.prefix_append _ _

theorem find_frame : ∃ blocks mp freed, (channel.findBlock supply align).1 =
    { channel with blocks := blocks, mp := mp, freed := freed } := by
  rw [Channel.findBlock]
  split
  · exact ⟨_, _, _, rfl⟩
  · obtain ⟨blocks, mp, htake, -⟩ | ⟨blocks, mp, htake, -⟩ | ⟨blocks, key, buf, rest, htake, -⟩ :=
      @take_cases channel supply align <;> exact ⟨_, _, _, by rw [htake]⟩

end

section
variable {supply : Nat → Supply} {channel : Channel} {gop : Gop} {buf : List UInt8}

theorem loop_freed {rounds : Nat} :
    channel.freed <+: (gopWriteLoop rounds supply channel gop buf).1.freed := by
  induction rounds generalizing supply channel gop buf with
  | zero => exact List.prefix_refl _
  | succ rounds ih =>
    rw [gopWriteLoop]
    split
    · exact List.prefix_refl _
    · dsimp only
      split
      · exact find_freed.trans (@ih _ (Channel.fillBlock _ _ _ _) _ _)
      · exact find_freed

/-- The gops are in the list, and `gop_write` does not touch it. -/
theorem loop_frame {rounds : Nat} : ∃ blocks mp freed, (gopWriteLoop rounds supply channel gop buf).1 =
    { channel with blocks := blocks, mp := mp, freed := freed } := by
  induction rounds generalizing supply channel gop buf with
  | zero => exact ⟨_, _, _, rfl⟩
  | succ rounds ih =>
    rw [gopWriteLoop]
    split
    · exact ⟨_, _, _, rfl⟩
    · dsimp only
      obtain ⟨blocks, mp, freed, hfound⟩ :=
        @find_frame channel (supply 0) (blockAlign (gop.offset + gop.len))
      split
      · obtain ⟨blocks', mp', freed', hrest⟩ := @ih (fun n => supply (n + 1)) (Channel.fillBlock
          (channel.findBlock (supply 0) (blockAlign (gop.offset + gop.len))).1 _ _ _) _ _
        refine ⟨blocks', mp', freed', hrest.trans ?_⟩
        rw [hfound]
        rfl
      · exact ⟨_, _, _, hfound⟩

/-- A write goes on with the gop, and cuts off what there is no block for. -/
theorem loop_bytes {rounds : Nat} : ∃ n ≤ buf.length, (gopWriteLoop rounds supply channel gop buf).2 =
    { gop with len := gop.len + n, written := gop.written ++ buf.take n } := by
  induction rounds generalizing supply channel gop buf with
  | zero => exact ⟨0, Nat.zero_le _, by simp [gopWriteLoop]⟩
  | succ rounds ih =>
    rw [gopWriteLoop]
    split
    · exact ⟨0, Nat.zero_le _, by simp⟩
    · dsimp only
      split
      · obtain ⟨n, hn⟩ : ∃ n, n = min buf.length
          (blockSize - (gop.offset + gop.len - blockAlign (gop.offset + gop.len))) := ⟨_, rfl⟩
        obtain ⟨m, hm, hrest⟩ := @ih (fun n => supply (n + 1)) (Channel.fillBlock
          (channel.findBlock (supply 0) (blockAlign (gop.offset + gop.len))).1
          (blockAlign (gop.offset + gop.len))
          (gop.offset + gop.len - blockAlign (gop.offset + gop.len)) (buf.take n))
          { gop with len := gop.len + n, written := gop.written ++ buf.take n } (buf.drop n)
        rw [List.length_drop] at hm
        refine ⟨n + m, by omega, ?_⟩
        rw [← hn, hrest, List.take_add, List.append_assoc, Nat.add_assoc]
      · exact ⟨0, Nat.zero_le _, by simp⟩

@[simp] theorem write_gops : (gopWrite supply channel gop buf).1.gops = channel.gops := by
  obtain ⟨blocks, mp, freed, h⟩ := @loop_frame supply channel gop buf buf.length
  rw [gopWrite, h]

@[simp] theorem write_gop_id : (gopWrite supply channel gop buf).1.gopId = channel.gopId := by
  obtain ⟨blocks, mp, freed, h⟩ := @loop_frame supply channel gop buf buf.length
  rw [gopWrite, h]

@[simp] theorem write_gopsize : (gopWrite supply channel gop buf).1.gopsize = channel.gopsize := by
  obtain ⟨blocks, mp, freed, h⟩ := @loop_frame supply channel gop buf buf.length
  rw [gopWrite, h]

@[simp] theorem write_pmt_pid : (gopWrite supply channel gop buf).1.pmtPid = channel.pmtPid := by
  obtain ⟨blocks, mp, freed, h⟩ := @loop_frame supply channel gop buf buf.length
  rw [gopWrite, h]

@[simp] theorem write_idx : (gopWrite supply channel gop buf).2.idx = gop.idx := by
  obtain ⟨n, -, h⟩ := @loop_bytes supply channel gop buf buf.length
  rw [gopWrite, h]

@[simp] theorem write_offset : (gopWrite supply channel gop buf).2.offset = gop.offset := by
  obtain ⟨n, -, h⟩ := @loop_bytes supply channel gop buf buf.length
  rw [gopWrite, h]

theorem write_len : gop.len ≤ (gopWrite supply channel gop buf).2.len := by
  obtain ⟨n, -, h⟩ := @loop_bytes supply channel gop buf buf.length
  rw [gopWrite, h]
  exact Nat.le_add_right _ _

theorem op_freed (op : Write) : channel.freed <+: (channel.write op).freed := by
  cases op with
  | gop => exact List.prefix_refl _
  | media supply buf =>
    rw [Channel.write]
    split
    · exact List.prefix_refl _
    · exact loop_freed

theorem writes_freed (ops : List Write) : channel.freed <+: (channel.writes ops).freed := by
  induction ops generalizing channel with
  | nil => exact List.prefix_refl _
  | cons op ops ih => exact (op_freed op).trans ih

end

/-- The bytes of gops, one gop behind the other. -/
def stream (gops : List Gop) : List UInt8 := gops.flatMap Gop.written

/-- From an offset on, each gop begins where the one before it ends. -/
def Laid : Nat → List Gop → Prop
  | _, [] => True
  | start, gop :: gops =>
    gop.offset = start ∧ gop.len = gop.written.length ∧ Laid (start + gop.written.length) gops

section
variable {gops front back : List Gop} {gop : Gop} {start : Nat}

theorem stream_append (gops front : List Gop) : stream (gops ++ front) = stream gops ++ stream front :=
  List.flatMap_append

theorem stream_last (front : List Gop) (gop : Gop) : stream (front ++ [gop]) = stream front ++ gop.written := by
  simp [stream]

theorem laid_append :
    Laid start (front ++ back) ↔ Laid start front ∧ Laid (start + (stream front).length) back := by
  induction front generalizing start with
  | nil => simp [Laid, stream]
  | cons gop front ih =>
    simp only [List.cons_append, Laid, ih, stream, List.flatMap_cons, List.length_append]
    rw [Nat.add_assoc, and_assoc, and_assoc]

theorem laid_last : Laid start (front ++ [gop]) ↔ Laid start front ∧
    gop.offset = start + (stream front).length ∧ gop.len = gop.written.length := by
  rw [laid_append]
  simp [Laid]

theorem laid_end (h : Laid 0 (front ++ [gop])) : gop.offset + gop.len = (stream (front ++ [gop])).length := by
  obtain ⟨-, hoffset, hlen⟩ := laid_last.mp h
  rw [hoffset, hlen, stream_last, List.length_append, Nat.zero_add]

theorem new_stream (channel : Channel) :
    stream (channel.gops ++ [channel.newGop]) = stream channel.gops := by
  rw [stream_last, Channel.newGop, List.append_nil]

/-- A new gop begins where the last one ends. -/
theorem new_laid {channel : Channel} (h : Laid 0 channel.gops) :
    Laid 0 (channel.gops ++ [channel.newGop]) := by
  refine laid_last.mpr ⟨h, ?_, rfl⟩
  rw [Channel.newGop, Nat.zero_add]
  rcases List.eq_nil_or_concat channel.gops with hnil | ⟨front, gop, hgops⟩
  · rw [hnil]
    rfl
  · rw [List.concat_eq_append] at hgops
    rw [hgops] at h ⊢
    rw [List.getLast?_concat]
    exact laid_end h

end

end Yclib.Live
