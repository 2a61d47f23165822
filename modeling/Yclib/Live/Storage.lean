import Yclib.Live.Gop

namespace Yclib.Live
open Multimap

section
variable {channel : Channel} {align : Nat}

/-- From the start of all that the channel has received, these bytes are found in its blocks. -/
def Channel.Keeps (channel : Channel) (bytes : List UInt8) : Prop :=
  ∀ p, (h : p < bytes.length) → channel.byte p = some bytes[p]

/-- Bytes that go behind those that are kept are kept with them. -/
theorem fill_keeps {kept bytes : List UInt8} (h : channel.Keeps kept)
    (hblock : (searchKey (blockAlign kept.length) (bufs channel.blocks)).isSome)
    (hfit : bytes.length ≤ blockSize - (kept.length - blockAlign kept.length)) :
    (channel.fillBlock (blockAlign kept.length) (kept.length - blockAlign kept.length) bytes).Keeps
      (kept ++ bytes) := by
  intro p hp
  rw [List.length_append] at hp
  rw [Channel.byte, fill_bufs, search_map (fun key buf =>
    if key = blockAlign kept.length then memcpy buf (kept.length - blockAlign kept.length) bytes else buf)]
  by_cases hold : p < kept.length
  · have hbyte := h p hold
    rw [Channel.byte] at hbyte
    obtain ⟨buf, hsearch, hbuf⟩ := Option.map_eq_some_iff.mp hbyte
    rw [hsearch, List.getElem_append_left hold, Option.map_some, Option.map_some, ← hbuf]
    split
    · rename_i hsame
      rw [memcpy, if_neg]
      simp only [hsame]
      simp only [blockAlign, blockSize] at hsame ⊢
      omega
    · rfl
  · have hsame : blockAlign p = blockAlign kept.length := by
      simp only [blockAlign, blockSize] at hfit ⊢
      omega
    obtain ⟨buf, hsearch⟩ := Option.isSome_iff_exists.mp hblock
    have hle : blockAlign kept.length ≤ kept.length := by
      simp only [blockAlign, blockSize]
      omega
    have hat : p - blockAlign kept.length - (kept.length - blockAlign kept.length) = p - kept.length := by
      omega
    rw [hsame, hsearch, List.getElem_append_right (by omega), Option.map_some, Option.map_some, if_pos rfl,
      memcpy, if_pos (by omega), hat, List.getD_eq_getElem _ _ (by omega)]

/-- What is kept is found as it was, when a block that was not there is put in. -/
theorem insert_keeps {kept : List UInt8} {blocks : List (Nat × Block)} {mp : Nat} {fill : Mem}
    (h : channel.Keeps kept) (hnone : searchKey align (bufs channel.blocks) = none)
    (hblocks : bufs blocks = insertKey align fill (bufs channel.blocks)) :
    Channel.Keeps { channel with blocks := blocks, mp := mp } kept := by
  intro p hp
  have hbyte := h p hp
  rw [Channel.byte] at hbyte ⊢
  have hne : blockAlign p ≠ align := by
    rintro rfl
    rw [hnone] at hbyte
    cases hbyte
  rw [hblocks, search_insert_other hne]
  exact hbyte

end

/-- The gops of a channel, the one that is not in its list yet with them, and its blocks, as long
as no block has been freed. -/
structure Stored (channel : Channel) (gops : List Gop) : Prop where
  laid : Laid 0 gops
  kept : channel.Keeps (stream gops)
  behind : ∀ entry ∈ bufs channel.blocks, entry.1 < (stream gops).length
  room : (stream gops).length ≤ channel.blocks.length * blockSize
  few : channel.blocks.length + channel.mp ≤ mpoolBlocks

section
variable {gops : List Gop}

/-- All that is kept is in the blocks of the pool. -/
theorem stored_small {channel : Channel} (h : Stored channel gops) :
    (stream gops).length ≤ mpoolBlocks * blockSize :=
  h.room.trans (Nat.mul_le_mul_right _ (Nat.le_of_add_right_le h.few))

end

section
variable {channel : Channel} {supply : Supply} {front : List Gop} {gop : Gop}

/-- A block for what comes next, with room up to its end. -/
structure Ready (channel : Channel) (bytes : List UInt8) : Prop where
  kept : channel.Keeps bytes
  block : (searchKey (blockAlign bytes.length) (bufs channel.blocks)).isSome
  behind : ∀ entry ∈ bufs channel.blocks, entry.1 ≤ bytes.length
  room : blockAlign bytes.length + blockSize ≤ channel.blocks.length * blockSize
  few : channel.blocks.length + channel.mp ≤ mpoolBlocks

theorem find_stored {gops : List Gop} (h : Stored channel gops)
    (hfreed : (channel.findBlock supply (blockAlign (stream gops).length)).1.freed = channel.freed) :
    ((channel.findBlock supply (blockAlign (stream gops).length)).2 = false ∧
      Stored (channel.findBlock supply (blockAlign (stream gops).length)).1 gops) ∨
    ((channel.findBlock supply (blockAlign (stream gops).length)).2 = true ∧
      Ready (channel.findBlock supply (blockAlign (stream gops).length)).1 (stream gops)) := by
  have hroom := h.room
  have hfew := h.few
  rw [Channel.findBlock] at hfreed ⊢
  split
  · rename_i hsome
    rw [← Option.isSome_map, ← search_bufs] at hsome
    obtain ⟨buf, hsearch⟩ := Option.isSome_iff_exists.mp hsome
    have hlt : blockAlign (stream gops).length < (stream gops).length := h.behind _ (search_some hsearch)
    refine .inr ⟨rfl, h.kept, hsome, fun entry hm => (h.behind entry hm).le, ?_, h.few⟩
    simp only [blockAlign, blockSize] at hlt hroom ⊢
    omega
  · rename_i hsome
    rw [if_neg hsome] at hfreed
    have hnone : searchKey (blockAlign (stream gops).length) (bufs channel.blocks) = none := by
      rw [search_bufs, Option.map_eq_none_iff]
      exact Option.not_isSome_iff_eq_none.mp hsome
    obtain ⟨blocks, mp, htake, hbufs, hmp⟩ | ⟨blocks, mp, htake, hbufs, hmp⟩ |
        ⟨blocks, key, buf, rest, htake, -, -⟩ :=
      @take_cases channel supply (blockAlign (stream gops).length)
    · have hlen : blocks.length = channel.blocks.length := by
        rw [← bufs_length, hbufs, bufs_length]
      rw [htake]
      refine .inl ⟨rfl, h.laid, ?_, ?_, ?_, ?_⟩
      · intro p hp
        rw [← h.kept p hp, Channel.byte, Channel.byte, hbufs]
      · rw [hbufs]
        exact h.behind
      · rw [hlen]
        exact hroom
      · simp only [hlen]
        omega
    · have hlen : blocks.length = channel.blocks.length + 1 := by
        rw [← bufs_length, hbufs, insert_perm.length_eq, List.length_cons, bufs_length]
      rw [htake]
      refine .inr ⟨rfl, insert_keeps h.kept hnone hbufs, ?_, ?_, ?_, ?_⟩
      · rw [hbufs, search_insert hnone]
        rfl
      · intro entry hm
        rw [hbufs] at hm
        rcases mem_insert.mp hm with rfl | hm
        · exact Nat.div_mul_le_self _ _
        · exact (h.behind entry hm).le
      · simp only [hlen, blockAlign, blockSize] at hroom ⊢
        omega
      · simp only [hlen]
        omega
    · rw [htake] at hfreed
      simp at hfreed

/-- Bytes that go behind all others are kept as the last gop's. -/
theorem fill_stored (hlaid : Laid 0 (front ++ [gop])) (h : Ready channel (stream (front ++ [gop])))
    {bytes : List UInt8} (hne : bytes ≠ [])
    (hfit : bytes.length ≤ blockSize -
      ((stream (front ++ [gop])).length - blockAlign (stream (front ++ [gop])).length)) :
    Stored (channel.fillBlock (blockAlign (stream (front ++ [gop])).length)
        ((stream (front ++ [gop])).length - blockAlign (stream (front ++ [gop])).length) bytes)
      (front ++ [{ gop with len := gop.len + bytes.length, written := gop.written ++ bytes }]) := by
  have hpos := List.length_pos_iff.mpr hne
  have hroom := h.room
  have hlen : ∀ align dst, (channel.fillBlock align dst bytes).blocks.length = channel.blocks.length :=
    fun _ _ => List.length_map _
  obtain ⟨hfront, hoffset, hgop⟩ := laid_last.mp hlaid
  have hstream : stream (front ++ [{ gop with len := gop.len + bytes.length, written := gop.written ++ bytes }]) =
      stream (front ++ [gop]) ++ bytes := by
    rw [stream_last, stream_last, List.append_assoc]
  constructor
  · exact laid_last.mpr ⟨hfront, hoffset, by simp only [List.length_append, hgop]⟩
  · rw [hstream]
    exact fill_keeps h.kept h.block hfit
  · intro entry hm
    rw [hstream, List.length_append]
    rw [fill_bufs] at hm
    obtain ⟨entry', hm', rfl⟩ := List.mem_map.mp hm
    exact Nat.lt_of_le_of_lt (h.behind entry' hm') (Nat.lt_add_of_pos_right hpos)
  · rw [hstream, hlen, List.length_append]
    simp only [blockAlign, blockSize] at hfit hroom ⊢
    omega
  · rw [hlen]
    exact h.few

end

section
variable {supply : Nat → Supply} {channel : Channel} {front : List Gop} {gop : Gop} {buf : List UInt8}

/-- As long as no block is freed, a write to the last gop keeps what has been written before. -/
theorem loop_stored {rounds : Nat} (h : Stored channel (front ++ [gop]))
    (hfreed : (gopWriteLoop rounds supply channel gop buf).1.freed = channel.freed) :
    Stored (gopWriteLoop rounds supply channel gop buf).1
      (front ++ [(gopWriteLoop rounds supply channel gop buf).2]) := by
  induction rounds generalizing supply channel gop buf with
  | zero => exact h
  | succ rounds ih =>
    rw [gopWriteLoop] at hfreed ⊢
    split
    · exact h
    · rename_i hbuf
      rw [if_neg hbuf] at hfreed
      dsimp only at hfreed ⊢
      rw [laid_end h.laid] at hfreed ⊢
      split
      · rename_i hfound
        rw [if_pos hfound] at hfreed
        have hsame : channel.freed =
            (channel.findBlock (supply 0) (blockAlign (stream (front ++ [gop])).length)).1.freed := by
          refine List.IsPrefix.eq_of_length_le find_freed (hfreed ▸ List.IsPrefix.length_le ?_)
          exact @loop_freed _ (Channel.fillBlock _ _ _ _) _ _ _
        obtain ⟨hnot, -⟩ | ⟨-, hready⟩ := find_stored h hsame.symm
        · rw [hnot] at hfound
          cases hfound
        · have hne : buf.take (min buf.length (blockSize -
              ((stream (front ++ [gop])).length - blockAlign (stream (front ++ [gop])).length))) ≠ [] := by
            have hpos := List.length_pos_iff.mpr hbuf
            rw [← List.length_pos_iff, List.length_take_of_le (Nat.min_le_left _ _)]
            simp only [blockAlign, blockSize]
            omega
          have hlen := List.length_take_of_le (Nat.min_le_left buf.length (blockSize -
            ((stream (front ++ [gop])).length - blockAlign (stream (front ++ [gop])).length)))
          have hfill := fill_stored h.laid hready hne (hlen.le.trans (Nat.min_le_right _ _))
          rw [hlen] at hfill
          exact ih hfill (hfreed.trans hsame)
      · rename_i hfound
        rw [if_neg hfound] at hfreed
        obtain ⟨-, hstored⟩ | ⟨hthere, -⟩ := find_stored h hfreed
        · exact hstored
        · exact absurd hthere hfound

theorem write_stored (h : Stored channel (front ++ [gop]))
    (hfreed : (gopWrite supply channel gop buf).1.freed = channel.freed) :
    Stored (gopWrite supply channel gop buf).1 (front ++ [(gopWrite supply channel gop buf).2]) :=
  loop_stored h hfreed

end

section
variable {channel : Channel} {front back : List Gop} {gop : Gop}

/-- The bytes from an offset on, up to the end of the block, are those that are kept. -/
theorem keeps_slice {kept : List UInt8} (h : channel.Keeps kept) {p n : Nat} (hn : 0 < n)
    (hend : p + n ≤ kept.length) (hfit : n ≤ blockSize - (p - blockAlign p)) :
    ∃ block, searchKey (blockAlign p) channel.blocks = some block ∧
      slice block.buf (p - blockAlign p) n = (kept.drop p).take n := by
  have hfirst := h p (by omega)
  rw [Channel.byte, search_bufs, Option.map_map] at hfirst
  obtain ⟨block, hsearch, -⟩ := Option.map_eq_some_iff.mp hfirst
  refine ⟨block, hsearch, List.ext_getElem ?_ ?_⟩
  · simp only [slice_length, List.length_take, List.length_drop]
    omega
  · intro i hi _
    rw [slice_length] at hi
    have hbyte := h (p + i) (by omega)
    have hsame : blockAlign (p + i) = blockAlign p := by
      simp only [blockAlign, blockSize] at hfit ⊢
      omega
    have hat : p + i - blockAlign p = p - blockAlign p + i := by
      simp only [blockAlign, blockSize]
      omega
    rw [Channel.byte, search_bufs, hsame, hsearch, hat] at hbyte
    simpa [slice] using hbyte

/-- The loop of `yms_attach_buffer` comes to an end with the bytes that are kept. -/
theorem attach_kept {kept : List UInt8} (h : channel.Keeps kept)
    (hend : gop.offset + gop.len ≤ kept.length) (hsmall : gop.len < 2 ^ 32) {left sendbytes : Nat}
    (hleft : sendbytes + left = gop.len) : ∃ rounds pieces,
      ymsAttachBuffer channel gop rounds sendbytes = some pieces ∧
        pieces.flatten = (kept.drop (gop.offset + sendbytes)).take left := by
  induction left using Nat.strong_induction_on generalizing sendbytes with
  | _ left ih =>
    by_cases hmore : sendbytes < gop.len
    · obtain ⟨p, hp⟩ : ∃ p, p = gop.offset + sendbytes := ⟨_, rfl⟩
      obtain ⟨n, hn⟩ : ∃ n, n = min (blockSize - (p - blockAlign p)) left := ⟨_, rfl⟩
      have hpos : 0 < n := by
        simp only [hn, blockAlign, blockSize]
        omega
      obtain ⟨block, hsearch, hslice⟩ := keeps_slice h hpos (p := p) (by omega) (by omega)
      obtain ⟨rounds, pieces, hrest, hpieces⟩ := @ih (left - n) (by omega) (sendbytes + n) (by omega)
      have hleft' : gop.len - sendbytes = left := by omega
      refine ⟨rounds + 1, slice block.buf (p - blockAlign p) n :: pieces, ?_, ?_⟩
      · rw [ymsAttachBuffer, if_pos hmore]
        simp only [← hp, hsearch, hleft', ← hn]
        rw [u32_of_lt (by omega), hrest, Option.map_some]
      · rw [List.flatten_cons, hpieces, hslice, ← hp, ← Nat.add_assoc, ← hp, ← List.drop_drop, ← List.take_add]
        congr 1
        omega
    · refine ⟨1, [], by rw [ymsAttachBuffer, if_neg hmore], ?_⟩
      have hnone : left = 0 := by omega
      rw [hnone]
      rfl

/-- The buffers of a gop are all there, and they are what was written to it. -/
theorem stored_attached {gops : List Gop} (h : Stored channel gops) (hgop : gop ∈ gops) :
    ∃ rounds pieces, ymsAttachBuffer channel gop rounds 0 = some pieces ∧ pieces.flatten = gop.written := by
  obtain ⟨front, back, rfl⟩ := List.append_of_mem hgop
  obtain ⟨-, hoffset, hlen, -⟩ := laid_append.mp h.laid
  have hstream : stream (front ++ gop :: back) = stream front ++ (gop.written ++ stream back) := by
    rw [stream_append]
    rfl
  have hbound := stored_small h
  rw [Nat.zero_add] at hoffset
  rw [hstream, List.length_append, List.length_append] at hbound
  simp only [mpoolBlocks, blockSize] at hbound
  have hend : gop.offset + gop.len ≤ (stream (front ++ gop :: back)).length := by
    rw [hstream, List.length_append, List.length_append, hoffset, hlen]
    omega
  obtain ⟨rounds, pieces, hattach, hpieces⟩ := attach_kept h.kept hend (by omega) (Nat.zero_add gop.len)
  refine ⟨rounds, pieces, hattach, ?_⟩
  rw [hpieces, hstream, Nat.add_zero, hoffset, List.drop_left, hlen, List.take_left]

end

section
variable {channel : Channel} {gops : List Gop}

theorem create_stored (gopsize : Nat) : Stored (Channel.create gopsize) [] :=
  ⟨trivial, fun _ h => absurd h (Nat.not_lt_zero _), by simp [Channel.create, bufs], Nat.zero_le _, by
    simp [Channel.create]⟩

/-- What a gop keeps and where is not about the rest of the channel. -/
theorem stored_frame {channel' : Channel} (h : Stored channel gops) (hblocks : channel'.blocks = channel.blocks)
    (hmp : channel'.mp = channel.mp) : Stored channel' gops := by
  refine ⟨h.laid, fun p hp => ?_, ?_, ?_, ?_⟩
  · rw [← h.kept p hp, Channel.byte, Channel.byte, hblocks]
  · rw [hblocks]
    exact h.behind
  · rw [hblocks]
    exact h.room
  · rw [hblocks, hmp]
    exact h.few

/-- A new gop has nothing. -/
theorem new_stored (h : Stored channel channel.gops) :
    Stored channel (channel.gops ++ [channel.newGop]) := by
  have hstream := new_stream channel
  exact ⟨new_laid h.laid, hstream ▸ h.kept, hstream ▸ h.behind, hstream ▸ h.room, h.few⟩

theorem op_stored (h : Stored channel channel.gops) (op : Write)
    (hfreed : (channel.write op).freed = channel.freed) :
    Stored (channel.write op) (channel.write op).gops := by
  cases op with
  | gop => exact stored_frame (new_stored h) rfl rfl
  | media supply buf =>
    rw [Channel.write] at hfreed ⊢
    split
    · exact h
    · rename_i gop hlast
      rw [hlast] at hfreed
      obtain ⟨front, hgops⟩ := List.getLast?_eq_some_iff.mp hlast
      rw [hgops] at h
      have hstored := write_stored h hfreed
      rw [hgops, List.dropLast_concat]
      exact stored_frame hstored rfl rfl

theorem writes_stored (h : Stored channel channel.gops) (ops : List Write)
    (hfreed : (channel.writes ops).freed = channel.freed) :
    Stored (channel.writes ops) (channel.writes ops).gops := by
  induction ops generalizing channel with
  | nil => exact h
  | cons op ops ih =>
    have hsame : channel.freed = (channel.write op).freed :=
      (op_freed op).eq_of_length_le (hfreed ▸ (writes_freed ops).length_le)
    exact ih (op_stored h op hsame.symm) (hfreed.trans hsame)

end

/-- As long as no block has been freed for new content, the buffers that are attached for a gop
are the bytes that have been written to it. -/
theorem gop_attached (gopsize : Nat) (ops : List Write)
    (hfreed : ((Channel.create gopsize).writes ops).freed = []) :
    ∀ gop ∈ ((Channel.create gopsize).writes ops).gops, ∃ rounds pieces,
      ymsAttachBuffer ((Channel.create gopsize).writes ops) gop rounds 0 = some pieces ∧
        pieces.flatten = gop.written := by
  intro gop hgop
  exact stored_attached (writes_stored (create_stored gopsize) ops hfreed) hgop

/-- Four operations of a channel that holds one gop. -/
def twoGops : List Write := [.gop, .media ample [1, 2], .gop, .media ample [3]]

theorem gop_attached_two : ((Channel.create 1).writes twoGops).freed = [] ∧
    ∀ gop ∈ ((Channel.create 1).writes twoGops).gops, ∃ rounds pieces,
      ymsAttachBuffer ((Channel.create 1).writes twoGops) gop rounds 0 = some pieces ∧
        pieces.flatten = gop.written :=
  ⟨rfl, gop_attached 1 twoGops rfl⟩

end Yclib.Live
