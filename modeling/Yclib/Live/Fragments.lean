import Yclib.Live.Ingest
import Yclib.Live.Storage

namespace Yclib.Live
open Multimap

/-! The fragments that clients request, and what the recycling of blocks makes of them. -/

/-- The newest gop that has the number, with those behind it. -/
def fromGop (id : Nat) : List Gop → Option (List Gop)
  | [] => none
  | gop :: gops => (fromGop id gops).or (if gop.idx = id then some (gop :: gops) else none)

/-- The gops that `yms_live_req` attaches the buffers of for a fragment, where it finds them all. -/
def Channel.liveReq (channel : Channel) (fragId : Nat) : Option (List Gop) :=
  (fromGop (u32 (fragId * channel.gopsize)) channel.gops).bind fun gops =>
    if gops.length < channel.gopsize then none else some (gops.take channel.gopsize)

/-- All blocks of a gop are there and hold its bytes, and `yms_attach_buffer` ends with them. -/
structure Intact (channel : Channel) (gop : Gop) : Prop where
  attached : ∃ rounds pieces, ymsAttachBuffer channel gop rounds 0 = some pieces ∧
    pieces.flatten = gop.written
  resident : ∀ k, (h : k < gop.written.length) → channel.byte (gop.offset + k) = some gop.written[k]

/-- The keys of the blocks. -/
def Channel.keys (channel : Channel) : List Nat := (bufs channel.blocks).map Prod.fst

/-- What there is of the blocks and of those that were freed, when so many bytes have been written:
a block that was freed does not come back. -/
structure Placed (channel : Channel) (size : Nat) : Prop where
  once : channel.keys.Nodup
  starts : ∀ key ∈ channel.keys, blockAlign key = key ∧ key < size
  here : blockAlign size < size → blockAlign size ∈ channel.keys
  freed : ∀ key ∈ channel.freed, blockAlign key = key ∧ key + blockSize ≤ size ∧ key ∉ channel.keys

section
variable {channel channel' : Channel} {gop : Gop} {gops : List Gop}

theorem search_keys {key : Nat} : (searchKey key channel.blocks).isSome ↔ key ∈ channel.keys := by
  constructor
  · intro h
    obtain ⟨block, hsearch⟩ := Option.isSome_iff_exists.mp h
    have hbufs := search_bufs key channel.blocks
    rw [hsearch, Option.map_some] at hbufs
    exact List.mem_map_of_mem (search_some hbufs)
  · intro h
    by_contra hnot
    have hbufs := search_bufs key channel.blocks
    rw [Option.not_isSome_iff_eq_none.mp hnot, Option.map_none] at hbufs
    obtain ⟨entry, hm, rfl⟩ := List.mem_map.mp h
    exact search_none hbufs entry hm rfl

/-- Where `yms_attach_buffer` ends, it has found each block that the gop has bytes in. -/
theorem attach_found {rounds sendbytes : Nat} {pieces : List (List UInt8)}
    (h : ymsAttachBuffer channel gop rounds sendbytes = some pieces) (hs : sendbytes < 2 ^ 32) :
    ∀ k, sendbytes ≤ k → k < gop.len → blockAlign (gop.offset + k) ∈ channel.keys := by
  induction rounds generalizing sendbytes pieces with
  | zero => cases h
  | succ rounds ih =>
    intro k hk hlen
    rw [ymsAttachBuffer, if_pos (hk.trans_lt hlen)] at h
    dsimp only at h
    split at h
    · exact ih h hs k hk hlen
    · rename_i block hsearch
      obtain ⟨n, hn⟩ : ∃ n, n = min (blockSize - (gop.offset + sendbytes - blockAlign (gop.offset + sendbytes)))
        (gop.len - sendbytes) := ⟨_, rfl⟩
      rw [← hn] at h
      obtain ⟨rest, hrest, -⟩ := Option.map_eq_some_iff.mp h
      have hsmall : n ≤ blockSize := by omega
      by_cases hin : k < sendbytes + n
      · have hsame : blockAlign (gop.offset + k) = blockAlign (gop.offset + sendbytes) := by
          simp only [blockAlign, blockSize] at hn ⊢
          omega
        rw [hsame, ← search_keys, hsearch]
        rfl
      · -- the counter may have gone around, and then it is behind the block it came from
        refine ih hrest (Nat.mod_lt _ (by decide)) k ?_ hlen
        rw [u32]
        exact (Nat.mod_le _ _).trans (by omega)

theorem fill_keys {align dst : Nat} {bytes : List UInt8} :
    (channel.fillBlock align dst bytes).keys = channel.keys := by
  rw [Channel.keys, fill_bufs, List.map_map]
  rfl

theorem insert_keys {blocks : List (Nat × Block)} {align : Nat} {buf : Mem} {rest : List (Nat × Mem)}
    (h : bufs blocks = insertKey align buf rest) :
    ((bufs blocks).map Prod.fst).Perm (align :: rest.map Prod.fst) := by
  rw [h]
  exact insert_perm.map Prod.fst

/-- What there is when a round of `gop_write` has a block for what comes next. -/
structure Open (channel : Channel) (size : Nat) : Prop where
  once : channel.keys.Nodup
  starts : ∀ key ∈ channel.keys, blockAlign key = key ∧ key ≤ size
  here : blockAlign size ∈ channel.keys
  freed : ∀ key ∈ channel.freed, blockAlign key = key ∧ key + blockSize ≤ size ∧ key ∉ channel.keys

theorem open_placed {size n : Nat} (h : Open channel size) (hpos : 0 < n)
    (hn : n ≤ blockSize - (size - blockAlign size)) (dst : Nat) (bytes : List UInt8) :
    Placed (channel.fillBlock (blockAlign size) dst bytes) (size + n) := by
  constructor
  · rw [fill_keys]
    exact h.once
  · rw [fill_keys]
    exact fun key hkey => ⟨(h.starts key hkey).1, Nat.lt_of_le_of_lt (h.starts key hkey).2 (by omega)⟩
  · intro hlt
    have hsame : blockAlign (size + n) = blockAlign size := by
      simp only [blockAlign, blockSize] at hn hlt ⊢
      omega
    rw [fill_keys, hsame]
    exact h.here
  · rw [fill_keys]
    intro key hkey
    obtain ⟨halign, hbefore, hgone⟩ := h.freed key hkey
    exact ⟨halign, hbefore.trans (Nat.le_add_right _ _), hgone⟩

/-- A new block begins where the content ends, and those that are freed lie in front of it. -/
theorem insert_open {channel' : Channel} {size : Nat} {rest : List Nat} (h : Placed channel size)
    (hsize : blockAlign size = size) (hnot : size ∉ channel.keys)
    (hkeys : channel'.keys.Perm (size :: rest)) (honce : rest.Nodup) (hrest : ∀ key ∈ rest, key ∈ channel.keys)
    (hfreed : ∀ key ∈ channel'.freed, blockAlign key = key ∧ key + blockSize ≤ size ∧ key ∉ rest) :
    Open channel' size := by
  constructor
  · exact hkeys.nodup_iff.mpr (List.nodup_cons.mpr ⟨fun hm => hnot (hrest _ hm), honce⟩)
  · intro key hkey
    rcases List.mem_cons.mp (hkeys.mem_iff.mp hkey) with rfl | hkey
    · exact ⟨hsize, le_refl _⟩
    · exact ⟨(h.starts key (hrest key hkey)).1, (h.starts key (hrest key hkey)).2.le⟩
  · rw [hsize]
    exact hkeys.mem_iff.mpr List.mem_cons_self
  · intro key hkey
    obtain ⟨halign, hbefore, hgone⟩ := hfreed key hkey
    refine ⟨halign, hbefore, fun hm => ?_⟩
    rcases List.mem_cons.mp (hkeys.mem_iff.mp hm) with rfl | hm
    · simp only [blockSize] at hbefore
      omega
    · exact hgone hm

/-- A round of `gop_write` has a block then, or leaves what there was. -/
theorem find_placed {supply : Supply} {size : Nat} (h : Placed channel size) :
    ((channel.findBlock supply (blockAlign size)).2 = false ∧
      Placed (channel.findBlock supply (blockAlign size)).1 size) ∨
    ((channel.findBlock supply (blockAlign size)).2 = true ∧
      Open (channel.findBlock supply (blockAlign size)).1 size) := by
  rw [Channel.findBlock]
  split
  · rename_i hsome
    exact .inr ⟨rfl, h.once, fun key hkey => ⟨(h.starts key hkey).1, (h.starts key hkey).2.le⟩,
      search_keys.mp hsome, h.freed⟩
  · rename_i hsome
    have hnot : blockAlign size ∉ channel.keys := fun hm => hsome (search_keys.mpr hm)
    have hsize : blockAlign size = size :=
      Nat.le_antisymm (Nat.div_mul_le_self _ _) (Nat.le_of_not_lt fun hlt => hnot (h.here hlt))
    rw [hsize] at hnot ⊢
    obtain ⟨blocks, mp, htake, hbufs, -⟩ | ⟨blocks, mp, htake, hbufs, -⟩ |
        ⟨blocks, key, buf, rest, htake, hbufs, hperm⟩ := @take_cases channel supply size
    · have hkeys : Channel.keys { channel with blocks := blocks, mp := mp } = channel.keys :=
        congrArg (List.map Prod.fst) hbufs
      rw [htake]
      exact .inl ⟨rfl, hkeys ▸ h.once, hkeys ▸ h.starts, hkeys ▸ h.here, hkeys ▸ h.freed⟩
    · rw [htake]
      exact .inr ⟨rfl, insert_open h hsize hnot (insert_keys hbufs) h.once (fun _ hm => hm) h.freed⟩
    · have hold : channel.keys.Perm (key :: rest.map Prod.fst) := hperm.map Prod.fst
      have hnodup := List.nodup_cons.mp (hold.nodup_iff.mp h.once)
      have hrest : ∀ other ∈ rest.map Prod.fst, other ∈ channel.keys := fun other hm =>
        hold.mem_iff.mpr (List.mem_cons_of_mem _ hm)
      obtain ⟨halign, hlt⟩ := h.starts key (hold.mem_iff.mpr List.mem_cons_self)
      rw [htake]
      refine .inr ⟨rfl, insert_open h hsize hnot (insert_keys hbufs) hnodup.2 hrest ?_⟩
      intro other hm
      -- the block that is freed now is whole, as those before it
      rcases List.mem_append.mp hm with hm | hm
      · obtain ⟨halign', hbefore, hgone⟩ := h.freed other hm
        exact ⟨halign', hbefore, fun hm => hgone (hrest other hm)⟩
      · rw [List.mem_singleton.mp hm]
        refine ⟨halign, ?_, hnodup.1⟩
        simp only [blockAlign, blockSize] at halign hsize ⊢
        omega

end

section
variable {supply : Nat → Supply} {channel channel' : Channel} {front gops : List Gop} {gop : Gop}
  {buf : List UInt8}

theorem loop_placed {rounds : Nat} (h : Placed channel (gop.offset + gop.len)) :
    Placed (gopWriteLoop rounds supply channel gop buf).1
      ((gopWriteLoop rounds supply channel gop buf).2.offset +
        (gopWriteLoop rounds supply channel gop buf).2.len) := by
  induction rounds generalizing supply channel gop buf with
  | zero => exact h
  | succ rounds ih =>
    rw [gopWriteLoop]
    split
    · exact h
    · rename_i hbuf
      dsimp only
      obtain ⟨hfound, hplaced⟩ | ⟨hfound, hopen⟩ := @find_placed channel (supply 0) _ h
      · rw [if_neg (by rw [hfound]; decide)]
        exact hplaced
      · rw [if_pos hfound]
        apply ih
        rw [← Nat.add_assoc]
        refine open_placed hopen ?_ (Nat.min_le_right _ _) _ _
        have hpos := List.length_pos_iff.mpr hbuf
        simp only [blockAlign, blockSize]
        omega

theorem write_laid (h : Laid 0 (front ++ [gop])) :
    Laid 0 (front ++ [(gopWrite supply channel gop buf).2]) := by
  obtain ⟨n, hn, hbytes⟩ := @loop_bytes supply channel gop buf buf.length
  obtain ⟨hfront, hoffset, hlen⟩ := laid_last.mp h
  rw [gopWrite, hbytes]
  refine laid_last.mpr ⟨hfront, hoffset, ?_⟩
  rw [List.length_append, List.length_take_of_le hn, hlen]

/-- What is so of the gops and the blocks of a channel, also when blocks have been freed. -/
structure Sound (channel : Channel) (gops : List Gop) : Prop where
  laid : Laid 0 gops
  placed : Placed channel (stream gops).length

theorem write_sound (h : Sound channel (front ++ [gop])) :
    Sound (gopWrite supply channel gop buf).1 (front ++ [(gopWrite supply channel gop buf).2]) := by
  have hlaid := @write_laid supply channel front gop buf h.laid
  refine ⟨hlaid, ?_⟩
  rw [← laid_end hlaid]
  exact loop_placed (by rw [laid_end h.laid]; exact h.placed)

theorem sound_frame (h : Sound channel gops) (hblocks : channel'.blocks = channel.blocks)
    (hfreed : channel'.freed = channel.freed) : Sound channel' gops := by
  have hkeys : channel'.keys = channel.keys := by
    rw [Channel.keys, hblocks, Channel.keys]
  refine ⟨h.laid, hkeys ▸ h.placed.once, hkeys ▸ h.placed.starts, hkeys ▸ h.placed.here, ?_⟩
  rw [hkeys, hfreed]
  exact h.placed.freed

theorem new_sound (h : Sound channel channel.gops) : Sound channel (channel.gops ++ [channel.newGop]) :=
  ⟨new_laid h.laid, by rw [new_stream]; exact h.placed⟩

theorem begin_sound (h : Sound channel channel.gops) (outcome : Outcome) :
    Sound (beginGop outcome channel) (beginGop outcome channel).gops :=
  sound_frame (write_sound (write_sound (sound_frame (new_sound h) rfl rfl))) rfl rfl

theorem media_sound (h : Sound channel channel.gops) :
    Sound (channel.write (.media supply buf)) (channel.write (.media supply buf)).gops := by
  rw [Channel.write]
  split
  · exact h
  · rename_i gop hlast
    obtain ⟨front, hgops⟩ := List.getLast?_eq_some_iff.mp hlast
    rw [hgops] at h
    rw [hgops, List.dropLast_concat]
    exact sound_frame (write_sound h) rfl rfl

theorem begin_freed (outcome : Outcome) : channel.freed <+: (beginGop outcome channel).freed :=
  List.IsPrefix.trans (@loop_freed _ { channel with gopId := u32 (channel.gopId + 1) } _ _ _) loop_freed

theorem begin_stored (h : Stored channel channel.gops) {outcome : Outcome}
    (hfreed : (beginGop outcome channel).freed = channel.freed) :
    Stored (beginGop outcome channel) (beginGop outcome channel).gops := by
  obtain ⟨begun, hbegun⟩ : ∃ begun, begun = { channel with gopId := u32 (channel.gopId + 1) } := ⟨_, rfl⟩
  have hnew : Stored begun (channel.gops ++ [channel.newGop]) := by
    rw [hbegun]
    exact stored_frame (new_stored h) rfl rfl
  have hstart : begun.freed = channel.freed := by rw [hbegun]
  rw [beginGop, ← hbegun] at hfreed ⊢
  dsimp only at hfreed ⊢
  have hpat : begun.freed = (gopWrite (outcome.writes 0) begun channel.newGop channel.pat).1.freed :=
    loop_freed.eq_of_length_le (by rw [hstart, ← hfreed]; exact loop_freed.length_le)
  have hstored := write_stored hnew hpat.symm
  have hstored' := write_stored hstored (hfreed.trans (hstart.symm.trans hpat))
  exact stored_frame hstored' rfl rfl

theorem recv_sound (h : Sound channel channel.gops) {outcome : Outcome} {walker : List UInt8} {more : Bool}
    (hrecv : recvPacket outcome channel walker = some (channel', more)) : Sound channel' channel'.gops := by
  obtain hkept | ⟨begun, rfl | rfl, rfl⟩ := recv_cases hrecv
  · rw [hkept.gops]
    exact sound_frame h hkept.blocks hkept.freed
  · exact media_sound h
  · exact media_sound (begin_sound h outcome)

theorem recv_freed {outcome : Outcome} {walker : List UInt8} {more : Bool}
    (hrecv : recvPacket outcome channel walker = some (channel', more)) : channel.freed <+: channel'.freed := by
  obtain hkept | ⟨begun, rfl | rfl, rfl⟩ := recv_cases hrecv
  · rw [hkept.freed]
  · exact op_freed _
  · exact (begin_freed outcome).trans (op_freed _)

theorem recv_stored (h : Stored channel channel.gops) {outcome : Outcome} {walker : List UInt8} {more : Bool}
    (hrecv : recvPacket outcome channel walker = some (channel', more))
    (hfreed : channel'.freed = channel.freed) : Stored channel' channel'.gops := by
  obtain hkept | ⟨begun, rfl | rfl, rfl⟩ := recv_cases hrecv
  · rw [hkept.gops]
    exact stored_frame h hkept.blocks hkept.mp
  · exact op_stored h _ hfreed
  · have hbegun : channel.freed = (beginGop outcome channel).freed :=
      (begin_freed outcome).eq_of_length_le (hfreed ▸ (op_freed _).length_le)
    exact op_stored (begin_stored h hbegun.symm) _ (hfreed.trans hbegun)

theorem create_sound (gopsize : Nat) : Sound (Channel.create gopsize) [] := by
  refine ⟨trivial, List.nodup_nil, ?_, ?_, ?_⟩
  · intro key hkey
    cases hkey
  · intro hlt
    cases hlt
  · intro key hkey
    cases hkey

theorem leads_sound {gopsize : Nat} (h : Leads (Channel.create gopsize) channel) :
    Sound channel channel.gops ∧ (channel.freed = [] → Stored channel channel.gops) := by
  induction h with
  | refl => exact ⟨create_sound gopsize, fun _ => create_stored gopsize⟩
  | tail _ hstep ih =>
    obtain ⟨outcome, walker, more, hrecv⟩ := hstep
    refine ⟨recv_sound ih.1 hrecv, fun hfreed => ?_⟩
    have hbefore := recv_freed hrecv
    rw [hfreed, List.prefix_nil] at hbefore
    exact recv_stored (ih.2 hbefore) hrecv (hfreed.trans hbefore.symm)

theorem from_gop_none {id : Nat} : fromGop id gops = none ↔ ∀ gop ∈ gops, gop.idx ≠ id := by
  induction gops with
  | nil => simp [fromGop]
  | cons first gops ih =>
    rw [fromGop, Option.or_eq_none_iff, ih, List.forall_mem_cons, and_comm]
    exact and_congr_left' (by simp)

/-- What is found is the newest gop with the number. -/
theorem from_gop_split {id : Nat} {rest : List Gop} (h : fromGop id gops = some rest) :
    ∃ front gop behind, gops = front ++ gop :: behind ∧ rest = gop :: behind ∧ gop.idx = id ∧
      ∀ other ∈ behind, other.idx ≠ id := by
  induction gops with
  | nil => cases h
  | cons first gops ih =>
    rw [fromGop] at h
    cases hlater : fromGop id gops with
    | some later =>
      rw [hlater, Option.some_or] at h
      obtain ⟨front, gop, behind, hgops, hrest⟩ := ih (hlater.trans h)
      exact ⟨first :: front, gop, behind, by rw [hgops]; rfl, hrest⟩
    | none =>
      rw [hlater, Option.none_or] at h
      split at h
      · rename_i hid
        obtain rfl := Option.some.inj h
        exact ⟨[], first, gops, rfl, rfl, hid, from_gop_none.mp hlater⟩
      · cases h

theorem from_gop_newest {front behind : List Gop} {id : Nat} (hid : gop.idx = id)
    (hbehind : ∀ other ∈ behind, other.idx ≠ id) : fromGop id (front ++ gop :: behind) = some (gop :: behind) := by
  induction front with
  | nil => rw [List.nil_append, fromGop, from_gop_none.mpr hbehind, Option.none_or, if_pos hid]
  | cons first front ih => rw [List.cons_append, fromGop, ih, Option.some_or]

theorem from_gop_mem {id : Nat} {rest : List Gop} (h : fromGop id gops = some rest) :
    ∀ gop ∈ rest, gop ∈ gops := by
  obtain ⟨front, gop, behind, rfl, rfl, -⟩ := from_gop_split h
  intro other hm
  exact List.mem_append_right _ hm

theorem live_req_mem {fragId : Nat} {served : List Gop} (h : channel.liveReq fragId = some served) :
    ∀ gop ∈ served, gop ∈ channel.gops := by
  obtain ⟨rest, hfrom, hserved⟩ := Option.bind_eq_some_iff.mp h
  split at hserved
  · cases hserved
  · cases hserved
    exact fun gop hgop => from_gop_mem hfrom gop (List.mem_of_mem_take hgop)

/-- Each byte of the stream is a gop's. -/
theorem laid_covers {start p : Nat} (h : Laid start gops) (hle : start ≤ p)
    (hlt : p < start + (stream gops).length) :
    ∃ gop ∈ gops, gop.offset ≤ p ∧ p < gop.offset + gop.len := by
  induction gops generalizing start with
  | nil =>
    simp [stream] at hlt
    omega
  | cons first gops ih =>
    obtain ⟨hoffset, hlen, hrest⟩ := h
    by_cases hin : p < start + first.written.length
    · exact ⟨first, by simp, by omega, by omega⟩
    · simp only [stream, List.flatMap_cons, List.length_append] at hlt
      obtain ⟨gop, hgop, hbounds⟩ := ih hrest (by omega) (by simp only [stream]; omega)
      exact ⟨gop, List.mem_cons_of_mem _ hgop, hbounds⟩

theorem stored_intact (h : Stored channel gops) (hgop : gop ∈ gops) : Intact channel gop := by
  refine ⟨stored_attached h hgop, fun k hk => ?_⟩
  obtain ⟨front, back, rfl⟩ := List.append_of_mem hgop
  have hoffset := (laid_append.mp h.laid).2.1
  have hstream : stream (front ++ gop :: back) = stream front ++ (gop.written ++ stream back) := by
    rw [stream_append]
    rfl
  have hlt : gop.offset + k < (stream (front ++ gop :: back)).length := by
    rw [hstream, List.length_append, List.length_append]
    omega
  rw [h.kept _ hlt, Option.some_inj]
  simp only [hstream, hoffset, Nat.zero_add]
  rw [List.getElem_append_right (by omega), List.getElem_append_left (by omega)]
  congr 1
  omega

/-- Where a block has been freed, there is a gop whose buffers are looked for without end. -/
theorem freed_stuck (h : Sound channel channel.gops) (hfreed : channel.freed ≠ []) :
    ∃ gop ∈ channel.gops, ∀ rounds, ymsAttachBuffer channel gop rounds 0 = none := by
  obtain ⟨key, hkey⟩ := List.exists_mem_of_ne_nil _ hfreed
  obtain ⟨halign, hbefore, hgone⟩ := h.placed.freed key hkey
  have hpos : 0 < blockSize := by decide
  obtain ⟨gop, hgop, hle, hlt⟩ := laid_covers h.laid (Nat.zero_le key) (by omega)
  refine ⟨gop, hgop, fun rounds => ?_⟩
  by_contra hends
  obtain ⟨pieces, hpieces⟩ := Option.ne_none_iff_exists'.mp hends
  have hfound := attach_found hpieces (by decide) (key - gop.offset) (Nat.zero_le _) (by omega)
  rw [Nat.add_sub_cancel' hle, halign] at hfound
  exact hgone hfound

end

/-- As long as no block has been freed for new content, all gops that a fragment is served from are
whole; once one has been, the search for the blocks of some gop does not end. -/
theorem fragments_served {gopsize : Nat} {channel : Channel} (h : Leads (Channel.create gopsize) channel) :
    (channel.freed = [] → ∀ fragId gops, channel.liveReq fragId = some gops →
      ∀ gop ∈ gops, Intact channel gop) ∧
    (channel.freed ≠ [] → ∃ gop ∈ channel.gops, ∀ rounds, ymsAttachBuffer channel gop rounds 0 = none) := by
  obtain ⟨hsound, hstored⟩ := leads_sound h
  refine ⟨fun hfreed fragId gops hreq gop hgop => ?_, freed_stuck hsound⟩
  exact stored_intact (hstored hfreed) (live_req_mem hreq gop hgop)

theorem fragments_served_key :
    (((beginGop .ample (Channel.create 1)).write (.media ample keyFrame)).freed = [] → ∀ fragId gops,
      ((beginGop .ample (Channel.create 1)).write (.media ample keyFrame)).liveReq fragId = some gops →
        ∀ gop ∈ gops, Intact ((beginGop .ample (Channel.create 1)).write (.media ample keyFrame)) gop) ∧
    (((beginGop .ample (Channel.create 1)).write (.media ample keyFrame)).freed ≠ [] →
      ∃ gop ∈ ((beginGop .ample (Channel.create 1)).write (.media ample keyFrame)).gops, ∀ rounds,
        ymsAttachBuffer ((beginGop .ample (Channel.create 1)).write (.media ample keyFrame)) gop rounds 0 = none) :=
  fragments_served (.single ⟨.ample, keyFrame, true, rfl⟩)

/-! Where there is always memory and the file takes every block, a channel never gives up. -/

section
variable {channel : Channel} {gop : Gop} {buf : List UInt8}

/-- The blocks that the channel has and those it may still have. -/
def Channel.capacity (channel : Channel) : Nat := channel.blocks.length + channel.mp

theorem recd_saved (hne : channel.blocks ≠ []) :
    ((channel.recdLast (ample 0)).blocks.find? fun entry => entry.2.state = .saved).isSome := by
  rw [Channel.recdLast]
  split
  · rename_i hlast
    exact absurd (List.getLast?_eq_none_iff.mp hlast) hne
  · rw [List.find?_isSome]
    exact ⟨_, List.mem_append_right _ (List.mem_singleton_self _), rfl⟩

/-- A block of the pool, or one that is saved for it. -/
theorem take_ample {align : Nat} (h : 0 < channel.capacity) : (channel.takeBlock (ample 0) align).2 = true := by
  obtain ⟨saved, hrecd, -⟩ := @recd_blocks channel (ample 0)
  rw [Channel.takeBlock, hrecd]
  by_cases hmp : channel.mp = 0
  · have hne : channel.blocks ≠ [] := by
      rw [← List.length_pos_iff]
      rw [Channel.capacity] at h
      omega
    have hfind := recd_saved hne
    rw [hrecd] at hfind
    obtain ⟨entry, hentry⟩ := Option.isSome_iff_exists.mp hfind
    simp only [hmp, if_true, hentry]
  · simp only [hmp, if_false]
    rfl

theorem find_ample {align : Nat} (h : 0 < channel.capacity) :
    (channel.findBlock (ample 0) align).2 = true ∧
      (channel.findBlock (ample 0) align).1.capacity = channel.capacity := by
  rw [Channel.findBlock]
  split
  · exact ⟨rfl, rfl⟩
  · obtain ⟨blocks, mp, htake, -, -⟩ | ⟨blocks, mp, htake, hbufs, hmp⟩ |
        ⟨blocks, key, buf, rest, htake, hbufs, hperm⟩ := @take_cases channel (ample 0) align
    · have htrue : (channel.takeBlock (ample 0) align).2 = true := take_ample h
      rw [htake] at htrue
      cases htrue
    · have hlen : blocks.length = channel.blocks.length + 1 := by
        rw [← bufs_length, hbufs, insert_perm.length_eq, List.length_cons, bufs_length]
      rw [htake]
      refine ⟨rfl, ?_⟩
      simp only [Channel.capacity, hlen]
      omega
    · have hlen : blocks.length = channel.blocks.length := by
        rw [← bufs_length, hbufs, insert_perm.length_eq, ← bufs_length channel.blocks, hperm.length_eq]
        rfl
      rw [htake]
      exact ⟨rfl, by simp only [Channel.capacity, hlen]⟩

theorem loop_ample {rounds : Nat} (h : 0 < channel.capacity) (hrounds : buf.length ≤ rounds) :
    (gopWriteLoop rounds ample channel gop buf).2.len = gop.len + buf.length ∧
      (gopWriteLoop rounds ample channel gop buf).1.capacity = channel.capacity := by
  induction rounds generalizing channel gop buf with
  | zero =>
    rw [Nat.le_zero.mp hrounds]
    exact ⟨rfl, rfl⟩
  | succ rounds ih =>
    rw [gopWriteLoop]
    split
    · rename_i hbuf
      rw [hbuf]
      exact ⟨rfl, rfl⟩
    · rename_i hbuf
      have hpos := List.length_pos_iff.mpr hbuf
      obtain ⟨hfound, hcap⟩ := @find_ample channel (blockAlign (gop.offset + gop.len)) h
      dsimp only
      rw [if_pos hfound]
      obtain ⟨n, hn⟩ : ∃ n, n = min buf.length
        (blockSize - (gop.offset + gop.len - blockAlign (gop.offset + gop.len))) := ⟨_, rfl⟩
      have hn' : 0 < n ∧ n ≤ buf.length := by
        simp only [hn, blockAlign, blockSize]
        omega
      rw [← hn]
      obtain ⟨filled, hfilled⟩ : ∃ filled, filled = (channel.findBlock (ample 0)
        (blockAlign (gop.offset + gop.len))).1.fillBlock (blockAlign (gop.offset + gop.len))
          (gop.offset + gop.len - blockAlign (gop.offset + gop.len)) (buf.take n) := ⟨_, rfl⟩
      have hsame : filled.capacity = channel.capacity := by
        rw [← hcap, hfilled]
        simp only [Channel.capacity, Channel.fillBlock, List.length_map]
      obtain ⟨hlen, hrest⟩ := @ih filled { gop with len := gop.len + n, written := gop.written ++ buf.take n }
        (buf.drop n) (hsame ▸ h) (by rw [List.length_drop]; omega)
      rw [← hfilled]
      refine ⟨hlen.trans ?_, hrest.trans hsame⟩
      rw [List.length_drop]
      simp only
      omega

theorem write_ample (h : 0 < channel.capacity) :
    (gopWrite ample channel gop buf).2.len = gop.len + buf.length ∧
      (gopWrite ample channel gop buf).1.capacity = channel.capacity :=
  loop_ample h (le_refl _)

/-- A channel with one gop of that many bytes. -/
structure Alone (channel : Channel) (size : Nat) : Prop where
  gop : ∃ gop, channel.gops = [gop] ∧ gop.idx = 0 ∧ gop.len = size
  gopsize : channel.gopsize = 1
  pmtPid : channel.pmtPid = 0
  capacity : channel.capacity = mpoolBlocks

theorem media_alone {size : Nat} (h : Alone channel size) :
    Alone (channel.write (.media ample buf)) (size + buf.length) := by
  obtain ⟨gop, hgops, hidx, hlen⟩ := h.gop
  obtain ⟨hlen', hcap⟩ := @write_ample channel gop buf (by rw [h.capacity]; decide)
  rw [Channel.write, hgops, List.getLast?_singleton]
  exact ⟨⟨_, rfl, write_idx.trans hidx, hlen'.trans (by rw [hlen])⟩, write_gopsize.trans h.gopsize,
    write_pmt_pid.trans h.pmtPid, hcap.trans h.capacity⟩

/-- A packet that is not of the tables and has no key frame. -/
def mediaPacket : List UInt8 := [0x47, 0x01, 0, 0x10] ++ List.replicate 184 0

theorem recv_media (h : channel.pmtPid = 0) : recvPacket .ample channel mediaPacket =
    some (channel.write (.media ample mediaPacket), true) := by
  have hpat : isPat mediaPacket = false := by decide
  have hpid : isPid mediaPacket 0 = false := by decide
  have hidr : isIdr mediaPacket = false := by decide +kernel
  rw [recvPacket, h, hpat, hpid, hidr, if_neg Bool.false_ne_true, if_neg Bool.false_ne_true,
    if_neg Bool.false_ne_true]
  rfl

theorem packets_alone {size n : Nat} (h : Alone channel size) :
    ∃ channel', recvPackets channel (List.replicate n (.ample, mediaPacket)) = some channel' ∧
      Alone channel' (size + 188 * n) := by
  induction n generalizing channel size with
  | zero => exact ⟨channel, rfl, h⟩
  | succ n ih =>
    obtain ⟨channel', hrecv, halone⟩ := ih (@media_alone channel mediaPacket size h)
    refine ⟨channel', ?_, ?_⟩
    · rw [List.replicate_succ, recvPackets, recv_media h.pmtPid, Option.bind_some, if_pos rfl]
      exact hrecv
    · have hlen : mediaPacket.length = 188 := rfl
      rw [hlen, Nat.add_assoc, Nat.add_comm 188, ← Nat.mul_succ] at halone
      exact halone

/-- A gop begins with the PAT and the PMT, also when none has been received yet. -/
theorem begin_alone {size : Nat} (h : channel.capacity = mpoolBlocks) (hgops : channel.gops = [])
    (hid : channel.gopId = 0) (hgopsize : channel.gopsize = 1) (hpid : channel.pmtPid = 0)
    (hsize : channel.pat.length + channel.pmt.length = size) : Alone (beginGop .ample channel) size := by
  obtain ⟨begun, hbegun⟩ : ∃ begun, begun = { channel with gopId := u32 (channel.gopId + 1) } := ⟨_, rfl⟩
  have hcap : begun.capacity = mpoolBlocks := by
    rw [hbegun]
    exact h
  obtain ⟨hlen, hkept⟩ := @write_ample begun channel.newGop channel.pat (by rw [hcap]; decide)
  obtain ⟨hlen', hkept'⟩ := @write_ample (gopWrite ample begun channel.newGop channel.pat).1
    (gopWrite ample begun channel.newGop channel.pat).2 channel.pmt (by rw [hkept, hcap]; decide)
  have hbegin : beginGop .ample channel = { (gopWrite ample (gopWrite ample begun channel.newGop channel.pat).1
      (gopWrite ample begun channel.newGop channel.pat).2 channel.pmt).1 with
      gops := channel.gops ++ [(gopWrite ample (gopWrite ample begun channel.newGop channel.pat).1
        (gopWrite ample begun channel.newGop channel.pat).2 channel.pmt).2] } := by
    rw [hbegun]
    rfl
  rw [hbegin, hgops]
  refine ⟨⟨_, rfl, ?_, ?_⟩, ?_, ?_, ?_⟩
  · rw [write_idx, write_idx]
    exact hid
  · rw [hlen', hlen, ← hsize, Channel.newGop, Nat.zero_add]
  · simp only [write_gopsize, hbegun]
    exact hgopsize
  · simp only [write_pmt_pid, hbegun]
    exact hpid
  · exact hkept'.trans (hkept.trans hcap)

theorem key_alone :
    Alone ((beginGop .ample (Channel.create 1)).write (.media ample keyFrame)) 564 := by
  have hsize : (Channel.create 1).pat.length + (Channel.create 1).pmt.length = 376 := by
    simp only [Channel.create, List.length_replicate]
  have hlen : keyFrame.length = 188 := rfl
  have halone := @media_alone _ keyFrame 376 (begin_alone rfl rfl rfl rfl rfl hsize)
  rw [hlen] at halone
  exact halone

end

/-- A gop that goes on until the pool is empty loses its first block, and a client that asks for it
is never answered, nor is any other from then on. -/
theorem fragment_lost : ∃ channel gop,
    recvPackets (Channel.create 1)
      ((.ample, keyFrame) :: List.replicate 5571952 (.ample, mediaPacket)) = some channel ∧
    channel.liveReq 0 = some [gop] ∧ ∀ rounds, ymsAttachBuffer channel gop rounds 0 = none := by
  have hkey : recvPacket .ample (Channel.create 1) keyFrame =
    some ((beginGop .ample (Channel.create 1)).write (.media ample keyFrame), true) := rfl
  obtain ⟨channel, hrest, halone⟩ := @packets_alone _ 564 5571952 key_alone
  have hrecv : recvPackets (Channel.create 1)
      ((.ample, keyFrame) :: List.replicate 5571952 (.ample, mediaPacket)) = some channel := by
    rw [recvPackets, hkey, Option.bind_some, if_pos rfl]
    exact hrest
  obtain ⟨gop, hgops, hidx, hlen⟩ := halone.gop
  have hleads : Leads (Channel.create 1) channel := packets_lead hrecv
  obtain ⟨hsound, hstored⟩ := leads_sound hleads
  have hfreed : channel.freed ≠ [] := by
    intro hnone
    have hsmall := stored_small (hstored hnone)
    obtain ⟨-, hgop, -⟩ := hgops ▸ hsound.laid
    rw [hgops, stream, List.flatMap_singleton, ← hgop, hlen] at hsmall
    exact absurd hsmall (by decide)
  obtain ⟨gop', hmem, hstuck⟩ := freed_stuck hsound hfreed
  rw [hgops, List.mem_singleton] at hmem
  refine ⟨channel, gop, hrecv, ?_, hmem ▸ hstuck⟩
  rw [Channel.liveReq, halone.gopsize, hgops]
  simp [fromGop, hidx, u32]

end Yclib.Live
