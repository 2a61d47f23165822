import Yclib.Live.Gop

namespace Yclib.Live

/-! The transport stream that a channel receives, packet by packet. -/

def byteAt (ts : List UInt8) (i : Nat) : Nat := (ts.getD i 0).toNat

/-- The PID of a packet. -/
def pidOf (ts : List UInt8) : Nat := (byteAt ts 1 &&& 0x1F) <<< 8 ||| byteAt ts 2

/-- `is_pat`. -/
def isPat (ts : List UInt8) : Bool :=
  byteAt ts 0 = 0x47 ∧ byteAt ts 1 &&& 0x40 = 0x40 ∧ pidOf ts = 0

/-- `is_pid`. -/
def isPid (ts : List UInt8) (pid : Nat) : Bool := byteAt ts 0 = 0x47 ∧ pidOf ts = pid

/-- `is_idr`. -/
def isIdr (ts : List UInt8) : Bool :=
  byteAt ts 1 &&& 0x40 ≠ 0 ∧ (List.range 184).any fun count =>
    byteAt ts count = 0x00 ∧ byteAt ts (count + 1) = 0x00 ∧ byteAt ts (count + 2) = 0x01 ∧
      byteAt ts (count + 3) &&& 0x1F = 0x05

/-- What a packet comes upon: whether there is memory for a `ts_pat_t`, for each of its programs,
for a `ts_pmt_t` and for a gop, and what each `gop_write` comes upon. -/
structure Outcome where
  pat : Bool
  program : Nat → Bool
  pmt : Bool
  gop : Bool
  writes : Nat → Nat → Supply

/-- How many programs `parse_pat` reads. The shift is done before the mask is applied, and a short
section gives a number that is no longer negative in a `uint32_t`. -/
def programNum (pat : List UInt8) : Nat :=
  let sectionLength := byteAt pat 6 &&& 0x0F <<< 8 ||| byteAt pat 7
  (Int.tdiv (sectionLength - 9) 4 % 2 ^ 32).toNat

/-- `parse_pat2` of the channel's PAT, and the PID of the program that has the number 1. The
programs are read from the PAT on into the PMT behind it; there is no end to reading that many
that they go beyond it. -/
def programMapPid (outcome : Outcome) (channel : Channel) : Option Nat :=
  if 13 + 4 * programNum channel.pat > 376 then none
  else
    let memory := channel.pat ++ channel.pmt
    some ((List.range (programNum channel.pat)).foldl (fun pid i =>
      let walker := 13 + 4 * i
      if outcome.program i ∧ byteAt memory walker <<< 8 ||| byteAt memory (walker + 1) = 1 then
        (byteAt memory (walker + 2) &&& 0x1F) <<< 8 ||| byteAt memory (walker + 3)
      else pid) channel.pmtPid)

/-- The key frame begins a gop, with the PAT and the PMT in front of it. -/
def beginGop (outcome : Outcome) (channel : Channel) : Channel :=
  let gop := channel.newGop
  let pat := gopWrite (outcome.writes 0) { channel with gopId := u32 (channel.gopId + 1) } gop channel.pat
  let pmt := gopWrite (outcome.writes 1) pat.1 pat.2 channel.pmt
  { pmt.1 with gops := channel.gops ++ [pmt.2] }

/-- A round of `yms_channel_recv_ts`, and whether the loop goes on. Without memory for a
`ts_pmt_t` a NULL pointer is followed. -/
def recvPacket (outcome : Outcome) (channel : Channel) (walker : List UInt8) : Option (Channel × Bool) :=
  if isPat walker then
    let channel := { channel with pat := walker }
    if outcome.pat then
      (programMapPid outcome channel).map fun pid => ({ channel with pmtPid := pid }, true)
    else some (channel, true)
  else if isPid walker channel.pmtPid then
    if outcome.pmt then
      some ({ channel with
        pmt := walker
        pcrPid := (byteAt walker 13 &&& 0x1F) <<< 8 ||| byteAt walker 14 }, true)
    else none
  else if isIdr walker then
    if outcome.gop then some ((beginGop outcome channel).write (.media (outcome.writes 2) walker), true)
    else some (channel, false)
  else some (channel.write (.media (outcome.writes 2) walker), true)

/-- The loop of `yms_channel_recv_ts`. -/
def recvPackets : Channel → List (Outcome × List UInt8) → Option Channel
  | channel, [] => some channel
  | channel, (outcome, walker) :: rest =>
    (recvPacket outcome channel walker).bind fun result =>
      if result.2 then recvPackets result.1 rest else some result.1

/-- `yms_channel_recv_ts` with a body in memory, of which it reads as many packets as begin in it. -/
def ymsChannelRecvTs (outcomes : Nat → Outcome) (channel : Channel) (body : Mem) (bodySize : Nat) :
    Option Channel :=
  recvPackets channel
    ((List.range ((bodySize + 187) / 188)).map fun i => (outcomes i, slice body (188 * i) 188))

/-- Each gop begins where the one before it ends, and has the next number. -/
def Next (prev next : Gop) : Prop := next.offset = prev.offset + prev.len ∧ next.idx = u32 (prev.idx + 1)

/-- The gops of a channel, and the number of the next one. -/
structure Tiled (channel : Channel) : Prop where
  gops : channel.gops.IsChain Next
  gopId : ∀ gop ∈ channel.gops.getLast?, channel.gopId = u32 (gop.idx + 1)

/-- A gop that goes on is longer at most. -/
structure Goes (gop gop' : Gop) : Prop where
  idx : gop'.idx = gop.idx
  offset : gop'.offset = gop.offset
  len : gop.len ≤ gop'.len

/-- The gops in front of the last are as they were, the last may have gone on, and there may be
more of them. -/
def Onward (gops gops' : List Gop) : Prop :=
  gops = [] ∨ ∃ front gop gop' later, gops = front ++ [gop] ∧ gops' = front ++ gop' :: later ∧ Goes gop gop'

section
variable {channel channel' : Channel} {gops gops' gops'' : List Gop}

/-- A write of media is to the last gop, which goes on. -/
theorem media_gops (supply : Nat → Supply) (buf : List UInt8) :
    (channel.write (.media supply buf)).gopId = channel.gopId ∧
      ((channel.gops = [] ∧ (channel.write (.media supply buf)).gops = []) ∨
      ∃ front gop gop', channel.gops = front ++ [gop] ∧
        (channel.write (.media supply buf)).gops = front ++ [gop'] ∧ Goes gop gop') := by
  rw [Channel.write]
  split
  · rename_i hlast
    have hnil := List.getLast?_eq_none_iff.mp hlast
    exact ⟨rfl, .inl ⟨hnil, hnil⟩⟩
  · rename_i gop hlast
    obtain ⟨front, hgops⟩ := List.getLast?_eq_some_iff.mp hlast
    refine ⟨write_gop_id, .inr ⟨front, gop, (gopWrite supply channel gop buf).2, hgops, ?_,
      write_idx, write_offset, write_len⟩⟩
    rw [hgops, List.dropLast_concat]

theorem begin_gops (outcome : Outcome) (channel : Channel) :
    (beginGop outcome channel).gopId = u32 (channel.gopId + 1) ∧ ∃ gop,
      (beginGop outcome channel).gops = channel.gops ++ [gop] ∧
        gop.idx = channel.gopId ∧ gop.offset = channel.newGop.offset := by
  refine ⟨by simp [beginGop], _, rfl, ?_, ?_⟩
  · rw [write_idx, write_idx]
    rfl
  · rw [write_offset, write_offset]

/-- The gops of a channel and what is stored of them are as they were. -/
structure Kept (channel channel' : Channel) : Prop where
  gops : channel'.gops = channel.gops
  gopId : channel'.gopId = channel.gopId
  blocks : channel'.blocks = channel.blocks
  mp : channel'.mp = channel.mp
  freed : channel'.freed = channel.freed

/-- A packet leaves the gops, or goes on with the last of them, or begins one. -/
theorem recv_cases {outcome : Outcome} {walker : List UInt8} {more : Bool}
    (h : recvPacket outcome channel walker = some (channel', more)) :
    Kept channel channel' ∨
    ∃ begun, (begun = channel ∨ begun = beginGop outcome channel) ∧
      channel' = begun.write (.media (outcome.writes 2) walker) := by
  rw [recvPacket] at h
  split at h
  · left
    dsimp only at h
    split at h
    · obtain ⟨pid, -, heq⟩ := Option.map_eq_some_iff.mp h
      cases heq
      exact ⟨rfl, rfl, rfl, rfl, rfl⟩
    · cases h
      exact ⟨rfl, rfl, rfl, rfl, rfl⟩
  · split at h
    · left
      split at h
      · cases h
        exact ⟨rfl, rfl, rfl, rfl, rfl⟩
      · cases h
    · split at h
      · split at h
        · cases h
          exact .inr ⟨_, .inr rfl, rfl⟩
        · cases h
          exact .inl ⟨rfl, rfl, rfl, rfl, rfl⟩
      · cases h
        exact .inr ⟨_, .inl rfl, rfl⟩

theorem goes_refl (gop : Gop) : Goes gop gop := ⟨rfl, rfl, le_refl _⟩

theorem goes_trans {gop gop' gop'' : Gop} (h : Goes gop gop') (h' : Goes gop' gop'') : Goes gop gop'' :=
  ⟨h'.idx.trans h.idx, h'.offset.trans h.offset, h.len.trans h'.len⟩

theorem onward_refl (gops : List Gop) : Onward gops gops := by
  rcases List.eq_nil_or_concat gops with hnil | ⟨front, gop, hgops⟩
  · exact .inl hnil
  · rw [List.concat_eq_append] at hgops
    exact .inr ⟨front, gop, gop, [], hgops, hgops, goes_refl gop⟩

theorem onward_trans (h : Onward gops gops') (h' : Onward gops' gops'') : Onward gops gops'' := by
  rcases h with hnil | ⟨front, gop, gop', later, rfl, rfl, hgoes⟩
  · exact .inl hnil
  · rcases h' with hnil | ⟨front', last, last', later', hgops, rfl, hgoes'⟩
    · simp at hnil
    · right
      rcases List.eq_nil_or_concat later with rfl | ⟨init, last'', rfl⟩
      · obtain ⟨rfl, hlast⟩ := List.append_inj' hgops rfl
        cases hlast
        exact ⟨front, gop, last', later', rfl, rfl, goes_trans hgoes hgoes'⟩
      · rw [List.concat_eq_append, ← List.cons_append, ← List.append_assoc] at hgops
        obtain ⟨rfl, -⟩ := List.append_inj' hgops rfl
        exact ⟨front, gop, gop', init ++ last' :: later', rfl, by simp, hgoes⟩

/-- A chain does not depend on how long its last gop is. -/
theorem chain_last {front : List Gop} {gop gop' : Gop} (h : (front ++ [gop]).IsChain Next)
    (hgoes : Goes gop gop') : (front ++ [gop']).IsChain Next := by
  obtain ⟨hfront, -, hlast⟩ := List.isChain_append.mp h
  refine List.isChain_append.mpr ⟨hfront, List.isChain_singleton _, fun prev hprev next hnext => ?_⟩
  have hn := hlast prev hprev gop (by simp)
  cases hnext
  exact ⟨hgoes.offset.trans hn.1, hgoes.idx.trans hn.2⟩

theorem media_tiled (h : Tiled channel) (supply : Nat → Supply) (buf : List UInt8) :
    Tiled (channel.write (.media supply buf)) ∧
      Onward channel.gops (channel.write (.media supply buf)).gops := by
  obtain ⟨hid, ⟨hnil, hnil'⟩ | ⟨front, gop, gop', hgops, hgops', hgoes⟩⟩ := @media_gops channel supply buf
  · refine ⟨⟨?_, ?_⟩, .inl hnil⟩
    · rw [hnil']
      exact List.isChain_nil
    · rw [hnil']
      intro gop hgop
      cases hgop
  · have hchain := h.gops
    have hnext := h.gopId
    rw [hgops] at hchain hnext
    refine ⟨⟨?_, ?_⟩, .inr ⟨front, gop, gop', [], hgops, hgops', hgoes⟩⟩
    · rw [hgops']
      exact chain_last hchain hgoes
    · rw [hgops', hid, List.getLast?_concat]
      rintro _ ⟨⟩
      rw [hgoes.idx]
      exact hnext gop (by simp)

theorem begin_tiled (h : Tiled channel) (outcome : Outcome) :
    Tiled (beginGop outcome channel) ∧ Onward channel.gops (beginGop outcome channel).gops := by
  obtain ⟨hid, gop', hgops', hidx, hoffset⟩ := begin_gops outcome channel
  refine ⟨⟨?_, ?_⟩, ?_⟩
  · rw [hgops']
    refine List.isChain_append.mpr ⟨h.gops, List.isChain_singleton _, fun prev hprev next hnext => ?_⟩
    cases hnext
    refine ⟨?_, hidx.trans (h.gopId prev hprev)⟩
    rw [hoffset, Channel.newGop, Option.mem_def.mp hprev]
  · rw [hgops', hid, List.getLast?_concat]
    rintro _ ⟨⟩
    rw [hidx]
  · rcases List.eq_nil_or_concat channel.gops with hnil | ⟨front, gop, hgops⟩
    · exact .inl hnil
    · rw [List.concat_eq_append] at hgops
      exact .inr ⟨front, gop, gop, [gop'], hgops, by rw [hgops', hgops, List.append_assoc]; rfl, goes_refl gop⟩

theorem recv_tiled (h : Tiled channel) {outcome : Outcome} {walker : List UInt8} {more : Bool}
    (hrecv : recvPacket outcome channel walker = some (channel', more)) :
    Tiled channel' ∧ Onward channel.gops channel'.gops := by
  obtain hkept | ⟨begun, rfl | rfl, rfl⟩ := recv_cases hrecv
  · have hgops := hkept.gops
    refine ⟨⟨?_, ?_⟩, ?_⟩
    · rw [hgops]
      exact h.gops
    · rw [hgops, hkept.gopId]
      exact h.gopId
    · rw [hgops]
      exact onward_refl _
  · exact media_tiled h _ _
  · obtain ⟨htiled, honward⟩ := begin_tiled h outcome
    obtain ⟨htiled', honward'⟩ := media_tiled htiled (outcome.writes 2) walker
    exact ⟨htiled', onward_trans honward honward'⟩

/-- One packet of all that a channel may receive. -/
def Step (channel channel' : Channel) : Prop :=
  ∃ outcome walker more, recvPacket outcome channel walker = some (channel', more)

def Leads : Channel → Channel → Prop := Relation.ReflTransGen Step

/-- A delivery is received packet by packet. -/
theorem packets_lead {packets : List (Outcome × List UInt8)}
    (h : recvPackets channel packets = some channel') : Leads channel channel' := by
  induction packets generalizing channel with
  | nil =>
    cases h
    exact .refl
  | cons packet packets ih =>
    rw [recvPackets] at h
    obtain ⟨⟨next, more⟩, hrecv, hrest⟩ := Option.bind_eq_some_iff.mp h
    have hstep : Step channel next := ⟨packet.1, packet.2, more, hrecv⟩
    split at hrest
    · exact (ih hrest).head hstep
    · cases hrest
      exact .single hstep

theorem delivery_leads {outcomes : Nat → Outcome} {body : Mem} {bodySize : Nat}
    (h : ymsChannelRecvTs outcomes channel body bodySize = some channel') : Leads channel channel' :=
  packets_lead h

theorem leads_tiled (h : Tiled channel) (hleads : Leads channel channel') :
    Tiled channel' ∧ Onward channel.gops channel'.gops := by
  induction hleads with
  | refl => exact ⟨h, onward_refl _⟩
  | tail _ hstep ih =>
    obtain ⟨outcome, walker, more, hrecv⟩ := hstep
    obtain ⟨htiled, honward⟩ := recv_tiled ih.1 hrecv
    exact ⟨htiled, onward_trans ih.2 honward⟩

theorem create_tiled (gopsize : Nat) : Tiled (Channel.create gopsize) := by
  refine ⟨List.isChain_nil, fun gop hgop => ?_⟩
  cases hgop

end

/-- Whatever a channel has received, its gops are one behind the other and numbered in turn, and
whatever it receives then, none but the last goes on. -/
theorem gops_tile {gopsize : Nat} {channel : Channel} (h : Leads (Channel.create gopsize) channel) :
    channel.gops.IsChain Next ∧
      ∀ channel', Leads channel channel' → Onward channel.gops channel'.gops := by
  have htiled := (leads_tiled (create_tiled gopsize) h).1
  exact ⟨htiled.gops, fun _ hleads => (leads_tiled htiled hleads).2⟩

/-- Where there is always memory. -/
def Outcome.ample : Outcome := ⟨true, fun _ => true, true, true, fun _ => Live.ample⟩

/-- A packet with a key frame. -/
def keyFrame : List UInt8 := [0x47, 0x41, 0, 0x10, 0, 0, 1, 0x65] ++ List.replicate 180 0

theorem gops_tile_key :
    ((beginGop .ample (Channel.create 1)).write (.media ample keyFrame)).gops.IsChain Next ∧
      ∀ channel', Leads ((beginGop .ample (Channel.create 1)).write (.media ample keyFrame)) channel' →
        Onward ((beginGop .ample (Channel.create 1)).write (.media ample keyFrame)).gops channel'.gops :=
  gops_tile (.single ⟨.ample, keyFrame, true, rfl⟩)

end Yclib.Live
