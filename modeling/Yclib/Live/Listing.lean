import Yclib.Live.Request

namespace Yclib.Live
open Media.Hls

/-! What the playlists of a channel list, and what of it can be fetched. -/

/-- `channel_m3u8_gop_align`, which has no result where it divides by zero. -/
def LiveChannel.align (live : LiveChannel) (older : List Gop) : Option (List Gop) :=
  if live.channel.gopsize = 0 then none else channelM3u8GopAlign live.channel.gopsize live.tfragsize older

/-- `channel_m3u8_create`, with memory or without. Its loop counts in an `int32_t`, which for a larger number of
fragments is below zero at once and leaves all segments as they were allocated. -/
def LiveChannel.create (live : LiveChannel) (memory : Bool) (printed : Printed) (older : List Gop) :
    Option MediaM3u8 :=
  if memory then
    if live.tfragsize ≤ 2 ^ 31 then channelM3u8Create live printed older
    else some ⟨printed.maxDuration, 0, List.replicate live.tfragsize ⟨.number false 0 0, []⟩, false, printed.narrow,
      by decide⟩
  else none

/-- The numbers of the fragments that `channel_m3u8_create` prints, the oldest first. -/
def m3u8Frags (gopsize : Nat) : Nat → List Gop → List Nat
  | 0, _ => []
  | _ + 1, [] => []
  | i + 1, gop :: gops => m3u8Frags gopsize i ((gop :: gops).drop gopsize) ++ [u32 (gop.idx / gopsize)]

def LiveChannel.frags (live : LiveChannel) (older : List Gop) : List Nat :=
  if live.tfragsize ≤ 2 ^ 31 then m3u8Frags live.channel.gopsize live.tfragsize older else []

/-- `yms_live_req` comes to an end with the gops of the fragment. -/
def Serves (channel : Channel) (fragId : Nat) : Prop :=
  ∃ gops, channel.liveReq fragId = some gops ∧ ∃ rounds, (attachGops channel rounds gops).isSome

/-- There is a playlist, of so many fragments, which follow each other from its media sequence number on, and each
of them is served. -/
def Lists (live : LiveChannel) (memory : Bool) (printed : Printed) (older : List Gop) : Prop :=
  ∃ m3u8, live.create memory printed older = some m3u8 ∧
    m3u8.seg.map MediaSeg.uri = (live.frags older).map (fragmentName live.contentId) ∧
    live.frags older = List.range' m3u8.mediaSequence live.tfragsize ∧
    ∀ fragId ∈ live.frags older, Serves live.channel fragId

/-- Among the last 2^32 gops there are those of the fragment, one behind the other, and all of their blocks. -/
def Held (channel : Channel) (fragId : Nat) : Prop :=
  ∃ front gops behind, channel.gops = front ++ gops ++ behind ∧ gops.length = channel.gopsize ∧
    (gops ++ behind).length ≤ 2 ^ 32 ∧ (∀ gop ∈ gops.head?, gop.idx = fragId * channel.gopsize) ∧
    ∀ gop ∈ gops, gop.len < 2 ^ 32 ∧ ∀ k < gop.len, blockAlign (gop.offset + k) ∈ channel.keys

/-- There is memory, the counter takes the number of fragments, there is a gop more than they have, their gops are
numbered without going around, and each of them is held. -/
structure Listable (live : LiveChannel) (memory : Bool) (older : List Gop) : Prop where
  memory : memory = true
  counted : live.tfragsize ≤ 2 ^ 31
  more : live.channel.gopsize * live.tfragsize < older.length
  numbered : ∀ gop ∈ older.head?, live.channel.gopsize * live.tfragsize ≤ gop.idx + 1
  held : ∀ gop ∈ older.head?, ∀ i < live.tfragsize, Held live.channel (gop.idx / live.channel.gopsize - i)

section
variable {live : LiveChannel} {channel channel' : Channel} {printed : Printed} {gop : Gop} {older gops : List Gop}

/-- Numbers are `uint32_t`s. -/
theorem recv_small {outcome : Outcome} {walker : List UInt8} {more : Bool}
    (h : (∀ gop ∈ channel.gops, gop.idx < 2 ^ 32) ∧ channel.gopId < 2 ^ 32)
    (hrecv : recvPacket outcome channel walker = some (channel', more)) :
    (∀ gop ∈ channel'.gops, gop.idx < 2 ^ 32) ∧ channel'.gopId < 2 ^ 32 := by
  have hmedia : ∀ begun : Channel, (∀ gop ∈ begun.gops, gop.idx < 2 ^ 32) ∧ begun.gopId < 2 ^ 32 →
      (∀ gop ∈ (begun.write (.media (outcome.writes 2) walker)).gops, gop.idx < 2 ^ 32) ∧
        (begun.write (.media (outcome.writes 2) walker)).gopId < 2 ^ 32 := by
    intro begun hbegun
    obtain ⟨hid, ⟨-, hnil⟩ | ⟨front, gop, gop', hgops, hgops', hgoes⟩⟩ := @media_gops begun (outcome.writes 2) walker
    · rw [hid, hnil]
      exact ⟨fun _ hm => absurd hm List.not_mem_nil, hbegun.2⟩
    · rw [hid, hgops']
      rw [hgops] at hbegun
      refine ⟨fun other hm => ?_, hbegun.2⟩
      rcases List.mem_append.mp hm with hm | hm
      · exact hbegun.1 other (List.mem_append_left _ hm)
      · rw [List.mem_singleton.mp hm, hgoes.idx]
        exact hbegun.1 gop (by simp)
  obtain hkept | ⟨begun, rfl | rfl, rfl⟩ := recv_cases hrecv
  · rw [hkept.gops, hkept.gopId]
    exact h
  · exact hmedia _ h
  · apply hmedia
    obtain ⟨hid, gop, hgops, hidx, -⟩ := begin_gops outcome channel
    rw [hid, hgops]
    refine ⟨fun other hm => ?_, Nat.mod_lt _ (by decide)⟩
    rcases List.mem_append.mp hm with hm | hm
    · exact h.1 other hm
    · rw [List.mem_singleton.mp hm, hidx]
      exact h.2

theorem leads_small {gopsize : Nat} (h : Leads (Channel.create gopsize) channel) :
    (∀ gop ∈ channel.gops, gop.idx < 2 ^ 32) ∧ channel.gopId < 2 ^ 32 := by
  induction h with
  | refl => exact ⟨fun _ hm => absurd hm List.not_mem_nil, Nat.two_pow_pos 32⟩
  | tail _ hstep ih =>
    obtain ⟨outcome, walker, more, hrecv⟩ := hstep
    exact recv_small ih hrecv

/-- The gops in front of an aligned one have the numbers before it. -/
theorem older_idx (hchain : older.IsChain fun next prev => Next prev next) (hsmall : ∀ gop ∈ older, gop.idx < 2 ^ 32)
    {k : Nat} (hk : k < older.length) (hle : k ≤ older[0].idx) : older[k].idx + k = older[0].idx := by
  induction k with
  | zero => rfl
  | succ k ih =>
    have hprev := ih (by omega) (by omega)
    have hnext := (List.isChain_iff_getElem.mp hchain k hk).2
    have hlt := hsmall _ (List.getElem_mem hk)
    rw [u32] at hnext
    omega

/-- Numbers go on by one, around 2^32. -/
theorem chain_idx (hchain : gops.IsChain Next) (hsmall : ∀ gop ∈ gops, gop.idx < 2 ^ 32) {k : Nat}
    (hk : k < gops.length) : gops[k].idx = u32 (gops[0].idx + k) := by
  induction k with
  | zero => exact (u32_of_lt (hsmall _ (List.getElem_mem hk))).symm
  | succ k ih =>
    have hprev := ih (by omega)
    have hnext := (List.isChain_iff_getElem.mp hchain k hk).2
    rw [hnext, hprev, u32, u32, u32, Nat.mod_add_mod, Nat.add_assoc]

/-- What the loop prints are the names of the numbers, and the last sequence that it sets is the first of them. -/
theorem segs_frags {i sequence : Nat} {made : Nat × List MediaSeg} (h : m3u8Segs live printed i older sequence = some made) :
    made.2.map MediaSeg.uri = (m3u8Frags live.channel.gopsize i older).map (fragmentName live.contentId) ∧
      made.1 = (m3u8Frags live.channel.gopsize i older).head?.getD sequence := by
  induction i generalizing older sequence made with
  | zero =>
    obtain rfl := Option.some.inj h
    exact ⟨rfl, rfl⟩
  | succ i ih =>
    cases older with
    | nil => cases h
    | cons gop gops =>
      rw [m3u8Segs] at h
      dsimp only at h
      split at h
      · cases h
      · obtain ⟨rest, hrest, rfl⟩ := Option.map_eq_some_iff.mp h
        obtain ⟨huris, hsequence⟩ := ih hrest
        rw [m3u8Frags]
        constructor
        · rw [List.map_append, List.map_append, huris]
          rfl
        · rw [hsequence, List.head?_append]
          cases (m3u8Frags live.channel.gopsize i ((gop :: gops).drop live.channel.gopsize)).head? <;> rfl

/-- The numbers of aligned gops that do not go around follow each other. -/
theorem frags_range {gopsize i : Nat} (hpos : 0 < gopsize) (hchain : (gop :: gops).IsChain fun next prev => Next prev next)
    (hsmall : ∀ other ∈ gop :: gops, other.idx < 2 ^ 32) (haligned : gop.idx % gopsize = gopsize - 1)
    (hlen : gopsize * i ≤ (gop :: gops).length) (hle : gopsize * i ≤ gop.idx + 1) :
    m3u8Frags gopsize i (gop :: gops) = List.range' (gop.idx / gopsize + 1 - i) i := by
  induction i generalizing gop gops with
  | zero => rfl
  | succ i ih =>
    have hnumber : u32 (gop.idx / gopsize) = gop.idx / gopsize :=
      u32_of_lt ((Nat.div_le_self _ _).trans_lt (hsmall gop List.mem_cons_self))
    rw [m3u8Frags, hnumber]
    rw [Nat.mul_succ] at hlen hle
    rcases Nat.eq_zero_or_pos i with rfl | hi
    · simp [m3u8Frags]
    · -- the fragment before it ends as many gops earlier
      have hmul : gopsize ≤ gopsize * i := Nat.le_mul_of_pos_right _ hi
      have hk : gopsize < (gop :: gops).length := by omega
      have hidx := older_idx hchain hsmall hk (by simp only [List.getElem_cons_zero]; omega)
      rw [List.getElem_cons_zero] at hidx
      have hdrop : (gop :: gops).drop gopsize = (gop :: gops)[gopsize] :: (gop :: gops).drop (gopsize + 1) :=
        List.drop_eq_getElem_cons hk
      obtain ⟨prev, hprev⟩ : ∃ prev, prev = (gop :: gops)[gopsize] := ⟨_, rfl⟩
      rw [← hprev] at hdrop hidx
      have hsuffix := List.drop_suffix gopsize (gop :: gops)
      have hlength : ((gop :: gops).drop gopsize).length = (gop :: gops).length - gopsize := List.length_drop
      rw [hdrop] at hsuffix hlength ⊢
      have hmod : prev.idx % gopsize = gopsize - 1 := by
        rw [← haligned, ← hidx, Nat.add_mod_right]
      have hdiv : gop.idx / gopsize = prev.idx / gopsize + 1 := by
        rw [← hidx, Nat.add_div_right _ hpos]
      have hrest := ih (hchain.suffix hsuffix) (fun other hm => hsmall other (hsuffix.subset hm)) hmod
        (by omega) (by omega)
      have hi' : i ≤ prev.idx / gopsize + 1 := by
        rw [← Nat.add_div_right _ hpos, Nat.le_div_iff_mul_le hpos, Nat.mul_comm]
        omega
      rw [hrest, hdiv, Nat.add_sub_add_right, List.range'_concat, Nat.one_mul, Nat.sub_add_cancel hi']

/-- The last number is that of the gop to begin with. -/
theorem frags_last {gopsize i first : Nat} (h : m3u8Frags gopsize (i + 1) (gop :: gops) = List.range' first (i + 1)) :
    u32 (gop.idx / gopsize) = first + i := by
  rw [m3u8Frags, List.range'_concat, Nat.one_mul] at h
  have hlast := List.append_inj_right' h rfl
  exact List.head_eq_of_cons_eq hlast

/-- The number of a gop comes again after 2^32 of them. -/
theorem newest_iff {behind : List Gop} (hchain : (gop :: behind).IsChain Next)
    (hsmall : ∀ other ∈ gop :: behind, other.idx < 2 ^ 32) :
    (∀ other ∈ behind, other.idx ≠ gop.idx) ↔ (gop :: behind).length ≤ 2 ^ 32 := by
  have hgop := hsmall gop List.mem_cons_self
  have hidx : ∀ k, (hk : k < behind.length) → behind[k].idx = u32 (gop.idx + (k + 1)) := by
    intro k hk
    have hnumber := chain_idx hchain hsmall (show k + 1 < (gop :: behind).length from Nat.succ_lt_succ hk)
    rwa [List.getElem_cons_succ, List.getElem_cons_zero] at hnumber
  rw [List.length_cons]
  constructor
  · intro hnewest
    by_contra hlong
    -- the gop that comes 2^32 later
    have hk : 2 ^ 32 - 1 < behind.length := by omega
    refine hnewest _ (List.getElem_mem hk) ?_
    rw [hidx _ hk, u32]
    omega
  · intro hle other hm
    obtain ⟨k, hk, rfl⟩ := List.getElem_of_mem hm
    rw [hidx k hk, u32]
    omega

/-- A fragment is served when its gops are held. -/
theorem serves_iff {fragId : Nat} (hpos : 0 < channel.gopsize) (hchain : channel.gops.IsChain Next)
    (hsmall : ∀ gop ∈ channel.gops, gop.idx < 2 ^ 32) (hid : fragId * channel.gopsize < 2 ^ 32) :
    Serves channel fragId ↔ Held channel fragId := by
  have hrest : ∀ {front behind : List Gop} {gop : Gop}, channel.gops = front ++ gop :: behind →
      ((∀ other ∈ behind, other.idx ≠ gop.idx) ↔ (gop :: behind).length ≤ 2 ^ 32) := by
    intro front behind gop hgops
    have hsuffix : gop :: behind <:+ channel.gops := ⟨front, hgops.symm⟩
    exact newest_iff (hchain.suffix hsuffix) fun other hm => hsmall other (hsuffix.subset hm)
  rw [Serves, Held, Channel.liveReq, u32_of_lt hid]
  constructor
  · rintro ⟨served, hreq, hattach⟩
    obtain ⟨rest, hfrom, hserved⟩ := Option.bind_eq_some_iff.mp hreq
    obtain ⟨front, gop, behind, hgops, rfl, hidx, hnewest⟩ := from_gop_split hfrom
    split at hserved
    · cases hserved
    · rename_i henough
      obtain rfl := Option.some.inj hserved
      refine ⟨front, (gop :: behind).take channel.gopsize, (gop :: behind).drop channel.gopsize, ?_, ?_, ?_, ?_,
        gops_end_iff.mp hattach⟩
      · rw [List.append_assoc, List.take_append_drop, hgops]
      · rw [List.length_take]
        omega
      · rw [List.take_append_drop]
        exact (hrest hgops).mp (hidx ▸ hnewest)
      · intro first hfirst
        rw [List.head?_take, if_neg (by omega)] at hfirst
        rw [← Option.some.inj hfirst, hidx]
  · rintro ⟨front, served, behind, hgops, hlen, hrecent, hidx, hfound⟩
    obtain ⟨gop, rest, rfl⟩ := List.exists_cons_of_length_pos (hlen ▸ hpos)
    rw [List.append_assoc, List.cons_append] at hgops
    have hnumber := hidx gop rfl
    have hnewest := (hrest hgops).mpr hrecent
    rw [hnumber] at hnewest
    refine ⟨gop :: rest, ?_, gops_end_iff.mpr hfound⟩
    rw [hgops, from_gop_newest hnumber hnewest, Option.bind_some, if_neg (by simp only [List.length_cons, List.length_append] at hlen ⊢; omega)]
    rw [← List.cons_append, ← hlen, List.take_left]

/-- What an alignment finds: a gop that ends a fragment, with the older ones. -/
theorem align_some {aligned : List Gop} (h : live.align older = some aligned) : 0 < live.channel.gopsize ∧
    aligned <:+ older ∧ ∃ gop gops, aligned = gop :: gops ∧ gop.idx % live.channel.gopsize = live.channel.gopsize - 1 := by
  rw [LiveChannel.align] at h
  split at h
  · cases h
  · rename_i hpos
    refine ⟨Nat.pos_of_ne_zero hpos, ?_⟩
    have hsuffix := List.dropWhile_suffix (fun gop : Gop => gop.idx % live.channel.gopsize ≠ live.channel.gopsize - 1)
      (l := older)
    have hhead := List.head?_dropWhile_not
      (fun gop : Gop => gop.idx % live.channel.gopsize ≠ live.channel.gopsize - 1) older
    rw [channelM3u8GopAlign] at h
    split at h
    · cases h
    · rename_i gop gops hdrop
      rw [hdrop] at hsuffix hhead
      split at h
      · cases h
      · obtain rfl := Option.some.inj h
        exact ⟨hsuffix, gop, gops, rfl, by simpa using hhead⟩

/-- The gops that a channel has, from one of them back to the oldest. -/
structure Aligned (live : LiveChannel) (gop : Gop) (gops : List Gop) : Prop where
  positive : 0 < live.channel.gopsize
  newer : live.channel.gops.IsChain Next
  all : ∀ other ∈ live.channel.gops, other.idx < 2 ^ 32
  chain : (gop :: gops).IsChain fun next prev => Next prev next
  small : ∀ other ∈ gop :: gops, other.idx < 2 ^ 32
  ends : gop.idx % live.channel.gopsize = live.channel.gopsize - 1

theorem Aligned.range (h : Aligned live gop gops) (hlen : live.channel.gopsize * live.tfragsize ≤ (gop :: gops).length)
    (hle : live.channel.gopsize * live.tfragsize ≤ gop.idx + 1) (hcounted : live.tfragsize ≤ 2 ^ 31) :
    live.frags (gop :: gops) =
      List.range' (gop.idx / live.channel.gopsize + 1 - live.tfragsize) live.tfragsize := by
  rw [LiveChannel.frags, if_pos hcounted]
  exact frags_range h.positive h.chain h.small h.ends hlen hle

theorem Aligned.serves (h : Aligned live gop gops) (i : Nat) :
    Serves live.channel (gop.idx / live.channel.gopsize - i) ↔ Held live.channel (gop.idx / live.channel.gopsize - i) := by
  apply serves_iff h.positive h.newer h.all
  have hle := Nat.mul_le_mul_right live.channel.gopsize (Nat.sub_le (gop.idx / live.channel.gopsize) i)
  exact (hle.trans (Nat.div_mul_le_self _ _)).trans_lt (h.small gop List.mem_cons_self)

theorem Aligned.enough (h : Aligned live gop gops) :
    live.channel.gopsize * live.tfragsize ≤ gop.idx + 1 ↔ live.tfragsize ≤ gop.idx / live.channel.gopsize + 1 := by
  have hsplit := Nat.div_add_mod gop.idx live.channel.gopsize
  have hpos := h.positive
  rw [h.ends] at hsplit
  have htotal : gop.idx + 1 = live.channel.gopsize * (gop.idx / live.channel.gopsize + 1) := by
    rw [Nat.mul_succ]
    omega
  rw [htotal, Nat.mul_le_mul_left_iff hpos]

theorem lists_listable {memory : Bool} (h : Aligned live gop gops) (hlists : Lists live memory printed (gop :: gops)) :
    Listable live memory (gop :: gops) := by
  obtain ⟨m3u8, hcreate, -, hfrags, hserved⟩ := hlists
  rw [LiveChannel.create] at hcreate
  split at hcreate
  · rename_i hmemory
    have hcounted : live.tfragsize ≤ 2 ^ 31 := by
      by_contra hmany
      rw [LiveChannel.frags, if_neg hmany] at hfrags
      have hlen := congrArg List.length hfrags
      rw [List.length_nil, List.length_range'] at hlen
      omega
    rw [if_pos hcounted] at hcreate
    obtain ⟨made, hmade, -⟩ := Option.map_eq_some_iff.mp hcreate
    have hmore := (segs_made live printed live.tfragsize 0 (List.cons_ne_nil gop gops)).mp (hmade ▸ rfl)
    have hle : live.channel.gopsize * live.tfragsize ≤ gop.idx + 1 := by
      rw [h.enough]
      rw [LiveChannel.frags, if_pos hcounted] at hfrags
      cases hsize : live.tfragsize with
      | zero => exact Nat.zero_le _
      | succ i =>
        rw [hsize] at hfrags
        have hlast := frags_last hfrags
        have hmod : u32 (gop.idx / live.channel.gopsize) ≤ gop.idx / live.channel.gopsize := Nat.mod_le _ _
        omega
    refine ⟨hmemory, hcounted, hmore, ?_, ?_⟩
    · rintro _ ⟨⟩
      exact hle
    · rintro _ ⟨⟩ i hi
      apply (h.serves i).mp
      apply hserved
      rw [h.range hmore.le hle hcounted, List.mem_range'_1]
      have henough := h.enough.mp hle
      omega
  · cases hcreate

theorem listable_lists {memory : Bool} (h : Aligned live gop gops) (hlistable : Listable live memory (gop :: gops)) :
    Lists live memory printed (gop :: gops) := by
  have hle := hlistable.numbered gop rfl
  have henough := h.enough.mp hle
  have hrange := h.range hlistable.more.le hle hlistable.counted
  have hsome := (segs_made live printed live.tfragsize 0 (List.cons_ne_nil gop gops)).mpr hlistable.more
  obtain ⟨made, hmade⟩ := Option.isSome_iff_exists.mp hsome
  obtain ⟨huris, hsequence⟩ := segs_frags hmade
  have hfrags : m3u8Frags live.channel.gopsize live.tfragsize (gop :: gops) = live.frags (gop :: gops) := by
    rw [LiveChannel.frags, if_pos hlistable.counted]
  rw [hfrags] at huris hsequence
  refine ⟨⟨printed.maxDuration, u32 made.1, made.2, false, printed.narrow, Nat.mod_lt _ (by decide)⟩, ?_, huris, ?_, ?_⟩
  · rw [LiveChannel.create, if_pos hlistable.memory, if_pos hlistable.counted, channelM3u8Create, hmade]
    rfl
  · rw [hrange] at hsequence ⊢
    cases hsize : live.tfragsize with
    | zero => rfl
    | succ i =>
      have hquotient := Nat.div_le_self gop.idx live.channel.gopsize
      have hsmall := h.small gop List.mem_cons_self
      have hhead : ∀ first, (List.range' first (i + 1)).head? = some first := fun _ => rfl
      rw [hsize, hhead, Option.getD_some] at hsequence
      have hfirst : u32 made.1 = made.1 := u32_of_lt (by omega)
      exact congrArg (List.range' · (i + 1)) (hsequence.symm.trans hfirst.symm)
  · intro fragId hm
    rw [hrange, List.mem_range'_1] at hm
    have hi : gop.idx / live.channel.gopsize - (gop.idx / live.channel.gopsize - fragId) = fragId := by omega
    rw [← hi]
    exact (h.serves _).mpr (hlistable.held gop rfl _ (by omega))

end

/-- A playlist is made of an aligned gop, and all of it can be fetched, when there is one more gop than it has, and
all of its gops are in their blocks. -/
theorem playlist_listed_iff {gopsize : Nat} {live : LiveChannel} {older aligned : List Gop} (memory : Bool)
    (printed : Printed) (h : Leads (Channel.create gopsize) live.channel) (holder : older.reverse <+: live.channel.gops)
    (halign : live.align older = some aligned) : Lists live memory printed aligned ↔ Listable live memory aligned := by
  obtain ⟨hpos, hsuffix, gop, gops, rfl, hends⟩ := align_some halign
  have hchain := (leads_tiled (create_tiled gopsize) h).1.gops
  have hsmall := (leads_small h).1
  have hall : older <:+ live.channel.gops.reverse := by
    rw [← List.reverse_prefix, List.reverse_reverse]
    exact holder
  have hback : gop :: gops <:+ live.channel.gops.reverse := hsuffix.trans hall
  have haligned : Aligned live gop gops := by
    refine ⟨hpos, hchain, hsmall, (List.isChain_reverse.mpr hchain).suffix hback, ?_, hends⟩
    intro other hm
    exact hsmall other (List.mem_reverse.mp (hback.subset hm))
  exact ⟨lists_listable haligned, listable_lists haligned⟩

/-- A channel receives one more gop of one packet. -/
def nextGop (channel : Channel) : Channel := (beginGop .ample channel).write (.media ample keyFrame)

theorem empty_fits : ([] : List UInt8).length ≤ 1024 := Nat.zero_le 1024

/-- Fragments of one gop, of which a playlist lists one. -/
def shortLive (channel : Channel) : LiveChannel := ⟨channel, ascii "a", 1, [], empty_fits⟩

theorem key_step {channel : Channel} (h : channel.pmtPid = 0) : Step channel (nextGop channel) := by
  have hpat : isPat keyFrame = false := by decide
  have hpid : isPid keyFrame channel.pmtPid = false := by
    rw [h]
    decide
  have hidr : isIdr keyFrame = true := by decide
  refine ⟨.ample, keyFrame, true, ?_⟩
  rw [recvPacket, if_neg (by rw [hpat]; decide), if_neg (by rw [hpid]; decide), if_pos hidr]
  rfl

/-- Each gop ends a fragment of one. -/
theorem short_align {channel : Channel} (h : channel.gopsize = 1) {older : List Gop} (hne : older ≠ []) :
    (shortLive channel).align older = some older := by
  obtain ⟨gop, gops, rfl⟩ := List.exists_cons_of_ne_nil hne
  have hmod : ¬ (decide (gop.idx % 1 ≠ 1 - 1) = true) := by simp [Nat.mod_one]
  have hdrop : (gop :: gops).dropWhile (fun gop => gop.idx % 1 ≠ 1 - 1) = gop :: gops :=
    List.dropWhile_cons_of_neg hmod
  have hnumber : ¬ (gop :: gops).length < u32 (1 * 1) := Nat.not_lt.mpr (Nat.succ_le_succ (Nat.zero_le _))
  rw [LiveChannel.align, show (shortLive channel).channel.gopsize = 1 from h, show (shortLive channel).tfragsize = 1 from rfl]
  rw [if_neg Nat.one_ne_zero, channelM3u8GopAlign, hdrop]
  exact if_neg hnumber

theorem playlist_listed_second : Lists (shortLive (nextGop (nextGop (Channel.create 1)))) true fragmentReq.printed
    (nextGop (nextGop (Channel.create 1))).gops.reverse := by
  have hpid : (nextGop (Channel.create 1)).pmtPid = 0 := by decide +kernel
  have hleads : Leads (Channel.create 1) (nextGop (nextGop (Channel.create 1))) :=
    .tail (.single (key_step rfl)) (key_step hpid)
  have hgops : (nextGop (nextGop (Channel.create 1))).gops.map (fun gop => (gop.idx, gop.offset, gop.len)) =
      [(0, 0, 564), (1, 564, 564)] := by decide +kernel
  have hkeys : (nextGop (nextGop (Channel.create 1))).keys = [0] := by decide +kernel
  have hsize : (nextGop (nextGop (Channel.create 1))).gopsize = 1 := by decide +kernel
  generalize nextGop (nextGop (Channel.create 1)) = channel at *
  obtain ⟨first, rest, hfirst, hzero, hrest⟩ := List.map_eq_cons_iff.mp hgops
  obtain ⟨second, rest, rfl, hone, hnil⟩ := List.map_eq_cons_iff.mp hrest
  rw [List.map_eq_nil_iff] at hnil
  subst hnil
  simp only [Prod.mk.injEq] at hzero hone
  have holder : channel.gops.reverse = [second, first] := by rw [hfirst]; rfl
  have halign := @short_align channel hsize channel.gops.reverse (by rw [holder]; exact List.cons_ne_nil _ _)
  have hall : channel.gops.reverse.reverse <+: (shortLive channel).channel.gops := by
    rw [List.reverse_reverse]
    exact List.prefix_rfl
  apply (playlist_listed_iff true fragmentReq.printed hleads hall halign).mpr
  rw [holder]
  have hgopsize : (shortLive channel).channel.gopsize = 1 := hsize
  have hfew : (1 : Nat) ≤ 2 ^ 31 := by decide
  have hrecent : (1 : Nat) ≤ 2 ^ 32 := by decide
  constructor
  · rfl
  · exact hfew
  · rw [hgopsize]
    exact Nat.one_lt_two
  · rintro _ ⟨⟩
    rw [hgopsize, hone.1]
    exact Nat.le_succ 1
  · rintro _ ⟨⟩ i hi
    obtain rfl : i = 0 := Nat.lt_one_iff.mp hi
    refine ⟨[first], [second], [], hfirst, hgopsize.symm, hrecent, ?_, ?_⟩
    · rintro _ ⟨⟩
      rw [hgopsize, hone.1]
    · intro gop hm
      obtain rfl := List.mem_singleton.mp hm
      refine ⟨by rw [hone.2.2]; decide, ?_⟩
      intro k hk
      rw [show (shortLive channel).channel.keys = [0] from hkeys, List.mem_singleton]
      simp only [blockAlign, blockSize]
      omega

/-- A channel of one gop, which is enough for the alignment. -/
theorem first_unlisted : Leads (Channel.create 1) (nextGop (Channel.create 1)) ∧
    (shortLive (nextGop (Channel.create 1))).align (nextGop (Channel.create 1)).gops.reverse =
      some (nextGop (Channel.create 1)).gops.reverse ∧
    ¬ Lists (shortLive (nextGop (Channel.create 1))) true fragmentReq.printed
      (nextGop (Channel.create 1)).gops.reverse := by
  have hleads : Leads (Channel.create 1) (nextGop (Channel.create 1)) := .single (key_step rfl)
  have hlength : (nextGop (Channel.create 1)).gops.reverse.length = 1 := by decide +kernel
  have hsize : (nextGop (Channel.create 1)).gopsize = 1 := by decide +kernel
  generalize nextGop (Channel.create 1) = channel at *
  have hne : channel.gops.reverse ≠ [] := List.ne_nil_of_length_pos (by omega)
  refine ⟨hleads, short_align hsize hne, ?_⟩
  rintro ⟨m3u8, hcreate, -⟩
  have hfew : (shortLive channel).tfragsize ≤ 2 ^ 31 := show 1 ≤ 2 ^ 31 by decide
  rw [LiveChannel.create, if_pos rfl, if_pos hfew] at hcreate
  obtain ⟨made, hmade, -⟩ := Option.map_eq_some_iff.mp hcreate
  have hmore := (segs_made (shortLive channel) fragmentReq.printed 1 0 hne).mp (hmade ▸ rfl)
  rw [show (shortLive channel).channel.gopsize = 1 from hsize, hlength] at hmore
  exact absurd hmore (by decide)

end Yclib.Live
