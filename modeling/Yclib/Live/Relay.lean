import Yclib.Live.Listing
import Yclib.Live.Polling

namespace Yclib.Live
open Media.Hls

/-! The playlist of a channel as it goes on, and what a reader finds in it. -/

/-- The rounds of `yms_channel_recv_ts`, and whether all of them are made: without memory for a gop they end, and
so does the function. -/
def recvRounds : Channel → List (Outcome × List UInt8) → Option (Channel × Bool)
  | channel, [] => some (channel, true)
  | channel, (outcome, walker) :: rest =>
    (recvPacket outcome channel walker).bind fun result =>
      if result.2 then recvRounds result.1 rest else some (result.1, false)

/-- What `yms_channel_recv_ts` does behind its rounds: from the last gop back it looks for the end of a fragment,
and prints the playlist of the fragments up to there, if there are enough. -/
def LiveChannel.refresh (live : LiveChannel) (memory : Bool) (printed : Printed) : Option LiveChannel :=
  match live.channel.gops.reverse with
  | [] => some live
  | gop :: older =>
    if live.channel.gopsize = 0 then none
    else
      match (live.align (gop :: older)).bind (live.create memory printed) with
      | none => some live
      | some m3u8 => some { live with m3u8 := m3u8Write m3u8 1024, fits := playlist_short m3u8 }

/-- `yms_channel_recv_ts`, but for the request of the next segment. -/
def LiveChannel.recvTs (live : LiveChannel) (outcomes : Nat → Outcome) (body : Mem) (bodySize : Nat) (memory : Bool)
    (printed : Printed) : Option LiveChannel :=
  (recvRounds live.channel
    ((List.range ((bodySize + 187) / 188)).map fun i => (outcomes i, slice body (188 * i) 188))).bind fun result =>
      let live := { live with channel := result.1 }
      if result.2 then live.refresh memory printed else some live

/-- A channel of which the playlists are lines of text that fit their buffer, where each duration is printed in so
many bytes at most. -/
structure Relay where
  contentId : List UInt8
  gopsize : Nat
  tfragsize : Nat
  width : Nat
  named : ContentId contentId
  plain : ∀ b ∈ contentId, b ∉ [newline, 35]
  whole : ¬ ascii "-frag" <:+: contentId
  aligned : 0 < gopsize
  listed : 0 < tfragsize
  narrow : width ≤ 246
  room : 128 + tfragsize * (width + contentId.length + 29) < 1024

/-- The names of the fragments from a number on. -/
def Relay.window (relay : Relay) (first : Nat) : List (List UInt8) :=
  (List.range' first relay.tfragsize).map (fragmentName relay.contentId)

/-- The body is the text of a playlist with the names of the fragments from a number on. -/
structure Shows (relay : Relay) (body : List UInt8) (first : Nat) : Prop where
  legible : Legible body
  string : 0 ∉ body
  names : segNames (textLines body) = relay.window first
  small : first + relay.tfragsize ≤ 2 ^ 31

/-- The channel of a relay, whatever it has received. -/
structure Fed (relay : Relay) (live : LiveChannel) : Prop where
  contentId : live.contentId = relay.contentId
  tfragsize : live.tfragsize = relay.tfragsize
  leads : Leads (Channel.create relay.gopsize) live.channel

/-- The first fragment of a playlist, when there are so many gops. -/
def Relay.first (relay : Relay) (gops : Nat) : Nat := gops / relay.gopsize - relay.tfragsize

section Names
variable {relay : Relay} {m n : Nat}

/-- The names of fragments are in the order of their numbers. -/
theorem fragment_below (relay : Relay) (h : m < n) (hn : n < 2 ^ 31) : Below (fragmentName relay.contentId m)
    (fragmentName relay.contentId n) := by
  have hm := h.trans hn
  rw [fragment_name relay.named (by omega), fragment_name relay.named (by omega), signedDecimal, signedDecimal, if_pos hm,
    if_pos hn, compare_below, uriKey, uriKey, Prod.Lex.toLex_lt_toLex]
  simp only [List.length_append, List.map_append]
  rcases decimal_lt h with hlen | ⟨hlen, hcodes⟩
  · exact .inl (by omega)
  · refine .inr ⟨by omega, lt_append (by simp [hlen]) (List.append_left_lt hcodes)⟩

theorem window_nonempty (relay : Relay) (first : Nat) : relay.window first ≠ [] := by
  have hpos := relay.listed
  rw [Relay.window, ne_eq, List.map_eq_nil_iff, List.range'_eq_nil_iff]
  omega

theorem window_increasing {first : Nat} (h : first + relay.tfragsize ≤ 2 ^ 31) :
    (relay.window first).Pairwise Below := by
  rw [Relay.window, List.pairwise_map]
  refine List.Pairwise.imp_of_mem ?_ List.pairwise_lt_range'
  intro m n _ hn hlt
  rw [List.mem_range'_1] at hn
  exact fragment_below relay hlt (by omega)

/-- A window that goes on slides. -/
theorem window_slides {first first' : Nat} (hle : first ≤ first') (h : first' + relay.tfragsize ≤ 2 ^ 31) :
    Windows.Slides Below (relay.window first) (relay.window first') := by
  constructor
  · intro uri huri
    obtain ⟨n, hn, rfl⟩ := List.mem_map.mp huri
    rw [List.mem_range'_1] at hn
    by_cases hold : n < first + relay.tfragsize
    · exact .inl (List.mem_map_of_mem (List.mem_range'_1.mpr ⟨by omega, hold⟩))
    · refine .inr fun x hx => ?_
      obtain ⟨m, hm, rfl⟩ := List.mem_map.mp hx
      rw [List.mem_range'_1] at hm
      exact fragment_below relay (by omega) (by omega)
  · intro uri huri
    obtain ⟨m, hm, rfl⟩ := List.mem_map.mp huri
    rw [List.mem_range'_1] at hm
    by_cases hnew : first' ≤ m
    · exact .inl (List.mem_map_of_mem (List.mem_range'_1.mpr ⟨hnew, by omega⟩))
    · refine .inr fun x hx => ?_
      obtain ⟨n, hn, rfl⟩ := List.mem_map.mp hx
      rw [List.mem_range'_1] at hn
      exact fragment_below relay (by omega) (by omega)

/-- What windows show that go on without a gap. -/
theorem windows_mem {first last : Nat} {firsts : List Nat} (hrising : firsts.Pairwise (· ≤ ·))
    (hgapless : firsts.IsChain fun first next => next ≤ first + relay.tfragsize) (hfirst : firsts.head? = some first)
    (hlast : firsts.getLast? = some last) :
    (∃ f ∈ firsts, f ≤ n ∧ n < f + relay.tfragsize) ↔ first ≤ n ∧ n < last + relay.tfragsize := by
  induction firsts generalizing first with
  | nil => cases hfirst
  | cons f firsts ih =>
    obtain rfl := Option.some.inj hfirst
    cases firsts with
    | nil =>
      obtain rfl := Option.some.inj hlast
      simp
    | cons next firsts =>
      obtain ⟨hle, hrest⟩ := List.pairwise_cons.mp hrising
      obtain ⟨hnext, hchain⟩ := List.isChain_cons_cons.mp hgapless
      have hbound := hle next List.mem_cons_self
      have htop := hle last (List.mem_of_getLast? (List.getLast?_cons_cons.symm.trans hlast))
      rw [List.exists_mem_cons_iff, ih hrest hchain rfl (List.getLast?_cons_cons.symm.trans hlast)]
      omega

theorem fragment_inj (hm : m < 2 ^ 31) (hn : n < 2 ^ 31)
    (h : fragmentName relay.contentId m = fragmentName relay.contentId n) : m = n := by
  by_contra hne
  rcases Nat.lt_or_gt_of_ne hne with hlt | hlt
  · have hbelow := (compare_below _ _).mp (fragment_below relay hlt hn)
    exact lt_irrefl _ (h ▸ hbelow)
  · have hbelow := (compare_below _ _).mp (fragment_below relay hlt hm)
    exact lt_irrefl _ (h ▸ hbelow)

/-- Of windows without a gap all fragments are queued, one behind the other. -/
theorem queued_range {up : Upstream} {first last : Nat} {firsts : List Nat}
    (h : Queued (firsts.flatMap relay.window) up) (hrising : firsts.Pairwise (· ≤ ·))
    (hsmall : ∀ f ∈ firsts, f + relay.tfragsize ≤ 2 ^ 31)
    (hgapless : firsts.IsChain fun first next => next ≤ first + relay.tfragsize) (hfirst : firsts.head? = some first)
    (hlast : firsts.getLast? = some last) :
    up.queued = (List.range' (first + 1) (last + relay.tfragsize - (first + 1))).map (fragmentName relay.contentId) := by
  have hbound := hsmall last (List.mem_of_getLast? hlast)
  have hpos := relay.listed
  have hmem : ∀ uri, uri ∈ firsts.flatMap relay.window ↔
      ∃ n, (first ≤ n ∧ n < last + relay.tfragsize) ∧ fragmentName relay.contentId n = uri := by
    intro uri
    simp only [← windows_mem hrising hgapless hfirst hlast, List.mem_flatMap, Relay.window, List.mem_map,
      List.mem_range'_1]
    constructor
    · rintro ⟨f, hf, n, hn, rfl⟩
      exact ⟨n, ⟨f, hf, hn⟩, rfl⟩
    · rintro ⟨n, ⟨f, hf, hn⟩, rfl⟩
      exact ⟨f, hf, n, hn, rfl⟩
  have hhead : (firsts.flatMap relay.window).head? = some (fragmentName relay.contentId first) := by
    obtain ⟨rest, rfl⟩ := List.head?_eq_some_iff.mp hfirst
    obtain ⟨k, hk⟩ := Nat.exists_eq_succ_of_ne_zero hpos.ne'
    rw [List.flatMap_cons, Relay.window, hk]
    rfl
  have hrange : ((List.range' (first + 1) (last + relay.tfragsize - (first + 1))).map
      (fragmentName relay.contentId)).Pairwise Below := by
    rw [List.pairwise_map]
    refine List.Pairwise.imp_of_mem ?_ List.pairwise_lt_range'
    intro m n _ hn hlt
    rw [List.mem_range'_1] at hn
    exact fragment_below relay hlt (by omega)
  have hirrefl : ∀ uri, ¬ Below uri uri := fun uri hlt => lt_irrefl _ ((compare_below uri uri).mp hlt)
  -- both are in order, and have the same names
  refine List.Perm.eq_of_pairwise (fun a b _ _ hab hba => ?_) h.ordered hrange ?_
  · exact absurd ((compare_below a b).mp hab) (lt_asymm ((compare_below b a).mp hba))
  · have honce := hrange.imp fun {uri uri'} (hlt : Below uri uri') (heq : uri = uri') => hirrefl uri' (heq ▸ hlt)
    refine (List.perm_ext_iff_of_nodup h.once honce).mpr fun uri => ?_
    rw [h.complete, hmem, hhead, ne_eq, Option.some.injEq, List.mem_map]
    constructor
    · rintro ⟨⟨n, hn, rfl⟩, hne⟩
      have hne' : first ≠ n := fun heq => hne (heq ▸ rfl)
      exact ⟨n, List.mem_range'_1.mpr (by omega), rfl⟩
    · rintro ⟨n, hn, rfl⟩
      rw [List.mem_range'_1] at hn
      refine ⟨⟨n, by omega, rfl⟩, fun heq => ?_⟩
      have := fragment_inj (by omega) (by omega) heq
      omega

end Names

section Above
variable {channel channel' : Channel} {live : LiveChannel} {gopsize : Nat}

theorem media_gopsize (channel : Channel) (supply : Nat → Supply) (buf : List UInt8) :
    (channel.write (.media supply buf)).gopsize = channel.gopsize := by
  rw [Channel.write]
  split
  · rfl
  · exact write_gopsize

theorem recv_gopsize {outcome : Outcome} {walker : List UInt8} {more : Bool}
    (h : recvPacket outcome channel walker = some (channel', more)) : channel'.gopsize = channel.gopsize := by
  rw [recvPacket] at h
  split at h
  · dsimp only at h
    split at h
    · obtain ⟨pid, -, heq⟩ := Option.map_eq_some_iff.mp h
      cases heq
      rfl
    · cases h
      rfl
  · split at h
    · split at h
      · cases h
        rfl
      · cases h
    · split at h
      · split at h
        · cases h
          rw [media_gopsize]
          simp [beginGop]
        · cases h
          rfl
      · cases h
        exact media_gopsize channel _ _

/-- Gops have the numbers of their places, around 2^32. -/
structure Numbered (gopsize : Nat) (channel : Channel) : Prop where
  gops : channel.gops.map Gop.idx = (List.range channel.gops.length).map u32
  gopId : channel.gopId = u32 channel.gops.length
  gopsize : channel.gopsize = gopsize

theorem media_numbered (h : Numbered gopsize channel) (supply : Nat → Supply) (buf : List UInt8) :
    Numbered gopsize (channel.write (.media supply buf)) ∧
      (channel.write (.media supply buf)).gops.length = channel.gops.length := by
  have hsize := (media_gopsize channel supply buf).trans h.gopsize
  obtain ⟨hid, ⟨hnil, hnil'⟩ | ⟨front, gop, gop', hgops, hgops', hgoes⟩⟩ := @media_gops channel supply buf
  · have hlen : channel.gops.length = 0 := by rw [hnil, List.length_nil]
    rw [hlen]
    refine ⟨⟨?_, ?_, hsize⟩, ?_⟩
    · rw [hnil']
      rfl
    · rw [hid, h.gopId, hnil', hnil]
    · rw [hnil', List.length_nil]
  · have hlen : (channel.write (.media supply buf)).gops.length = channel.gops.length := by
      rw [hgops, hgops', List.length_append, List.length_append, List.length_singleton, List.length_singleton]
    refine ⟨⟨?_, ?_, hsize⟩, hlen⟩
    · rw [hlen, ← h.gops, hgops, hgops', List.map_append, List.map_append, List.map_singleton, List.map_singleton,
        hgoes.idx]
    · rw [hid, hlen, h.gopId]

theorem recv_numbered (h : Numbered gopsize channel) {outcome : Outcome} {walker : List UInt8} {more : Bool}
    (hrecv : recvPacket outcome channel walker = some (channel', more)) :
    Numbered gopsize channel' ∧ channel.gops.length ≤ channel'.gops.length := by
  have hsize := recv_gopsize hrecv
  obtain hkept | ⟨begun, rfl | rfl, rfl⟩ := recv_cases hrecv
  · refine ⟨⟨?_, ?_, hsize.trans h.gopsize⟩, by rw [hkept.gops]⟩
    · rw [hkept.gops, h.gops]
    · rw [hkept.gops, hkept.gopId, h.gopId]
  · obtain ⟨hnumbered, hlen⟩ := media_numbered h (outcome.writes 2) walker
    exact ⟨hnumbered, hlen.ge⟩
  · obtain ⟨hid, gop, hgops, hidx, -⟩ := begin_gops outcome channel
    have hbegun : Numbered gopsize (beginGop outcome channel) := by
      rw [media_gopsize] at hsize
      refine ⟨?_, ?_, hsize.trans h.gopsize⟩
      · rw [hgops, List.length_append, List.length_singleton, List.range_succ, List.map_append, List.map_append, h.gops,
          List.map_singleton, List.map_singleton, hidx, h.gopId]
      · rw [hid, hgops, List.length_append, List.length_singleton, h.gopId, u32, u32, u32, Nat.mod_add_mod]
    obtain ⟨hnumbered, hlen⟩ := media_numbered hbegun (outcome.writes 2) walker
    refine ⟨hnumbered, ?_⟩
    rw [hlen, hgops, List.length_append]
    exact Nat.le_add_right _ _

theorem leads_numbered (h : Numbered gopsize channel) (hleads : Leads channel channel') :
    Numbered gopsize channel' ∧ channel.gops.length ≤ channel'.gops.length := by
  induction hleads with
  | refl => exact ⟨h, Nat.le_refl _⟩
  | tail _ hstep ih =>
    obtain ⟨outcome, walker, more, hrecv⟩ := hstep
    obtain ⟨hnumbered, hlen⟩ := recv_numbered ih.1 hrecv
    exact ⟨hnumbered, ih.2.trans hlen⟩

theorem create_numbered (gopsize : Nat) : Numbered gopsize (Channel.create gopsize) := ⟨rfl, rfl, rfl⟩

/-- The rounds are those of the loop. -/
theorem rounds_packets (channel : Channel) (packets : List (Outcome × List UInt8)) :
    (recvRounds channel packets).map Prod.fst = recvPackets channel packets := by
  induction packets generalizing channel with
  | nil => rfl
  | cons packet packets ih =>
    rw [recvRounds, recvPackets]
    cases recvPacket packet.1 channel packet.2 with
    | none => rfl
    | some result =>
      simp only [Option.bind_some]
      split
      · exact ih result.1
      · rfl

theorem place_idx (h : Numbered gopsize channel) {k : Nat} (hk : k < channel.gops.length) (hlt : k < 2 ^ 32) :
    channel.gops[k].idx = k := by
  have hnumber := congrArg (fun numbers => numbers[k]?) h.gops
  simp only [List.getElem?_map, List.getElem?_eq_getElem hk, List.getElem?_range hk, Option.map_some] at hnumber
  rw [Option.some.inj hnumber, u32_of_lt hlt]

/-- An alignment goes back to the newest gop that ends a fragment. -/
theorem align_newest {older aligned : List Gop} (h : live.align older = some aligned) :
    ∃ newer, older = newer ++ aligned ∧
      ∀ gop ∈ newer, gop.idx % live.channel.gopsize ≠ live.channel.gopsize - 1 := by
  rw [LiveChannel.align] at h
  split at h
  · cases h
  · rw [channelM3u8GopAlign] at h
    split at h
    · cases h
    · rename_i gop gops hdrop
      split at h
      · cases h
      · obtain rfl := Option.some.inj h
        refine ⟨older.takeWhile fun gop => gop.idx % live.channel.gopsize ≠ live.channel.gopsize - 1, ?_, ?_⟩
        · rw [← hdrop, List.takeWhile_append_dropWhile]
        · intro gop hm
          simpa using List.mem_takeWhile_imp hm

/-- The fragments up to an aligned gop are all that the gops of the channel make up. -/
theorem align_whole (h : Numbered gopsize live.channel) (hfew : live.channel.gops.length ≤ 2 ^ 31) {gop : Gop}
    {gops : List Gop} (halign : live.align live.channel.gops.reverse = some (gop :: gops)) :
    gop.idx + 1 = (gop :: gops).length ∧ gop.idx / gopsize + 1 = live.channel.gops.length / gopsize := by
  obtain ⟨hpos, -, _, _, ⟨rfl, rfl⟩, hends⟩ := align_some halign
  obtain ⟨newer, hsplit, hnewer⟩ := align_newest halign
  rw [h.gopsize] at hpos hends hnewer
  have hgops : live.channel.gops = gops.reverse ++ gop :: newer.reverse := by
    rw [← List.reverse_reverse live.channel.gops, hsplit]
    simp
  have hlen : live.channel.gops.length = gops.length + 1 + newer.length := by
    rw [hgops]
    simp only [List.length_append, List.length_reverse, List.length_cons]
    omega
  have hidx : gop.idx = gops.length := by
    have hplace := place_idx (k := gops.length) h (by omega) (by omega)
    rw [← hplace]
    simp [hgops]
  have hwhole : gop.idx / gopsize * gopsize + gopsize = gops.length + 1 := by
    have hdiv := Nat.div_add_mod' gop.idx gopsize
    omega
  refine ⟨by rw [hidx, List.length_cons], ?_⟩
  rw [← Nat.succ_mul] at hwhole
  have hle : gop.idx / gopsize + 1 ≤ live.channel.gops.length / gopsize := by
    rw [Nat.le_div_iff_mul_le hpos]
    have := hwhole
    rw [Nat.succ_eq_add_one] at this
    omega
  refine Nat.le_antisymm hle (Nat.not_lt.mp fun hlt => ?_)
  -- the gop that ends the next fragment is newer
  have hnext : (gop.idx / gopsize + 1 + 1) * gopsize ≤ live.channel.gops.length :=
    (Nat.le_div_iff_mul_le hpos).mp hlt
  rw [Nat.succ_mul, hwhole] at hnext
  have hk : gops.length + gopsize < live.channel.gops.length := by omega
  have hplace := place_idx h hk (by omega)
  have hm : live.channel.gops[gops.length + gopsize] ∈ newer := by
    have hin : gopsize - 1 < newer.reverse.length := by
      rw [List.length_reverse]
      omega
    have hget : live.channel.gops[gops.length + gopsize] = newer.reverse[gopsize - 1] := by
      simp only [hgops]
      rw [List.getElem_append_right (by rw [List.length_reverse]; omega)]
      simp only [List.length_reverse, Nat.add_sub_cancel_left]
      rw [List.getElem_cons, dif_neg (by omega)]
    rw [hget]
    exact List.mem_reverse.mp (List.getElem_mem _)
  apply hnewer _ hm
  rw [hplace, ← hidx, Nat.add_mod_right, hends]

end Above

section Playlist
variable {relay : Relay} {m3u8 : MediaM3u8} {first n : Nat} {b : UInt8}

/-- What a playlist is made of. -/
structure Lines (relay : Relay) (m3u8 : MediaM3u8) (first : Nat) : Prop where
  uris : m3u8.seg.map MediaSeg.uri = relay.window first
  widths : ∀ seg ∈ m3u8.seg, seg.timeLen.text.length ≤ relay.width
  running : m3u8.ending = false
  small : first + relay.tfragsize ≤ 2 ^ 31

theorem name_bytes (hn : n < 2 ^ 31) (hm : b ∈ fragmentName relay.contentId n) :
    b ∉ [0, newline, space, 35] := by
  rw [fragment_name relay.named (by omega), signedDecimal, if_pos hn] at hm
  simp only [List.mem_append] at hm
  rcases hm with ((hm | hm) | hm) | hm
  · have hnamed := relay.named.plain b hm
    have hplain := relay.plain b hm
    simp only [List.mem_cons, List.not_mem_nil, or_false, not_or, newline, space] at hnamed hplain ⊢
    exact ⟨hnamed.1, hplain.1, hnamed.2.1, hplain.2⟩
  · have hall : ∀ c ∈ ascii "-frag", c ∉ [0, newline, space, 35] := by simp [ascii, newline, space]
    exact hall b hm
  · have hge := (decimal_digits hm).1
    simp only [List.mem_cons, List.not_mem_nil, or_false, newline, space]
    rintro (rfl | rfl | rfl | rfl) <;> exact absurd hge (by decide)
  · have hall : ∀ c ∈ ascii ".ts", c ∉ [0, newline, space, 35] := by simp [ascii, newline, space]
    exact hall b hm

theorem name_length (relay : Relay) (hn : n < 2 ^ 31) :
    (fragmentName relay.contentId n).length ≤ relay.contentId.length + 18 := by
  have hdigits : (decimal n).length ≤ 10 := decimal_length (by decide) (by omega)
  have hfrag : (ascii "-frag").length = 5 := rfl
  have hts : (ascii ".ts").length = 3 := rfl
  rw [fragment_name relay.named (by omega), signedDecimal, if_pos hn]
  simp only [List.length_append]
  omega

theorem name_plain (relay : Relay) (hn : n < 2 ^ 31) : Media.Hls.Plain (fragmentName relay.contentId n) := by
  have hfits := relay.named.fits
  have hlen := name_length relay hn
  refine ⟨?_, by omega, ?_, ?_⟩
  · rw [fragment_name relay.named (by omega)]
    simp [ascii]
  · intro b hm hb
    have hbytes := name_bytes hn hm
    simp only [List.mem_cons, List.not_mem_nil, or_false, not_or] at hbytes hb
    rcases hb with hb | hb | hb
    · exact hbytes.1 hb
    · exact hbytes.2.1 hb
    · exact hbytes.2.2.1 hb
  · exact no_tag fun hm => name_bytes hn hm (by simp)

/-- Each segment has the name of a fragment. -/
theorem Lines.name (h : Lines relay m3u8 first) {seg : MediaSeg} (hm : seg ∈ m3u8.seg) :
    ∃ n < 2 ^ 31, seg.uri = fragmentName relay.contentId n := by
  have huri := List.mem_map_of_mem (f := MediaSeg.uri) hm
  rw [h.uris] at huri
  obtain ⟨n, hn, heq⟩ := List.mem_map.mp huri
  rw [List.mem_range'_1] at hn
  have hsmall := h.small
  exact ⟨n, by omega, heq.symm⟩

theorem Lines.plain (h : Lines relay m3u8 first) : ∀ seg ∈ m3u8.seg, Media.Hls.Plain seg.uri := by
  intro seg hm
  obtain ⟨n, hn, huri⟩ := h.name hm
  rw [huri]
  exact name_plain relay hn

theorem segs_size (segs : List MediaSeg) (size : Nat)
    (h : ∀ seg ∈ segs, (seg.lines.flatMap (· ++ [newline])).length ≤ size) :
    ((segs.flatMap MediaSeg.lines).flatMap (· ++ [newline])).length ≤ segs.length * size := by
  induction segs with
  | nil => exact Nat.zero_le _
  | cons seg segs ih =>
    have hseg := h seg List.mem_cons_self
    have hrest := ih fun seg hm => h seg (List.mem_cons_of_mem _ hm)
    rw [List.flatMap_cons, List.flatMap_append, List.length_append, List.length_cons, Nat.succ_mul]
    omega

theorem Lines.fits (h : Lines relay m3u8 first) : m3u8.Fits 1024 := by
  have hcount : m3u8.seg.length = relay.tfragsize := by
    rw [← List.length_map MediaSeg.uri, h.uris, Relay.window, List.length_map, List.length_range']
  have hsegs := segs_size m3u8.seg (relay.width + relay.contentId.length + 29) <| by
    intro seg hm
    have hwidth := h.widths seg hm
    obtain ⟨n, hn, huri⟩ := h.name hm
    have hlen := name_length relay hn
    have htag : (ascii "#EXTINF:").length = 8 := rfl
    have hcomma : (ascii ",").length = 1 := rfl
    simp only [MediaSeg.lines, extinf, huri, List.flatMap_cons, List.flatMap_nil, List.length_append, List.length_cons,
      List.length_nil, htag, hcomma]
    omega
  have hversion : (decimal m3u8Version).length = 1 := by decide
  have hsequence := decimal_length (n := m3u8.mediaSequence) (k := 10) (by decide) (m3u8.sequence.trans (by decide))
  have hduration := m3u8.narrow
  have hroom := relay.room
  refine ⟨?_, by decide⟩
  rw [hcount] at hsegs
  have hm3u : (ascii "#EXTM3U").length = 7 := rfl
  have hver : (ascii "#EXT-X-VERSION:").length = 15 := rfl
  have hseq : (ascii "#EXT-X-MEDIA-SEQUENCE:").length = 22 := rfl
  have htarget : (ascii "#EXT-X-TARGETDURATION:").length = 22 := rfl
  rw [MediaM3u8.lines, h.running]
  simp only [Bool.false_eq_true, if_false, List.append_nil, List.flatMap_append, List.flatMap_cons, List.flatMap_nil,
    List.length_append, List.length_cons, List.length_nil, hm3u, hver, hseq, htarget, hversion] at hsegs ⊢
  omega

theorem fixed_string {x : Fixed} : 0 ∉ x.text := by
  have hsign : ∀ negative, 0 ∉ Fixed.sign negative := by decide
  have hdecimal : ∀ n, 0 ∉ decimal n := fun n hm => absurd (decimal_digits hm).1 (by decide)
  cases x with
  | number negative whole micros =>
    simp only [Fixed.text, List.mem_append, not_or]
    exact ⟨⟨⟨hsign negative, hdecimal whole⟩, by decide⟩, fun hm => hdecimal _ (List.mem_of_mem_drop hm)⟩
  | inf negative =>
    simp only [Fixed.text, List.mem_append, not_or]
    exact ⟨hsign negative, by decide⟩
  | nan negative =>
    simp only [Fixed.text, List.mem_append, not_or]
    exact ⟨hsign negative, by decide⟩

theorem Lines.string (h : Lines relay m3u8 first) : ∀ line ∈ m3u8.lines, 0 ∉ line := by
  have hdecimal : ∀ n, 0 ∉ decimal n := fun n hm => absurd (decimal_digits hm).1 (by decide)
  have hsegs : ∀ seg ∈ m3u8.seg, ∀ line ∈ seg.lines, 0 ∉ line := by
    intro seg hm
    rw [MediaSeg.lines, List.forall_mem_cons, List.forall_mem_singleton]
    constructor
    · rw [extinf, List.mem_append, List.mem_append, not_or, not_or]
      exact ⟨⟨by decide, fixed_string⟩, by decide⟩
    · exact fun hzero => (h.plain seg hm).bytes 0 hzero (by simp)
  rw [MediaM3u8.lines, h.running]
  simp only [Bool.false_eq_true, if_false, List.append_nil, List.cons_append, List.nil_append, List.forall_mem_cons,
    List.mem_append, not_or, List.mem_flatMap]
  refine ⟨by decide, ⟨by decide, hdecimal _⟩, ⟨by decide, hdecimal _⟩, ⟨by decide, fixed_string⟩, ?_⟩
  rintro line ⟨seg, hm, hline⟩
  exact hsegs seg hm line hline

/-- A playlist that is printed shows its fragments. -/
theorem Lines.shows (h : Lines relay m3u8 first) : Shows relay (m3u8Write m3u8 1024) first := by
  have hread := read_written h.plain h.fits
  have hnarrow : ∀ seg ∈ m3u8.seg, seg.timeLen.text.length ≤ 246 := fun seg hm => (h.widths seg hm).trans relay.narrow
  rw [if_pos hnarrow] at hread
  have hlegible : Legible (m3u8Write m3u8 1024) := legible_iff.mpr (hread ▸ rfl)
  refine ⟨hlegible, ?_, ?_, h.small⟩
  · have hwrite := append_all (show 2 ≤ 1024 by decide) (by decide) m3u8.lines []
    rw [List.take_nil, List.nil_append] at hwrite
    rw [m3u8Write, hwrite]
    intro hzero
    obtain ⟨line, hline, hm⟩ := List.mem_flatMap.mp (List.mem_of_mem_take hzero)
    rcases List.mem_append.mp hm with hm | hm
    · exact h.string line hline hm
    · exact absurd (List.mem_singleton.mp hm) (by decide)
  · obtain ⟨read, extra, hread', hnames⟩ := legible_read hlegible
    obtain rfl := Option.some.inj (hread'.symm.trans hread)
    have huris : (m3u8.seg.map MediaSeg.read).map Prod.snd = relay.window first := by
      rw [← h.uris, List.map_map]
      rfl
    rw [huris] at hnames
    -- no segment is without a name
    obtain rfl : extra = 0 := by
      by_contra hextra
      have hnil : ([] : List UInt8) ∈ relay.window first := by
        rw [hnames]
        exact List.mem_append_right _ (List.mem_replicate.mpr ⟨hextra, rfl⟩)
      obtain ⟨n, hn, hname⟩ := List.mem_map.mp hnil
      rw [List.mem_range'_1] at hn
      have hsmall := h.small
      exact (name_plain relay (n := n) (by omega)).nonempty hname
    rw [hnames, List.replicate_zero, List.append_nil]

end Playlist

section Feed
variable {relay : Relay} {live live' : LiveChannel} {printed : Printed} {memory : Bool}

theorem Fed.numbered (h : Fed relay live) : Numbered relay.gopsize live.channel :=
  (leads_numbered (create_numbered relay.gopsize) h.leads).1

theorem segs_times {i sequence : Nat} {older : List Gop} {made : Nat × List MediaSeg}
    (h : m3u8Segs live printed i older sequence = some made) :
    ∀ seg ∈ made.2, ∃ k, seg.timeLen = printed.timeLen k := by
  induction i generalizing older sequence made with
  | zero =>
    obtain rfl := Option.some.inj h
    exact fun _ hm => absurd hm List.not_mem_nil
  | succ i ih =>
    cases older with
    | nil => cases h
    | cons gop gops =>
      rw [m3u8Segs] at h
      dsimp only at h
      split at h
      · cases h
      · obtain ⟨rest, hrest, rfl⟩ := Option.map_eq_some_iff.mp h
        intro seg hm
        rcases List.mem_append.mp hm with hm | hm
        · exact ih hrest seg hm
        · exact ⟨i, by rw [List.mem_singleton.mp hm]⟩

/-- What is created of an aligned gop. -/
theorem created_lines (h : Fed relay live) (hfew : live.channel.gops.length ≤ 2 ^ 31)
    (hwidth : ∀ i, (printed.timeLen i).text.length ≤ relay.width) {aligned : List Gop} {m3u8 : MediaM3u8}
    (halign : live.align live.channel.gops.reverse = some aligned)
    (hcreate : live.create memory printed aligned = some m3u8) :
    Lines relay m3u8 (relay.first live.channel.gops.length) := by
  have hnumbered := h.numbered
  obtain ⟨hpos, hsuffix, gop, gops, rfl, hends⟩ := align_some halign
  obtain ⟨hlen, hwhole⟩ := align_whole hnumbered hfew halign
  have hchain := (leads_tiled (create_tiled relay.gopsize) h.leads).1.gops
  have hsmall := (leads_small h.leads).1
  have haligned : Aligned live gop gops :=
    ⟨hpos, hchain, hsmall, (List.isChain_reverse.mpr hchain).suffix hsuffix,
      fun other hm => hsmall other (List.mem_reverse.mp (hsuffix.subset hm)), hends⟩
  have hcounted : live.tfragsize ≤ 2 ^ 31 := by
    have hroom := relay.room
    have hle : relay.tfragsize ≤ relay.tfragsize * (relay.width + relay.contentId.length + 29) :=
      Nat.le_mul_of_pos_right _ (Nat.succ_pos _)
    rw [h.tfragsize]
    omega
  rw [LiveChannel.create, if_pos hcounted] at hcreate
  split at hcreate
  · obtain ⟨made, hmade, rfl⟩ := Option.map_eq_some_iff.mp hcreate
    have hmore := (segs_made live printed live.tfragsize 0 (List.cons_ne_nil gop gops)).mp (hmade ▸ rfl)
    have hrange := haligned.range hmore.le (by omega) hcounted
    rw [LiveChannel.frags, if_pos hcounted, hnumbered.gopsize, hwhole, h.tfragsize] at hrange
    constructor
    · rw [(segs_frags hmade).1, hnumbered.gopsize, h.tfragsize, hrange, h.contentId]
      rfl
    · intro seg hm
      obtain ⟨k, hk⟩ := segs_times hmade seg hm
      rw [hk]
      exact hwidth k
    · rfl
    · rw [hnumbered.gopsize, h.tfragsize] at hmore
      have hle : relay.tfragsize ≤ live.channel.gops.length / relay.gopsize := by
        rw [← hwhole, ← h.tfragsize, ← hnumbered.gopsize, ← haligned.enough, hnumbered.gopsize, h.tfragsize]
        omega
      have hdiv := Nat.div_le_self live.channel.gops.length relay.gopsize
      rw [Relay.first, Nat.sub_add_cancel hle]
      omega
  · cases hcreate

/-- What a segment does: the gops are those of the rounds, and there may be a playlist of them. -/
theorem recv_ts_cases {outcomes : Nat → Outcome} {body : Mem} {bodySize : Nat}
    (h : live.recvTs outcomes body bodySize memory printed = some live') :
    ∃ channel, ymsChannelRecvTs outcomes live.channel body bodySize = some channel ∧
      (live' = { live with channel := channel } ∨ ∃ aligned m3u8,
        { live with channel := channel }.align channel.gops.reverse = some aligned ∧
        { live with channel := channel }.create memory printed aligned = some m3u8 ∧
        live' = { live with channel := channel, m3u8 := m3u8Write m3u8 1024, fits := playlist_short m3u8 }) := by
  obtain ⟨⟨channel, more⟩, hrounds, hrest⟩ := Option.bind_eq_some_iff.mp h
  refine ⟨channel, ?_, ?_⟩
  · rw [ymsChannelRecvTs, ← rounds_packets, hrounds]
    rfl
  · dsimp only at hrest
    split at hrest
    · rw [LiveChannel.refresh] at hrest
      dsimp only at hrest
      split at hrest
      · exact .inl (Option.some.inj hrest).symm
      · rename_i gop older hgops
        split at hrest
        · cases hrest
        · rw [← hgops] at hrest
          split at hrest
          · exact .inl (Option.some.inj hrest).symm
          · rename_i m3u8 hmade
            obtain ⟨aligned, halign, hcreate⟩ := Option.bind_eq_some_iff.mp hmade
            exact .inr ⟨aligned, m3u8, halign, hcreate, (Option.some.inj hrest).symm⟩
    · exact .inl (Option.some.inj hrest).symm

/-- A segment leaves the playlist, or there is one of the fragments that there are then. -/
theorem recv_ts_fed (h : Fed relay live) {outcomes : Nat → Outcome} {body : Mem} {bodySize : Nat}
    (hrecv : live.recvTs outcomes body bodySize memory printed = some live') :
    Fed relay live' ∧ live.channel.gops.length ≤ live'.channel.gops.length ∧
      (live'.m3u8 = live.m3u8 ∨ ((∀ i, (printed.timeLen i).text.length ≤ relay.width) →
        live'.channel.gops.length ≤ 2 ^ 31 → Shows relay live'.m3u8 (relay.first live'.channel.gops.length))) := by
  obtain ⟨channel, hchannel, hcases⟩ := recv_ts_cases hrecv
  have hleads := delivery_leads hchannel
  have hlen := (leads_numbered h.numbered hleads).2
  have hfed : Fed relay { live with channel := channel } := ⟨h.contentId, h.tfragsize, h.leads.trans hleads⟩
  rcases hcases with rfl | ⟨aligned, m3u8, halign, hcreate, rfl⟩
  · exact ⟨hfed, hlen, .inl rfl⟩
  · exact ⟨⟨hfed.contentId, hfed.tfragsize, hfed.leads⟩, hlen,
      .inr fun hwidth hfew => (created_lines hfed hfew hwidth halign hcreate).shows⟩

end Feed

end Yclib.Live
