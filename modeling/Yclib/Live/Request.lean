import Yclib.Live.Fragments
import Yclib.Live.Naming
import Yclib.Media.Hls

namespace Yclib.Live
open Media.Hls

/-! What the front end queues on a connection for a request. -/

/-- The tasks of a connection that a request adds: a header, with the text of its `Content-Length`, a buffer
of the body, and the completion that `rns_hconn_resp` adds. -/
inductive Task
  | header (code : Nat) (contentLength : Option (List UInt8))
  | body (bytes : List UInt8)
  | resp
deriving DecidableEq

/-- A `channel_t` as requests find it; `m3u8` are the `m3u8_size` bytes of `m3u8_buf`, which has 1024. -/
structure LiveChannel where
  channel : Channel
  contentId : List UInt8
  tfragsize : Nat
  m3u8 : List UInt8
  fits : m3u8.length ≤ 1024

/-- How durations are printed, of the whole playlist and of each of its segments. -/
structure Printed where
  maxDuration : Fixed
  narrow : maxDuration.text.length ≤ 47
  timeLen : Nat → Fixed

/-- A request: the uri, the data of its argument `playseek`, whether the gop with a number began before the
time that is asked for, and how durations are printed. -/
structure LiveReq where
  uri : List UInt8
  playseek : Option (List UInt8)
  started : Nat → Bool
  printed : Printed

/-- The gop that a time is found in, with all older ones behind it. -/
def seekGop (started : Nat → Bool) : List Gop → List Gop → List Gop
  | older, [] => older
  | older, gop :: gops => if started gop.idx then gop :: older else seekGop started (gop :: older) gops

/-- `channel_m3u8_gop_align`, from a gop and the older ones to the gop that it gives and the older ones. -/
def channelM3u8GopAlign (gopsize tfragsize : Nat) (older : List Gop) : Option (List Gop) :=
  match older.dropWhile fun gop => gop.idx % gopsize ≠ gopsize - 1 with
  | [] => none
  | gop :: gops => if (gop :: gops).length < u32 (gopsize * tfragsize) then none else some (gop :: gops)

/-- The loop of `channel_m3u8_create`, with the media sequence number and the segments. -/
def m3u8Segs (live : LiveChannel) (printed : Printed) : Nat → List Gop → Nat → Option (Nat × List MediaSeg)
  | 0, _, sequence => some (sequence, [])
  | i + 1, older, _ =>
    match older with
    | [] => none
    | gop :: _ =>
      if older.length ≤ live.channel.gopsize then none
      else
        let fragId := u32 (gop.idx / live.channel.gopsize)
        (m3u8Segs live printed i (older.drop live.channel.gopsize) fragId).map fun made =>
          (made.1, made.2 ++ [⟨printed.timeLen i, fragmentName live.contentId fragId⟩])

/-- `channel_m3u8_create`. -/
def channelM3u8Create (live : LiveChannel) (printed : Printed) (older : List Gop) : Option MediaM3u8 :=
  (m3u8Segs live printed live.tfragsize older 0).map fun made =>
    ⟨printed.maxDuration, u32 made.1, made.2, false, printed.narrow, Nat.mod_lt _ (by decide)⟩

/-- A response whose body is in one buffer. -/
def respond (bytes : List UInt8) : List Task :=
  [.header 200 (some (signedDecimal bytes.length)), .body bytes, .resp]

/-- `yms_attach_buffer` of each gop. -/
def attachGops (channel : Channel) (rounds : Nat) : List Gop → Option (List (List UInt8))
  | [] => some []
  | gop :: gops =>
    (ymsAttachBuffer channel gop rounds 0).bind fun pieces => (attachGops channel rounds gops).map (pieces ++ ·)

/-- `yms_live_req`, with as many rounds as `yms_attach_buffer` takes. There is no result where it does not
end, where it leaves its buffers and where it divides by zero. -/
def ymsLiveReq (live : LiveChannel) (req : LiveReq) (rounds : Nat) : Option (List Task) :=
  match reqParse req.uri req.playseek with
  | .undefined => none
  | .error => some [.header 404 none]
  | .fragment _ fragId =>
    match live.channel.liveReq fragId with
    | none => some [.header 404 none]
    | some gops =>
      (attachGops live.channel rounds gops).map fun pieces =>
        .header 200 (some (signedDecimal (u32 (gops.map Gop.len).sum))) :: (pieces.map .body ++ [.resp])
  | .m3u8 _ playseek =>
    if playseek = 0 then
      if live.m3u8 = [] then some [.header 404 none] else some (respond live.m3u8)
    else
      match seekGop req.started [] live.channel.gops with
      | [] => some [.header 404 none]
      | gop :: older =>
        if live.channel.gopsize = 0 then none
        else
          match (channelM3u8GopAlign live.channel.gopsize live.tfragsize (gop :: older)).bind
            (channelM3u8Create live req.printed) with
          | none => some [.header 404 none]
          | some m3u8 => some (respond (m3u8Write m3u8 1024))

/-- `yms_req_dispatch`; `channels` is what `rbt_search_str` finds. -/
def ymsReqDispatch (channels : List UInt8 → Option LiveChannel) (req : LiveReq) (rounds : Nat) :
    Option (List Task) :=
  match (dispatchId req.uri).bind channels with
  | none => some [.header 501 none]
  | some live => ymsLiveReq live req rounds

/-- One header, the bytes that it announces, and one completion. -/
def Whole (tasks : List Task) : Prop :=
  ∃ (code : Nat) (pieces : List (List UInt8)), tasks =
    .header code (some (decimal pieces.flatten.length)) :: (pieces.map .body ++ [.resp])

/-- The request is answered as a whole. -/
def Answered (channels : List UInt8 → Option LiveChannel) (req : LiveReq) : Prop :=
  ∃ rounds tasks, ymsReqDispatch channels req rounds = some tasks ∧ Whole tasks

/-- The gops of a fragment have all of their blocks, and their size is printed without a sign. -/
def Fetchable (channel : Channel) (gops : List Gop) : Prop :=
  (∀ gop ∈ gops, ∀ k < gop.len, blockAlign (gop.offset + k) ∈ channel.keys) ∧ (gops.map Gop.len).sum < 2 ^ 31

/-- What is requested is there: a channel, and of it the gops of a fragment, the playlist, or enough gops
behind the time that is asked for. -/
def Available (channels : List UInt8 → Option LiveChannel) (req : LiveReq) : Prop :=
  ∃ live, (dispatchId req.uri).bind channels = some live ∧
    match reqParse req.uri req.playseek with
    | .undefined => False
    | .error => False
    | .fragment _ fragId => ∃ gops, live.channel.liveReq fragId = some gops ∧ Fetchable live.channel gops
    | .m3u8 _ playseek =>
      if playseek = 0 then live.m3u8 ≠ []
      else 0 < live.channel.gopsize ∧
        live.channel.gopsize * live.tfragsize < ((seekGop req.started [] live.channel.gops).dropWhile
          fun gop => gop.idx % live.channel.gopsize ≠ live.channel.gopsize - 1).length

section
variable {channel : Channel} {gop : Gop} {gops : List Gop}

/-- More rounds than are needed change nothing. -/
theorem attach_more {rounds sendbytes : Nat} {pieces : List (List UInt8)} (more : Nat)
    (h : ymsAttachBuffer channel gop rounds sendbytes = some pieces) :
    ymsAttachBuffer channel gop (rounds + more) sendbytes = some pieces := by
  induction rounds generalizing sendbytes pieces with
  | zero => cases h
  | succ rounds ih =>
    rw [ymsAttachBuffer] at h
    rw [Nat.add_right_comm, ymsAttachBuffer]
    split at h
    · rename_i hmore
      rw [if_pos hmore]
      dsimp only at h ⊢
      split at h
      · exact ih h
      · obtain ⟨rest, hrest, rfl⟩ := Option.map_eq_some_iff.mp h
        rw [ih hrest]
        rfl
    · rename_i hend
      rw [if_neg hend, h]

/-- The loop ends for gops below 2^32 only, as its counter goes around. -/
theorem attach_small {rounds sendbytes : Nat} {pieces : List (List UInt8)}
    (h : ymsAttachBuffer channel gop rounds sendbytes = some pieces) (hs : sendbytes < 2 ^ 32) :
    gop.len < 2 ^ 32 := by
  induction rounds generalizing sendbytes pieces with
  | zero => cases h
  | succ rounds ih =>
    rw [ymsAttachBuffer] at h
    split at h
    · dsimp only at h
      split at h
      · exact ih h hs
      · obtain ⟨rest, hrest, -⟩ := Option.map_eq_some_iff.mp h
        exact ih hrest (Nat.mod_lt _ (by decide))
    · omega

theorem attach_length {rounds sendbytes : Nat} {pieces : List (List UInt8)}
    (h : ymsAttachBuffer channel gop rounds sendbytes = some pieces) (hs : sendbytes ≤ gop.len)
    (hsmall : gop.len < 2 ^ 32) : sendbytes + pieces.flatten.length = gop.len := by
  induction rounds generalizing sendbytes pieces with
  | zero => cases h
  | succ rounds ih =>
    rw [ymsAttachBuffer] at h
    split at h
    · dsimp only at h
      split at h
      · exact ih h hs
      · obtain ⟨n, hn⟩ : ∃ n, n = min (blockSize - (gop.offset + sendbytes - blockAlign (gop.offset + sendbytes)))
          (gop.len - sendbytes) := ⟨_, rfl⟩
        rw [← hn] at h
        obtain ⟨rest, hrest, rfl⟩ := Option.map_eq_some_iff.mp h
        rw [u32_of_lt (by omega)] at hrest
        have hlen := ih hrest (by omega)
        rw [List.flatten_cons, List.length_append, slice_length]
        omega
    · obtain rfl := Option.some.inj h
      rw [List.flatten_nil, List.length_nil]
      omega

/-- With all blocks there, the loop ends. -/
theorem attach_ends (hfound : ∀ k < gop.len, blockAlign (gop.offset + k) ∈ channel.keys) (hsmall : gop.len < 2 ^ 32)
    {left sendbytes : Nat} (hleft : sendbytes + left = gop.len) :
    ∃ rounds pieces, ymsAttachBuffer channel gop rounds sendbytes = some pieces := by
  induction left using Nat.strong_induction_on generalizing sendbytes with
  | _ left ih =>
    by_cases hmore : sendbytes < gop.len
    · obtain ⟨n, hn⟩ : ∃ n, n = min (blockSize - (gop.offset + sendbytes - blockAlign (gop.offset + sendbytes)))
        (gop.len - sendbytes) := ⟨_, rfl⟩
      have hpos : 0 < n := by
        simp only [hn, blockAlign, blockSize]
        omega
      obtain ⟨block, hsearch⟩ := Option.isSome_iff_exists.mp (search_keys.mpr (hfound sendbytes hmore))
      obtain ⟨rounds, pieces, hrest⟩ := @ih (left - n) (by omega) (sendbytes + n) (by omega)
      refine ⟨rounds + 1, slice block.buf (gop.offset + sendbytes - blockAlign (gop.offset + sendbytes)) n :: pieces, ?_⟩
      rw [ymsAttachBuffer, if_pos hmore]
      simp only [hsearch, ← hn]
      rw [u32_of_lt (by omega), hrest, Option.map_some]
    · exact ⟨1, [], by rw [ymsAttachBuffer, if_neg hmore]⟩

theorem gops_more {rounds : Nat} {pieces : List (List UInt8)} (more : Nat)
    (h : attachGops channel rounds gops = some pieces) : attachGops channel (rounds + more) gops = some pieces := by
  induction gops generalizing pieces with
  | nil => exact h
  | cons gop gops ih =>
    obtain ⟨first, hfirst, hrest⟩ := Option.bind_eq_some_iff.mp h
    obtain ⟨rest, hgops, rfl⟩ := Option.map_eq_some_iff.mp hrest
    rw [attachGops, attach_more more hfirst, Option.bind_some, ih hgops, Option.map_some]

/-- What is attached has the bytes of the gops, and all of their blocks were found. -/
theorem gops_attached {rounds : Nat} {pieces : List (List UInt8)} (h : attachGops channel rounds gops = some pieces) :
    pieces.flatten.length = (gops.map Gop.len).sum ∧
      ∀ gop ∈ gops, ∀ k < gop.len, blockAlign (gop.offset + k) ∈ channel.keys := by
  induction gops generalizing pieces with
  | nil =>
    obtain rfl := Option.some.inj h
    simp
  | cons gop gops ih =>
    obtain ⟨first, hfirst, hrest⟩ := Option.bind_eq_some_iff.mp h
    obtain ⟨rest, hgops, rfl⟩ := Option.map_eq_some_iff.mp hrest
    obtain ⟨hlen, hfound⟩ := ih hgops
    have hgop := attach_length hfirst (Nat.zero_le _) (attach_small hfirst (by decide))
    constructor
    · rw [List.flatten_append, List.length_append, List.map_cons, List.sum_cons, hlen]
      omega
    · intro other hm k hk
      rcases List.mem_cons.mp hm with rfl | hm
      · exact attach_found hfirst (by decide) k (Nat.zero_le _) hk
      · exact hfound other hm k hk

theorem gops_end (hfound : ∀ gop ∈ gops, ∀ k < gop.len, blockAlign (gop.offset + k) ∈ channel.keys)
    (hsmall : ∀ gop ∈ gops, gop.len < 2 ^ 32) : ∃ rounds pieces, attachGops channel rounds gops = some pieces := by
  induction gops with
  | nil => exact ⟨0, [], rfl⟩
  | cons gop gops ih =>
    obtain ⟨rounds, rest, hrest⟩ := ih (fun gop hm => hfound gop (List.mem_cons_of_mem _ hm))
      (fun gop hm => hsmall gop (List.mem_cons_of_mem _ hm))
    obtain ⟨rounds', first, hfirst⟩ := attach_ends (hfound gop (by simp)) (hsmall gop (by simp)) (Nat.zero_add _)
    refine ⟨rounds + rounds', first ++ rest, ?_⟩
    rw [attachGops, Nat.add_comm, attach_more rounds hfirst, Nat.add_comm, gops_more rounds' hrest]
    rfl

/-- All gops are attached when all of their blocks are there and their lengths do not go around. -/
theorem gops_end_iff : (∃ rounds, (attachGops channel rounds gops).isSome) ↔
    ∀ gop ∈ gops, gop.len < 2 ^ 32 ∧ ∀ k < gop.len, blockAlign (gop.offset + k) ∈ channel.keys := by
  constructor
  · rintro ⟨rounds, h⟩
    obtain ⟨pieces, hpieces⟩ := Option.isSome_iff_exists.mp h
    have hfound := (gops_attached hpieces).2
    intro gop hm
    refine ⟨?_, hfound gop hm⟩
    clear h hfound
    induction gops generalizing pieces with
    | nil => cases hm
    | cons first gops ih =>
      obtain ⟨bytes, hfirst, hrest⟩ := Option.bind_eq_some_iff.mp hpieces
      obtain ⟨rest, hgops, -⟩ := Option.map_eq_some_iff.mp hrest
      rcases List.mem_cons.mp hm with rfl | hm
      · exact attach_small hfirst (by decide)
      · exact ih rest hgops hm
  · intro h
    obtain ⟨rounds, pieces, hpieces⟩ := gops_end (fun gop hm => (h gop hm).2) fun gop hm => (h gop hm).1
    exact ⟨rounds, hpieces ▸ rfl⟩

end

theorem fetchable_small {channel : Channel} {gops : List Gop} (h : Fetchable channel gops) :
    ∀ gop ∈ gops, gop.len < 2 ^ 32 := by
  intro gop hm
  have hle : gop.len ≤ (gops.map Gop.len).sum := List.le_sum_of_mem (List.mem_map_of_mem hm)
  exact (hle.trans_lt h.2).trans (by decide)

/-- The text of a `Content-Length` is that of the number if it has no sign. -/
theorem signed_announces (n : Nat) : signedDecimal (u32 n) = decimal n ↔ n < 2 ^ 31 := by
  constructor
  · intro h
    rw [signedDecimal] at h
    split at h
    · have hn := decimal_inj h
      omega
    · have hsign : 45 ∈ decimal n := by
        rw [← h]
        exact List.mem_cons_self
      exact absurd (decimal_digits hsign).1 (by decide)
  · intro h
    have hlt : n < 2 ^ 32 := h.trans (by decide)
    rw [u32_of_lt hlt, signedDecimal, if_pos h]

theorem header_whole {code : Nat} : ¬ Whole [.header code none] := by
  rintro ⟨code, pieces, h⟩
  simp at h

/-- A header that announces so many bytes, and these bytes. -/
theorem announced_whole (code : Nat) {n : Nat} {pieces : List (List UInt8)} (hn : pieces.flatten.length = n) :
    Whole (.header code (some (signedDecimal (u32 n))) :: (pieces.map .body ++ [.resp])) ↔ n < 2 ^ 31 := by
  rw [← signed_announces]
  constructor
  · rintro ⟨code', pieces', h⟩
    obtain ⟨hheader, hbodies⟩ := List.cons.inj h
    have hpieces : pieces = pieces' := by
      have hmap := List.append_cancel_right hbodies
      exact List.map_injective_iff.mpr (fun _ _ hb => Task.body.inj hb) hmap
    obtain ⟨-, htext⟩ := Task.header.inj hheader
    rw [Option.some.inj htext, ← hpieces, hn]
  · intro htext
    exact ⟨code, pieces, by rw [htext, hn]⟩

theorem respond_whole {bytes : List UInt8} (h : bytes.length ≤ 1024) : Whole (respond bytes) := by
  have hlt : bytes.length < 2 ^ 31 := Nat.lt_of_le_of_lt h (by decide)
  refine ⟨200, [bytes], ?_⟩
  rw [respond, signedDecimal, if_pos hlt, List.flatten_singleton]
  rfl

theorem playlist_short (m3u8 : MediaM3u8) : (m3u8Write m3u8 1024).length ≤ 1024 := by
  have hwrite := append_all (show 2 ≤ 1024 by decide) (by decide) m3u8.lines []
  rw [List.take_nil, List.nil_append] at hwrite
  rw [m3u8Write, hwrite, List.length_take]
  omega

/-- Each segment has gops of its own and an older one behind them. -/
theorem segs_made (live : LiveChannel) (printed : Printed) (i sequence : Nat) {older : List Gop} (hne : older ≠ []) :
    (m3u8Segs live printed i older sequence).isSome ↔ live.channel.gopsize * i < older.length := by
  induction i generalizing older sequence with
  | zero => simp [m3u8Segs, List.length_pos_iff, hne]
  | succ i ih =>
    obtain ⟨gop, gops, rfl⟩ := List.exists_cons_of_ne_nil hne
    rw [m3u8Segs]
    by_cases hle : (gop :: gops).length ≤ live.channel.gopsize
    · rw [if_pos hle, Nat.mul_succ]
      simp only [Option.isSome_none, Bool.false_eq_true, false_iff]
      omega
    · have hrest : (gop :: gops).drop live.channel.gopsize ≠ [] := by
        intro hnil
        exact hle (List.drop_eq_nil_iff.mp hnil)
      rw [if_neg hle, Option.isSome_map, ih _ hrest, List.length_drop, Nat.mul_succ]
      omega

/-- A time shifted playlist is made when there are enough gops, and one more. -/
theorem shifted_made (live : LiveChannel) (printed : Printed) {older : List Gop} :
    ((channelM3u8GopAlign live.channel.gopsize live.tfragsize older).bind (channelM3u8Create live printed)).isSome ↔
      live.channel.gopsize * live.tfragsize <
        (older.dropWhile fun gop => gop.idx % live.channel.gopsize ≠ live.channel.gopsize - 1).length := by
  unfold channelM3u8GopAlign
  cases hdrop : older.dropWhile fun gop => gop.idx % live.channel.gopsize ≠ live.channel.gopsize - 1 with
  | nil => simp
  | cons gop gops =>
    have hsegs := segs_made live printed live.tfragsize 0 (List.cons_ne_nil gop gops)
    rw [← hsegs]
    by_cases hfew : (gop :: gops).length < u32 (live.channel.gopsize * live.tfragsize)
    · have hle : u32 (live.channel.gopsize * live.tfragsize) ≤ live.channel.gopsize * live.tfragsize := Nat.mod_le _ _
      simp only [if_pos hfew, Option.bind_none, Option.isSome_none, Bool.false_eq_true, false_iff, hsegs]
      omega
    · simp only [if_neg hfew, Option.bind_some, channelM3u8Create, Option.isSome_map]

theorem answered_header {channels : List UInt8 → Option LiveChannel} {req : LiveReq} (code : Nat)
    (h : ∀ rounds, ymsReqDispatch channels req rounds = some [.header code none]) : ¬ Answered channels req := by
  rintro ⟨rounds, tasks, hdispatch, hwhole⟩
  rw [h rounds] at hdispatch
  obtain rfl := Option.some.inj hdispatch
  exact header_whole hwhole

theorem answered_undefined {channels : List UInt8 → Option LiveChannel} {req : LiveReq}
    (h : ∀ rounds, ymsReqDispatch channels req rounds = none) : ¬ Answered channels req := by
  rintro ⟨rounds, tasks, hdispatch, -⟩
  rw [h rounds] at hdispatch
  cases hdispatch

theorem answered_respond {channels : List UInt8 → Option LiveChannel} {req : LiveReq} {bytes : List UInt8}
    (hsmall : bytes.length ≤ 1024) (h : ymsReqDispatch channels req 0 = some (respond bytes)) :
    Answered channels req :=
  ⟨0, _, h, respond_whole hsmall⟩

/-- A fragment is answered as a whole when its gops are all in their blocks. -/
theorem answered_fragment {channels : List UInt8 → Option LiveChannel} {req : LiveReq} {channel : Channel}
    {gops : List Gop} (h : ∀ rounds, ymsReqDispatch channels req rounds =
      (attachGops channel rounds gops).map fun pieces =>
        .header 200 (some (signedDecimal (u32 (gops.map Gop.len).sum))) :: (pieces.map .body ++ [.resp])) :
    Answered channels req ↔ Fetchable channel gops := by
  constructor
  · rintro ⟨rounds, tasks, hdispatch, hwhole⟩
    rw [h rounds] at hdispatch
    obtain ⟨pieces, hpieces, rfl⟩ := Option.map_eq_some_iff.mp hdispatch
    obtain ⟨hlen, hfound⟩ := gops_attached hpieces
    exact ⟨hfound, (announced_whole 200 hlen).mp hwhole⟩
  · rintro ⟨hfound, hsum⟩
    obtain ⟨rounds, pieces, hpieces⟩ := gops_end hfound (fetchable_small ⟨hfound, hsum⟩)
    obtain ⟨hlen, -⟩ := gops_attached hpieces
    refine ⟨rounds, _, ?_, (announced_whole 200 hlen).mpr hsum⟩
    rw [h rounds, hpieces]
    rfl

/-- A request is answered as a whole exactly when what it asks for is there; every other one is left with a
header. -/
theorem answered_available {channels : List UInt8 → Option LiveChannel} {req : LiveReq} :
    Answered channels req ↔ Available channels req := by
  cases hfound : (dispatchId req.uri).bind channels with
  | none =>
    refine iff_of_false (answered_header 501 fun rounds => ?_) ?_
    · rw [ymsReqDispatch, hfound]
    · rintro ⟨live, hlive, -⟩
      rw [hfound] at hlive
      cases hlive
  | some live =>
    have hdispatch : ∀ rounds, ymsReqDispatch channels req rounds = ymsLiveReq live req rounds := by
      intro rounds
      rw [ymsReqDispatch, hfound]
    simp only [Available, hfound, Option.some.injEq, exists_eq_left']
    cases hparse : reqParse req.uri req.playseek with
    | undefined =>
      refine iff_of_false (answered_undefined fun rounds => ?_) id
      rw [hdispatch, ymsLiveReq, hparse]
    | error =>
      refine iff_of_false (answered_header 404 fun rounds => ?_) id
      rw [hdispatch, ymsLiveReq, hparse]
    | fragment contentId fragId =>
      cases hreq : live.channel.liveReq fragId with
      | none =>
        refine iff_of_false (answered_header 404 fun rounds => ?_) (by simp [hreq])
        simp only [hdispatch, ymsLiveReq, hparse, hreq]
      | some gops =>
        simp only [hreq, Option.some.injEq, exists_eq_left']
        apply answered_fragment
        intro rounds
        simp only [hdispatch, ymsLiveReq, hparse, hreq]
    | m3u8 contentId playseek =>
      by_cases hnow : playseek = 0
      · by_cases hm3u8 : live.m3u8 = []
        · refine iff_of_false (answered_header 404 fun rounds => ?_) (by simp [hnow, hm3u8])
          simp only [hdispatch, ymsLiveReq, hparse, if_pos hnow, if_pos hm3u8]
        · refine iff_of_true (answered_respond live.fits ?_) (by simp [hnow, hm3u8])
          simp only [hdispatch, ymsLiveReq, hparse, if_pos hnow, if_neg hm3u8]
      · simp only [if_neg hnow]
        cases hseek : seekGop req.started [] live.channel.gops with
        | nil =>
          refine iff_of_false (answered_header 404 fun rounds => ?_) (by simp)
          simp only [hdispatch, ymsLiveReq, hparse, if_neg hnow, hseek]
        | cons gop older =>
          by_cases hzero : live.channel.gopsize = 0
          · refine iff_of_false (answered_undefined fun rounds => ?_) fun h => absurd hzero h.1.ne'
            simp only [hdispatch, ymsLiveReq, hparse, if_neg hnow, hseek, if_pos hzero]
          · rw [← shifted_made live req.printed, and_iff_right (Nat.pos_of_ne_zero hzero)]
            cases hmade : (channelM3u8GopAlign live.channel.gopsize live.tfragsize (gop :: older)).bind
              (channelM3u8Create live req.printed) with
            | none =>
              refine iff_of_false (answered_header 404 fun rounds => ?_) (by simp)
              simp only [hdispatch, ymsLiveReq, hparse, if_neg hnow, hseek, if_neg hzero, hmade]
            | some m3u8 =>
              refine iff_of_true (answered_respond (playlist_short m3u8) ?_) rfl
              simp only [hdispatch, ymsLiveReq, hparse, if_neg hnow, hseek, if_neg hzero, hmade]

theorem stray_narrow : (Fixed.number false 10 0).text.length ≤ 47 := by decide

/-- A request of the playlist of an unknown channel. -/
def strayReq : LiveReq :=
  ⟨ascii "/live/none.m3u8", none, fun _ => false, ⟨.number false 10 0, stray_narrow, fun _ => .inf false⟩⟩

/-- It gets a header without a length, and no completion. -/
theorem stray_unanswered :
    (∀ rounds, ymsReqDispatch (fun _ => none) strayReq rounds = some [.header 501 none]) ∧
      ¬ Answered (fun _ => none) strayReq := by
  have hnone : ∀ found : Option (List UInt8), found.bind (fun _ => (none : Option LiveChannel)) = none := by
    intro found
    cases found <;> rfl
  have hdispatch : ∀ rounds, ymsReqDispatch (fun _ => none) strayReq rounds = some [.header 501 none] := by
    intro rounds
    rw [ymsReqDispatch, hnone]
  exact ⟨hdispatch, answered_header 501 hdispatch⟩

/-- A fragment whose blocks are there gets one header, and the bytes that follow it are as many as the header
announces. -/
theorem fragment_announced {live : LiveChannel} {req : LiveReq} {contentId : List UInt8} {fragId : Nat}
    {gops : List Gop} (hparse : reqParse req.uri req.playseek = .fragment contentId fragId)
    (hreq : live.channel.liveReq fragId = some gops) (hfetch : Fetchable live.channel gops) :
    (∃ rounds, (ymsLiveReq live req rounds).isSome) ∧
      ∀ rounds tasks, ymsLiveReq live req rounds = some tasks → ∃ pieces : List (List UInt8), tasks =
        .header 200 (some (decimal pieces.flatten.length)) :: (pieces.map .body ++ [.resp]) := by
  obtain ⟨hfound, hsum⟩ := hfetch
  have hserve : ∀ rounds, ymsLiveReq live req rounds = (attachGops live.channel rounds gops).map fun pieces =>
      .header 200 (some (signedDecimal (u32 (gops.map Gop.len).sum))) :: (pieces.map .body ++ [.resp]) := by
    intro rounds
    simp only [ymsLiveReq, hparse, hreq]
  constructor
  · obtain ⟨rounds, pieces, hpieces⟩ := gops_end hfound (fetchable_small ⟨hfound, hsum⟩)
    refine ⟨rounds, ?_⟩
    rw [hserve, hpieces]
    rfl
  · intro rounds tasks hdone
    rw [hserve] at hdone
    obtain ⟨pieces, hpieces, rfl⟩ := Option.map_eq_some_iff.mp hdone
    obtain ⟨hlen, -⟩ := gops_attached hpieces
    refine ⟨pieces, ?_⟩
    rw [hlen, (signed_announces _).mpr hsum]

/-- A channel with a gop of five bytes in two blocks. -/
def twoBlocks : LiveChannel where
  channel := { Channel.create 1 with
    gops := [⟨0, blockSize - 2, 5, [1, 2, 3, 4, 5]⟩]
    blocks := [(0, ⟨fun _ => 1, .saved⟩), (blockSize, ⟨fun _ => 4, .writing⟩)] }
  contentId := ascii "a"
  tfragsize := 1
  m3u8 := []
  fits := by decide

/-- A request of a fragment. -/
def fragmentReq : LiveReq :=
  ⟨ascii "/a-frag0.ts", none, fun _ => false, ⟨.number false 10 0, stray_narrow, fun _ => .inf false⟩⟩

theorem fragment_announced_two : (∃ rounds, (ymsLiveReq twoBlocks fragmentReq rounds).isSome) ∧
    ∀ rounds tasks, ymsLiveReq twoBlocks fragmentReq rounds = some tasks → ∃ pieces : List (List UInt8), tasks =
      .header 200 (some (decimal pieces.flatten.length)) :: (pieces.map .body ++ [.resp]) := by
  have hfetch : Fetchable twoBlocks.channel [⟨0, blockSize - 2, 5, [1, 2, 3, 4, 5]⟩] := by
    constructor
    · intro gop hgop k hk
      obtain rfl := List.mem_singleton.mp hgop
      have hblock : blockAlign (blockSize - 2 + k) = 0 ∨ blockAlign (blockSize - 2 + k) = blockSize := by
        simp only [blockAlign, blockSize] at hk ⊢
        omega
      simpa [Channel.keys, bufs, twoBlocks] using hblock
    · decide
  have hparse : reqParse fragmentReq.uri fragmentReq.playseek = .fragment (ascii "a") 0 := by decide
  have hreq : twoBlocks.channel.liveReq 0 = some [⟨0, blockSize - 2, 5, [1, 2, 3, 4, 5]⟩] := rfl
  exact fragment_announced hparse hreq hfetch

end Yclib.Live
