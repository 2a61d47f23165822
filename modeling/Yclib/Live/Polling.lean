import Mathlib.Data.Prod.Lex
import Yclib.Media.HlsNames
import Yclib.Util.RbtStore
import Yclib.Util.Windows

namespace Yclib.Live
open Http.Reading Media.Hls

/-! The playlists of an upstream server, and the segments that are queued for download. -/

/-- `rns_strcmp`, of which the sign is used. -/
def rnsStrcmp (src dst : List UInt8) : Int := if Rbt.strcmpLess src dst then -1 else if src = dst then 0 else 1

/-- `str_compare`. -/
def strCompare (src dst : List UInt8) : Int :=
  if src.length < dst.length then -1 else if dst.length < src.length then 1 else rnsStrcmp src dst

/-- What a `channel_t` has of its upstream server: the 1024 bytes of `sfrag_id`, and `sfrags` with the segment
that was added first in front. The segments that were requested are no longer in it. -/
structure Upstream where
  sfragId : List UInt8
  sfrags : List (List UInt8)
  requested : List (List UInt8)
deriving DecidableEq

/-- As `yms_channel_create` leaves it. -/
def Upstream.initial : Upstream := ⟨List.replicate 1024 0, [], []⟩

/-- All segments that were queued, in their order. -/
def Upstream.queued (up : Upstream) : List (List UInt8) := up.requested ++ up.sfrags

/-- `rns_strncpy(channel->sfrag_id, uri, rns_strlen(uri))`, which writes no NUL. -/
def Upstream.copy (up : Upstream) (uri : List UInt8) : Upstream :=
  { up with sfragId := uri ++ up.sfragId.drop uri.length }

/-- `yms_channel_req_ts`, where the request is sent or not. -/
def ymsChannelReqTs (up : Upstream) (sent : Bool) : Upstream :=
  match up.sfrags with
  | [] => up
  | uri :: sfrags => if sent then { up with sfrags := sfrags, requested := up.requested ++ [uri] } else up

/-- What the loop of `yms_channel_recv_m3u8` does with a segment. -/
def Upstream.take (up : Upstream) (uri : List UInt8) : Upstream :=
  if strCompare uri (cString up.sfragId) ≤ 0 then up
  else { up.copy uri with sfrags := up.sfrags ++ [uri] }

/-- `yms_channel_recv_m3u8`, of a body that is a string. There is no result where there is none of `m3u8_read`,
and where the first of no segments is copied. -/
def ymsChannelRecvM3u8 (up : Upstream) (body : List UInt8) (sent : Bool) : Option Upstream :=
  (m3u8Read body).bind fun read =>
    let uris := read.seg.map Prod.snd
    let first := if up.sfragId.head? = some 0 then uris.head?.map up.copy else some up
    first.map fun up => ymsChannelReqTs (uris.foldl Upstream.take up) sent

/-- What the upstream server answers: a playlist, or a segment, with whether the request for the next segment
is sent then. -/
inductive Upstream.Event
  | m3u8 (body : List UInt8) (sent : Bool)
  | ts (sent : Bool)

def Upstream.step (up : Upstream) : Event → Option Upstream
  | .m3u8 body sent => ymsChannelRecvM3u8 up body sent
  | .ts sent => some (ymsChannelReqTs up sent)

def Upstream.run (up : Upstream) (events : List Event) : Option Upstream := events.foldlM Upstream.step up

/-- The playlists that were delivered. -/
def bodies : List Upstream.Event → List (List UInt8)
  | [] => []
  | .m3u8 body _ :: events => body :: bodies events
  | .ts _ :: events => bodies events

/-- The names of the segments of each playlist. -/
def playlists (events : List Upstream.Event) : List (List (List UInt8)) :=
  (bodies events).map fun body => segNames (textLines body)

def Below (src dst : List UInt8) : Prop := strCompare src dst < 0

instance (src dst : List UInt8) : Decidable (Below src dst) := inferInstanceAs (Decidable (_ < _))

/-- Nonempty playlists whose names increase, through which a window slides. -/
structure Slid (windows : List (List (List UInt8))) : Prop where
  nonempty : ∀ window ∈ windows, window ≠ []
  increasing : ∀ window ∈ windows, window.Pairwise Below
  slides : windows.IsChain (Windows.Slides Below)

/-- All that was shown behind the initial segment is queued, once and in order, and the last one is remembered. -/
structure Queued (shown : List (List UInt8)) (up : Upstream) : Prop where
  once : up.queued.Nodup
  ordered : up.queued.Pairwise Below
  complete : ∀ uri, uri ∈ up.queued ↔ uri ∈ shown ∧ shown.head? ≠ some uri
  last : cString up.sfragId = (up.queued.getLast?.or shown.head?).getD []

/-- The run comes to a state, and all that the playlists have shown is queued there. -/
def Polls (events : List Upstream.Event) : Prop :=
  ∃ up, Upstream.initial.run events = some up ∧ Queued (playlists events).flatten up

/-- What `str_compare` compares: the lengths first. -/
def uriKey (uri : List UInt8) : Nat ×ₗ List Nat := toLex (uri.length, uri.map UInt8.toNat)

theorem key_inj {src dst : List UInt8} : uriKey src = uriKey dst ↔ src = dst := by
  constructor
  · intro h
    have hcodes := (Prod.mk.inj (toLex.injective h)).2
    exact List.map_injective_iff.mpr (fun _ _ => UInt8.toNat_inj.mp) hcodes
  · rintro rfl
    rfl

theorem compare_below (src dst : List UInt8) : Below src dst ↔ uriKey src < uriKey dst := by
  rw [Below, strCompare, uriKey, uriKey, Prod.Lex.toLex_lt_toLex, rnsStrcmp]
  have hcodes := Rbt.strcmp_codes src dst
  split
  · rename_i hlt
    exact iff_of_true (by decide) (.inl hlt)
  · split
    · rename_i hlt hgt
      exact iff_of_false (by decide) (by simp only; omega)
    · have heq : src.length = dst.length := by omega
      simp only [heq, lt_irrefl, false_or, true_and, ← hcodes]
      split
      · rename_i hless
        exact iff_of_true (by decide) hless
      · rename_i hless
        refine iff_of_false ?_ hless
        split <;> decide

theorem compare_le (src dst : List UInt8) : strCompare src dst ≤ 0 ↔ uriKey src ≤ uriKey dst := by
  rw [le_iff_lt_or_eq, le_iff_lt_or_eq, key_inj]
  refine or_congr (compare_below src dst) ?_
  rw [strCompare, rnsStrcmp]
  constructor
  · intro h
    repeat' split at h
    all_goals first | assumption | cases h
  · rintro rfl
    have hless : Rbt.strcmpLess src src = false := by
      rw [Bool.eq_false_iff]
      intro hless
      exact lt_irrefl _ ((Rbt.strcmp_codes src src).mp hless)
    simp [hless]

/-- `sfrag_id` has a string of its own bytes, and NULs behind it. -/
def Upstream.Clean (up : Upstream) : Prop :=
  ∃ uri, 0 ∉ uri ∧ uri.length < 1024 ∧ up.sfragId = uri ++ List.replicate (1024 - uri.length) 0

def Upstream.seen (up : Upstream) : Windows.Seen (List UInt8) := ⟨cString up.sfragId, up.queued⟩

section
variable {up up' : Upstream} {uri : List UInt8} {uris shown window : List (List UInt8)}

theorem string_nuls (h : 0 ∉ uri) (n : Nat) : cString (uri ++ List.replicate n 0) = uri := by
  cases n with
  | zero => rw [List.replicate_zero, List.append_nil, c_string_plain h]
  | succ n => rw [List.replicate_succ, c_string_nul h]

/-- A name that is not shorter leaves the NULs behind it. -/
theorem copy_clean (hclean : up.Clean) (hlen : (cString up.sfragId).length ≤ uri.length) (hshort : uri.length < 1024)
    (hnul : 0 ∉ uri) : cString (up.copy uri).sfragId = uri ∧ (up.copy uri).Clean := by
  obtain ⟨last, hlast, hsmall, hbytes⟩ := hclean
  rw [hbytes, string_nuls hlast] at hlen
  have hcopy : (up.copy uri).sfragId = uri ++ List.replicate (1024 - uri.length) 0 := by
    have hrest : 1024 - last.length - (uri.length - last.length) = 1024 - uri.length := by omega
    rw [Upstream.copy, hbytes, List.drop_append, List.drop_eq_nil_of_le hlen, List.nil_append, List.drop_replicate,
      hrest]
  constructor
  · rw [hcopy, string_nuls hnul]
  · exact ⟨uri, hnul, hshort, hcopy⟩

/-- The loop takes a segment as the library does. -/
theorem take_seen (hclean : up.Clean) (hshort : uri.length < 1024) (hnul : 0 ∉ uri) :
    (up.take uri).seen = Windows.look uriKey up.seen uri ∧ (up.take uri).Clean := by
  rw [Upstream.take, Windows.look]
  by_cases hle : strCompare uri (cString up.sfragId) ≤ 0
  · rw [if_pos hle, if_pos (show uriKey uri ≤ uriKey up.seen.last from (compare_le _ _).mp hle)]
    exact ⟨rfl, hclean⟩
  · have habove := not_le.mp (fun h => hle ((compare_le _ _).mpr h))
    have hlen : (cString up.sfragId).length ≤ uri.length := by
      rcases Prod.Lex.toLex_lt_toLex.mp habove with hlt | ⟨heq, -⟩
      · exact Nat.le_of_lt hlt
      · exact Nat.le_of_eq heq
    obtain ⟨hstring, hclean'⟩ := copy_clean hclean hlen hshort hnul
    rw [if_neg hle, if_neg (show ¬ uriKey uri ≤ uriKey up.seen.last from not_le.mpr habove)]
    constructor
    · rw [Upstream.seen, Upstream.seen, Upstream.queued, Upstream.queued, ← List.append_assoc]
      exact congrArg (Windows.Seen.mk · _) hstring
    · exact hclean'

theorem take_empty (up : Upstream) : up.take [] = up := by
  refine if_pos ((compare_le _ _).mpr ?_)
  rw [uriKey, uriKey, Prod.Lex.toLex_le_toLex]
  rcases Nat.eq_zero_or_pos (cString up.sfragId).length with hzero | hpos
  · exact .inr ⟨hzero.symm, by rw [List.length_eq_zero_iff.mp hzero]⟩
  · exact .inl hpos

theorem takes_seen (hclean : up.Clean) (hplain : ∀ uri ∈ uris, uri.length < 1024 ∧ 0 ∉ uri) :
    (uris.foldl Upstream.take up).seen = Windows.poll uriKey up.seen uris ∧ (uris.foldl Upstream.take up).Clean := by
  induction uris generalizing up with
  | nil => exact ⟨rfl, hclean⟩
  | cons uri uris ih =>
    obtain ⟨hshort, hnul⟩ := hplain uri List.mem_cons_self
    obtain ⟨hseen, hclean'⟩ := take_seen hclean hshort hnul
    obtain ⟨hrest, hend⟩ := ih hclean' fun uri hm => hplain uri (List.mem_cons_of_mem _ hm)
    rw [hseen] at hrest
    exact ⟨hrest, hend⟩

theorem takes_empty (up : Upstream) (n : Nat) : (List.replicate n []).foldl Upstream.take up = up := by
  induction n with
  | zero => rfl
  | succ n ih => rw [List.replicate_succ, List.foldl_cons, take_empty, ih]

/-- A request changes nothing of what was queued. -/
theorem req_seen (up : Upstream) (sent : Bool) :
    (ymsChannelReqTs up sent).seen = up.seen ∧ (ymsChannelReqTs up sent).sfragId = up.sfragId := by
  rw [ymsChannelReqTs]
  split
  · exact ⟨rfl, rfl⟩
  · rename_i hsfrags
    split
    · simp [Upstream.seen, Upstream.queued, hsfrags]
    · exact ⟨rfl, rfl⟩

/-- What a legible playlist with names does. -/
theorem recv_legible {body : List UInt8} (h : Legible body) (hne : segNames (textLines body) ≠ []) (up : Upstream)
    (sent : Bool) : ymsChannelRecvM3u8 up body sent =
      (if up.sfragId.head? = some 0 then (segNames (textLines body)).head?.map up.copy else some up).map
        fun up => ymsChannelReqTs ((segNames (textLines body)).foldl Upstream.take up) sent := by
  obtain ⟨read, extra, hread, huris⟩ := legible_read h
  obtain ⟨uri, uris, hcons⟩ := List.exists_cons_of_ne_nil hne
  rw [ymsChannelRecvM3u8, hread, Option.bind_some]
  simp only [huris, List.foldl_append, takes_empty]
  rw [hcons, List.cons_append, List.head?_cons, List.head?_cons]

theorem clean_head (hclean : up.Clean) (hnamed : cString up.sfragId ≠ []) : up.sfragId.head? ≠ some 0 := by
  obtain ⟨uri, hnul, -, hbytes⟩ := hclean
  rw [hbytes, string_nuls hnul] at hnamed
  obtain ⟨b, bs, rfl⟩ := List.exists_cons_of_ne_nil hnamed
  rw [hbytes]
  rintro hzero
  exact hnul (List.mem_cons.mpr (.inl (Option.some.inj hzero).symm))

/-- The initial segment is known, and all that was shown has been looked at. -/
structure Watching (first : List UInt8) (shown window : List (List UInt8)) (up : Upstream) : Prop where
  follows : Windows.Following uriKey first shown window up.seen
  clean : up.Clean
  named : cString up.sfragId ≠ []

theorem below_key : Below = fun src dst => uriKey src < uriKey dst := by
  funext src dst
  exact propext (compare_below src dst)

theorem Watching.req {first : List UInt8} (h : Watching first shown window up) (sent : Bool) :
    Watching first shown window (ymsChannelReqTs up sent) := by
  obtain ⟨hseen, hbytes⟩ := req_seen up sent
  refine ⟨hseen ▸ h.follows, ?_, hbytes ▸ h.named⟩
  rw [Upstream.Clean, hbytes]
  exact h.clean

/-- One more playlist. -/
theorem Watching.recv {first body : List UInt8} (h : Watching first shown window up) (hnul : 0 ∉ body)
    (hlegible : Legible body)
    (hne : segNames (textLines body) ≠ []) (hincreasing : (segNames (textLines body)).Pairwise Below)
    (hslides : Windows.Slides Below window (segNames (textLines body))) (sent : Bool) :
    ∃ up', ymsChannelRecvM3u8 up body sent = some up' ∧
      Watching first (shown ++ segNames (textLines body)) (segNames (textLines body)) up' := by
  have hnames := legible_names hnul hlegible
  rw [recv_legible hlegible hne, if_neg (clean_head h.clean h.named)]
  obtain ⟨hseen, hclean⟩ := takes_seen h.clean fun uri hm => ⟨(hnames uri hm).2.1.trans (by decide), (hnames uri hm).2.2⟩
  rw [below_key] at hincreasing hslides
  have hfollows := h.follows.poll hslides hne hincreasing
  rw [← hseen] at hfollows
  exact ⟨_, rfl, Watching.req ⟨hfollows, hclean, (hnames _ hfollows.inside).1⟩ sent⟩

theorem Watching.run {first : List UInt8} (h : Watching first shown window up) (events : List Upstream.Event)
    (hplaylists : ∀ names ∈ playlists events, names ≠ [] ∧ names.Pairwise Below)
    (hslides : (window :: playlists events).IsChain (Windows.Slides Below))
    (hlegible : ∀ body ∈ bodies events, 0 ∉ body ∧ Legible body) : ∃ up' window', up.run events = some up' ∧
      Watching first (shown ++ (playlists events).flatten) window' up' := by
  induction events generalizing up shown window with
  | nil => exact ⟨up, window, rfl, by rw [playlists, bodies]; simpa using h⟩
  | cons event events ih =>
    rw [Upstream.run, List.foldlM_cons]
    cases event with
    | ts sent => exact ih (h.req sent) hplaylists hslides hlegible
    | m3u8 body sent =>
      obtain ⟨hne, hincreasing⟩ := hplaylists _ List.mem_cons_self
      obtain ⟨hnul, hbody⟩ := hlegible body List.mem_cons_self
      obtain ⟨hfirst, hrest⟩ := List.isChain_cons_cons.mp hslides
      obtain ⟨up', hrecv, hwatching⟩ := h.recv hnul hbody hne hincreasing hfirst sent
      obtain ⟨up'', window', hrun, hend⟩ := ih hwatching (fun names hm => hplaylists names (List.mem_cons_of_mem _ hm))
        hrest (fun body hm => hlegible body (List.mem_cons_of_mem _ hm))
      rw [List.append_assoc] at hend
      refine ⟨up'', window', ?_, hend⟩
      rw [Upstream.step, hrecv]
      exact hrun

theorem Watching.queued {first : List UInt8} (h : Watching first (first :: shown) window up)
    (hfirst : shown.head? = some first) : Queued shown up := by
  have hbelow := h.follows.increasing
  constructor
  · apply hbelow.imp
    rintro src dst hlt rfl
    exact lt_irrefl _ hlt
  · rw [below_key]
    exact hbelow
  · intro uri
    rw [hfirst, ne_eq, Option.some.injEq]
    refine (h.follows.complete uri).trans ?_
    constructor
    · rintro ⟨hm, hlt⟩
      have hne : first ≠ uri := by
        rintro rfl
        exact lt_irrefl _ hlt
      exact ⟨(List.mem_cons.mp hm).resolve_left (Ne.symm hne), hne⟩
    · rintro ⟨hm, hne⟩
      have hin := List.mem_cons_of_mem first hm
      exact ⟨hin, lt_of_le_of_ne (h.follows.bottom uri hin) fun heq => hne (key_inj.mp heq)⟩
  · rw [hfirst]
    refine h.follows.last.trans ?_
    cases hlast : up.queued.getLast? with
    | none => exact congrArg (Option.getD · first) hlast
    | some uri => exact congrArg (Option.getD · first) hlast

/-- The initial segment is copied into bytes that are zero. -/
theorem initial_watching {first : List UInt8} (hne : first ≠ []) (hshort : first.length < 1024) (hnul : 0 ∉ first) :
    Watching first [first] [first] (Upstream.initial.copy first) := by
  have hclean : Upstream.initial.Clean := ⟨[], List.not_mem_nil, by decide, rfl⟩
  have hempty : cString Upstream.initial.sfragId = [] := string_nuls List.not_mem_nil 1024
  obtain ⟨hstring, hclean'⟩ := copy_clean hclean (by rw [hempty]; exact Nat.zero_le _) hshort hnul
  refine ⟨?_, hclean', hstring.symm ▸ hne⟩
  rw [Upstream.seen, hstring]
  exact Windows.following_first first

/-- A run from the beginning. -/
theorem legible_polls {events : List Upstream.Event} (h : Slid (playlists events))
    (hlegible : ∀ body ∈ bodies events, 0 ∉ body ∧ Legible body) : Polls events := by
  induction events with
  | nil =>
    have hempty : Upstream.initial.queued = [] := rfl
    refine ⟨Upstream.initial, rfl, ?_⟩
    constructor
    · rw [hempty]
      exact List.nodup_nil
    · rw [hempty]
      exact List.Pairwise.nil
    · intro uri
      rw [hempty]
      refine iff_of_false List.not_mem_nil ?_
      rintro ⟨hm, -⟩
      cases hm
    · exact string_nuls List.not_mem_nil 1024
  | cons event events ih =>
    cases event with
    | ts sent => exact ih h hlegible
    | m3u8 body sent =>
      obtain ⟨hzero, hbody⟩ := hlegible body List.mem_cons_self
      have hne : segNames (textLines body) ≠ [] := h.nonempty _ List.mem_cons_self
      obtain ⟨first, names, hnames⟩ := List.exists_cons_of_ne_nil hne
      obtain ⟨hfirst, hshort, hnul⟩ := legible_names hzero hbody first (hnames ▸ List.mem_cons_self)
      have hstart := initial_watching hfirst (hshort.trans (by decide)) hnul
      have hincreasing : (segNames (textLines body)).Pairwise Below := h.increasing _ List.mem_cons_self
      have hslides : Windows.Slides Below [first] (segNames (textLines body)) := by
        rw [hnames, below_key] at *
        exact Windows.slides_first hincreasing
      -- the first name is copied before the loop looks at it
      have hstep : Upstream.initial.step (.m3u8 body sent) =
          (Upstream.initial.copy first).step (.m3u8 body sent) := by
        simp only [Upstream.step, recv_legible hbody hne, if_neg (clean_head hstart.clean hstart.named)]
        rw [if_pos (show Upstream.initial.sfragId.head? = some 0 from rfl), hnames, List.head?_cons, Option.map_some]
      obtain ⟨up, window, hrun, hwatching⟩ := hstart.run (.m3u8 body sent :: events)
        (fun names hm => ⟨h.nonempty names hm, h.increasing names hm⟩) (List.isChain_cons_cons.mpr ⟨hslides, h.slides⟩)
        hlegible
      refine ⟨up, ?_, hwatching.queued ?_⟩
      · rw [Upstream.run, List.foldlM_cons, hstep, ← List.foldlM_cons]
        exact hrun
      · rw [playlists, bodies, List.map_cons, hnames]
        rfl

/-- A run that comes to a state has read all of its playlists. -/
theorem run_legible {events : List Upstream.Event} (h : up.run events = some up') :
    ∀ body ∈ bodies events, Legible body := by
  induction events generalizing up with
  | nil =>
    intro body hm
    cases hm
  | cons event events ih =>
    rw [Upstream.run, List.foldlM_cons] at h
    obtain ⟨next, hstep, hrest⟩ := Option.bind_eq_some_iff.mp h
    cases event with
    | ts sent => exact ih hrest
    | m3u8 body sent =>
      obtain ⟨read, hread, -⟩ := Option.bind_eq_some_iff.mp hstep
      exact List.forall_mem_cons.mpr ⟨legible_iff.mpr (hread ▸ rfl), ih hrest⟩

end

/-- Of texts through which a window slides every segment is queued once and in order, exactly when each of them
is legible. -/
theorem segments_queued_iff {events : List Upstream.Event} (h : Slid (playlists events))
    (hstrings : ∀ body ∈ bodies events, 0 ∉ body) : Polls events ↔ ∀ body ∈ bodies events, Legible body := by
  constructor
  · rintro ⟨up, hrun, -⟩
    exact run_legible hrun
  · intro hlegible
    exact legible_polls h fun body hm => ⟨hstrings body hm, hlegible body hm⟩

/-- Two polls, of which the second shows a segment again. -/
theorem segments_queued_again :
    Polls [.m3u8 (ascii "#EXTINF:\na1\n#EXTINF:\na2") true, .ts true, .m3u8 (ascii "#EXTINF:\na2\n#EXTINF:\nb10") false] := by
  have hfirst : textLines (ascii "#EXTINF:\na1\n#EXTINF:\na2") =
      [ascii "#EXTINF:", ascii "a1", ascii "#EXTINF:", ascii "a2"] := by decide
  have hsecond : textLines (ascii "#EXTINF:\na2\n#EXTINF:\nb10") =
      [ascii "#EXTINF:", ascii "a2", ascii "#EXTINF:", ascii "b10"] := by decide
  have hpaired : ∀ uri uri', Paired [ascii "#EXTINF:", uri, ascii "#EXTINF:", uri'] := by
    intro uri uri'
    rw [Paired, if_pos (by decide), Paired, if_pos (by decide)]
    trivial
  apply (segments_queued_iff ⟨?_, ?_, ?_⟩ ?_).mpr
  · intro body hm
    rcases (by simpa [bodies] using hm : body = _ ∨ body = _) with rfl | rfl
    · exact ⟨by rw [hfirst]; decide, hfirst ▸ hpaired _ _⟩
    · exact ⟨by rw [hsecond]; decide, hsecond ▸ hpaired _ _⟩
  · decide
  · decide
  · exact List.isChain_cons_cons.mpr ⟨⟨by decide, by decide⟩, List.isChain_singleton _⟩
  · decide

/-- A name of 256 bytes, which `t_buf` takes without a NUL. -/
theorem long_unqueued :
    Slid (playlists [.m3u8 (ascii "#EXTINF:" ++ newline :: List.replicate 256 97) true]) ∧
      ¬ Polls [.m3u8 (ascii "#EXTINF:" ++ newline :: List.replicate 256 97) true] := by
  obtain ⟨uri, huri⟩ : ∃ uri : List UInt8, uri = List.replicate 256 97 := ⟨_, rfl⟩
  have hlen : uri.length = 256 := by rw [huri, List.length_replicate]
  have hbytes : ∀ b ∈ uri, b = 97 := fun b hb => List.eq_of_mem_replicate (huri ▸ hb)
  have hne : uri ≠ [] := List.ne_nil_of_length_pos (by omega)
  rw [← huri]
  have htext : textLines (ascii "#EXTINF:" ++ newline :: uri) = [ascii "#EXTINF:", uri] := by
    have hlast := @text_cons uri [] (fun hm => absurd (hbytes _ hm) (by decide))
      (fun b hb => hbytes b (List.mem_of_head? hb) ▸ by decide) hne (.inl rfl)
    rw [List.append_nil] at hlast
    have hstart : ∀ b ∈ (ascii "#EXTINF:").head?, b ≠ space := by
      rintro b hb rfl
      exact absurd hb (by decide)
    have htag := @text_cons (ascii "#EXTINF:") (newline :: uri) (by decide) hstart (by decide) (.inr ⟨uri, rfl⟩)
    rw [htag, text_newline, hlast]
    rfl
  have hlists : playlists [.m3u8 (ascii "#EXTINF:" ++ newline :: uri) true] = [[uri]] := by
    rw [playlists, bodies, bodies, List.map_singleton, htext, segNames, if_pos (by decide), segNames]
  constructor
  · rw [hlists]
    constructor
    · simp
    · simp
    · exact List.isChain_singleton _
  · rintro ⟨up, hrun, -⟩
    have hlegible := run_legible hrun _ List.mem_cons_self
    have hshort := hlegible.short uri (by rw [htext]; simp)
    omega

end Yclib.Live
