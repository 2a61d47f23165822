import Yclib.Live.Relay

namespace Yclib.Live
open Media.Hls

/-! Two servers of which one receives a channel, and the other polls the playlists of it. -/

/-- The body of an answer. -/
def taskBytes : List Task → List UInt8
  | [] => []
  | .body bytes :: tasks => bytes ++ taskBytes tasks
  | _ :: tasks => taskBytes tasks

/-- The server that receives the channel, the bodies of its answers that are on their way, the playlists that have
come to the server below, and what that one has of them. -/
structure Cascade where
  above : LiveChannel
  flight : List (List UInt8)
  polled : List (List UInt8)
  below : Upstream

namespace Cascade

/-- The server above receives a segment, or answers a request for the playlist in a directory; the one below receives
the answer that comes first, or a segment. -/
inductive Event
  | recvTs (outcomes : Nat → Outcome) (body : Mem) (bodySize : Nat) (memory : Bool) (printed : Printed)
  | answer (dir : List UInt8) (started : Nat → Bool) (printed : Printed)
  | recvM3u8 (sent : Bool)
  | reqTs (sent : Bool)

/-- The channels of the server above. -/
def channels (cascade : Cascade) (contentId : List UInt8) : Option LiveChannel :=
  if contentId = cascade.above.contentId then some cascade.above else none

/-- A refusal is a header without a body, which is received as well. -/
def step (cascade : Cascade) : Event → Option Cascade
  | .recvTs outcomes body bodySize memory printed =>
    (cascade.above.recvTs outcomes body bodySize memory printed).map fun above => { cascade with above := above }
  | .answer dir started printed =>
    let uri := dir ++ slash :: playlistName cascade.above.contentId
    (ymsReqDispatch cascade.channels ⟨uri, none, started, printed⟩ 0).map fun tasks =>
      { cascade with flight := cascade.flight ++ [taskBytes tasks] }
  | .recvM3u8 sent =>
    match cascade.flight with
    | [] => some cascade
    | body :: flight =>
      (ymsChannelRecvM3u8 cascade.below body sent).map fun below =>
        ⟨cascade.above, flight, if body = [] then cascade.polled else cascade.polled ++ [body], below⟩
  | .reqTs sent => some { cascade with below := ymsChannelReqTs cascade.below sent }

def run (cascade : Cascade) (events : List Event) : Option Cascade := events.foldlM step cascade

end Cascade

/-- Durations are printed in as many bytes as are allowed. -/
def Cascade.Event.Narrow (width : Nat) : Cascade.Event → Prop
  | .recvTs _ _ _ _ printed => ∀ i, (printed.timeLen i).text.length ≤ width
  | _ => True

/-- Before the first segment, and the first request. -/
def Cascade.initial (relay : Relay) : Cascade :=
  ⟨⟨Channel.create relay.gopsize, relay.contentId, relay.tfragsize, [], Nat.zero_le 1024⟩, [], [], Upstream.initial⟩

/-- The playlists that came below are windows from these fragments on, which never go back; each fragment but the first
that they have is queued there, once and in order; if no window begins behind the end of the one before, none is
missing; and the next answer is taken, unless it is a refusal in front of the first playlist. -/
structure Followed (relay : Relay) (cascade : Cascade) (firsts : List Nat) : Prop where
  rising : firsts.Pairwise (· ≤ ·)
  windows : cascade.polled.map (fun body => segNames (textLines body)) = firsts.map relay.window
  queued : Queued (firsts.flatMap relay.window) cascade.below
  gapless : (firsts.IsChain fun first next => next ≤ first + relay.tfragsize) →
    ∀ first ∈ firsts.head?, ∀ last ∈ firsts.getLast?, cascade.below.queued =
      (List.range' (first + 1) (last + relay.tfragsize - (first + 1))).map (fragmentName relay.contentId)
  next : ∀ sent, (cascade.step (.recvM3u8 sent)).isSome ↔ (cascade.flight.head? = some [] → cascade.polled ≠ [])

/-- Playlists of which none shows fragments before those of an earlier one, or behind a last number. -/
def Rising (relay : Relay) (last : Nat) (texts : List (List UInt8)) : Prop :=
  ∃ shown : List (List UInt8 × Nat), shown.map Prod.fst = texts ∧
    (∀ entry ∈ shown, Shows relay entry.1 entry.2 ∧ entry.2 ≤ last) ∧
    shown.Pairwise fun entry later => entry.2 ≤ later.2

/-- The playlist that is answered, if there is one. -/
def Cascade.current (cascade : Cascade) : List (List UInt8) :=
  if cascade.above.m3u8 = [] then [] else [cascade.above.m3u8]

/-- What every step keeps. -/
structure Flowing (relay : Relay) (cascade : Cascade) : Prop where
  fed : Fed relay cascade.above
  rising : cascade.above.channel.gops.length ≤ 2 ^ 31 →
    Rising relay (relay.first cascade.above.channel.gops.length)
      (cascade.polled ++ cascade.flight.filter (· ≠ []) ++ cascade.current)
  below : ∃ events, Upstream.initial.run events = some cascade.below ∧ bodies events = cascade.polled

section Run
variable {relay : Relay} {cascade cascade' : Cascade}

theorem rising_front {last : Nat} {texts later : List (List UInt8)} (h : Rising relay last (texts ++ later)) :
    Rising relay last texts := by
  obtain ⟨shown, htexts, hall, hrises⟩ := h
  obtain ⟨front, behind, rfl, rfl, -⟩ := List.map_eq_append_iff.mp htexts
  exact ⟨front, rfl, fun entry hm => hall entry (List.mem_append_left _ hm), (List.pairwise_append.mp hrises).1⟩

theorem rising_le {last last' : Nat} {texts : List (List UInt8)} (h : Rising relay last texts) (hle : last ≤ last') :
    Rising relay last' texts := by
  obtain ⟨shown, htexts, hall, hrises⟩ := h
  exact ⟨shown, htexts, fun entry hm => ⟨(hall entry hm).1, (hall entry hm).2.trans hle⟩, hrises⟩

theorem rising_snoc {last first : Nat} {texts : List (List UInt8)} {body : List UInt8} (h : Rising relay last texts)
    (hbody : Shows relay body first) (hle : last ≤ first) : Rising relay first (texts ++ [body]) := by
  obtain ⟨shown, rfl, hall, hrises⟩ := rising_le h hle
  refine ⟨shown ++ [(body, first)], by rw [List.map_append]; rfl, ?_, ?_⟩
  · intro entry hm
    rcases List.mem_append.mp hm with hm | hm
    · exact hall entry hm
    · rw [List.mem_singleton.mp hm]
      exact ⟨hbody, Nat.le_refl _⟩
  · refine List.pairwise_append.mpr ⟨hrises, List.pairwise_singleton _ _, ?_⟩
    intro entry hm later hlater
    rw [List.mem_singleton.mp hlater]
    exact (hall entry hm).2

/-- The same playlist comes again. -/
theorem rising_again {last : Nat} {texts : List (List UInt8)} {body : List UInt8}
    (h : Rising relay last (texts ++ [body])) : Rising relay last (texts ++ [body] ++ [body]) := by
  obtain ⟨shown, htexts, hall, hrises⟩ := h
  obtain ⟨front, behind, rfl, rfl, hbody⟩ := List.map_eq_append_iff.mp htexts
  obtain ⟨⟨_, first⟩, rfl, rfl⟩ := List.map_eq_singleton_iff.mp hbody
  obtain ⟨-, -, hbefore⟩ := List.pairwise_append.mp hrises
  obtain ⟨hshows, hle⟩ := hall _ (List.mem_append_right _ (List.mem_singleton_self _))
  have hfront : Rising relay first (front.map Prod.fst) := by
    refine ⟨front, rfl, fun entry hm => ⟨(hall entry (List.mem_append_left _ hm)).1, ?_⟩,
      (List.pairwise_append.mp hrises).1⟩
    exact hbefore entry hm _ (List.mem_singleton_self _)
  exact rising_le (rising_snoc (rising_snoc hfront hshows (Nat.le_refl _)) hshows (Nat.le_refl _)) hle

/-- Through rising playlists a window slides. -/
theorem rising_slid {last : Nat} {events : List Upstream.Event} (h : Rising relay last (bodies events)) :
    Slid (playlists events) ∧ ∀ body ∈ bodies events, 0 ∉ body ∧ Legible body := by
  obtain ⟨shown, htexts, hall, hrises⟩ := h
  have hnames : playlists events = shown.map fun entry => relay.window entry.2 := by
    rw [playlists, ← htexts, List.map_map]
    exact List.map_congr_left fun entry hm => (hall entry hm).1.names
  constructor
  · rw [hnames]
    constructor
    · intro window hm
      obtain ⟨entry, -, rfl⟩ := List.mem_map.mp hm
      exact window_nonempty relay entry.2
    · intro window hm
      obtain ⟨entry, hentry, rfl⟩ := List.mem_map.mp hm
      exact window_increasing (hall entry hentry).1.small
    · apply List.Pairwise.isChain
      rw [List.pairwise_map]
      refine hrises.imp_of_mem fun _ hlater hle => ?_
      exact window_slides hle (hall _ hlater).1.small
  · intro body hm
    rw [← htexts] at hm
    obtain ⟨entry, hentry, rfl⟩ := List.mem_map.mp hm
    exact ⟨(hall entry hentry).1.string, (hall entry hentry).1.legible⟩

/-- Without `playseek` the time is zero. -/
theorem parse_now {uri contentId : List UInt8} {time : Nat} (h : reqParse uri none = .m3u8 contentId time) : time = 0 := by
  rw [reqParse] at h
  repeat' split at h
  all_goals cases h
  rfl

/-- The answer to a request for the playlist is that which there is. -/
theorem answer_bytes (h : Fed relay cascade.above) (dir : List UInt8) (started : Nat → Bool) (printed : Printed) :
    ∃ tasks, ymsReqDispatch cascade.channels
      ⟨dir ++ slash :: playlistName cascade.above.contentId, none, started, printed⟩ 0 = some tasks ∧
      taskBytes tasks = cascade.above.m3u8 := by
  obtain ⟨time, hparse⟩ := @parse_playlist _ dir relay.named none
  obtain rfl := parse_now hparse
  have hfound : (dispatchId (dir ++ slash :: playlistName relay.contentId)).bind cascade.channels = some cascade.above := by
    rw [dispatch_playlist relay.named relay.whole, Option.bind_some, Cascade.channels, if_pos h.contentId.symm]
  rw [h.contentId, ymsReqDispatch]
  simp only [hfound, ymsLiveReq, hparse, if_true]
  split
  · rename_i hnil
    exact ⟨_, rfl, hnil.symm⟩
  · exact ⟨_, rfl, by simp [respond, taskBytes]⟩

theorem bodies_append (events later : List Upstream.Event) : bodies (events ++ later) = bodies events ++ bodies later := by
  induction events with
  | nil => rfl
  | cons event events ih =>
    cases event with
    | m3u8 body sent => exact congrArg (body :: ·) ih
    | ts sent => exact ih

theorem run_snoc {up up' : Upstream} {events : List Upstream.Event} (h : up.run events = some up')
    (event : Upstream.Event) : up.run (events ++ [event]) = up'.step event := by
  rw [Upstream.run] at h
  rw [Upstream.run, List.foldlM_append, h]
  simp

/-- Of no body no segment is read, and the first of them is copied where none is known. -/
theorem recv_refusal (up : Upstream) (sent : Bool) : ymsChannelRecvM3u8 up [] sent =
    if up.sfragId.head? = some 0 then none else some (ymsChannelReqTs up sent) := by
  have hread : m3u8Read [] = some ⟨[], false, 0, 0, [], false⟩ := rfl
  rw [ymsChannelRecvM3u8, hread, Option.bind_some]
  dsimp only
  split
  · rfl
  · rfl

/-- Without playlists no segment gets known. -/
theorem quiet_run {up up' : Upstream} {events : List Upstream.Event} (h : up.run events = some up')
    (hquiet : bodies events = []) : up'.sfragId = up.sfragId := by
  induction events generalizing up with
  | nil =>
    obtain rfl := Option.some.inj h
    rfl
  | cons event events ih =>
    cases event with
    | m3u8 body sent => cases hquiet
    | ts sent => exact (ih h hquiet).trans (req_seen up sent).2

theorem step_flowing (h : Flowing relay cascade) {event : Cascade.Event} (hnarrow : event.Narrow relay.width)
    (hstep : cascade.step event = some cascade') : Flowing relay cascade' := by
  obtain ⟨events, hrun, hbodies⟩ := h.below
  cases event with
  | recvTs outcomes body bodySize memory printed =>
    obtain ⟨above, hrecv, rfl⟩ := Option.map_eq_some_iff.mp hstep
    obtain ⟨hfed, hlen, hm3u8⟩ := recv_ts_fed h.fed hrecv
    refine ⟨hfed, fun hfew => ?_, h.below⟩
    have hrising := h.rising (hlen.trans hfew)
    have hle : relay.first cascade.above.channel.gops.length ≤ relay.first above.channel.gops.length :=
      Nat.sub_le_sub_right (Nat.div_le_div_right hlen) _
    rcases hm3u8 with hsame | hshows
    · rw [Cascade.current] at hrising ⊢
      rw [hsame]
      exact rising_le hrising hle
    · have hfront := rising_snoc (rising_front hrising) (hshows hnarrow hfew) hle
      rw [Cascade.current]
      split
      · rw [List.append_nil]
        exact rising_front hfront
      · exact hfront
  | answer dir started printed =>
    obtain ⟨tasks, hdispatch, hbytes⟩ := answer_bytes h.fed dir started printed
    simp only [Cascade.step, hdispatch, Option.map_some, hbytes, Option.some.injEq] at hstep
    subst hstep
    refine ⟨h.fed, fun hfew => ?_, h.below⟩
    have hrising := h.rising hfew
    rw [Cascade.current] at hrising ⊢
    by_cases hnil : cascade.above.m3u8 = []
    · rw [if_pos hnil] at hrising ⊢
      simpa [hnil] using hrising
    · rw [if_neg hnil] at hrising ⊢
      simpa [hnil] using rising_again hrising
  | recvM3u8 sent =>
    rw [Cascade.step] at hstep
    split at hstep
    · obtain rfl := Option.some.inj hstep
      exact h
    · rename_i body flight hflight
      obtain ⟨below, hrecv, rfl⟩ := Option.map_eq_some_iff.mp hstep
      by_cases hnil : body = []
      · subst hnil
        rw [recv_refusal] at hrecv
        split at hrecv
        · cases hrecv
        · refine ⟨h.fed, fun hfew => ?_, events ++ [.ts sent], (run_snoc hrun (.ts sent)).trans hrecv, ?_⟩
          · have hrising := h.rising hfew
            rw [hflight] at hrising
            exact hrising
          · rw [bodies_append, hbodies]
            exact List.append_nil _
      · refine ⟨h.fed, fun hfew => ?_, events ++ [.m3u8 body sent], (run_snoc hrun (.m3u8 body sent)).trans hrecv, ?_⟩
        · have hrising := h.rising hfew
          rw [hflight, List.filter_cons_of_pos (by simpa using hnil)] at hrising
          dsimp only
          rw [if_neg hnil, List.append_assoc cascade.polled]
          exact hrising
        · rw [bodies_append, hbodies]
          exact (if_neg hnil).symm
  | reqTs sent =>
    obtain rfl := Option.some.inj hstep
    refine ⟨h.fed, h.rising, events ++ [.ts sent], run_snoc hrun _, ?_⟩
    rw [bodies_append, hbodies]
    exact List.append_nil _

theorem initial_flowing (relay : Relay) : Flowing relay (Cascade.initial relay) :=
  ⟨⟨rfl, rfl, .refl⟩, fun _ => ⟨[], rfl, fun _ hm => absurd hm List.not_mem_nil, List.Pairwise.nil⟩,
    [], rfl, rfl⟩

theorem run_flowing {events : List Cascade.Event} (h : Flowing relay cascade)
    (hnarrow : ∀ event ∈ events, event.Narrow relay.width) (hrun : cascade.run events = some cascade') :
    Flowing relay cascade' := by
  induction events generalizing cascade with
  | nil =>
    obtain rfl := Option.some.inj hrun
    exact h
  | cons event events ih =>
    rw [Cascade.run, List.foldlM_cons] at hrun
    obtain ⟨next, hstep, hrest⟩ := Option.bind_eq_some_iff.mp hrun
    exact ih (step_flowing h (hnarrow event List.mem_cons_self) hstep)
      (fun event hm => hnarrow event (List.mem_cons_of_mem _ hm)) hrest

/-- With a playlist there is a segment that is known. -/
theorem queued_known {up : Upstream} {firsts : List Nat} (h : Queued (firsts.flatMap relay.window) up)
    (hsmall : ∀ first ∈ firsts, first + relay.tfragsize ≤ 2 ^ 31) (hne : firsts ≠ []) :
    up.sfragId.head? ≠ some 0 := by
  have hnamed : ∀ uri ∈ firsts.flatMap relay.window, uri ≠ [] := by
    intro uri hm
    obtain ⟨first, hfirst, hwindow⟩ := List.mem_flatMap.mp hm
    obtain ⟨n, hn, rfl⟩ := List.mem_map.mp hwindow
    have hbound := hsmall first hfirst
    rw [List.mem_range'_1] at hn
    exact (name_plain relay (n := n) (by omega)).nonempty
  intro hzero
  obtain ⟨rest, hrest⟩ := List.head?_eq_some_iff.mp hzero
  have hlast := h.last
  have hempty : cString (0 :: rest) = [] := rfl
  rw [hrest, hempty] at hlast
  cases hqueued : up.queued.getLast? with
  | some uri =>
    rw [hqueued] at hlast
    exact hnamed uri ((h.complete uri).mp (List.mem_of_getLast? hqueued)).1 hlast.symm
  | none =>
    obtain ⟨first, firsts, rfl⟩ := List.exists_cons_of_ne_nil hne
    obtain ⟨uri, uris, hwindow⟩ := List.exists_cons_of_ne_nil (window_nonempty relay first)
    rw [hqueued, List.flatMap_cons, hwindow] at hlast
    exact hnamed uri (by rw [List.flatMap_cons, hwindow]; simp) hlast.symm

theorem Flowing.followed (h : Flowing relay cascade) (hfew : cascade.above.channel.gops.length ≤ 2 ^ 31) :
    ∃ firsts, Followed relay cascade firsts := by
  obtain ⟨events, hrun, hbodies⟩ := h.below
  have hrising := rising_front (h.rising hfew)
  have hpolled := rising_front hrising
  obtain ⟨hslid, hlegible⟩ := rising_slid (hbodies ▸ hpolled)
  obtain ⟨shown, htexts, hall, hrises⟩ := hpolled
  have hfirsts : (shown.map Prod.snd).Pairwise (· ≤ ·) := List.pairwise_map.mpr hrises
  have hwindows : cascade.polled.map (fun body => segNames (textLines body)) = (shown.map Prod.snd).map relay.window := by
    rw [← htexts, List.map_map, List.map_map]
    exact List.map_congr_left fun entry hm => (hall entry hm).1.names
  have hqueued : Queued ((shown.map Prod.snd).flatMap relay.window) cascade.below := by
    obtain ⟨up, hup, hqueued⟩ := legible_polls hslid hlegible
    obtain rfl := Option.some.inj (hup.symm.trans hrun)
    rwa [playlists, hbodies, hwindows, ← List.flatMap_def] at hqueued
  have hsmall : ∀ first ∈ shown.map Prod.snd, first + relay.tfragsize ≤ 2 ^ 31 := by
    intro first hm
    obtain ⟨entry, hentry, rfl⟩ := List.mem_map.mp hm
    exact (hall entry hentry).1.small
  refine ⟨shown.map Prod.snd, hfirsts, hwindows, hqueued, ?_, ?_⟩
  · intro hgapless first hfirst last hlast
    exact queued_range hqueued hfirsts hsmall hgapless hfirst hlast
  · intro sent
    rw [Cascade.step]
    split
    · rename_i hflight
      simp [hflight]
    · rename_i body flight hflight
      rw [hflight, Option.isSome_map, List.head?_cons, Option.some.injEq]
      by_cases hnil : body = []
      · subst hnil
        rw [recv_refusal]
        by_cases hpolled : cascade.polled = []
        · have hquiet := quiet_run hrun (hbodies.trans hpolled)
          have hzero : cascade.below.sfragId.head? = some 0 := by
            rw [hquiet]
            rfl
          simp [hzero, hpolled]
        · have hne : shown.map Prod.snd ≠ [] := by
            intro hshown
            rw [List.map_eq_nil_iff] at hshown
            rw [hshown] at htexts
            exact hpolled htexts.symm
          have hknown := queued_known hqueued hsmall hne
          simp [hknown, hpolled]
      · rw [hflight, List.filter_cons_of_pos (by simpa using hnil), List.append_cons] at hrising
        have hnext : bodies (events ++ [.m3u8 body sent]) = cascade.polled ++ [body] := by
          rw [bodies_append, hbodies]
          rfl
        obtain ⟨hslid', hlegible'⟩ := rising_slid (hnext ▸ rising_front hrising)
        obtain ⟨up, hup, -⟩ := legible_polls hslid' hlegible'
        rw [run_snoc hrun] at hup
        exact iff_of_true (Option.isSome_of_eq_some hup) fun heq => absurd heq hnil

end Run

/-- However the two servers take turns, as long as numbers are printed without a sign, the one below queues the
fragments of all playlists that come to it. -/
theorem cascade_followed (relay : Relay) {events : List Cascade.Event} {cascade : Cascade}
    (hnarrow : ∀ event ∈ events, event.Narrow relay.width) (hrun : (Cascade.initial relay).run events = some cascade)
    (hfew : cascade.above.channel.gops.length ≤ 2 ^ 31) : ∃ firsts, Followed relay cascade firsts :=
  (run_flowing (initial_flowing relay) hnarrow hrun).followed hfew

/-- Fragments of one gop, of which a playlist lists one. -/
def shortRelay : Relay :=
  ⟨ascii "a", 1, 1, 20, ⟨by decide, by simp [ascii], by decide⟩, by simp [ascii, newline], by decide, by decide,
    by decide, by decide, by decide⟩

def secondsPrinted : Printed := ⟨.number false 1 0, by decide, fun _ => .number false 2 0⟩

def keySegment (n : Nat) : Cascade.Event :=
  .recvTs (fun _ => .ample) (fun i => keyFrame.getD (i % 188) 0) (188 * n) true secondsPrinted

/-- Two playlists are answered before the first of them comes below. -/
def shortEvents : List Cascade.Event :=
  [keySegment 2, .answer [] (fun _ => false) secondsPrinted, keySegment 1,
    .answer [] (fun _ => false) secondsPrinted, .recvM3u8 true, .recvM3u8 true]

theorem short_run : ((Cascade.initial shortRelay).run shortEvents).map
    (fun cascade => (cascade.above.channel.gops.length, cascade.below.queued)) = some (3, [ascii "a-frag2.ts"]) := by
  decide +kernel

theorem cascade_followed_short : ∃ cascade firsts, cascade.below.queued = [ascii "a-frag2.ts"] ∧
    Followed shortRelay cascade firsts := by
  obtain ⟨cascade, hrun, hend⟩ := Option.map_eq_some_iff.mp short_run
  obtain ⟨hlen, hqueued⟩ := Prod.mk.inj hend
  have htext : (Fixed.number false 2 0).text.length ≤ 20 := by decide
  have hwidth : ∀ i, (secondsPrinted.timeLen i).text.length ≤ shortRelay.width := fun _ => htext
  have hnarrow : ∀ event ∈ shortEvents, event.Narrow shortRelay.width := by
    simp only [shortEvents, keySegment, List.forall_mem_cons, Cascade.Event.Narrow]
    exact ⟨hwidth, trivial, hwidth, trivial, trivial, trivial, fun _ hm => absurd hm List.not_mem_nil⟩
  obtain ⟨firsts, hfollowed⟩ := cascade_followed shortRelay hnarrow hrun (by omega)
  exact ⟨cascade, firsts, hqueued, hfollowed⟩

end Yclib.Live
