import Yclib.Rtmp.Registry
import Yclib.Util.ListHead

namespace Yclib.Rtmp.Players
open ListHead Registry

/-! The lists of players of the streams, which the commands of all connections write to. -/

/-- The list heads: `player` of a connection and `players` of a stream. -/
inductive Node
  | player (rconn : Nat)
  | players (stream : Nat)
deriving DecidableEq

/-- The server with its connections, so many accepted so far, and `mstream` of each. -/
structure Server where
  rtmp : Registry.Server
  links : Links Node
  rconns : List Nat
  mstream : Nat → Option Nat
  accepted : Nat

def Server.create : Server := ⟨Registry.Server.create, .free, [], fun _ => none, 0⟩

/-- `rns_rconnserver_create`, whose memory is cleared. -/
def rnsRconnserverCreate (server : Server) : Server :=
  { server with
    links := ⟨Function.update server.links.next (.player server.accepted) none,
      Function.update server.links.prev (.player server.accepted) none⟩
    rconns := server.accepted :: server.rconns
    mstream := Function.update server.mstream server.accepted none
    accepted := server.accepted + 1 }

/-- `rtmp_command_publish` of a name that is free, with the lists of the stream it makes. -/
def rtmpCommandPublish (server : Server) (name : List UInt8) (streamid : Nat) : Option Server :=
  (Registry.rtmpCommandPublish server.rtmp name streamid .enough none).map fun rtmp =>
    { server with
      rtmp := rtmp
      links := initListHead server.links (.players server.rtmp.made) }

/-- `rtmp_command_play`, with what it finds under the name. -/
def rtmpCommandPlay (server : Server) (rconn : Nat) : Option Nat → Option Server
  | none => some server
  | some stream =>
    (rnsListAdd server.links (.player rconn) (.players stream)).map fun links =>
      { server with
        links := links
        mstream := Function.update server.mstream rconn (some stream) }

/-- `rtmp_command_closeStream`. -/
def rtmpCommandCloseStream (server : Server) (rconn : Nat) : Option Server :=
  (rnsListDel server.links (.player rconn)).map fun links =>
    { server with
      links := links
      mstream := Function.update server.mstream rconn none }

/-- `rtmp_command_deleteStream`, with what it finds under the id. A stream that is destroyed
leaves its players as they are. -/
def rtmpCommandDeleteStream (server : Server) (found : Option Nat) : Server :=
  { server with rtmp := Registry.rtmpCommandDeleteStream server.rtmp found }

/-- `rns_rconn_destroy`. -/
def rnsRconnDestroy (server : Server) (rconn : Nat) : Option Server :=
  (rnsListDelSafe server.links (.player rconn)).map fun links =>
    { server with
      links := links
      rconns := server.rconns.filter (· ≠ rconn) }

inductive Event
  | accept
  | publish (name : List UInt8) (streamid : Nat)
  | play (rconn : Nat) (name : List UInt8)
  | closeStream (rconn : Nat)
  | deleteStream (rconn streamid : Nat)
  | disconnect (rconn : Nat)

/-- What comes of an event: the server, or nothing where it goes through a null pointer. -/
inductive Served (server : Server) : Event → Option Server → Prop
  | accept : Served server .accept (some (rnsRconnserverCreate server))
  | publish {name : List UInt8} {streamid : Nat} (h : Finds server.rtmp.mstreams name none) :
      Served server (.publish name streamid) (rtmpCommandPublish server name streamid)
  | play {rconn : Nat} {name : List UInt8} {found : Option Nat} (hr : rconn ∈ server.rconns)
      (h : Finds server.rtmp.mstreams name found) :
      Served server (.play rconn name) (rtmpCommandPlay server rconn found)
  | closeStream {rconn : Nat} (hr : rconn ∈ server.rconns) :
      Served server (.closeStream rconn) (rtmpCommandCloseStream server rconn)
  | deleteStream {rconn streamid : Nat} {found : Option Nat} (hr : rconn ∈ server.rconns)
      (h : Finds server.rtmp.nstreams streamid found) :
      Served server (.deleteStream rconn streamid) (some (rtmpCommandDeleteStream server found))
  | disconnect {rconn : Nat} (hr : rconn ∈ server.rconns) :
      Served server (.disconnect rconn) (rnsRconnDestroy server rconn)

/-- What is reached by events that all meet `P`. -/
inductive Reach (P : Server → Event → Prop) : Option Server → Prop
  | start : Reach P (some Server.create)
  | step {server : Server} {event : Event} {result : Option Server} (hr : Reach P (some server))
      (hp : P server event) (hs : Served server event result) : Reach P result

/-- The streams that are not destroyed. -/
def Server.streams (server : Server) : List Nat := Registry.streams server.rtmp.mstreams

/-- The lists are well formed and hold connections that are there, each in one list at most,
and a connection that is linked is in the list of a stream that is there. -/
structure Good (server : Server) (players : Nat → List Nat) : Prop where
  ring : ∀ stream ∈ server.streams, Ring server.links (.players stream) ((players stream).map .player)
  once : ∀ stream ∈ server.streams, ∀ stream' ∈ server.streams, ∀ rconn ∈ players stream,
    rconn ∈ players stream' → stream = stream'
  live : ∀ stream ∈ server.streams, ∀ rconn ∈ players stream, rconn ∈ server.rconns
  linked : ∀ rconn, Unlinked server.links (.player rconn) ∨
    ∃ stream ∈ server.streams, rconn ∈ players stream

/-- A connection does not play while it is in a list, closes a stream only while it is in
one, and no stream is deleted that has players. -/
def Tidy (server : Server) : Event → Prop
  | .play rconn name => Unlinked server.links (.player rconn) ∨
      ∀ stream, (name, stream) ∉ server.rtmp.mstreams
  | .closeStream rconn => ¬ Unlinked server.links (.player rconn)
  | .deleteStream _ streamid => ∀ stream, (streamid, stream) ∈ server.rtmp.nstreams →
      server.links.next (.players stream) = some (.players stream)
  | _ => True

structure Inv (server : Server) (players : Nat → List Nat) : Prop where
  good : Good server players
  registry : Registry.Inv server.rtmp
  fresh : ∀ rconn ∈ server.rconns, rconn < server.accepted

section
variable {server : Server} {players : Nat → List Nat}

/-- A connection that is not there is in no list. -/
theorem gone_unlinked (h : Good server players) {rconn : Nat} (hr : rconn ∉ server.rconns) :
    Unlinked server.links (.player rconn) := by
  obtain hu | ⟨stream, hs, hm⟩ := h.linked rconn
  · exact hu
  · exact absurd (h.live stream hs rconn hm) hr

theorem player_mem {rconn : Nat} {stream : Nat} :
    Node.player rconn ∈ Node.players stream :: (players stream).map Node.player ↔
      rconn ∈ players stream := by
  simp

theorem ring_linked (h : Good server players) {stream rconn : Nat} (hs : stream ∈ server.streams)
    (hm : rconn ∈ players stream) : ¬ Unlinked server.links (.player rconn) := by
  obtain ⟨xs, ys, heq⟩ := List.append_of_mem (List.mem_map_of_mem (f := Node.player) hm)
  have hring := h.ring stream hs
  rw [heq] at hring
  obtain ⟨p, -, hp⟩ := chain_last (chain_append.mp hring.chain).1
  intro hu
  rw [hu.1] at hp
  cases hp

/-- Two lists have no node in common. -/
theorem apart (h : Good server players) {stream stream' : Nat} (hs : stream ∈ server.streams)
    (hs' : stream' ∈ server.streams) (hne : stream' ≠ stream) :
    ∀ y ∈ Node.players stream' :: (players stream').map Node.player,
      y ∉ Node.players stream :: (players stream).map Node.player := by
  intro y hy hm
  cases y with
  | player rconn =>
    rw [player_mem] at hy hm
    exact hne (h.once stream' hs' stream hs rconn hy hm)
  | players other =>
    simp only [List.mem_cons, Node.players.injEq, List.mem_map, reduceCtorEq, and_false,
      exists_false, or_false] at hy hm
    exact hne (hy.symm.trans hm)

theorem accept_inv (h : Inv server players) : Inv (rnsRconnserverCreate server) players := by
  have hnew : server.accepted ∉ server.rconns := fun hm => lt_irrefl _ (h.fresh _ hm)
  have hun := gone_unlinked h.good hnew
  have hnext : Function.update server.links.next (.player server.accepted) none = server.links.next := by
    rw [← hun.2, Function.update_eq_self]
  have hprev : Function.update server.links.prev (.player server.accepted) none = server.links.prev := by
    rw [← hun.1, Function.update_eq_self]
  have hlinks : (rnsRconnserverCreate server).links = server.links := by
    simp only [rnsRconnserverCreate, hnext, hprev]
  refine ⟨⟨?_, h.good.once, ?_, ?_⟩, h.registry, ?_⟩
  · rw [hlinks]
    exact h.good.ring
  · exact fun stream hs rconn hm => List.mem_cons_of_mem _ (h.good.live stream hs rconn hm)
  · rw [hlinks]
    exact h.good.linked
  · intro rconn hm
    rcases List.mem_cons.mp hm with rfl | hm
    · exact Nat.lt_succ_self _
    · exact Nat.lt_succ_of_lt (h.fresh rconn hm)

theorem made_fresh (h : Inv server players) {stream : Nat} (hs : stream ∈ server.streams) :
    stream ≠ server.rtmp.made := Nat.ne_of_lt (h.registry.made stream hs)

theorem publish_inv (h : Inv server players) (name : List UInt8) (streamid : Nat) :
    ∃ server', rtmpCommandPublish server name streamid = some server' ∧
      Inv server' (Function.update players server.rtmp.made []) := by
  have hold : ∀ stream ∈ server.streams,
      Function.update players server.rtmp.made [] stream = players stream := fun stream hs =>
    Function.update_of_ne (made_fresh h hs) _ _
  have hplayer : ∀ rconn, Unlinked server.links (.player rconn) →
      Unlinked (initListHead server.links (.players server.rtmp.made)) (.player rconn) := by
    intro rconn hu
    simpa [Unlinked, initListHead] using hu
  refine ⟨_, rfl, ⟨?_, ?_, ?_, ?_⟩, Registry.publish_inv h.registry name streamid, h.fresh⟩
  · intro stream hs
    rcases List.mem_cons.mp hs with rfl | hs
    · rw [Function.update_self]
      exact init_ring _ _
    · have hne := made_fresh h hs
      rw [hold stream hs]
      refine ring_frame (h.good.ring stream hs) ?_ ?_ <;>
        · intro y hy
          have hy' : y ≠ .players server.rtmp.made := by
            rintro rfl
            simp [hne.symm] at hy
          simp [initListHead, hy']
  · intro stream hs stream' hs' rconn hm hm'
    rcases List.mem_cons.mp hs with rfl | hs
    · rw [Function.update_self] at hm
      cases hm
    · rcases List.mem_cons.mp hs' with rfl | hs'
      · rw [Function.update_self] at hm'
        cases hm'
      · rw [hold stream hs] at hm
        rw [hold stream' hs'] at hm'
        exact h.good.once stream hs stream' hs' rconn hm hm'
  · intro stream hs rconn hm
    rcases List.mem_cons.mp hs with rfl | hs
    · rw [Function.update_self] at hm
      cases hm
    · rw [hold stream hs] at hm
      exact h.good.live stream hs rconn hm
  · intro rconn
    rcases h.good.linked rconn with hu | ⟨stream, hs, hm⟩
    · exact .inl (hplayer rconn hu)
    · exact .inr ⟨stream, List.mem_cons_of_mem _ hs, by rw [hold stream hs]; exact hm⟩

theorem play_good (h : Good server players) {rconn stream : Nat} (hs : stream ∈ server.streams)
    (hr : rconn ∈ server.rconns) (hu : Unlinked server.links (.player rconn)) :
    ∃ links', rnsListAdd server.links (.player rconn) (.players stream) = some links' ∧
      Good { server with links := links', mstream := Function.update server.mstream rconn (some stream) }
        (Function.update players stream (rconn :: players stream)) := by
  have hout : ∀ stream' ∈ server.streams, rconn ∉ players stream' := fun stream' hs' hm =>
    ring_linked h hs' hm hu
  obtain ⟨links', hadd, hring, hframe⟩ := add_ring (h.ring stream hs)
    (fun hm => hout stream hs (player_mem.mp hm))
  refine ⟨links', hadd, ?_, ?_, ?_, ?_⟩
  · intro stream' hs'
    by_cases hne : stream' = stream
    · subst hne
      rw [Function.update_self]
      exact hring
    · rw [Function.update_of_ne hne]
      have hkeep : ∀ y ∈ Node.players stream' :: (players stream').map Node.player,
          links'.next y = server.links.next y ∧ links'.prev y = server.links.prev y := by
        intro y hy
        apply hframe y (apart h hs hs' hne y hy)
        rintro rfl
        exact hout stream' hs' (player_mem.mp hy)
      exact ring_frame (h.ring stream' hs') (fun y hy => (hkeep y hy).1) (fun y hy => (hkeep y hy).2)
  · intro stream₁ hs₁ stream₂ hs₂ other hm₁ hm₂
    by_cases hother : other = rconn
    · subst hother
      have hself : ∀ s ∈ server.streams,
          other ∈ Function.update players stream (other :: players stream) s → s = stream := by
        intro s hsm hm
        by_contra hne
        rw [Function.update_of_ne hne] at hm
        exact hout s hsm hm
      rw [hself stream₁ hs₁ hm₁, hself stream₂ hs₂ hm₂]
    · have hback : ∀ s, other ∈ Function.update players stream (rconn :: players stream) s →
          other ∈ players s := by
        intro s hm
        by_cases hne : s = stream
        · subst hne
          rw [Function.update_self] at hm
          exact (List.mem_cons.mp hm).resolve_left hother
        · rwa [Function.update_of_ne hne] at hm
      exact h.once stream₁ hs₁ stream₂ hs₂ other (hback _ hm₁) (hback _ hm₂)
  · intro stream' hs' other hm
    by_cases hne : stream' = stream
    · subst hne
      rw [Function.update_self] at hm
      rcases List.mem_cons.mp hm with rfl | hm
      · exact hr
      · exact h.live stream' hs' other hm
    · rw [Function.update_of_ne hne] at hm
      exact h.live stream' hs' other hm
  · intro other
    by_cases hother : other = rconn
    · exact .inr ⟨stream, hs, by rw [Function.update_self, hother]; exact List.mem_cons_self⟩
    · rcases h.linked other with hun | ⟨stream', hs', hm⟩
      · left
        have hmem : Node.player other ∉ Node.players stream :: (players stream).map Node.player :=
          fun hm => ring_linked h hs (player_mem.mp hm) hun
        obtain ⟨hnext, hprev⟩ := hframe _ hmem (by simpa using hother)
        exact ⟨hprev.trans hun.1, hnext.trans hun.2⟩
      · refine .inr ⟨stream', hs', ?_⟩
        by_cases hne : stream' = stream
        · rw [hne, Function.update_self]
          exact List.mem_cons_of_mem _ (hne ▸ hm)
        · rw [Function.update_of_ne hne]
          exact hm

/-- A connection in a list is taken out of it, and the lists stay. -/
theorem unlink_good (h : Good server players) {rconn : Nat}
    (hlinked : ¬ Unlinked server.links (.player rconn)) :
    ∃ links' players', rnsListDel server.links (.player rconn) = some links' ∧
      Good { server with links := links' } players' ∧
      ∀ stream ∈ server.streams, rconn ∉ players' stream := by
  obtain ⟨stream, hs, hm⟩ := (h.linked rconn).resolve_left hlinked
  obtain ⟨xs, ys, heq⟩ := List.append_of_mem hm
  have hring := h.ring stream hs
  rw [heq, List.map_append, List.map_cons] at hring
  obtain ⟨links', hdel, hring', hun, hframe⟩ := del_ring hring
  have hsub : ∀ other ∈ xs ++ ys, other ∈ players stream := by
    intro other ho
    rw [heq]
    rcases List.mem_append.mp ho with ho | ho
    · exact List.mem_append_left _ ho
    · exact List.mem_append_right _ (List.mem_cons_of_mem _ ho)
  have hback : ∀ s other, other ∈ Function.update players stream (xs ++ ys) s → other ∈ players s := by
    intro s other ho
    by_cases hne : s = stream
    · rw [hne, Function.update_self] at ho
      exact hne ▸ hsub other ho
    · rwa [Function.update_of_ne hne] at ho
  have hkeep : ∀ y, y ∉ Node.players stream :: (players stream).map Node.player →
      links'.next y = server.links.next y ∧ links'.prev y = server.links.prev y := by
    intro y hy
    rw [heq, List.map_append, List.map_cons] at hy
    exact hframe y hy
  refine ⟨links', Function.update players stream (xs ++ ys), hdel, ⟨?_, ?_, ?_, ?_⟩, ?_⟩
  · intro stream' hs'
    by_cases hne : stream' = stream
    · rw [hne, Function.update_self, List.map_append]
      exact hring'
    · rw [Function.update_of_ne hne]
      exact ring_frame (h.ring stream' hs') (fun y hy => (hkeep y (apart h hs hs' hne y hy)).1)
        (fun y hy => (hkeep y (apart h hs hs' hne y hy)).2)
  · intro stream₁ hs₁ stream₂ hs₂ other hm₁ hm₂
    exact h.once stream₁ hs₁ stream₂ hs₂ other (hback _ _ hm₁) (hback _ _ hm₂)
  · exact fun stream' hs' other hm => h.live stream' hs' other (hback _ _ hm)
  · intro other
    by_cases hother : other = rconn
    · exact .inl (hother ▸ hun)
    · rcases h.linked other with hu | ⟨stream', hs', hm'⟩
      · left
        have hmem : Node.player other ∉ Node.players stream :: (players stream).map Node.player :=
          fun hm => ring_linked h hs (player_mem.mp hm) hu
        exact ⟨(hkeep _ hmem).2.trans hu.1, (hkeep _ hmem).1.trans hu.2⟩
      · refine .inr ⟨stream', hs', ?_⟩
        by_cases hne : stream' = stream
        · rw [hne, Function.update_self]
          rw [hne, heq] at hm'
          simpa [hother] using hm'
        · rwa [Function.update_of_ne hne]
  · intro stream' hs' hm'
    have hsame := h.once stream' hs' stream hs rconn (hback _ _ hm') hm
    rw [hsame, Function.update_self] at hm'
    have hd := (List.nodup_cons.mp hring.nodup).2
    rw [List.nodup_middle, ← List.map_append] at hd
    exact (List.nodup_cons.mp hd).1 (List.mem_map_of_mem hm')

theorem delete_streams (server : Server) (found : Option Nat) :
    (rtmpCommandDeleteStream server found).streams =
      found.elim server.streams fun stream => server.streams.filter (· ≠ stream) := by
  simp only [Server.streams, rtmpCommandDeleteStream, delete_mstreams]
  cases found with
  | none => rfl
  | some stream => exact streams_delete _ _

/-- The lists stay good as long as nobody in them goes, and no stream that has players. -/
theorem good_keep (h : Good server players) {server' : Server} (hlinks : server'.links = server.links)
    (hstreams : ∀ stream ∈ server'.streams, stream ∈ server.streams)
    (hlive : ∀ stream ∈ server.streams, ∀ rconn ∈ players stream, rconn ∈ server'.rconns)
    (hempty : ∀ stream ∈ server.streams, stream ∉ server'.streams → players stream = []) :
    Good server' players := by
  refine ⟨?_, ?_, fun stream hs => hlive stream (hstreams stream hs), ?_⟩
  · rw [hlinks]
    exact fun stream hs => h.ring stream (hstreams stream hs)
  · exact fun stream hs stream' hs' => h.once stream (hstreams stream hs) stream' (hstreams stream' hs')
  · rw [hlinks]
    intro rconn
    rcases h.linked rconn with hu | ⟨stream, hs, hm⟩
    · exact .inl hu
    · refine .inr ⟨stream, ?_, hm⟩
      by_contra hn
      rw [hempty stream hs hn] at hm
      cases hm

theorem close_inv (h : Inv server players) {rconn : Nat}
    (hlinked : ¬ Unlinked server.links (.player rconn)) :
    ∃ server' players', rtmpCommandCloseStream server rconn = some server' ∧ Inv server' players' := by
  obtain ⟨links', players', hdel, hgood, -⟩ := unlink_good h.good hlinked
  refine ⟨{ server with links := links', mstream := Function.update server.mstream rconn none },
    players', by simp only [rtmpCommandCloseStream, hdel, Option.map_some], ?_, h.registry, h.fresh⟩
  exact good_keep hgood rfl (fun _ hs => hs) hgood.live (fun _ hs hn => absurd hs hn)

theorem disconnect_inv (h : Inv server players) (rconn : Nat) :
    ∃ server' players', rnsRconnDestroy server rconn = some server' ∧ Inv server' players' := by
  have hfresh : ∀ other ∈ server.rconns.filter (· ≠ rconn), other < server.accepted := fun other hm =>
    h.fresh other (List.mem_filter.mp hm).1
  have hstay : ∀ other ∈ server.rconns, other ≠ rconn → other ∈ server.rconns.filter (· ≠ rconn) :=
    fun other hm hne => List.mem_filter.mpr ⟨hm, by simpa using hne⟩
  by_cases hu : Unlinked server.links (.player rconn)
  · refine ⟨{ server with rconns := server.rconns.filter (· ≠ rconn) }, players,
      by simp only [rnsRconnDestroy, rnsListDelSafe, hu, if_true, Option.map_some], ?_, h.registry, hfresh⟩
    refine good_keep h.good rfl (fun _ hs => hs) ?_ (fun _ hs hn => absurd hs hn)
    intro stream hs other hm
    apply hstay other (h.good.live stream hs other hm)
    rintro rfl
    exact ring_linked h.good hs hm hu
  · obtain ⟨links', players', hdel, hgood, hout⟩ := unlink_good h.good hu
    refine ⟨{ server with links := links', rconns := server.rconns.filter (· ≠ rconn) }, players',
      by simp only [rnsRconnDestroy, rnsListDelSafe, hu, if_false, hdel, Option.map_some], ?_,
      h.registry, hfresh⟩
    refine good_keep hgood rfl (fun _ hs => hs) ?_ (fun _ hs hn => absurd hs hn)
    intro stream hs other hm
    apply hstay other (hgood.live stream hs other hm)
    rintro rfl
    exact hout stream hs hm

theorem delete_rest (server : Server) (found : Option Nat) :
    (rtmpCommandDeleteStream server found).links = server.links ∧
      (rtmpCommandDeleteStream server found).rconns = server.rconns ∧
      (rtmpCommandDeleteStream server found).accepted = server.accepted := by
  unfold rtmpCommandDeleteStream
  exact ⟨rfl, rfl, rfl⟩

theorem delete_registry (server : Server) (found : Option Nat) :
    (rtmpCommandDeleteStream server found).rtmp = Registry.rtmpCommandDeleteStream server.rtmp found := by
  unfold rtmpCommandDeleteStream
  rfl

/-- A stream without players is destroyed with nothing pointing to it. -/
theorem delete_stream_inv (h : Inv server players) (found : Option Nat)
    (hempty : ∀ stream, found = some stream → stream ∈ server.streams → players stream = []) :
    Inv (rtmpCommandDeleteStream server found) players := by
  obtain ⟨hlinks, hrconns, haccepted⟩ := delete_rest server found
  refine ⟨good_keep h.good hlinks ?_ ?_ ?_, delete_registry server found ▸ Registry.delete_inv h.registry found, ?_⟩
  · intro stream hs
    rw [delete_streams] at hs
    cases found with
    | none => exact hs
    | some _ => exact (List.mem_filter.mp hs).1
  · rw [hrconns]
    exact h.good.live
  · intro stream hs hn
    rw [delete_streams] at hn
    cases found with
    | none => exact absurd hs hn
    | some other =>
      refine hempty stream ?_ hs
      by_contra hne
      refine hn (List.mem_filter.mpr ⟨hs, ?_⟩)
      rw [decide_eq_true_iff]
      rintro rfl
      exact hne rfl
  · rw [hrconns, haccepted]
    exact h.fresh

/-- An event in order goes through, and leaves the lists good. -/
theorem served_inv {event : Event} {result : Option Server} (h : Inv server players)
    (hp : Tidy server event) (hs : Served server event result) :
    ∃ server' players', result = some server' ∧ Inv server' players' := by
  cases hs with
  | accept => exact ⟨_, players, rfl, accept_inv h⟩
  | @publish name streamid =>
    obtain ⟨server', heq, hinv⟩ := publish_inv h name streamid
    exact ⟨server', _, heq, hinv⟩
  | @play rconn name found hr hfound =>
    cases found with
    | none => exact ⟨server, players, rfl, h⟩
    | some stream =>
      have hmem : stream ∈ server.streams := List.mem_map.mpr ⟨(name, stream), hfound, rfl⟩
      have hu := hp.resolve_right fun hnone => hnone stream hfound
      obtain ⟨links', hadd, hgood⟩ := play_good h.good hmem hr hu
      exact ⟨_, _, by simp only [rtmpCommandPlay, hadd, Option.map_some], hgood, h.registry, h.fresh⟩
  | @closeStream rconn hr => exact close_inv h hp
  | @disconnect rconn hr => exact disconnect_inv h rconn
  | @deleteStream rconn streamid found hr hfound =>
    refine ⟨_, players, rfl, delete_stream_inv h found ?_⟩
    rintro stream rfl hmem
    have hnone := hp stream hfound
    have hchain := (h.good.ring stream hmem).chain
    cases hplayers : players stream with
    | nil => rfl
    | cons rconn rest =>
      rw [hplayers] at hchain
      rw [hchain.1] at hnone
      cases hnone

end

theorem create_inv : Inv .create fun _ => [] := by
  have hnone : Server.create.streams = [] := rfl
  refine ⟨⟨?_, ?_, ?_, fun _ => .inl ⟨rfl, rfl⟩⟩, ⟨⟨List.nodup_nil, List.Perm.nil⟩, ?_⟩, ?_⟩
  · simp [hnone]
  · simp [hnone]
  · simp [hnone]
  · intro stream hs
    cases hs
  · intro rconn hm
    cases hm

end Yclib.Rtmp.Players
