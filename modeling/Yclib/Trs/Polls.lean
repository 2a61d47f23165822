import Yclib.Util.Multimap
import Yclib.Util.RbtStore

namespace Yclib.Trs.Polls

/-! The polls of the set-top boxes that are held until a phone controls the box or a timer ends them. -/

/-- What is there of a `trs_t`, a box told by its `stbid`. A `stb_conn_t` has a number, its `hconn` and
its place in both trees; a box has its `sinfo` and its timer, with the connection of its `screenctx`.
`live`, `requested` and `resps` are about the connections: which are there, how many polls came on
each, and what was sent. -/
structure Server (Info : Type) where
  stbs : List (Rbt.Str × Nat)
  hconns : List (Nat × Nat)
  hconn : Nat → Nat
  made : Nat
  sinfo : Rbt.Str → Option Info
  timer : Rbt.Str → Option Nat
  live : Nat → Bool
  requested : Nat → Nat
  resps : List (Nat × Option Info)

variable {Info : Type}

namespace Server

def create : Server Info := ⟨[], [], fun _ => 0, 0, fun _ => none, fun _ => none, fun _ => false, fun _ => 0, []⟩

/-- `rns_hconn_resp2` with the screen info, or with none; nothing comes of a connection that is gone. -/
def resp2 (trs : Server Info) (hconn : Nat) (info : Option Info) : Option (Server Info) :=
  if trs.live hconn then some { trs with resps := trs.resps ++ [(hconn, info)] } else none

/-- The search in `hconns`, and the node that it finds taken out of both trees. -/
def release (trs : Server Info) (hconn : Nat) : Option (Server Info) :=
  match Multimap.searchKey hconn trs.hconns with
  | none => some trs
  | some stbconn =>
    (Multimap.deleteValue stbconn trs.hconns).bind fun hconns =>
      (Multimap.deleteValue stbconn trs.stbs).map fun stbs => { trs with hconns := hconns, stbs := stbs }

def setTimer (trs : Server Info) (stb : Rbt.Str) (timer : Option Nat) : Server Info :=
  { trs with timer := Function.update trs.timer stb timer }

def setSinfo (trs : Server Info) (stb : Rbt.Str) (sinfo : Option Info) : Server Info :=
  { trs with sinfo := Function.update trs.sinfo stb sinfo }

/-- `stb_screen_resp`, the callback of the timer of a box. -/
def stbScreenResp (trs : Server Info) (stb : Rbt.Str) (hconn : Nat) : Option (Server Info) :=
  ((trs.setTimer stb none).release hconn).bind fun trs => trs.resp2 hconn none

/-- `stb_screen`. -/
def stbScreen (trs : Server Info) (hconn : Nat) (stb : Rbt.Str) : Option (Server Info) :=
  match trs.sinfo stb with
  | none =>
    match trs.timer stb with
    | none => some (trs.setTimer stb (some hconn))
    | some _ => some trs
  | some info =>
    (trs.release hconn).bind fun trs =>
      (trs.resp2 hconn (some info)).map fun trs => (trs.setTimer stb none).setSinfo stb none

/-- A new `stb_conn_t` in both trees. -/
def hold (trs : Server Info) (hconn : Nat) (stb : Rbt.Str) : Server Info :=
  { trs with
    stbs := Multimap.insertKey stb trs.made trs.stbs
    hconns := Multimap.insertKey hconn trs.made trs.hconns
    hconn := Function.update trs.hconn trs.made hconn
    made := trs.made + 1 }

/-- `/stb/screen` for a box that is known. -/
def poll (trs : Server Info) (hconn : Nat) (stb : Rbt.Str) : Option (Server Info) :=
  let trs := { trs with requested := Function.update trs.requested hconn (trs.requested hconn + 1) }
  match Multimap.searchKey stb trs.stbs with
  | none => (trs.hold hconn stb).stbScreen hconn stb
  | some _ => trs.stbScreen hconn stb

/-- `/phone/control` of a phone that is bound to the box: `phone_screen`, and `stb_screen` for the poll
that is found. -/
def control (trs : Server Info) (stb : Rbt.Str) (info : Info) : Option (Server Info) :=
  let trs := trs.setSinfo stb (some info)
  match Multimap.searchKey stb trs.stbs with
  | none => some trs
  | some stbconn => trs.stbScreen (trs.hconn stbconn) stb

end Server

inductive Event (Info : Type)
  | connect (hconn : Nat)
  | poll (hconn : Nat) (stb : Rbt.Str)
  | control (stb : Rbt.Str) (info : Info)
  | timeout (stb : Rbt.Str) (hconn : Nat)
  | disconnect (hconn : Nat)

/-- A connection that goes is not told to the trs server: its callback `close` is NULL. -/
def step (trs : Server Info) : Event Info → Option (Server Info)
  | .connect hconn => some { trs with live := Function.update trs.live hconn true }
  | .poll hconn stb => trs.poll hconn stb
  | .control stb info => trs.control stb info
  | .timeout stb hconn => trs.stbScreenResp stb hconn
  | .disconnect hconn => some { trs with live := Function.update trs.live hconn false }

def Event.Can (trs : Server Info) : Event Info → Prop
  | .connect _ => True
  | .poll hconn _ => trs.live hconn = true
  | .control _ _ => True
  | .timeout stb hconn => trs.timer stb = some hconn
  | .disconnect _ => True

/-- No poll comes for a box or on a connection that has one, and no client goes while its poll is held. -/
def Event.Fine (trs : Server Info) : Event Info → Prop
  | .poll hconn stb => (∀ stbconn, (stb, stbconn) ∉ trs.stbs) ∧ ∀ stbconn, (hconn, stbconn) ∉ trs.hconns
  | .disconnect hconn => ∀ stbconn, (hconn, stbconn) ∉ trs.hconns
  | _ => True

inductive Reach : Option (Server Info) → Prop
  | create : Reach (some .create)
  | step {trs : Server Info} {event : Event Info} (before : Reach (some trs)) (can : event.Can trs)
      (fine : event.Fine trs) : Reach (step trs event)

/-- How many responses to polls were sent on a connection. -/
def Server.answered (trs : Server Info) (hconn : Nat) : Nat := trs.resps.countP fun resp => resp.1 = hconn

/-- Both trees hold the same polls, one for a box at most, each on a connection that is there and has
its last poll unanswered; every other poll has been answered once. -/
structure Held (trs : Server Info) : Prop where
  same : ∀ stbconn, stbconn ∈ Multimap.values trs.stbs ↔ stbconn ∈ Multimap.values trs.hconns
  once : (Multimap.values trs.stbs).Nodup ∧ (Multimap.values trs.hconns).Nodup
  single : ∀ stb stbconn other, (stb, stbconn) ∈ trs.stbs → (stb, other) ∈ trs.stbs → stbconn = other
  live : ∀ hconn stbconn, (hconn, stbconn) ∈ trs.hconns →
    hconn = trs.hconn stbconn ∧ trs.live hconn = true ∧ trs.requested hconn = trs.answered hconn + 1
  answered : ∀ hconn, (∀ stbconn, (hconn, stbconn) ∉ trs.hconns) → trs.requested hconn = trs.answered hconn

/-- Between two events: what is held has its timer, and nothing to be told. -/
structure Sound (trs : Server Info) : Prop extends Held trs where
  alone : ∀ hconn stbconn other, (hconn, stbconn) ∈ trs.hconns → (hconn, other) ∈ trs.hconns → stbconn = other
  made : ∀ stbconn ∈ Multimap.values trs.hconns, stbconn < trs.made
  timed : ∀ stb hconn, trs.timer stb = some hconn ↔ ∃ stbconn, (stb, stbconn) ∈ trs.stbs ∧ trs.hconn stbconn = hconn
  quiet : ∀ stb stbconn, (stb, stbconn) ∈ trs.stbs → trs.sinfo stb = none

section
variable {trs : Server Info}

theorem stb_conn (h : Sound trs) {stb : Rbt.Str} {stbconn : Nat} (hm : (stb, stbconn) ∈ trs.stbs) :
    (trs.hconn stbconn, stbconn) ∈ trs.hconns := by
  obtain ⟨⟨hconn, other⟩, hmem, heq⟩ := List.mem_map.mp ((h.same stbconn).mp (List.mem_map_of_mem hm))
  change other = stbconn at heq
  subst heq
  rwa [← (h.live hconn other hmem).1]

theorem stb_unique (h : Sound trs) {stb other : Rbt.Str} {stbconn : Nat} (hm : (stb, stbconn) ∈ trs.stbs)
    (ho : (other, stbconn) ∈ trs.stbs) : stb = other := by
  have hinj := List.inj_on_of_nodup_map h.once.1 hm ho rfl
  exact (Prod.mk.inj hinj).1

/-- A poll that is held is taken out of both trees. -/
theorem release_held (h : Sound trs) {stb : Rbt.Str} {stbconn : Nat} (hm : (stb, stbconn) ∈ trs.stbs) :
    ∃ stbs hconns, Multimap.searchKey (trs.hconn stbconn) trs.hconns = some stbconn ∧
      Multimap.deleteValue stbconn trs.hconns = some hconns ∧ Multimap.deleteValue stbconn trs.stbs = some stbs ∧
      (∀ other, other ∈ Multimap.values stbs ↔ other ∈ Multimap.values hconns) ∧
      (Multimap.values stbs).Nodup ∧ (Multimap.values hconns).Nodup ∧
      (∀ entry, entry ∈ stbs ↔ entry ∈ trs.stbs ∧ entry.2 ≠ stbconn) ∧
      ∀ entry, entry ∈ hconns ↔ entry ∈ trs.hconns ∧ entry.2 ≠ stbconn := by
  have hh := stb_conn h hm
  have hsearch := Multimap.search_unique hh fun other ho => (h.alone _ _ _ ho hh)
  obtain ⟨hconns, hhdel, hhperm, hhmem⟩ := Multimap.delete_perm (List.mem_map_of_mem hh) h.once.2
  obtain ⟨stbs, hsdel, hsperm, hsmem⟩ := Multimap.delete_perm (List.mem_map_of_mem hm) h.once.1
  have hsnodup := List.nodup_cons.mp (hsperm.nodup_iff.mp h.once.1)
  have hhnodup := List.nodup_cons.mp (hhperm.nodup_iff.mp h.once.2)
  refine ⟨stbs, hconns, hsearch, hhdel, hsdel, fun other => ?_, hsnodup.2, hhnodup.2, hsmem, hhmem⟩
  have hiff := h.same other
  rw [hsperm.mem_iff, hhperm.mem_iff, List.mem_cons, List.mem_cons] at hiff
  by_cases heq : other = stbconn
  · subst heq
    exact ⟨fun ho => absurd ho hsnodup.1, fun ho => absurd ho hhnodup.1⟩
  · simpa [heq] using hiff

theorem release_found {hconn stbconn : Nat} {stbs : List (Rbt.Str × Nat)} {hconns : List (Nat × Nat)}
    (hsearch : Multimap.searchKey hconn trs.hconns = some stbconn)
    (hhdel : Multimap.deleteValue stbconn trs.hconns = some hconns)
    (hsdel : Multimap.deleteValue stbconn trs.stbs = some stbs) :
    trs.release hconn = some { trs with hconns := hconns, stbs := stbs } := by
  simp [Server.release, hsearch, hhdel, hsdel]

theorem answered_resp (trs : Server Info) (hconn other : Nat) (info : Option Info) :
    ((trs.resps ++ [(hconn, info)]).countP fun resp => resp.1 = other) =
      trs.answered other + if other = hconn then 1 else 0 := by
  rw [List.countP_append, Server.answered]
  congr 1
  by_cases heq : other = hconn
  · simp [heq]
  · simp [heq, Ne.symm heq]

/-- The poll of a box is answered, and its timer is gone. -/
theorem answer_sound {stb : Rbt.Str} {stbconn : Nat} {stbs : List (Rbt.Str × Nat)} {hconns : List (Nat × Nat)}
    {sinfo : Rbt.Str → Option Info} (h : Sound trs) (hm : (stb, stbconn) ∈ trs.stbs)
    (hsame : ∀ other, other ∈ Multimap.values stbs ↔ other ∈ Multimap.values hconns)
    (hsonce : (Multimap.values stbs).Nodup) (hhonce : (Multimap.values hconns).Nodup)
    (hsmem : ∀ entry, entry ∈ stbs ↔ entry ∈ trs.stbs ∧ entry.2 ≠ stbconn)
    (hhmem : ∀ entry, entry ∈ hconns ↔ entry ∈ trs.hconns ∧ entry.2 ≠ stbconn)
    (hsinfo : ∀ other, other ≠ stb → sinfo other = trs.sinfo other) (info : Option Info) :
    Sound { trs with
      stbs := stbs
      hconns := hconns
      resps := trs.resps ++ [(trs.hconn stbconn, info)]
      timer := Function.update trs.timer stb none
      sinfo := sinfo } := by
  have hh := stb_conn h hm
  have hgone : ∀ other, (stb, other) ∉ stbs := by
    intro other ho
    obtain ⟨hold, hne⟩ := (hsmem _).mp ho
    exact hne (h.single _ _ _ hold hm)
  refine ⟨⟨hsame, ⟨hsonce, hhonce⟩, ?_, ?_, ?_⟩, ?_, ?_, ?_, ?_⟩
  · exact fun b c d hc hd => h.single b c d ((hsmem _).mp hc).1 ((hsmem _).mp hd).1
  · intro hconn other ho
    obtain ⟨hold, hne⟩ := (hhmem _).mp ho
    obtain ⟨hkey, hlive, hreq⟩ := h.live hconn other hold
    have hother : hconn ≠ trs.hconn stbconn := by
      rintro rfl
      exact hne (h.alone _ _ _ hold hh)
    refine ⟨hkey, hlive, ?_⟩
    rw [Server.answered, answered_resp, if_neg hother]
    exact hreq
  · intro hconn hnone
    rw [Server.answered, answered_resp]
    by_cases heq : hconn = trs.hconn stbconn
    · rw [if_pos heq, heq]
      exact (h.live _ _ hh).2.2
    · rw [if_neg heq]
      refine h.answered hconn fun other ho => hnone other ((hhmem _).mpr ⟨ho, ?_⟩)
      rintro rfl
      exact heq (h.live _ _ ho).1
  · exact fun hconn c d hc hd => h.alone hconn c d ((hhmem _).mp hc).1 ((hhmem _).mp hd).1
  · intro other ho
    obtain ⟨⟨hconn, other'⟩, hmem, heq⟩ := List.mem_map.mp ho
    exact heq ▸ h.made _ (List.mem_map_of_mem ((hhmem _).mp hmem).1)
  · intro b hconn
    by_cases heq : b = stb
    · subst heq
      simp [hgone]
    · simp only [Function.update_of_ne heq]
      rw [h.timed b hconn]
      refine exists_congr fun other => and_congr_left fun _ => ?_
      rw [hsmem]
      refine ⟨fun ho => ⟨ho, ?_⟩, fun ho => ho.1⟩
      rintro rfl
      exact heq (stb_unique h ho hm)
  · intro b other ho
    obtain ⟨hold, -⟩ := (hsmem _).mp ho
    have hne : b ≠ stb := by
      rintro rfl
      exact hgone other ho
    exact (hsinfo b hne).trans (h.quiet b other hold)

/-- A new poll is held. -/
theorem hold_sound {stb : Rbt.Str} {hconn : Nat} (h : Sound trs) (hlive : trs.live hconn = true)
    (hstb : ∀ stbconn, (stb, stbconn) ∉ trs.stbs) (hhconn : ∀ stbconn, (hconn, stbconn) ∉ trs.hconns)
    (hsinfo : trs.sinfo stb = none) :
    Sound { trs with
      stbs := Multimap.insertKey stb trs.made trs.stbs
      hconns := Multimap.insertKey hconn trs.made trs.hconns
      hconn := Function.update trs.hconn trs.made hconn
      made := trs.made + 1
      requested := Function.update trs.requested hconn (trs.requested hconn + 1)
      timer := Function.update trs.timer stb (some hconn) } := by
  have hnewh : trs.made ∉ Multimap.values trs.hconns := fun hm => absurd (h.made _ hm) (lt_irrefl _)
  have hnews : trs.made ∉ Multimap.values trs.stbs := fun hm => hnewh ((h.same _).mp hm)
  have hold : ∀ b c, (b, c) ∈ trs.stbs → Function.update trs.hconn trs.made hconn c = trs.hconn c := by
    intro b c hc
    refine Function.update_of_ne ?_ _ _
    rintro rfl
    exact hnews (List.mem_map_of_mem hc)
  refine ⟨⟨?_, ⟨?_, ?_⟩, ?_, ?_, ?_⟩, ?_, ?_, ?_, ?_⟩
  · intro c
    rw [Multimap.mem_insert_values, Multimap.mem_insert_values, h.same]
  · exact Multimap.insert_nodup h.once.1 hnews
  · exact Multimap.insert_nodup h.once.2 hnewh
  · exact Multimap.insert_single hstb h.single
  · intro k c hc
    rcases Multimap.mem_insert.mp hc with hc | hc
    · obtain ⟨rfl, rfl⟩ := Prod.mk.inj hc
      refine ⟨by simp, hlive, ?_⟩
      simp only [Function.update_self]
      rw [h.answered k hhconn]
      rfl
    · obtain ⟨hkey, hl, hreq⟩ := h.live k c hc
      have hne : k ≠ hconn := fun heq => hhconn c (heq ▸ hc)
      have hcm : c ≠ trs.made := by
        rintro rfl
        exact hnewh (List.mem_map_of_mem hc)
      refine ⟨hkey.trans (Function.update_of_ne hcm _ _).symm, hl, ?_⟩
      simp only [Function.update_of_ne hne]
      exact hreq
  · intro k hnone
    have hne : k ≠ hconn := by
      rintro rfl
      exact hnone trs.made (Multimap.mem_insert.mpr (.inl rfl))
    simp only [Function.update_of_ne hne]
    exact h.answered k fun c hc => hnone c (Multimap.mem_insert.mpr (.inr hc))
  · exact Multimap.insert_single hhconn h.alone
  · intro c hc
    rcases Multimap.mem_insert_values.mp hc with rfl | hc
    · exact Nat.lt_succ_self _
    · exact Nat.lt_succ_of_lt (h.made c hc)
  · intro b k
    by_cases heq : b = stb
    · subst heq
      simp only [Function.update_self]
      constructor
      · intro hk
        exact ⟨trs.made, Multimap.mem_insert.mpr (.inl rfl), (Function.update_self _ _ _).trans (Option.some.inj hk)⟩
      · rintro ⟨c, hc, hk⟩
        rcases Multimap.mem_insert.mp hc with hc | hc
        · rw [(Prod.mk.inj hc).2, Function.update_self] at hk
          rw [hk]
        · exact absurd hc (hstb c)
    · simp only [Function.update_of_ne heq]
      rw [h.timed b k]
      refine exists_congr fun c => ?_
      rw [Multimap.mem_insert]
      constructor
      · rintro ⟨hc, hk⟩
        exact ⟨.inr hc, (hold b c hc).trans hk⟩
      · rintro ⟨hc | hc, hk⟩
        · exact absurd (Prod.mk.inj hc).1 heq
        · exact ⟨hc, (hold b c hc).symm.trans hk⟩
  · intro b c hc
    rcases Multimap.mem_insert.mp hc with hc | hc
    · rw [(Prod.mk.inj hc).1]
      exact hsinfo
    · exact h.quiet b c hc

/-- A poll that finds a screen info is answered at once. -/
theorem direct_sound {stb : Rbt.Str} {hconn : Nat} (h : Sound trs)
    (hhconn : ∀ stbconn, (hconn, stbconn) ∉ trs.hconns) (hstb : ∀ stbconn, (stb, stbconn) ∉ trs.stbs)
    (info : Info) :
    Sound { trs with
      hconn := Function.update trs.hconn trs.made hconn
      made := trs.made + 1
      requested := Function.update trs.requested hconn (trs.requested hconn + 1)
      resps := trs.resps ++ [(hconn, some info)]
      timer := Function.update trs.timer stb none
      sinfo := Function.update trs.sinfo stb none } := by
  have hold : ∀ c ∈ Multimap.values trs.hconns, Function.update trs.hconn trs.made hconn c = trs.hconn c :=
    fun c hc => Function.update_of_ne (h.made c hc).ne _ _
  refine ⟨⟨h.same, h.once, h.single, ?_, ?_⟩, h.alone, ?_, ?_, ?_⟩
  · intro k c hc
    obtain ⟨hkey, hl, hreq⟩ := h.live k c hc
    have hne : k ≠ hconn := by
      rintro rfl
      exact hhconn c hc
    refine ⟨hkey.trans (hold c (List.mem_map_of_mem hc)).symm, hl, ?_⟩
    rw [Server.answered, answered_resp, if_neg hne]
    simp only [Function.update_of_ne hne]
    exact hreq
  · intro k hnone
    have hans := h.answered k hnone
    rw [Server.answered, answered_resp]
    by_cases heq : k = hconn
    · subst heq
      simp only [Function.update_self, if_true, hans]
    · simp only [Function.update_of_ne heq, if_neg heq, hans, Nat.add_zero]
  · exact fun c hc => Nat.lt_succ_of_lt (h.made c hc)
  · intro b k
    by_cases heq : b = stb
    · subst heq
      simp [hstb]
    · simp only [Function.update_of_ne heq]
      rw [h.timed b k]
      refine exists_congr fun c => and_congr_right fun hc => ?_
      rw [hold c ((h.same c).mp (List.mem_map_of_mem hc))]
  · intro b c hc
    have hne : b ≠ stb := by
      rintro rfl
      exact hstb c hc
    simp only [Function.update_of_ne hne]
    exact h.quiet b c hc

theorem poll_sound {stb : Rbt.Str} {hconn : Nat} (h : Sound trs) (hlive : trs.live hconn = true)
    (hstb : ∀ stbconn, (stb, stbconn) ∉ trs.stbs) (hhconn : ∀ stbconn, (hconn, stbconn) ∉ trs.hconns) :
    ∃ trs', trs.poll hconn stb = some trs' ∧ Sound trs' := by
  have hsearch : Multimap.searchKey stb trs.stbs = none := by
    cases hs : Multimap.searchKey stb trs.stbs with
    | none => rfl
    | some c => exact absurd (Multimap.search_some hs) (hstb c)
  have htimer : trs.timer stb = none := by
    cases ht : trs.timer stb with
    | none => rfl
    | some k =>
      obtain ⟨c, hc, -⟩ := (h.timed stb k).mp ht
      exact absurd hc (hstb c)
  cases hsinfo : trs.sinfo stb with
  | none =>
    refine ⟨_, ?_, hold_sound h hlive hstb hhconn hsinfo⟩
    simp [Server.poll, hsearch, Server.stbScreen, Server.hold, hsinfo, htimer, Server.setTimer]
  | some info =>
    have hnewh : trs.made ∉ Multimap.values trs.hconns := fun hm => absurd (h.made _ hm) (lt_irrefl _)
    have hnews : trs.made ∉ Multimap.values trs.stbs := fun hm => hnewh ((h.same _).mp hm)
    have hfound : Multimap.searchKey hconn (Multimap.insertKey hconn trs.made trs.hconns) = some trs.made := by
      refine Multimap.search_unique (Multimap.mem_insert.mpr (.inl rfl)) fun other ho => ?_
      rcases Multimap.mem_insert.mp ho with ho | ho
      · exact (Prod.mk.inj ho).2
      · exact absurd ho (hhconn other)
    refine ⟨_, ?_, direct_sound h hhconn hstb info⟩
    simp [Server.poll, hsearch, Server.stbScreen, Server.hold, hsinfo, Server.release, hfound,
      Multimap.delete_insert hnewh, Multimap.delete_insert hnews, Server.resp2, hlive, Server.setTimer,
      Server.setSinfo]

theorem control_sound {stb : Rbt.Str} {info : Info} (h : Sound trs) :
    ∃ trs', trs.control stb info = some trs' ∧ Sound trs' := by
  cases hsearch : Multimap.searchKey stb trs.stbs with
  | none =>
    refine ⟨trs.setSinfo stb (some info), by simp [Server.control, Server.setSinfo, hsearch], ?_⟩
    refine ⟨⟨h.same, h.once, h.single, h.live, h.answered⟩, h.alone, h.made, h.timed, fun b c hc => ?_⟩
    have hne : b ≠ stb := by
      rintro rfl
      exact Multimap.search_none hsearch _ hc rfl
    exact (Function.update_of_ne hne _ _).trans (h.quiet b c hc)
  | some stbconn =>
    have hm := Multimap.search_some hsearch
    obtain ⟨stbs, hconns, hfound, hhdel, hsdel, hsame, hsonce, hhonce, hsmem, hhmem⟩ := release_held h hm
    have hlive := (h.live _ _ (stb_conn h hm)).2.1
    have hrelease : (trs.setSinfo stb (some info)).release (trs.hconn stbconn) =
        some { trs.setSinfo stb (some info) with hconns := hconns, stbs := stbs } :=
      release_found hfound hhdel hsdel
    have hsinfo : ∀ other, other ≠ stb →
        Function.update (Function.update trs.sinfo stb (some info)) stb none other = trs.sinfo other := by
      intro other ho
      rw [Function.update_of_ne ho, Function.update_of_ne ho]
    refine ⟨_, ?_, answer_sound h hm hsame hsonce hhonce hsmem hhmem hsinfo (some info)⟩
    have hscreen : (trs.setSinfo stb (some info)).sinfo stb = some info := Function.update_self _ _ _
    have hstep : trs.control stb info = (trs.setSinfo stb (some info)).stbScreen (trs.hconn stbconn) stb := by
      simp [Server.control, Server.setSinfo, hsearch]
    rw [hstep, Server.stbScreen, hscreen]
    change (Server.release _ (trs.hconn stbconn)).bind _ = _
    rw [hrelease, Option.bind_some]
    simp [Server.resp2, hlive, Server.setSinfo, Server.setTimer]

theorem timeout_sound {stb : Rbt.Str} {hconn : Nat} (h : Sound trs) (hcan : trs.timer stb = some hconn) :
    ∃ trs', trs.stbScreenResp stb hconn = some trs' ∧ Sound trs' := by
  obtain ⟨stbconn, hm, rfl⟩ := (h.timed stb hconn).mp hcan
  obtain ⟨stbs, hconns, hfound, hhdel, hsdel, hsame, hsonce, hhonce, hsmem, hhmem⟩ := release_held h hm
  have hlive := (h.live _ _ (stb_conn h hm)).2.1
  have hrelease : (trs.setTimer stb none).release (trs.hconn stbconn) =
      some { trs.setTimer stb none with hconns := hconns, stbs := stbs } :=
    release_found hfound hhdel hsdel
  refine ⟨_, ?_, answer_sound h hm hsame hsonce hhonce hsmem hhmem (fun _ _ => rfl) none⟩
  rw [Server.stbScreenResp, hrelease, Option.bind_some]
  simp [Server.resp2, hlive, Server.setTimer]

theorem step_sound {event : Event Info} (h : Sound trs) (hcan : event.Can trs) (hfine : event.Fine trs) :
    ∃ trs', step trs event = some trs' ∧ Sound trs' := by
  cases event with
  | connect hconn =>
    refine ⟨_, rfl, ⟨h.same, h.once, h.single, fun k c hc => ?_, h.answered⟩, h.alone, h.made, h.timed, h.quiet⟩
    obtain ⟨hkey, hlive, hreq⟩ := h.live k c hc
    refine ⟨hkey, ?_, hreq⟩
    by_cases heq : k = hconn
    · simp [heq]
    · simpa [heq] using hlive
  | poll hconn stb => exact poll_sound h hcan hfine.1 hfine.2
  | control stb info => exact control_sound h
  | timeout stb hconn => exact timeout_sound h hcan
  | disconnect hconn =>
    refine ⟨_, rfl, ⟨h.same, h.once, h.single, fun k c hc => ?_, h.answered⟩, h.alone, h.made, h.timed, h.quiet⟩
    obtain ⟨hkey, hlive, hreq⟩ := h.live k c hc
    have hne : k ≠ hconn := by
      rintro rfl
      exact hfine c hc
    exact ⟨hkey, (Function.update_of_ne hne _ _).trans hlive, hreq⟩

theorem create_sound : Sound (Server.create : Server Info) := by
  refine ⟨⟨?_, ⟨List.nodup_nil, List.nodup_nil⟩, ?_, ?_, ?_⟩, ?_, ?_, ?_, ?_⟩ <;>
    simp [Server.create, Multimap.values, Server.answered]

end

/-- In every run in which no poll comes for a box or on a connection that has one, and no client goes
while its poll is held, both trees hold the same polls and each poll is answered once. -/
theorem polls_answered {state : Option (Server Info)} (h : Reach state) :
    ∃ trs, state = some trs ∧ Held trs := by
  suffices hsound : ∃ trs, state = some trs ∧ Sound trs by
    obtain ⟨trs, heq, hsound⟩ := hsound
    exact ⟨trs, heq, hsound.toHeld⟩
  induction h with
  | create => exact ⟨_, rfl, create_sound⟩
  | step before can fine ih =>
    obtain ⟨trs, heq, hsound⟩ := ih
    cases heq
    exact step_sound hsound can fine

/-- A poll that is held, and a phone that controls the box. -/
theorem polls_answered_control : ∃ trs : Server Unit,
    ((((step .create (.connect 1)).bind fun trs => step trs (.poll 1 ⟨[97]⟩)).bind fun trs =>
      step trs (.control ⟨[97]⟩ ()))) = some trs ∧ Held trs := by
  have hconnect : Event.Can (.create : Server Unit) (.connect 1) := trivial
  have hpoll : Event.Fine { (.create : Server Unit) with live := Function.update (fun _ => false) 1 true }
      (.poll 1 ⟨[97]⟩) := And.intro (fun _ => List.not_mem_nil) fun _ => List.not_mem_nil
  have hlive : Event.Can { (.create : Server Unit) with live := Function.update (fun _ => false) 1 true }
      (.poll 1 ⟨[97]⟩) := (rfl : Function.update (fun _ : Nat => false) 1 true 1 = true)
  have hcontrol : ∀ trs : Server Unit, Event.Can trs (.control ⟨[97]⟩ ()) := fun _ => trivial
  have hfine : ∀ trs : Server Unit, Event.Fine trs (.control ⟨[97]⟩ ()) := fun _ => trivial
  exact polls_answered (.step (.step (.step .create hconnect trivial) hlive hpoll) (hcontrol _) (hfine _))

/-- A second poll of the same box is neither held nor answered; and where the client of a poll has
gone, the poll stays in both trees and its timer ends in a connection that is not there. -/
theorem poll_forgotten :
    (∃ trs : Server Unit, [.connect 1, .connect 2, .poll 1 ⟨[97]⟩, .poll 2 ⟨[97]⟩].foldlM step .create = some trs ∧
      trs.requested 2 = 1 ∧ trs.resps = [] ∧ trs.hconns = [(1, 0)]) ∧
    ∃ trs : Server Unit, [.connect 1, .poll 1 ⟨[97]⟩, .disconnect 1].foldlM step .create = some trs ∧
      trs.live 1 = false ∧ trs.hconns = [(1, 0)] ∧ step trs (.timeout ⟨[97]⟩ 1) = none :=
  ⟨⟨_, rfl, rfl, rfl, rfl⟩, _, rfl, rfl, rfl, rfl⟩

end Yclib.Trs.Polls
