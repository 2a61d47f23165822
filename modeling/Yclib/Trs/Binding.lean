import Yclib.Util.ListHead
import Yclib.Util.Multimap
import Yclib.Util.RbtStore

namespace Yclib.Trs.Binding
open ListHead

/-! Which phones are bound to which set-top box: the pointer of a phone, and the lists of the boxes. -/

/-- The list heads: `list` of a phone and `phones` of a box. -/
inductive Node
  | phone (phone : Nat)
  | phones (stb : Nat)
deriving DecidableEq

/-- The phones and boxes by the order in which they were made, with `stb` and `stbid` of each phone. -/
structure Server where
  links : Links Node
  phoneroot : List (Rbt.Str × Nat)
  stbroot : List (Rbt.Str × Nat)
  stb : Nat → Option Nat
  stbid : Nat → Option Rbt.Str
  name : Nat → Rbt.Str
  phones : Nat
  stbs : Nat

namespace Server

def create : Server := ⟨.free, [], [], fun _ => none, fun _ => none, fun _ => ⟨[]⟩, 0, 0⟩

/-- `phone_create`, whose memory is cleared, and `rbt_insert` into `phoneroot`. -/
def phoneCreate (trs : Server) (phoneid : Rbt.Str) (stbid : Option Rbt.Str) : Server :=
  { trs with
    links := ⟨Function.update trs.links.next (.phone trs.phones) none,
      Function.update trs.links.prev (.phone trs.phones) none⟩
    phoneroot := Multimap.insertKey phoneid trs.phones trs.phoneroot
    stb := Function.update trs.stb trs.phones none
    stbid := Function.update trs.stbid trs.phones stbid
    phones := trs.phones + 1 }

/-- `stb_create`, and `rbt_insert` into `stbroot`. -/
def stbCreate (trs : Server) (stbid : Rbt.Str) : Server :=
  { trs with
    links := initListHead trs.links (.phones trs.stbs)
    stbroot := Multimap.insertKey stbid trs.stbs trs.stbroot
    name := Function.update trs.name trs.stbs stbid
    stbs := trs.stbs + 1 }

/-- `rns_list_add` of a phone, and its pointer to the box. -/
def link (trs : Server) (phone stb : Nat) : Option Server :=
  (rnsListAdd trs.links (.phone phone) (.phones stb)).map fun links =>
    { trs with links := links, stb := Function.update trs.stb phone (some stb) }

/-- `rns_list_del_safe` of a phone, and its pointer to no box. -/
def unlink (trs : Server) (phone : Nat) : Option Server :=
  (rnsListDelSafe trs.links (.phone phone)).map fun links =>
    { trs with links := links, stb := Function.update trs.stb phone none }

def setStbid (trs : Server) (phone : Nat) (stbid : Option Rbt.Str) : Server :=
  { trs with stbid := Function.update trs.stbid phone stbid }

/-- `phone_fetch` of a row, with the box that is found under its `stbid`. -/
def phoneFetch (trs : Server) (phoneid : Rbt.Str) (stbid : Option Rbt.Str) (found : Option Nat) : Option Server :=
  match stbid, found with
  | some _, some stb => (trs.phoneCreate phoneid stbid).link trs.phones stb
  | _, _ => some (trs.phoneCreate phoneid stbid)

/-- `stb_fetch` of a row. -/
def stbFetch (trs : Server) (stbid : Rbt.Str) : Server := trs.stbCreate stbid

/-- `/phone/bindStb` of either dispatcher, which makes the phone and the box that it does not find. -/
def bindStb (trs : Server) (phoneid stbid : Rbt.Str) (phone stb : Option Nat) : Server :=
  let trs := match phone with
    | none => trs.phoneCreate phoneid none
    | some _ => trs
  match stb with
  | none => trs.stbCreate stbid
  | some _ => trs

/-- `foss_bind_resp`. -/
def fossBindResp (trs : Server) (phone stb code : Nat) : Option Server :=
  if code ≠ 200 then some trs
  else
    let unlinked := match trs.stb phone with
      | none => some trs
      | some _ => trs.unlink phone
    unlinked.bind fun trs => (trs.link phone stb).map fun trs => trs.setStbid phone (some (trs.name stb))

/-- `foss_unbind_resp`. -/
def fossUnbindResp (trs : Server) (phone code : Nat) : Option Server :=
  if code ≠ 200 then some trs
  else match trs.stb phone with
    | none => some trs
    | some _ => (trs.unlink phone).map fun trs => trs.setStbid phone none

end Server

inductive Event
  | phoneFetch (phoneid : Rbt.Str) (stbid : Option Rbt.Str) (found : Option Nat)
  | stbFetch (stbid : Rbt.Str)
  | bindStb (phoneid stbid : Rbt.Str) (phone stb : Option Nat)
  | bound (phone stb code : Nat)
  | unbound (phone code : Nat)

/-- What comes of an event: nothing where it goes through a null pointer. -/
def step (trs : Server) : Event → Option Server
  | .phoneFetch phoneid stbid found => trs.phoneFetch phoneid stbid found
  | .stbFetch stbid => some (trs.stbFetch stbid)
  | .bindStb phoneid stbid phone stb => some (trs.bindStb phoneid stbid phone stb)
  | .bound phone stb code => trs.fossBindResp phone stb code
  | .unbound phone code => trs.fossUnbindResp phone code

/-- A search finds what is there, and a response comes for a phone and a box that were made. -/
def Event.Can (trs : Server) : Event → Prop
  | .phoneFetch _ stbid found => ∀ id, stbid = some id → Multimap.Finds id trs.stbroot found
  | .stbFetch _ => True
  | .bindStb phoneid stbid phone stb =>
    Multimap.Finds phoneid trs.phoneroot phone ∧ Multimap.Finds stbid trs.stbroot stb
  | .bound phone stb _ => phone < trs.phones ∧ stb < trs.stbs
  | .unbound phone _ => phone < trs.phones

inductive Reach : Option Server → Prop
  | create : Reach (some .create)
  | step {trs : Server} {event : Event} (before : Reach (some trs)) (can : event.Can trs) :
      Reach (step trs event)

/-- The lists of the boxes are well formed and hold phones, each in the list of the box that its
pointer names and in no other, and in none where that is NULL. -/
structure Bound (trs : Server) (lists : Nat → List Nat) : Prop where
  ring : ∀ stb < trs.stbs, Ring trs.links (.phones stb) ((lists stb).map .phone)
  made : ∀ stb < trs.stbs, ∀ phone ∈ lists stb, phone < trs.phones
  named : ∀ phone < trs.phones, ∀ stb < trs.stbs, phone ∈ lists stb ↔ trs.stb phone = some stb
  there : ∀ phone < trs.phones, ∀ stb, trs.stb phone = some stb → stb < trs.stbs
  unlinked : ∀ phone < trs.phones, trs.stb phone = none → Unlinked trs.links (.phone phone)

section
variable {trs : Server} {lists : Nat → List Nat}

theorem phone_mem {phone stb : Nat} {phones : List Nat} :
    Node.phone phone ∈ Node.phones stb :: phones.map Node.phone ↔ phone ∈ phones := by
  simp

theorem phones_mem {stb stb' : Nat} {phones : List Nat} :
    Node.phones stb ∈ Node.phones stb' :: phones.map Node.phone ↔ stb = stb' := by
  simp

theorem phone_create_bound (h : Bound trs lists) (phoneid : Rbt.Str) (stbid : Option Rbt.Str) :
    Bound (trs.phoneCreate phoneid stbid) lists := by
  have hnew : ∀ stb < trs.stbs, trs.phones ∉ lists stb :=
    fun stb hs hm => absurd (h.made stb hs _ hm) (lt_irrefl _)
  have hother : ∀ stb < trs.stbs, ∀ y ∈ Node.phones stb :: (lists stb).map Node.phone, y ≠ .phone trs.phones := by
    rintro stb hs y hy rfl
    exact hnew stb hs (phone_mem.mp hy)
  have hstb : ∀ phone < trs.phones, Function.update trs.stb trs.phones none phone = trs.stb phone :=
    fun phone hp => Function.update_of_ne hp.ne _ _
  constructor
  · intro stb hs
    refine ring_frame (h.ring stb hs) ?_ ?_ <;> intro y hy <;>
      exact Function.update_of_ne (hother stb hs y hy) _ _
  · exact fun stb hs phone hm => Nat.lt_succ_of_lt (h.made stb hs phone hm)
  · intro phone hp stb hs
    rcases Nat.lt_succ_iff_lt_or_eq.mp hp with hp | rfl
    · simp only [Server.phoneCreate, hstb phone hp]
      exact h.named phone hp stb hs
    · simp [Server.phoneCreate, hnew stb hs]
  · intro phone hp stb hs
    rcases Nat.lt_succ_iff_lt_or_eq.mp hp with hp | rfl
    · exact h.there phone hp stb (by simpa [Server.phoneCreate, hp.ne] using hs)
    · simp [Server.phoneCreate] at hs
  · intro phone hp hs
    rcases Nat.lt_succ_iff_lt_or_eq.mp hp with hp | rfl
    · have hne : Node.phone phone ≠ .phone trs.phones := by simpa using hp.ne
      have hold := h.unlinked phone hp (by simpa [Server.phoneCreate, hp.ne] using hs)
      exact ⟨(Function.update_of_ne hne _ _).trans hold.1, (Function.update_of_ne hne _ _).trans hold.2⟩
    · exact ⟨Function.update_self _ _ _, Function.update_self _ _ _⟩

theorem stb_create_bound (h : Bound trs lists) (stbid : Rbt.Str) :
    Bound (trs.stbCreate stbid) (Function.update lists trs.stbs []) := by
  have hlists : ∀ stb < trs.stbs, Function.update lists trs.stbs [] stb = lists stb :=
    fun stb hs => Function.update_of_ne hs.ne _ _
  constructor
  · intro stb hs
    rcases Nat.lt_succ_iff_lt_or_eq.mp hs with hs | rfl
    · rw [hlists stb hs]
      have hne : ∀ y ∈ Node.phones stb :: (lists stb).map Node.phone, y ≠ .phones trs.stbs := by
        rintro y hy rfl
        exact hs.ne (phones_mem.mp hy).symm
      refine ring_frame (h.ring stb hs) ?_ ?_ <;> intro y hy <;> exact Function.update_of_ne (hne y hy) _ _
    · rw [Function.update_self]
      exact init_ring _ _
  · intro stb hs phone hm
    rcases Nat.lt_succ_iff_lt_or_eq.mp hs with hs | rfl
    · rw [hlists stb hs] at hm
      exact h.made stb hs phone hm
    · simp at hm
  · intro phone hp stb hs
    rcases Nat.lt_succ_iff_lt_or_eq.mp hs with hs | rfl
    · rw [hlists stb hs]
      exact h.named phone hp stb hs
    · rw [Function.update_self]
      refine ⟨fun hm => absurd hm List.not_mem_nil, fun heq => ?_⟩
      exact absurd (h.there phone hp _ heq) (lt_irrefl _)
  · exact fun phone hp stb hs => Nat.lt_succ_of_lt (h.there phone hp stb hs)
  · intro phone hp hs
    have hold := h.unlinked phone hp hs
    simpa [Unlinked, Server.stbCreate, initListHead] using hold

/-- No phone is in two lists. -/
theorem list_unique {phone stb stb' : Nat} (h : Bound trs lists) (hs : stb < trs.stbs) (hs' : stb' < trs.stbs)
    (hm : phone ∈ lists stb) (hm' : phone ∈ lists stb') : stb = stb' := by
  have hp := h.made stb hs phone hm
  exact Option.some.inj (((h.named phone hp stb hs).mp hm).symm.trans ((h.named phone hp stb' hs').mp hm'))

/-- One phone gets another box, or none, and only the list of a box is changed for it. -/
theorem relist_bound {phone stb : Nat} {links : Links Node} {list : List Nat} {bound : Option Nat}
    (h : Bound trs lists) (hp : phone < trs.phones) (hs : stb < trs.stbs)
    (hring : Ring links (.phones stb) (list.map .phone))
    (hframe : ∀ y, y ∉ Node.phones stb :: (lists stb).map Node.phone → y ≠ .phone phone →
      links.next y = trs.links.next y ∧ links.prev y = trs.links.prev y)
    (hout : ∀ stb' < trs.stbs, stb' ≠ stb → phone ∉ lists stb')
    (hself : phone ∈ list ↔ bound = some stb)
    (hlist : ∀ other, other ≠ phone → (other ∈ list ↔ other ∈ lists stb))
    (hbound : ∀ stb', bound = some stb' → stb' = stb)
    (hfree : bound = none → Unlinked links (.phone phone)) :
    Bound { trs with links := links, stb := Function.update trs.stb phone bound }
      (Function.update lists stb list) := by
  constructor
  · intro stb' hs'
    by_cases heq : stb' = stb
    · subst heq
      rw [Function.update_self]
      exact hring
    · rw [Function.update_of_ne heq]
      have hy : ∀ y ∈ Node.phones stb' :: (lists stb').map Node.phone,
          y ∉ Node.phones stb :: (lists stb).map Node.phone ∧ y ≠ .phone phone := by
        intro y hy
        rcases List.mem_cons.mp hy with rfl | hm
        · exact ⟨fun hm => heq (phones_mem.mp hm), by simp⟩
        · obtain ⟨other, ho, rfl⟩ := List.mem_map.mp hm
          exact ⟨fun hm' => heq (list_unique h hs' hs ho (phone_mem.mp hm')),
            fun he => hout stb' hs' heq (Node.phone.inj he ▸ ho)⟩
      refine ring_frame (h.ring stb' hs') ?_ ?_ <;> intro y hmem
      · exact (hframe y (hy y hmem).1 (hy y hmem).2).1
      · exact (hframe y (hy y hmem).1 (hy y hmem).2).2
  · intro stb' hs' other hm
    by_cases heq : stb' = stb
    · subst heq
      rw [Function.update_self] at hm
      by_cases hother : other = phone
      · exact hother ▸ hp
      · exact h.made stb' hs other ((hlist other hother).mp hm)
    · rw [Function.update_of_ne heq] at hm
      exact h.made stb' hs' other hm
  · intro other ho stb' hs'
    have hnamed := h.named other ho stb' hs'
    by_cases hother : other = phone
    · subst hother
      simp only [Function.update_self]
      by_cases heq : stb' = stb
      · subst heq
        rw [Function.update_self]
        exact hself
      · rw [Function.update_of_ne heq]
        exact iff_of_false (hout stb' hs' heq) fun he => heq (hbound stb' he)
    · simp only [Function.update_of_ne hother]
      by_cases heq : stb' = stb
      · subst heq
        rw [Function.update_self]
        exact (hlist other hother).trans hnamed
      · rw [Function.update_of_ne heq]
        exact hnamed
  · intro other ho stb' hs'
    by_cases hother : other = phone
    · subst hother
      simp only [Function.update_self] at hs'
      exact hbound stb' hs' ▸ hs
    · simp only [Function.update_of_ne hother] at hs'
      exact h.there other ho stb' hs'
  · intro other ho hnone
    by_cases hother : other = phone
    · subst hother
      simp only [Function.update_self] at hnone
      exact hfree hnone
    · simp only [Function.update_of_ne hother] at hnone
      have hold := h.unlinked other ho hnone
      have hmem : Node.phone other ∉ Node.phones stb :: (lists stb).map Node.phone := by
        intro hm
        have hin := (h.named other ho stb hs).mp (phone_mem.mp hm)
        rw [hnone] at hin
        cases hin
      obtain ⟨hnext, hprev⟩ := hframe (.phone other) hmem (by simpa using hother)
      exact ⟨hprev.trans hold.1, hnext.trans hold.2⟩

/-- A phone that is bound to no box comes to the front of a list. -/
theorem link_bound {phone stb : Nat} (h : Bound trs lists) (hp : phone < trs.phones) (hs : stb < trs.stbs)
    (hfree : trs.stb phone = none) :
    ∃ trs', trs.link phone stb = some trs' ∧ trs'.phones = trs.phones ∧ trs'.stbs = trs.stbs ∧
      Bound trs' (Function.update lists stb (phone :: lists stb)) := by
  have hout : ∀ stb' < trs.stbs, phone ∉ lists stb' := by
    intro stb' hs' hm
    rw [h.named phone hp stb' hs', hfree] at hm
    cases hm
  have hnew : Node.phone phone ∉ Node.phones stb :: (lists stb).map Node.phone :=
    fun hm => hout stb hs (phone_mem.mp hm)
  obtain ⟨links, hadd, hring, hframe⟩ := add_ring (h.ring stb hs) hnew
  have hlink : trs.link phone stb =
      some { trs with links := links, stb := Function.update trs.stb phone (some stb) } := by
    rw [Server.link, hadd, Option.map_some]
  refine ⟨_, hlink, rfl, rfl, ?_⟩
  refine relist_bound h hp hs hring hframe (fun stb' hs' _ => hout stb' hs') ?_ ?_ ?_ ?_
  · exact iff_of_true List.mem_cons_self rfl
  · exact fun other hother => by rw [List.mem_cons, or_iff_right hother]
  · exact fun stb' he => (Option.some.inj he).symm
  · exact fun he => by cases he

/-- A phone is taken out of the list of its box. -/
theorem unlink_bound {phone stb : Nat} (h : Bound trs lists) (hp : phone < trs.phones)
    (hstb : trs.stb phone = some stb) :
    ∃ trs', trs.unlink phone = some trs' ∧ trs'.phones = trs.phones ∧ trs'.stbs = trs.stbs ∧
      trs'.stb phone = none ∧ Bound trs' (Function.update lists stb ((lists stb).erase phone)) := by
  have hs := h.there phone hp stb hstb
  have hmem := (h.named phone hp stb hs).mpr hstb
  obtain ⟨xs, ys, hlist⟩ := List.append_of_mem hmem
  have hring := h.ring stb hs
  rw [hlist, List.map_append, List.map_cons] at hring
  have hnodup : (lists stb).Nodup := by
    have hd := (h.ring stb hs).nodup
    exact List.Nodup.of_map _ (List.nodup_cons.mp hd).2
  have herase : (lists stb).erase phone = xs ++ ys := by
    rw [hlist] at hnodup ⊢
    have hx : phone ∉ xs := fun hx => (List.nodup_append.mp hnodup).2.2 phone hx phone (by simp) rfl
    rw [List.erase_append_right _ hx, List.erase_cons_head]
  obtain ⟨links, hdel, hring', hfree, hframe⟩ := del_ring hring
  have hlinked : ¬ Unlinked trs.links (.phone phone) := by
    intro hu
    obtain ⟨p, -, hprev⟩ := chain_last (chain_append.mp hring.chain).1
    rw [hu.1] at hprev
    cases hprev
  have hunlink : trs.unlink phone =
      some { trs with links := links, stb := Function.update trs.stb phone none } := by
    rw [Server.unlink, rnsListDelSafe, if_neg hlinked, hdel, Option.map_some]
  rw [← List.map_cons, ← List.map_append, ← hlist] at hframe
  rw [← List.map_append, ← herase] at hring'
  refine ⟨_, hunlink, rfl, rfl, Function.update_self _ _ _, ?_⟩
  refine relist_bound h hp hs hring' (fun y hy _ => hframe y hy) ?_ ?_ ?_ ?_ fun _ => hfree
  · exact fun stb' hs' hne hm => hne (list_unique h hs' hs hm hmem)
  · exact iff_of_false (fun hm => (hnodup.mem_erase_iff.mp hm).1 rfl) (by simp)
  · exact fun other hother => by rw [hnodup.mem_erase_iff, and_iff_right hother]
  · exact fun stb' he => by cases he

theorem stbid_bound (h : Bound trs lists) (phone : Nat) (stbid : Option Rbt.Str) :
    Bound (trs.setStbid phone stbid) lists :=
  ⟨h.ring, h.made, h.named, h.there, h.unlinked⟩

theorem bind_resp_bound {phone stb code : Nat} (h : Bound trs lists) (hp : phone < trs.phones)
    (hs : stb < trs.stbs) : ∃ trs' lists', trs.fossBindResp phone stb code = some trs' ∧ Bound trs' lists' := by
  unfold Server.fossBindResp
  split
  · exact ⟨trs, lists, rfl, h⟩
  · cases hstb : trs.stb phone with
    | none =>
      obtain ⟨trs', hlink, -, -, h'⟩ := link_bound h hp hs hstb
      exact ⟨_, _, by rw [Option.bind_some, hlink, Option.map_some], stbid_bound h' _ _⟩
    | some old =>
      obtain ⟨trs₁, hunlink, hphones, hstbs, hfree, h₁⟩ := unlink_bound h hp hstb
      obtain ⟨trs', hlink, -, -, h'⟩ := link_bound h₁ (hphones ▸ hp) (hstbs ▸ hs) hfree
      exact ⟨_, _, by rw [hunlink, Option.bind_some, hlink, Option.map_some], stbid_bound h' _ _⟩

theorem unbind_resp_bound {phone code : Nat} (h : Bound trs lists) (hp : phone < trs.phones) :
    ∃ trs' lists', trs.fossUnbindResp phone code = some trs' ∧ Bound trs' lists' := by
  unfold Server.fossUnbindResp
  split
  · exact ⟨trs, lists, rfl, h⟩
  · cases hstb : trs.stb phone with
    | none => exact ⟨trs, lists, rfl, h⟩
    | some old =>
      obtain ⟨trs', hunlink, -, -, -, h'⟩ := unlink_bound h hp hstb
      exact ⟨_, _, by rw [hunlink, Option.map_some], stbid_bound h' _ _⟩

theorem phone_fetch_bound {phoneid : Rbt.Str} {stbid : Option Rbt.Str} {found : Option Nat} (h : Bound trs lists)
    (hroot : ∀ entry ∈ trs.stbroot, entry.2 < trs.stbs)
    (hcan : ∀ id, stbid = some id → Multimap.Finds id trs.stbroot found) :
    ∃ trs' lists', trs.phoneFetch phoneid stbid found = some trs' ∧ Bound trs' lists' := by
  have hnew := phone_create_bound h phoneid stbid
  cases stbid with
  | none => exact ⟨_, lists, rfl, hnew⟩
  | some id =>
    cases found with
    | none => exact ⟨_, lists, rfl, hnew⟩
    | some stb =>
      have hs : stb < trs.stbs := hroot _ (hcan id rfl)
      obtain ⟨trs', hlink, -, -, h'⟩ := link_bound hnew (Nat.lt_succ_self _) hs (Function.update_self _ _ _)
      exact ⟨trs', _, hlink, h'⟩

/-- The boxes that a search can find were made, and no phone or box is made undone. -/
def Rooted (trs : Server) : Prop := ∀ entry ∈ trs.stbroot, entry.2 < trs.stbs

theorem stb_create_rooted (h : Rooted trs) (stbid : Rbt.Str) : Rooted (trs.stbCreate stbid) := by
  intro entry hm
  rcases Multimap.mem_insert.mp hm with rfl | hm
  · exact Nat.lt_succ_self _
  · exact Nat.lt_succ_of_lt (h entry hm)

theorem link_rooted {trs' : Server} {phone stb : Nat} (h : Rooted trs) (hlink : trs.link phone stb = some trs') :
    Rooted trs' := by
  obtain ⟨links, -, rfl⟩ := Option.map_eq_some_iff.mp hlink
  exact h

theorem unlink_rooted {trs' : Server} {phone : Nat} (h : Rooted trs) (hunlink : trs.unlink phone = some trs') :
    Rooted trs' := by
  obtain ⟨links, -, rfl⟩ := Option.map_eq_some_iff.mp hunlink
  exact h

theorem step_rooted {trs' : Server} {event : Event} (h : Rooted trs) (hstep : step trs event = some trs') :
    Rooted trs' := by
  cases event with
  | phoneFetch phoneid stbid found =>
    change trs.phoneFetch phoneid stbid found = some trs' at hstep
    unfold Server.phoneFetch at hstep
    split at hstep
    · refine link_rooted ?_ hstep
      exact h
    · cases hstep
      exact h
  | stbFetch stbid =>
    cases hstep
    exact stb_create_rooted h stbid
  | bindStb phoneid stbid phone stb =>
    cases hstep
    cases phone <;> cases stb
    · exact stb_create_rooted h stbid
    · exact h
    · exact stb_create_rooted h stbid
    · exact h
  | bound phone stb code =>
    change trs.fossBindResp phone stb code = some trs' at hstep
    unfold Server.fossBindResp at hstep
    split at hstep
    · cases hstep
      exact h
    · obtain ⟨trs₁, hunlinked, hstep⟩ := Option.bind_eq_some_iff.mp hstep
      obtain ⟨trs₂, hlink, rfl⟩ := Option.map_eq_some_iff.mp hstep
      have h₁ : Rooted trs₁ := by
        split at hunlinked
        · cases hunlinked
          exact h
        · exact unlink_rooted h hunlinked
      have h₂ : Rooted trs₂ := link_rooted h₁ hlink
      exact h₂
  | unbound phone code =>
    change trs.fossUnbindResp phone code = some trs' at hstep
    unfold Server.fossUnbindResp at hstep
    split at hstep
    · cases hstep
      exact h
    · split at hstep
      · cases hstep
        exact h
      · obtain ⟨trs₁, hunlink, rfl⟩ := Option.map_eq_some_iff.mp hstep
        have h₁ : Rooted trs₁ := unlink_rooted h hunlink
        exact h₁

theorem bind_stb_bound {phoneid stbid : Rbt.Str} {phone stb : Option Nat} (h : Bound trs lists) :
    ∃ lists', Bound (trs.bindStb phoneid stbid phone stb) lists' := by
  cases phone <;> cases stb
  · exact ⟨_, stb_create_bound (phone_create_bound h phoneid none) stbid⟩
  · exact ⟨_, phone_create_bound h phoneid none⟩
  · exact ⟨_, stb_create_bound h stbid⟩
  · exact ⟨_, h⟩

theorem step_bound {event : Event} (h : Bound trs lists) (hroot : Rooted trs) (hcan : event.Can trs) :
    ∃ trs' lists', step trs event = some trs' ∧ Bound trs' lists' := by
  cases event with
  | phoneFetch phoneid stbid found => exact phone_fetch_bound h hroot hcan
  | stbFetch stbid => exact ⟨_, _, rfl, stb_create_bound h stbid⟩
  | bindStb phoneid stbid phone stb =>
    obtain ⟨lists', h'⟩ := bind_stb_bound h
    exact ⟨_, lists', rfl, h'⟩
  | bound phone stb code => exact bind_resp_bound h hcan.1 hcan.2
  | unbound phone code => exact unbind_resp_bound h hcan

end

/-- After any loads, requests and responses, in any order, the lists of the boxes and the pointers
of the phones say the same. -/
theorem phones_bound {state : Option Server} (h : Reach state) :
    ∃ trs lists, state = some trs ∧ Bound trs lists := by
  suffices hroot : ∃ trs lists, state = some trs ∧ Bound trs lists ∧ Rooted trs by
    obtain ⟨trs, lists, heq, hbound, -⟩ := hroot
    exact ⟨trs, lists, heq, hbound⟩
  induction h with
  | create =>
    refine ⟨_, fun _ => [], rfl, ⟨?_, ?_, ?_, ?_, ?_⟩, by simp [Rooted, Server.create]⟩ <;> simp [Server.create]
  | step before can ih =>
    obtain ⟨trs, lists, heq, hbound, hroot⟩ := ih
    cases heq
    obtain ⟨trs', lists', hstep, hbound'⟩ := step_bound hbound hroot can
    exact ⟨trs', lists', hstep, hbound', step_rooted hroot hstep⟩

/-- A box that is loaded, a phone that asks for it, and the response. -/
theorem phones_bound_load : ∃ trs lists,
    (((step .create (.stbFetch ⟨[97]⟩)).bind fun trs => step trs (.bindStb ⟨[98]⟩ ⟨[97]⟩ none (some 0))).bind
      fun trs => step trs (.bound 0 0 200)) = some trs ∧ Bound trs lists := by
  have hfetch : Event.Can .create (.stbFetch ⟨[97]⟩) := trivial
  have hbind : Event.Can (Server.create.stbFetch ⟨[97]⟩) (.bindStb ⟨[98]⟩ ⟨[97]⟩ none (some 0)) :=
    And.intro (fun _ => List.not_mem_nil) List.mem_cons_self
  have hbound : Event.Can ((Server.create.stbFetch ⟨[97]⟩).bindStb ⟨[98]⟩ ⟨[97]⟩ none (some 0)) (.bound 0 0 200) :=
    And.intro (Nat.succ_pos 0) (Nat.succ_pos 0)
  exact phones_bound (.step (.step (.step .create hfetch) hbind) hbound)

end Yclib.Trs.Binding
