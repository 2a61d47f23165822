import Mathlib.Data.List.Nodup
import Mathlib.Data.List.Perm.Basic
import Mathlib.Logic.Function.Basic

namespace Yclib.ListHead

/-! Circular lists through two pointers in each node, as `list_head.h` links them, over any
type of addresses. An operation on a null pointer has no result. -/

variable {α : Type}

/-- `list_head_t` at every address; `none` stands for NULL. -/
structure Links (α : Type) where
  next : α → Option α
  prev : α → Option α

/-- No node is in any list. -/
def Links.free : Links α := ⟨fun _ => none, fun _ => none⟩

section
variable [DecidableEq α]

/-- `INIT_LIST_HEAD`. -/
def initListHead (links : Links α) (list : α) : Links α where
  next := Function.update links.next list (some list)
  prev := Function.update links.prev list (some list)

/-- `__rns_list_add`. -/
def rnsListAdd' (links : Links α) (lnew prev next : α) : Links α where
  next := Function.update (Function.update links.next lnew (some next)) prev (some lnew)
  prev := Function.update (Function.update links.prev next (some lnew)) lnew (some prev)

/-- `rns_list_add`. -/
def rnsListAdd (links : Links α) (lnew head : α) : Option (Links α) :=
  (links.next head).map fun next => rnsListAdd' links lnew head next

/-- `__rns_list_del`. -/
def rnsListDel' (links : Links α) (prev next : α) : Links α where
  next := Function.update links.next prev (some next)
  prev := Function.update links.prev next (some prev)

/-- `rns_list_del`. -/
def rnsListDel (links : Links α) (entry : α) : Option (Links α) :=
  (links.prev entry).bind fun prev =>
    (links.next entry).map fun next =>
      let links := rnsListDel' links prev next
      ⟨Function.update links.next entry none, Function.update links.prev entry none⟩

end

/-- `rns_list_free`. -/
def Unlinked (links : Links α) (entry : α) : Prop :=
  links.prev entry = none ∧ links.next entry = none

instance (links : Links α) (entry : α) : Decidable (Unlinked links entry) :=
  inferInstanceAs (Decidable (_ ∧ _))

/-- `rns_list_del_safe`. -/
def rnsListDelSafe [DecidableEq α] (links : Links α) (entry : α) : Option (Links α) :=
  if Unlinked links entry then some links else rnsListDel links entry

/-- From `a` the pointers lead through the nodes to `b`, and back. -/
def Chain (links : Links α) (a : α) : List α → α → Prop
  | [], b => links.next a = some b ∧ links.prev b = some a
  | x :: xs, b => links.next a = some x ∧ links.prev x = some a ∧ Chain links x xs b

/-- A well-formed circular list: its nodes in the order of `next`, each once. -/
structure Ring (links : Links α) (head : α) (nodes : List α) : Prop where
  chain : Chain links head nodes head
  nodup : (head :: nodes).Nodup

section
variable {links links' : Links α} {a b x head : α} {xs ys nodes : List α}

theorem chain_append : Chain links a (xs ++ x :: ys) b ↔ Chain links a xs x ∧ Chain links x ys b := by
  induction xs generalizing a with
  | nil => simp [Chain, and_assoc]
  | cons y xs ih => simp [Chain, ih, and_assoc]

/-- A chain is there as long as nobody writes to the pointers along it. -/
theorem chain_frame (h : Chain links a xs b) (hnext : ∀ y ∈ a :: xs, links'.next y = links.next y)
    (hprev : ∀ y ∈ b :: xs, links'.prev y = links.prev y) : Chain links' a xs b := by
  induction xs generalizing a with
  | nil => exact ⟨(hnext a (by simp)).trans h.1, (hprev b (by simp)).trans h.2⟩
  | cons y xs ih =>
    refine ⟨(hnext a (by simp)).trans h.1, (hprev y (by simp)).trans h.2.1, ih h.2.2 ?_ ?_⟩
    · exact fun z hz => hnext z (List.mem_cons_of_mem _ hz)
    · intro z hz
      rcases List.mem_cons.mp hz with rfl | hz
      · exact hprev z (by simp)
      · exact hprev z (by simp [hz])

theorem ring_frame (h : Ring links head nodes)
    (hnext : ∀ y ∈ head :: nodes, links'.next y = links.next y)
    (hprev : ∀ y ∈ head :: nodes, links'.prev y = links.prev y) : Ring links' head nodes :=
  ⟨chain_frame h.chain hnext hprev, h.nodup⟩

/-- The first pointer of a ring leads into it. -/
theorem ring_next (h : Ring links head nodes) : ∃ next ∈ head :: nodes, links.next head = some next := by
  cases nodes with
  | nil => exact ⟨head, by simp, h.chain.1⟩
  | cons x nodes => exact ⟨x, by simp, h.chain.1⟩

theorem chain_last (h : Chain links a xs x) : ∃ p ∈ a :: xs, links.prev x = some p := by
  induction xs generalizing a with
  | nil => exact ⟨a, by simp, h.2⟩
  | cons y xs ih =>
    obtain ⟨p, hp, he⟩ := ih h.2.2
    exact ⟨p, List.mem_cons_of_mem _ hp, he⟩

/-- The last node of a chain may be led to another end. -/
theorem chain_retarget {p n : α} (h : Chain links a xs x) (hd : (a :: xs).Nodup)
    (hlast : links.prev x = some p) (hp : links'.next p = some n) (hn : links'.prev n = some p)
    (hnext : ∀ y ∈ a :: xs, y ≠ p → links'.next y = links.next y)
    (hprev : ∀ y ∈ xs, links'.prev y = links.prev y) : Chain links' a xs n := by
  induction xs generalizing a with
  | nil =>
    obtain rfl : a = p := by simpa [h.2] using hlast
    exact ⟨hp, hn⟩
  | cons y xs ih =>
    have hmem : p ∈ y :: xs := by
      obtain ⟨q, hq, he⟩ := chain_last h.2.2
      obtain rfl : q = p := by simpa [he] using hlast
      exact hq
    have hne : a ≠ p := fun he => (List.nodup_cons.mp hd).1 (he ▸ hmem)
    refine ⟨(hnext a (by simp) hne).trans h.1, (hprev y (by simp)).trans h.2.1,
      ih h.2.2 (List.nodup_cons.mp hd).2 ?_ ?_⟩
    · exact fun z hz => hnext z (List.mem_cons_of_mem _ hz)
    · exact fun z hz => hprev z (List.mem_cons_of_mem _ hz)

variable [DecidableEq α]

theorem init_ring (links : Links α) (head : α) : Ring (initListHead links head) head [] :=
  ⟨by simp [Chain, initListHead], by simp⟩

/-- What `rns_list_add` writes: the pointers of the new node, of the head and of the node
behind the head. -/
theorem add_ring (h : Ring links head nodes) {lnew : α} (hnew : lnew ∉ head :: nodes) :
    ∃ links', rnsListAdd links lnew head = some links' ∧ Ring links' head (lnew :: nodes) ∧
      ∀ y, y ∉ head :: nodes → y ≠ lnew →
        links'.next y = links.next y ∧ links'.prev y = links.prev y := by
  have hne : lnew ≠ head := fun he => hnew (by simp [he])
  obtain ⟨next, hmem, hfirst⟩ := ring_next h
  have hnext : lnew ≠ next := fun he => hnew (he ▸ hmem)
  refine ⟨rnsListAdd' links lnew head next, by simp [rnsListAdd, hfirst], ⟨?_, ?_⟩, ?_⟩
  · refine ⟨by simp [rnsListAdd'], by simp [rnsListAdd'], ?_⟩
    cases nodes with
    | nil =>
      obtain rfl : head = next := by simpa [h.chain.1] using hfirst
      simp [Chain, rnsListAdd', hne, Ne.symm hne]
    | cons x nodes =>
      obtain rfl : x = next := by simpa [h.chain.1] using hfirst
      have hx : x ≠ head := fun he => (List.nodup_cons.mp h.nodup).1 (by simp [he])
      refine ⟨by simp [rnsListAdd', hne], by simp [rnsListAdd', Ne.symm hnext], ?_⟩
      refine chain_frame h.chain.2.2 ?_ ?_
      · intro y hy
        have hyl : y ≠ lnew := fun he => hnew (he ▸ List.mem_cons_of_mem _ hy)
        have hyh : y ≠ head := fun he => (List.nodup_cons.mp h.nodup).1 (he ▸ hy)
        simp [rnsListAdd', hyl, hyh]
      · intro y hy
        have hyl : y ≠ lnew := by
          rintro rfl
          rcases List.mem_cons.mp hy with he | hy
          · exact hne he
          · exact hnew (by simp [hy])
        have hyx : y ≠ x := by
          rintro rfl
          have hn := (List.nodup_cons.mp (List.nodup_cons.mp h.nodup).2).1
          rcases List.mem_cons.mp hy with he | hy
          · exact hx he
          · exact hn hy
        simp [rnsListAdd', hyl, hyx]
  · have hd := h.nodup
    simp only [List.nodup_cons, List.mem_cons, not_or] at hd hnew ⊢
    exact ⟨⟨Ne.symm hne, hd.1⟩, hnew.2, hd.2⟩
  · intro y hy hyl
    have hyh : y ≠ head := fun he => hy (by simp [he])
    have hyn : y ≠ next := fun he => hy (he ▸ hmem)
    simp [rnsListAdd', hyl, hyh, hyn]

theorem del_eq {p n : α} (hp : links.prev x = some p) (hn : links.next x = some n) :
    rnsListDel links x = some ⟨Function.update (rnsListDel' links p n).next x none,
      Function.update (rnsListDel' links p n).prev x none⟩ := by
  simp [rnsListDel, hp, hn]

/-- In front of a node that is taken out the chain leads to the node behind. -/
theorem del_chain {p n : α} (h : Chain links a xs x) (hd : (a :: xs).Nodup) (hp : p ∈ a :: xs)
    (hlast : links.prev x = some p) (hx : x ∉ a :: xs) (hnx : n ≠ x) (hn : n ∉ xs) :
    Chain ⟨Function.update (rnsListDel' links p n).next x none,
      Function.update (rnsListDel' links p n).prev x none⟩ a xs n := by
  have hpx : p ≠ x := fun he => hx (he ▸ hp)
  refine chain_retarget h hd hlast ?_ ?_ ?_ ?_
  · simp [rnsListDel', hpx]
  · simp [rnsListDel', hnx]
  · intro y hy hyp
    have hyx : y ≠ x := fun he => hx (he ▸ hy)
    simp [rnsListDel', hyx, hyp]
  · intro y hy
    have hyx : y ≠ x := fun he => hx (he ▸ List.mem_cons_of_mem _ hy)
    have hyn : y ≠ n := fun he => hn (he ▸ hy)
    simp [rnsListDel', hyx, hyn]

/-- Other nodes than the one that is taken out and its neighbours stay as they are. -/
theorem del_others {p n y : α} (hyx : y ≠ x) (hyp : y ≠ p) (hyn : y ≠ n) :
    Function.update (rnsListDel' links p n).next x none y = links.next y ∧
      Function.update (rnsListDel' links p n).prev x none y = links.prev y := by
  simp [rnsListDel', hyx, hyp, hyn]

/-- What `rns_list_del` writes: the pointers of the node and of its two neighbours. -/
theorem del_ring (h : Ring links head (xs ++ x :: ys)) :
    ∃ links', rnsListDel links x = some links' ∧ Ring links' head (xs ++ ys) ∧ Unlinked links' x ∧
      ∀ y, y ∉ head :: (xs ++ x :: ys) →
        links'.next y = links.next y ∧ links'.prev y = links.prev y := by
  have hd := h.nodup
  obtain ⟨hl, hr⟩ := chain_append.mp h.chain
  obtain ⟨p, hp, hpe⟩ := chain_last hl
  have hdl : (head :: xs).Nodup := hd.sublist (by simp)
  have hrest : (head :: (xs ++ ys)).Nodup := hd.sublist (by simp)
  have hsplit := List.nodup_append.mp (List.cons_append ▸ hd)
  have hx : x ∉ head :: xs := fun hm => hsplit.2.2 x hm x (by simp) rfl
  have hall : ∀ z ∈ head :: xs, z ∈ head :: (xs ++ x :: ys) := by
    intro z hz
    rw [← List.cons_append]
    exact List.mem_append_left _ hz
  cases ys with
  | nil =>
    have hhead : head ≠ x := fun he => hx (by simp [he])
    refine ⟨_, del_eq hpe hr.1, ⟨?_, hrest⟩, ⟨by simp, by simp⟩, fun y hy => ?_⟩
    · rw [List.append_nil]
      exact del_chain hl hdl hp hpe hx hhead (List.nodup_cons.mp hdl).1
    · exact del_others (fun he => hy (by simp [he])) (fun he => hy (hall y (he ▸ hp)))
        fun he => hy (by simp [he])
  | cons n ys =>
    obtain ⟨hnx, hpn, hc⟩ := hr
    have hright := List.nodup_cons.mp hsplit.2.1
    have hxn : n ≠ x := fun he => hright.1 (by simp [he])
    have hn : n ∉ xs := fun hm => hsplit.2.2 n (List.mem_cons_of_mem _ hm) n (by simp) rfl
    refine ⟨_, del_eq hpe hnx, ⟨?_, hrest⟩, ⟨by simp, by simp⟩, fun y hy => ?_⟩
    · refine chain_append.mpr ⟨del_chain hl hdl hp hpe hx hxn hn, chain_frame hc ?_ ?_⟩
      · intro y hy
        have hyp : y ≠ p := fun he => hsplit.2.2 p hp y (List.mem_cons_of_mem _ hy) he.symm
        have hyx : y ≠ x := fun he => hright.1 (he ▸ hy)
        simp [rnsListDel', hyp, hyx]
      · intro y hy
        have hyx : y ≠ x := by
          rintro rfl
          rcases List.mem_cons.mp hy with he | hy
          · exact hx (by simp [he])
          · exact hright.1 (List.mem_cons_of_mem _ hy)
        have hyn : y ≠ n := by
          rintro rfl
          rcases List.mem_cons.mp hy with he | hy
          · exact hsplit.2.2 head (by simp) y (by simp) he.symm
          · exact (List.nodup_cons.mp hright.2).1 hy
        simp [rnsListDel', hyx, hyn]
    · exact del_others (fun he => hy (by simp [he])) (fun he => hy (hall y (he ▸ hp)))
        fun he => hy (by simp [he])

end

end Yclib.ListHead
