import Yclib.Util.RbtSearch

namespace Yclib.Http.HeaderMap
open Rbt

/-! The headers that are written: a tree of strings for a request and one for a response. -/

/-- `rns_node_t` without its node, told by the order in which they are made. -/
structure Item where
  id : Nat
  data : List UInt8
deriving DecidableEq

/-- `write_info.headers`, with the number of items made for it. -/
structure Headers where
  root : Tree Str Item
  made : Nat

/-- `rns_hconn_t` with the headers of `tune[0]`, for responses, and of `tune[1]`, for requests. -/
structure Hconn where
  resp : Headers
  req : Headers

def Hconn.init : Hconn := ⟨⟨.null, 0⟩, ⟨.null, 0⟩⟩

/-- The item with the key is deleted, if there is one. -/
def deleteKey (root : Tree Str Item) (key : Str) : Option (Tree Str Item) :=
  match rbtSearchStr root key with
  | none => some root
  | some node => (rbtDelete root node.value).map Prod.snd

def Headers.insert (headers : Headers) (key : Str) (value : List UInt8) : Option Headers :=
  (deleteKey headers.root key).bind fun root =>
    (rbtInsertStr root key ⟨headers.made, value⟩).map fun root => ⟨root, headers.made + 1⟩

def rnsHconnReqHeaderInsert (hconn : Hconn) (key : Str) (value : List UInt8) : Option Hconn :=
  (hconn.req.insert key value).map fun headers => { hconn with req := headers }

def rnsHconnRespHeaderInsert (hconn : Hconn) (key : Str) (value : List UInt8) : Option Hconn :=
  (hconn.resp.insert key value).map fun headers => { hconn with resp := headers }

inductive Insert
  | req (key : Str) (value : List UInt8)
  | resp (key : Str) (value : List UInt8)

def step (hconn : Hconn) : Insert → Option Hconn
  | .req key value => rnsHconnReqHeaderInsert hconn key value
  | .resp key value => rnsHconnRespHeaderInsert hconn key value

def run (inserts : List Insert) : Option Hconn := inserts.foldlM step .init

/-- A map from keys to values. -/
abbrev Map := Str → Option (List UInt8)

def Map.put (map : Map) (key : Str) (value : List UInt8) : Map := Function.update map key (some value)

/-- What the last insertion for each key of a request has written. -/
def reqMap (inserts : List Insert) : Map :=
  inserts.foldl (fun map insert => match insert with
    | .req key value => map.put key value
    | .resp _ _ => map) fun _ => none

/-- The same for a response. -/
def respMap (inserts : List Insert) : Map :=
  inserts.foldl (fun map insert => match insert with
    | .req _ _ => map
    | .resp key value => map.put key value) fun _ => none

/-- The tree has one item for each key of the map, with its value. -/
structure Stored (headers : Headers) (map : Map) (linked : List (Str × Item)) : Prop where
  sound : Sound headers.root
  ordered : Ordered headers.root linked
  single : (linked.map Prod.fst).Nodup
  made : ∀ entry ∈ linked, entry.2.id < headers.made
  found : ∀ key, (Multimap.searchKey key linked).map Item.data = map key

section
variable {headers : Headers} {map : Map} {linked : List (Str × Item)} {key : Str} {value : List UInt8}

theorem init_stored : Stored ⟨.null, 0⟩ (fun _ => none) [] :=
  ⟨⟨0, .null⟩, null_ordered, List.nodup_nil, fun _ h => absurd h List.not_mem_nil, fun _ => rfl⟩

/-- With one item for each key, the value of an item is of its key. -/
theorem single_value (hsingle : (linked.map Prod.fst).Nodup) (hvalues : (Multimap.values linked).Nodup)
    {item : Item} (hm : (key, item) ∈ linked) :
    (linked.filter fun entry => entry.2 ≠ item) = linked.filter fun entry => entry.1 ≠ key := by
  apply List.filter_congr
  intro entry hentry
  have hiff : entry.2 = item ↔ entry.1 = key := by
    constructor
    · intro heq
      rw [List.inj_on_of_nodup_map hvalues hentry hm heq]
    · intro heq
      rw [List.inj_on_of_nodup_map hsingle hentry hm heq]
  simp [hiff]

/-- The search comes to the item of the key. -/
theorem search_stored (h : Stored headers map linked) (key : Str) :
    (rbtSearchStr headers.root key).map Place.value = Multimap.searchKey key linked := by
  have hmem : ∀ entry, entry ∈ headers.root.toList ↔ entry ∈ linked := fun _ => h.ordered.perm.mem_iff
  rcases search_front strcmp_less key [] h.ordered.sorted with ⟨hnone, hk⟩ | ⟨node, front, hnode, hkey, hplug, -, -⟩
  · rw [rbtSearchStr, hnone, Multimap.search_missing]
    · rfl
    · rintro entry hm rfl
      exact hk (List.mem_map_of_mem ((hmem entry).mpr hm))
  · have hin : (key, node.value) ∈ linked := by
      rw [← hmem, ← hkey]
      have hlist := place_list node
      rw [hplug] at hlist
      have hsplit : headers.root.toList = node.front ++ (node.key, node.value) :: node.rest := hlist
      rw [hsplit]
      exact List.mem_append_right _ (List.mem_cons_self ..)
    rw [rbtSearchStr, hnode, Option.map_some, Multimap.search_unique hin]
    intro other hother
    exact congrArg Prod.snd (List.inj_on_of_nodup_map h.single hother hin rfl)

/-- Behind a search and its deletion no item has the key. -/
theorem delete_stored (h : Stored headers map linked) (key : Str) :
    ∃ root, deleteKey headers.root key = some root ∧ Sound root ∧
      Ordered root (linked.filter fun entry => entry.1 ≠ key) := by
  have hsearch := search_stored h key
  rw [deleteKey]
  cases hfound : rbtSearchStr headers.root key with
  | none =>
    rw [hfound, Option.map_none] at hsearch
    have hother := Multimap.search_none hsearch.symm
    refine ⟨headers.root, rfl, h.sound, ?_⟩
    rw [List.filter_eq_self.mpr fun entry hm => decide_eq_true (hother entry hm)]
    exact h.ordered
  | some node =>
    rw [hfound, Option.map_some] at hsearch
    have hin := Multimap.search_some hsearch.symm
    have hvalues : (Multimap.values linked).Nodup := (h.ordered.perm.map Prod.snd).nodup_iff.mp h.ordered.nodup
    obtain ⟨next, root, hdelete, hsound, hordered⟩ :=
      delete_ordered h.ordered h.sound (List.mem_map_of_mem hin)
    refine ⟨root, congrArg (Option.map Prod.snd) hdelete, hsound, ?_⟩
    rw [link, single_value h.single hvalues hin] at hordered
    exact hordered

theorem search_put (linked : List (Str × Item)) (key : Str) (item : Item) (key' : Str) :
    Multimap.searchKey key' ((linked.filter fun entry => entry.1 ≠ key) ++ [(key, item)]) =
      if key' = key then some item else Multimap.searchKey key' linked := by
  split
  · rename_i heq
    subst heq
    apply Multimap.search_behind
    intro hm
    obtain ⟨entry, hentry, heq⟩ := List.mem_map.mp hm
    exact absurd heq (by simpa using (List.mem_filter.mp hentry).2)
  · rename_i hne
    induction linked with
    | nil => simp [Multimap.searchKey, Ne.symm hne]
    | cons entry linked ih =>
      by_cases hkey : entry.1 = key
      · have hother : entry.1 ≠ key' := fun heq => hne (heq.symm.trans hkey)
        rw [List.filter_cons_of_neg (by simpa using hkey), ih]
        simp [Multimap.searchKey, hother]
      · rw [List.filter_cons_of_pos (by simpa using hkey), List.cons_append]
        by_cases hfound : entry.1 = key'
        · simp [Multimap.searchKey, hfound]
        · simpa [Multimap.searchKey, hfound] using ih

/-- An insertion writes the value of its key. -/
theorem insert_stored (h : Stored headers map linked) (key : Str) (value : List UInt8) :
    ∃ headers' linked', headers.insert key value = some headers' ∧ Stored headers' (map.put key value) linked' := by
  obtain ⟨root, hdelete, hsound, hordered⟩ := delete_stored h key
  have hnew : (⟨headers.made, value⟩ : Item) ∉
      Multimap.values (linked.filter fun entry => entry.1 ≠ key) := by
    intro hm
    obtain ⟨entry, hentry, heq⟩ := List.mem_map.mp hm
    have hlt := h.made entry (List.mem_filter.mp hentry).1
    rw [heq] at hlt
    exact lt_irrefl _ hlt
  obtain ⟨root', hinsert, hsound', hordered'⟩ := insert_ordered strcmp_less hordered hsound key hnew
  refine ⟨⟨root', headers.made + 1⟩, _, ?_, hsound', hordered', ?_, ?_, ?_⟩
  · rw [Headers.insert, hdelete, Option.bind_some]
    exact congrArg (Option.map _) hinsert
  · rw [link, List.map_append, List.map_cons, List.map_nil, List.nodup_append]
    refine ⟨h.single.sublist (List.filter_sublist.map _), List.nodup_singleton _, ?_⟩
    intro key' hm other hother heq
    obtain ⟨entry, hentry, rfl⟩ := List.mem_map.mp hm
    have hne := (List.mem_filter.mp hentry).2
    exact absurd (heq.trans (List.mem_singleton.mp hother)) (by simpa using hne)
  · intro entry hm
    rw [link, List.mem_append, List.mem_singleton] at hm
    rcases hm with hm | rfl
    · exact (h.made entry (List.mem_filter.mp hm).1).trans (Nat.lt_succ_self _)
    · exact Nat.lt_succ_self _
  · intro key'
    rw [link, search_put, Map.put, Function.update_apply, ← h.found]
    split <;> rfl

/-- Both stores of a connection. -/
def Both (hconn : Hconn) (reqs resps : Map) : Prop :=
  (∃ linked, Stored hconn.req reqs linked) ∧ ∃ linked, Stored hconn.resp resps linked

theorem run_stored (inserts : List Insert) : ∃ hconn, run inserts = some hconn ∧
    Both hconn (reqMap inserts) (respMap inserts) := by
  induction inserts using List.reverseRecOn with
  | nil => exact ⟨.init, rfl, ⟨[], init_stored⟩, [], init_stored⟩
  | append_singleton inserts insert ih =>
    obtain ⟨hconn, hrun, ⟨reqs, hreq⟩, resps, hresp⟩ := ih
    rw [run, List.foldlM_append, ← run, hrun, reqMap, respMap, List.foldl_append, List.foldl_append,
      ← reqMap, ← respMap]
    cases insert with
    | req key value =>
      obtain ⟨headers, linked, hinsert, hstored⟩ := insert_stored hreq key value
      refine ⟨{ hconn with req := headers }, ?_, ⟨linked, hstored⟩, resps, hresp⟩
      simp [step, rnsHconnReqHeaderInsert, hinsert]
    | resp key value =>
      obtain ⟨headers, linked, hinsert, hstored⟩ := insert_stored hresp key value
      refine ⟨{ hconn with resp := headers }, ?_, ⟨reqs, hreq⟩, linked, hstored⟩
      simp [step, rnsHconnRespHeaderInsert, hinsert]

/-- The items in the order of the tree: each key of the map once, in order, with its value. -/
theorem stored_list (h : Stored headers map linked) :
    (headers.root.toList.map Prod.fst).Pairwise (· < ·) ∧
      ∀ key value, (∃ item : Item, (key, item) ∈ headers.root.toList ∧ item.data = value) ↔ map key = some value := by
  constructor
  · have hsingle : (headers.root.toList.map Prod.fst).Nodup := (h.ordered.perm.map Prod.fst).nodup_iff.mpr h.single
    exact (h.ordered.sorted.and hsingle).imp fun hle => lt_of_le_of_ne hle.1 hle.2
  · intro key value
    rw [← h.found key]
    constructor
    · rintro ⟨item, hm, rfl⟩
      rw [Multimap.search_unique (h.ordered.perm.mem_iff.mp hm)]
      · rfl
      · intro other hother
        exact congrArg Prod.snd (List.inj_on_of_nodup_map h.single hother (h.ordered.perm.mem_iff.mp hm) rfl)
    · intro hfound
      obtain ⟨item, hsearch, hdata⟩ := Option.map_eq_some_iff.mp hfound
      exact ⟨item, h.ordered.perm.mem_iff.mpr (Multimap.search_some hsearch), hdata⟩

end

end Yclib.Http.HeaderMap
