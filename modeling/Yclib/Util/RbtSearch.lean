import Yclib.Util.RbtStore

namespace Yclib.Rbt

/-! Which of several nodes with one key the searches of the library come to. -/

section
variable {κ ν : Type}

/-- `while (walker->rbt_left && <equal key>) walker = walker->rbt_left`, from a node on. -/
def descend (less : κ → κ → Bool) (key : κ) (color : Color) :
    Tree κ ν → κ → ν → Tree κ ν → List (Parent κ ν) → Place κ ν
  | .null, k, value, right, path => ⟨color, .null, k, value, right, path⟩
  | .node color' left' k' value' right', k, value, right, path =>
    if less key k' ∨ less k' key then ⟨color, .node color' left' k' value' right', k, value, right, path⟩
    else descend less key color' left' k' value' right' (.left color k value right :: path)

/-- The loop of `rbt_search_int` and `rbt_search_str`. -/
def searchBy (less : κ → κ → Bool) (key : κ) : Tree κ ν → List (Parent κ ν) → Option (Place κ ν)
  | .null, _ => none
  | .node color left k value right, path =>
    if less key k then searchBy less key left (.left color k value right :: path)
    else if less k key then searchBy less key right (.right color left k value :: path)
    else some (descend less key color left k value right path)

/-- `rbt_search_int`. -/
def rbtSearchInt (root : Tree Nat ν) (key : Nat) : Option (Place Nat ν) :=
  searchBy (fun a b => decide (a < b)) key root []

/-- `rbt_search_str`. -/
def rbtSearchStr (root : Tree Str ν) (key : Str) : Option (Place Str ν) :=
  searchBy (fun a b => strcmpLess a.bytes b.bytes) key root []

def Tree.rootKey : Tree κ ν → Option κ
  | .null => none
  | .node _ _ key _ _ => some key

def Tree.keys (tree : Tree κ ν) : List κ := tree.toList.map Prod.fst

/-- A node with the key has a left child with another key, and further down there is the key again. -/
def Hides (key : κ) : Tree κ ν → Prop
  | .null => False
  | .node _ left k _ right =>
    (k = key ∧ left.rootKey ≠ some key ∧ key ∈ left.keys) ∨ Hides key left ∨ Hides key right

/-- The nodes in front of this one. -/
def Place.front (node : Place κ ν) : List (κ × ν) := before node.path ++ node.left.toList

theorem place_list (node : Place κ ν) :
    (plug node.tree node.path).toList = node.front ++ (node.key, node.value) :: node.rest := by
  simp [plug_list, Place.tree, Place.front, Place.rest]

theorem node_keys {color : Color} {left right : Tree κ ν} {value : ν} {k' k : κ} :
    k ∈ (Tree.node color left k' value right).keys ↔ k ∈ left.keys ∨ k = k' ∨ k ∈ right.keys := by
  simp [Tree.keys]

theorem hides_mem {key : κ} {tree : Tree κ ν} (h : Hides key tree) : key ∈ tree.keys := by
  induction tree with
  | null => exact h.elim
  | node color left k value right ihl ihr =>
    rw [node_keys]
    rcases h with ⟨rfl, -⟩ | h | h
    · exact .inr (.inl rfl)
    · exact .inl (ihl h)
    · exact .inr (.inr (ihr h))

theorem root_key_mem {key : κ} {tree : Tree κ ν} (h : key ∈ tree.keys) :
    ∃ k, tree.rootKey = some k ∧ k ∈ tree.keys := by
  cases tree with
  | null => simp [Tree.keys] at h
  | node color left k value right => exact ⟨k, rfl, node_keys.mpr (.inr (.inl rfl))⟩

end

section
variable {κ ν : Type} [LinearOrder κ] {key : κ}

/-- The order of a node's keys, part by part. -/
theorem sorted_node {color : Color} {left right : Tree κ ν} {k : κ} {value : ν}
    (h : Multimap.Sorted (Tree.node color left k value right).toList) :
    Multimap.Sorted left.toList ∧ Multimap.Sorted right.toList ∧
      (∀ k' ∈ left.keys, k' ≤ k) ∧ ∀ k' ∈ right.keys, k ≤ k' := by
  simp only [Multimap.Sorted, list_node, List.map_append, List.map_cons, List.pairwise_append,
    List.pairwise_cons] at h
  obtain ⟨hleft, ⟨hright, hsorted⟩, hcross⟩ := h
  refine ⟨hleft, hsorted, ?_, ?_⟩
  · intro k' hk
    exact hcross k' hk k (List.mem_cons_self ..)
  · intro k' hk
    exact hright k' hk

/-- Where no key is below it, a key is not hidden. -/
theorem hides_above {tree : Tree κ ν} (hs : Multimap.Sorted tree.toList) (hle : ∀ k ∈ tree.keys, key ≤ k) :
    ¬ Hides key tree := by
  induction tree with
  | null => exact not_false
  | node color left k value right ihl ihr =>
    obtain ⟨hleft, hright, hbelow, -⟩ := sorted_node hs
    have hmem : ∀ k' ∈ left.keys ++ right.keys, key ≤ k' := by
      intro k' hk
      apply hle
      rw [node_keys]
      exact (List.mem_append.mp hk).imp_right .inr
    intro h
    rcases h with ⟨rfl, hroot, hk⟩ | h | h
    · obtain ⟨k', hroot', hk'⟩ := root_key_mem hk
      have heq := le_antisymm (hbelow k' hk') (hmem k' (List.mem_append_left _ hk'))
      exact hroot (heq ▸ hroot')
    · exact ihl hleft (fun k' hk => hmem k' (List.mem_append_left _ hk)) h
    · exact ihr hright (fun k' hk => hmem k' (List.mem_append_right _ hk)) h

variable {less : κ → κ → Bool} (hless : ∀ a b, less a b = true ↔ a < b)
include hless

/-- The descent ends at a node with the key, and leaves nodes with it behind where they are hidden. -/
theorem descend_front {color : Color} {left right : Tree κ ν} {value : ν} (path : List (Parent κ ν))
    (hs : Multimap.Sorted (Tree.node color left key value right).toList) :
    ∃ node front, descend less key color left key value right path = node ∧ node.key = key ∧
      plug node.tree node.path = plug (.node color left key value right) path ∧
      node.front = before path ++ front ∧
      (key ∈ front.map Prod.fst ↔ Hides key (.node color left key value right)) := by
  obtain ⟨hleft, hright, -, habove⟩ := sorted_node hs
  have hnot := hides_above hright habove
  induction left generalizing color value right path with
  | null =>
    refine ⟨_, [], rfl, rfl, rfl, by simp [descend, Place.front], ?_⟩
    simp [Hides, hnot, Tree.keys]
  | node color' left' k' value' right' ihl _ =>
    rw [descend]
    split
    · rename_i hother
      rw [hless, hless] at hother
      have hne : k' ≠ key := by
        rintro rfl
        exact hother.elim (lt_irrefl _) (lt_irrefl _)
      refine ⟨_, (Tree.node color' left' k' value' right').toList, rfl, rfl, rfl, rfl, ?_⟩
      constructor
      · intro hk
        exact .inl ⟨rfl, fun h => hne (Option.some.inj h), hk⟩
      · intro h
        rcases h with ⟨-, -, hk⟩ | h | h
        · exact hk
        · exact hides_mem h
        · exact absurd h hnot
    · rename_i hsame
      rw [hless, hless, not_or, not_lt, not_lt] at hsame
      obtain rfl := le_antisymm hsame.1 hsame.2
      obtain ⟨hleft', hright', hbelow', habove'⟩ := sorted_node hleft
      obtain ⟨node, front, hnode, hkey, hplug, hfront, hiff⟩ :=
        ihl (.left color k' value right :: path) hleft hleft' hright' habove' (hides_above hright' habove')
      refine ⟨node, front, hnode, hkey, hplug, hfront, hiff.trans ?_⟩
      rw [Hides.eq_def k' (.node color _ _ _ _)]
      simp [Tree.rootKey, hnot]

/-- A search finds nothing, or a node with the key that is the first one unless others are hidden. -/
theorem search_front (key : κ) {tree : Tree κ ν} (path : List (Parent κ ν)) (hs : Multimap.Sorted tree.toList) :
    searchBy less key tree path = none ∧ key ∉ tree.keys ∨
      ∃ node front, searchBy less key tree path = some node ∧ node.key = key ∧
        plug node.tree node.path = plug tree path ∧ node.front = before path ++ front ∧
        (key ∈ front.map Prod.fst ↔ Hides key tree) := by
  induction tree generalizing path with
  | null => exact .inl ⟨rfl, by simp [Tree.keys]⟩
  | node color left k value right ihl ihr =>
    obtain ⟨hleft, hright, hbelow, habove⟩ := sorted_node hs
    rw [searchBy]
    by_cases hlt : key < k
    · rw [if_pos ((hless key k).mpr hlt)]
      have hnotright : key ∉ right.keys := fun hk => not_le.mpr hlt (habove key hk)
      rcases ihl (.left color k value right :: path) hleft with
        ⟨hnone, hk⟩ | ⟨node, front, hnode, hkey, hplug, hfront, hiff⟩
      · refine .inl ⟨hnone, ?_⟩
        rw [node_keys]
        rintro (h | rfl | h)
        · exact hk h
        · exact lt_irrefl _ hlt
        · exact hnotright h
      · refine .inr ⟨node, front, hnode, hkey, hplug, hfront, hiff.trans ?_⟩
        rw [Hides.eq_def key (.node color _ _ _ _)]
        have hno : ¬ Hides key right := fun h => hnotright (hides_mem h)
        simp [hlt.ne', hno]
    rw [if_neg (by rwa [hless])]
    by_cases hgt : k < key
    · rw [if_pos ((hless k key).mpr hgt)]
      have hnotleft : key ∉ left.keys := fun hk => not_le.mpr hgt (hbelow key hk)
      rcases ihr (.right color left k value :: path) hright with
        ⟨hnone, hk⟩ | ⟨node, front, hnode, hkey, hplug, hfront, hiff⟩
      · refine .inl ⟨hnone, ?_⟩
        rw [node_keys]
        rintro (h | rfl | h)
        · exact hnotleft h
        · exact lt_irrefl _ hgt
        · exact hk h
      · refine .inr ⟨node, left.toList ++ [(k, value)] ++ front, hnode, hkey, hplug, ?_, ?_⟩
        · rw [hfront, before_right]
          simp
        · rw [Hides.eq_def key (.node color _ _ _ _)]
          have hleftkeys : key ∉ left.toList.map Prod.fst := hnotleft
          simp only [List.map_append, List.map_cons, List.map_nil, List.mem_append, List.mem_singleton,
            hleftkeys, hgt.ne', hgt.ne, false_or, false_and]
          have hno : ¬ Hides key left := fun h => hnotleft (hides_mem h)
          simp [hiff, hno]
    · rw [if_neg (by rwa [hless])]
      obtain rfl := le_antisymm (not_lt.mp hgt) (not_lt.mp hlt)
      obtain ⟨node, front, hnode, hfound⟩ := descend_front hless path hs
      exact .inr ⟨node, front, by rw [hnode], hfound⟩

/-- Of the nodes with the key the first one is found unless others are hidden. -/
theorem search_first [DecidableEq κ] {root : Tree κ ν} (hs : Multimap.Sorted root.toList)
    (hn : (Multimap.values root.toList).Nodup) (key : κ) :
    (searchBy less key root []).map Place.value = Multimap.searchKey key root.toList ↔ ¬ Hides key root := by
  rcases search_front hless key [] hs with ⟨hnone, hk⟩ | ⟨node, front, hnode, hkey, hplug, hfront, hiff⟩
  · have hfree : ∀ entry ∈ root.toList, entry.1 ≠ key := by
      rintro entry hm rfl
      exact hk (List.mem_map_of_mem hm)
    rw [hnone, Multimap.search_missing hfree]
    exact iff_of_true rfl fun h => hk (hides_mem h)
  have hlist : root.toList = front ++ (key, node.value) :: node.rest := by
    have hplace := place_list node
    rwa [hplug, hfront, before_nil, List.nil_append, hkey] at hplace
  rw [hnode, Option.map_some, ← hiff, hlist]
  constructor
  · -- the values are different, so the one in front is another one
    intro hsearch hk
    obtain ⟨entry, hm, heq⟩ := List.mem_map.mp hk
    obtain ⟨value, hvalue⟩ := Multimap.search_mem hk
    rw [Multimap.search_append hvalue] at hsearch
    obtain rfl := Option.some.inj hsearch
    have hfound := Multimap.search_some hvalue
    rw [hlist, Multimap.values, List.map_append, List.map_cons, List.nodup_middle] at hn
    exact (List.nodup_cons.mp hn).1 (List.mem_append_left _ (List.mem_map_of_mem hfound))
  · intro hk
    rw [Multimap.search_behind hk]

end

/-- A search for the key comes to the first of the nodes that have it, and to none if none has it. -/
def FindsFirst [DecidableEq κ] (key : κ) (root : Tree κ ν) (found : Option (Place κ ν)) : Prop :=
  found.map Place.value = Multimap.searchKey key root.toList

/-- For all insertions and deletions, a search comes to the first node with the key if and only if there
is no such node below the left child, with another key, of a node with the key. -/
theorem first_found_iff {ν : Type} [DecidableEq ν] :
    (∀ ops : List (Op Nat ν), Allowed [] ops → ∃ root, run rbtInsertInt ops .null = some root ∧
      ∀ key, FindsFirst key root (rbtSearchInt root key) ↔ ¬ Hides key root) ∧
    ∀ ops : List (Op Str ν), Allowed [] ops → ∃ root, run rbtInsertStr ops .null = some root ∧
      ∀ key, FindsFirst key root (rbtSearchStr root key) ↔ ¬ Hides key root := by
  constructor
  · intro ops hallowed
    have hless : ∀ a b : Nat, decide (a < b) = true ↔ a < b := fun _ _ => decide_eq_true_iff
    obtain ⟨root, hrun, hordered⟩ := run_ordered hless hallowed null_ordered ⟨0, .null⟩
    exact ⟨root, hrun, search_first hless hordered.sorted hordered.nodup⟩
  · intro ops hallowed
    obtain ⟨root, hrun, hordered⟩ := run_ordered strcmp_less hallowed null_ordered ⟨0, .null⟩
    exact ⟨root, hrun, search_first strcmp_less hordered.sorted hordered.nodup⟩

/-- Two nodes with one key. -/
theorem first_found_two : ∃ root, run rbtInsertInt [.insert 2 'a', .insert 2 'b'] .null = some root ∧
    ∀ key, FindsFirst key root (rbtSearchInt root key) ↔ ¬ Hides key root :=
  first_found_iff.1 _ ⟨by decide, by decide, trivial⟩

/-- The first of three nodes with the key 2 is passed over where two with the key 1 follow. -/
theorem first_passed_over : ¬ ∀ ops : List (Op Nat Char), Allowed [] ops →
    ∃ root, run rbtInsertInt ops .null = some root ∧ ∀ key, FindsFirst key root (rbtSearchInt root key) := by
  intro hall
  obtain ⟨root, hrun, hfirst⟩ := hall [.insert 2 'a', .insert 2 'b', .insert 2 'c', .insert 1 'd', .insert 1 'e']
    ⟨by decide, by decide, by decide, by decide, by decide, trivial⟩
  have htree : run rbtInsertInt [.insert 2 'a', .insert 2 'b', .insert 2 'c', .insert 1 'd', .insert 1 'e'] .null =
      some (.node .black (.node .black (.node .red .null 1 'd' .null) 1 'e' (.node .red .null 2 'a' .null)) 2 'b'
        (.node .black .null 2 'c' .null)) := rfl
  rw [htree] at hrun
  obtain rfl := Option.some.inj hrun
  have htwo := hfirst 2
  revert htwo
  unfold FindsFirst
  decide

end Yclib.Rbt
