import Yclib.Util.RbtSearch

namespace Yclib.Rbt

/-! The searches of the library for the nearest key on one side. -/

section
variable {κ ν : Type}

/-- The loop of `rbt_lsearch_int` and `rbt_lsearch_str`: `parent` is the last node that it has left
to the right. -/
def lsearchBy (less : κ → κ → Bool) (key : κ) :
    Tree κ ν → List (Parent κ ν) → Option (Place κ ν) → Option (Place κ ν)
  | .null, _, parent => parent
  | .node color left k value right, path, parent =>
    if less key k then lsearchBy less key left (.left color k value right :: path) parent
    else if less k key then
      lsearchBy less key right (.right color left k value :: path) (some ⟨color, left, k, value, right, path⟩)
    else some (descend less key color left k value right path)

/-- The loop of `rbt_gsearch_int` and `rbt_gsearch_str`: `parent` is the last node that it has left
to the left. -/
def gsearchBy (less : κ → κ → Bool) (key : κ) :
    Tree κ ν → List (Parent κ ν) → Option (Place κ ν) → Option (Place κ ν)
  | .null, _, parent => parent
  | .node color left k value right, path, parent =>
    if less key k then
      gsearchBy less key left (.left color k value right :: path) (some ⟨color, left, k, value, right, path⟩)
    else if less k key then gsearchBy less key right (.right color left k value :: path) parent
    else some (descend less key color left k value right path)

def rbtLsearchInt (root : Tree Nat ν) (key : Nat) : Option (Place Nat ν) :=
  lsearchBy (fun a b => decide (a < b)) key root [] none

def rbtLsearchStr (root : Tree Str ν) (key : Str) : Option (Place Str ν) :=
  lsearchBy (fun a b => strcmpLess a.bytes b.bytes) key root [] none

def rbtGsearchInt (root : Tree Nat ν) (key : Nat) : Option (Place Nat ν) :=
  gsearchBy (fun a b => decide (a < b)) key root [] none

def rbtGsearchStr (root : Tree Str ν) (key : Str) : Option (Place Str ν) :=
  gsearchBy (fun a b => strcmpLess a.bytes b.bytes) key root [] none

/-- The node is one of the tree. -/
def Place.In (node : Place κ ν) (root : Tree κ ν) : Prop := plug node.tree node.path = root

theorem plug_keys {tree root : Tree κ ν} {path : List (Parent κ ν)} (h : plug tree path = root) (k : κ) :
    k ∈ root.keys ↔ k ∈ (before path).map Prod.fst ∨ k ∈ tree.keys ∨ k ∈ (after path).map Prod.fst := by
  rw [← h, Tree.keys, plug_list]
  simp only [List.map_append, List.mem_append, Tree.keys, or_assoc]

variable [LinearOrder κ]

/-- A node with the greatest of the keys that are not above, or none if all are. -/
def Below (key : κ) (root : Tree κ ν) : Option (Place κ ν) → Prop
  | none => ∀ k ∈ root.keys, key < k
  | some node => node.In root ∧ node.key ≤ key ∧ ∀ k ∈ root.keys, k ≤ key → k ≤ node.key

/-- A node with the least of the keys that are not below, or none if all are. -/
def Above (key : κ) (root : Tree κ ν) : Option (Place κ ν) → Prop
  | none => ∀ k ∈ root.keys, k < key
  | some node => node.In root ∧ key ≤ node.key ∧ ∀ k ∈ root.keys, key ≤ k → node.key ≤ k

end

section
variable {κ ν : Type} [LinearOrder κ] {key : κ} {tree root : Tree κ ν} {path : List (Parent κ ν)}

/-- The keys around a subtree of a sorted tree. -/
theorem plug_sorted (h : plug tree path = root) (hs : Multimap.Sorted root.toList) :
    Multimap.Sorted tree.toList ∧ (∀ k ∈ (before path).map Prod.fst, ∀ k' ∈ tree.keys, k ≤ k') ∧
      ∀ k ∈ tree.keys, ∀ k' ∈ (after path).map Prod.fst, k ≤ k' := by
  rw [← h, Multimap.Sorted, plug_list, List.map_append, List.map_append, List.pairwise_append,
    List.pairwise_append] at hs
  obtain ⟨⟨-, htree, hbefore⟩, -, hafter⟩ := hs
  refine ⟨htree, hbefore, ?_⟩
  intro k hk
  exact hafter k (List.mem_append_right _ hk)

/-- The `parent` of a search to the left is the nearest of the nodes in front of what is left to search. -/
def HeldBelow (key : κ) (root : Tree κ ν) (path : List (Parent κ ν)) : Option (Place κ ν) → Prop
  | none => before path = []
  | some node => node.In root ∧ node.key < key ∧ ∀ k ∈ (before path).map Prod.fst, k ≤ node.key

/-- The `parent` of a search to the right is the nearest of the nodes behind what is left to search. -/
def HeldAbove (key : κ) (root : Tree κ ν) (path : List (Parent κ ν)) : Option (Place κ ν) → Prop
  | none => after path = []
  | some node => node.In root ∧ key < node.key ∧ ∀ k ∈ (after path).map Prod.fst, node.key ≤ k

variable {less : κ → κ → Bool} (hless : ∀ a b, less a b = true ↔ a < b) (hs : Multimap.Sorted root.toList)
include hless hs

/-- A node with the key is the nearest on both sides. -/
theorem descend_nearest {color : Color} {left right : Tree κ ν} {value : ν}
    (h : plug (.node color left key value right) path = root) :
    Below key root (some (descend less key color left key value right path)) ∧
      Above key root (some (descend less key color left key value right path)) := by
  obtain ⟨node, -, hnode, hkey, hplug, -, -⟩ := descend_front hless path (plug_sorted h hs).1
  rw [hnode]
  have hin : node.In root := hplug.trans h
  exact ⟨⟨hin, hkey.le, fun k _ hk => hk.trans hkey.ge⟩, hin, hkey.ge, fun k _ hk => hkey.le.trans hk⟩

theorem lsearch_below {parent : Option (Place κ ν)} (h : plug tree path = root)
    (hparent : HeldBelow key root path parent) (hafter : ∀ k ∈ (after path).map Prod.fst, key < k) :
    Below key root (lsearchBy less key tree path parent) := by
  induction tree generalizing path parent with
  | null =>
    have hkeys := plug_keys h
    cases parent with
    | none =>
      rw [HeldBelow] at hparent
      simp only [hparent, List.map_nil, List.not_mem_nil, false_or] at hkeys
      intro k hk
      rcases (hkeys k).mp hk with hk | hk
      · cases hk
      · exact hafter k hk
    | some node =>
      obtain ⟨hin, hlt, hbefore⟩ := hparent
      refine ⟨hin, hlt.le, ?_⟩
      intro k hk hle
      rcases (hkeys k).mp hk with hk | hk | hk
      · exact hbefore k hk
      · cases hk
      · exact absurd (hafter k hk) (not_lt.mpr hle)
  | node color left k value right ihl ihr =>
    obtain ⟨htree, hbefore, -⟩ := plug_sorted h hs
    obtain ⟨-, -, hbelow, habove⟩ := sorted_node htree
    rw [lsearchBy]
    by_cases hlt : key < k
    · rw [if_pos ((hless key k).mpr hlt)]
      refine @ihl (.left color k value right :: path) parent h ?_ ?_
      · cases parent <;> exact hparent
      · intro k' hk
        rw [after_left, List.map_append, List.map_cons, List.mem_append, List.mem_cons] at hk
        rcases hk with (rfl | hk) | hk
        · exact hlt
        · exact hlt.trans_le (habove k' hk)
        · exact hafter k' hk
    rw [if_neg (by rwa [hless])]
    by_cases hgt : k < key
    · rw [if_pos ((hless k key).mpr hgt)]
      refine @ihr (.right color left k value :: path) _ h ⟨h, hgt, ?_⟩ hafter
      intro k' hk
      rw [before_right, List.map_append, List.map_append, List.mem_append, List.mem_append] at hk
      rcases hk with (hk | hk) | hk
      · exact hbefore k' hk k (node_keys.mpr (.inr (.inl rfl)))
      · exact hbelow k' hk
      · exact (List.mem_singleton.mp hk).le
    · rw [if_neg (by rwa [hless])]
      obtain rfl := le_antisymm (not_lt.mp hgt) (not_lt.mp hlt)
      exact (descend_nearest hless hs h).1

theorem gsearch_above {parent : Option (Place κ ν)} (h : plug tree path = root)
    (hparent : HeldAbove key root path parent) (hbefore : ∀ k ∈ (before path).map Prod.fst, k < key) :
    Above key root (gsearchBy less key tree path parent) := by
  induction tree generalizing path parent with
  | null =>
    have hkeys := plug_keys h
    cases parent with
    | none =>
      rw [HeldAbove] at hparent
      simp only [hparent, List.map_nil, List.not_mem_nil, or_false] at hkeys
      intro k hk
      rcases (hkeys k).mp hk with hk | hk
      · exact hbefore k hk
      · cases hk
    | some node =>
      obtain ⟨hin, hlt, hafter⟩ := hparent
      refine ⟨hin, hlt.le, ?_⟩
      intro k hk hle
      rcases (hkeys k).mp hk with hk | hk | hk
      · exact absurd (hbefore k hk) (not_lt.mpr hle)
      · cases hk
      · exact hafter k hk
  | node color left k value right ihl ihr =>
    obtain ⟨htree, -, hafter⟩ := plug_sorted h hs
    obtain ⟨-, -, hbelow, habove⟩ := sorted_node htree
    rw [gsearchBy]
    by_cases hlt : key < k
    · rw [if_pos ((hless key k).mpr hlt)]
      refine @ihl (.left color k value right :: path) _ h ⟨h, hlt, ?_⟩ hbefore
      intro k' hk
      rw [after_left, List.map_append, List.map_cons, List.mem_append, List.mem_cons] at hk
      rcases hk with (rfl | hk) | hk
      · exact le_refl _
      · exact habove k' hk
      · exact hafter k (node_keys.mpr (.inr (.inl rfl))) k' hk
    rw [if_neg (by rwa [hless])]
    by_cases hgt : k < key
    · rw [if_pos ((hless k key).mpr hgt)]
      refine @ihr (.right color left k value :: path) parent h ?_ ?_
      · cases parent <;> exact hparent
      · intro k' hk
        rw [before_right, List.map_append, List.map_append, List.mem_append, List.mem_append] at hk
        rcases hk with (hk | hk) | hk
        · exact hbefore k' hk
        · exact (hbelow k' hk).trans_lt hgt
        · exact (List.mem_singleton.mp hk).trans_lt hgt
    · rw [if_neg (by rwa [hless])]
      obtain rfl := le_antisymm (not_lt.mp hgt) (not_lt.mp hlt)
      exact (descend_nearest hless hs h).2

omit hs in
/-- Both searches from the root on. -/
theorem search_nearest {root : Tree κ ν} (hs : Multimap.Sorted root.toList) (key : κ) :
    Below key root (lsearchBy less key root [] none) ∧ Above key root (gsearchBy less key root [] none) := by
  constructor
  · exact lsearch_below hless hs rfl rfl (by simp)
  · exact gsearch_above hless hs rfl rfl (by simp)

end

/-- For all insertions and deletions of nodes with integer keys or with strings, the searches come to
a nearest node on their side of the key, and to none if there is none. -/
theorem neighbours_nearest {ν : Type} [DecidableEq ν] :
    (∀ ops : List (Op Nat ν), Allowed [] ops → ∃ root, run rbtInsertInt ops .null = some root ∧
      ∀ key, Below key root (rbtLsearchInt root key) ∧ Above key root (rbtGsearchInt root key)) ∧
    ∀ ops : List (Op Str ν), Allowed [] ops → ∃ root, run rbtInsertStr ops .null = some root ∧
      ∀ key, Below key root (rbtLsearchStr root key) ∧ Above key root (rbtGsearchStr root key) := by
  constructor
  · intro ops hallowed
    have hless : ∀ a b : Nat, decide (a < b) = true ↔ a < b := fun _ _ => decide_eq_true_iff
    obtain ⟨root, hrun, hordered⟩ := run_ordered hless hallowed null_ordered ⟨0, .null⟩
    exact ⟨root, hrun, search_nearest hless hordered.sorted⟩
  · intro ops hallowed
    obtain ⟨root, hrun, hordered⟩ := run_ordered strcmp_less hallowed null_ordered ⟨0, .null⟩
    exact ⟨root, hrun, search_nearest strcmp_less hordered.sorted⟩

/-- The keys 2, 4 and 4. -/
theorem neighbours_three :
    ∃ root, run rbtInsertInt [.insert 4 'a', .insert 2 'b', .insert 4 'c'] .null = some root ∧
      ∀ key, Below key root (rbtLsearchInt root key) ∧ Above key root (rbtGsearchInt root key) :=
  neighbours_nearest.1 _ ⟨by decide, by decide, by decide, trivial⟩

end Yclib.Rbt
