import Yclib.Util.Multimap
import Mathlib.Data.List.Lex
import Mathlib.Data.List.Induction

namespace Yclib.Rbt

/-! The red-black trees of the library. A node is told by its value; its parent pointer is the
path from it to the root. A NULL pointer that would be followed gives no result. -/

inductive Color
  | red
  | black
deriving DecidableEq

/-- What a `rbt_node_t` pointer leads to. -/
inductive Tree (κ ν : Type)
  | null
  | node (color : Color) (left : Tree κ ν) (key : κ) (value : ν) (right : Tree κ ν)

/-- A parent with its other child; the constructor says which child is below. -/
inductive Parent (κ ν : Type)
  | left (color : Color) (key : κ) (value : ν) (right : Tree κ ν)
  | right (color : Color) (left : Tree κ ν) (key : κ) (value : ν)

variable {κ ν : Type}

def Parent.color : Parent κ ν → Color
  | .left color _ _ _ => color
  | .right color _ _ _ => color

/-- The parent in this colour, with this child. -/
def Parent.fill (color : Color) (child : Tree κ ν) : Parent κ ν → Tree κ ν
  | .left _ key value other => .node color child key value other
  | .right _ other key value => .node color other key value child

/-- The whole tree, with this subtree at the end of the path. -/
def plug (tree : Tree κ ν) : List (Parent κ ν) → Tree κ ν
  | [] => tree
  | parent :: up => plug (parent.fill parent.color tree) up

/-- `tmp && rbt_is_red(tmp)`. -/
def Tree.isRed : Tree κ ν → Bool
  | .node .red _ _ _ _ => true
  | _ => false

/-- `if (tmp) rbt_set_parent_color(tmp, ..)`. -/
def Tree.setColor (color : Color) : Tree κ ν → Tree κ ν
  | .null => .null
  | .node _ left key value right => .node color left key value right

def Tree.isNull : Tree κ ν → Bool
  | .null => true
  | _ => false

/-- `__rbt_insert` at the red node with these children. -/
def rbtInsertColor (left : Tree κ ν) (key : κ) (value : ν) (right : Tree κ ν) :
    List (Parent κ ν) → Option (Tree κ ν)
  | [] => some (.node .black left key value right)
  | [parent] =>
    if parent.color = .black then some (plug (.node .red left key value right) [parent]) else none
  | parent :: gparent :: up =>
    if parent.color = .black then
      some (plug (.node .red left key value right) (parent :: gparent :: up))
    else match gparent with
      | .left gcolor gkey gvalue tmp =>
        if tmp.isRed then
          -- Case 1 - color flips
          rbtInsertColor (parent.fill .black (.node .red left key value right)) gkey gvalue
            (tmp.setColor .black) up
        else match parent with
          | .right _ pleft pkey pvalue =>
            -- Case 2 - left rotate at parent, and then case 3
            some (plug (.node gcolor (.node .red pleft pkey pvalue (left.setColor .black)) key value
              (.node .red (right.setColor .black) gkey gvalue tmp)) up)
          | .left _ pkey pvalue pright =>
            -- Case 3 - right rotate at gparent
            some (plug (.node gcolor (.node .red left key value right) pkey pvalue
              (.node .red (pright.setColor .black) gkey gvalue tmp)) up)
      | .right gcolor tmp gkey gvalue =>
        if tmp.isRed then
          rbtInsertColor (tmp.setColor .black) gkey gvalue
            (parent.fill .black (.node .red left key value right)) up
        else match parent with
          | .left _ pkey pvalue pright =>
            some (plug (.node gcolor (.node .red tmp gkey gvalue (left.setColor .black)) key value
              (.node .red (right.setColor .black) pkey pvalue pright)) up)
          | .right _ pleft pkey pvalue =>
            some (plug (.node gcolor (.node .red tmp gkey gvalue (pleft.setColor .black)) pkey pvalue
              (.node .red left key value right)) up)

/-- The walk of `rbt_insert_int` and `rbt_insert_str` to the NULL pointer that the node goes to. -/
def walk (less : κ → κ → Bool) (key : κ) : Tree κ ν → List (Parent κ ν) → List (Parent κ ν)
  | .null, path => path
  | .node color left k value right, path =>
    if less key k then walk less key left (.left color k value right :: path)
    else walk less key right (.right color left k value :: path)

/-- `rbt_link_node` and `rbt_insert_color` where the walk ends. -/
def insertBy (less : κ → κ → Bool) (root : Tree κ ν) (key : κ) (value : ν) : Option (Tree κ ν) :=
  rbtInsertColor .null key value .null (walk less key root [])

/-- `rbt_insert_int`. -/
def rbtInsertInt (root : Tree Nat ν) (key : Nat) (value : ν) : Option (Tree Nat ν) :=
  insertBy (fun a b => decide (a < b)) root key value

/-- `key.str`: the bytes in front of the NUL. -/
structure Str where
  bytes : List UInt8
deriving DecidableEq

/-- `rns_strcmp(str, other) < 0`. -/
def strcmpLess : List UInt8 → List UInt8 → Bool
  | _, [] => false
  | [], _ :: _ => true
  | a :: str, b :: other => if a = b then strcmpLess str other else decide (a < b)

/-- `rbt_insert_str`. -/
def rbtInsertStr (root : Tree Str ν) (key : Str) (value : ν) : Option (Tree Str ν) :=
  insertBy (fun a b => strcmpLess a.bytes b.bytes) root key value

/-- A node with the path from it to the root. -/
structure Place (κ ν : Type) where
  color : Color
  left : Tree κ ν
  key : κ
  value : ν
  right : Tree κ ν
  path : List (Parent κ ν)

def Place.tree (place : Place κ ν) : Tree κ ν :=
  .node place.color place.left place.key place.value place.right

/-- `while (n->rbt_left) n = n->rbt_left`, from a node on. -/
def leftmost (color : Color) : Tree κ ν → κ → ν → Tree κ ν → List (Parent κ ν) → Place κ ν
  | .null, key, value, right, path => ⟨color, .null, key, value, right, path⟩
  | .node color' left' key' value' right', key, value, right, path =>
    leftmost color' left' key' value' right' (.left color key value right :: path)

/-- `rbt_first`. -/
def rbtFirst : Tree κ ν → Option (Place κ ν)
  | .null => none
  | .node color left key value right => some (leftmost color left key value right [])

/-- `while ((parent = rbt_parent(node)) && node == parent->rbt_right) node = parent`. -/
def ascend (node : Tree κ ν) : List (Parent κ ν) → Option (Place κ ν)
  | [] => none
  | .right color left key value :: up => ascend (.node color left key value node) up
  | .left color key value right :: up => some ⟨color, node, key, value, right, up⟩

/-- `rbt_next`. -/
def rbtNext (node : Place κ ν) : Option (Place κ ν) :=
  match node.right with
  | .node color left key value right =>
    some (leftmost color left key value right
      (.right node.color node.left node.key node.value :: node.path))
  | .null => ascend node.tree node.path

/-- So many rounds of `rbt_for_each` from this node on, with the nodes that they visit. -/
def rounds : Nat → Option (Place κ ν) → List ν
  | 0, _ => []
  | _ + 1, none => []
  | fuel + 1, some node => node.value :: rounds fuel (rbtNext node)

/-- `rbt_for_each`. -/
def rbtForEach (fuel : Nat) (root : Tree κ ν) : List ν := rounds fuel (rbtFirst root)

/-- The cases 2 to 4 of `____rbt_erase_color` for a left child, with the sibling that is black
then: the subtree of the parent, and whether the loop goes on at it. -/
def eraseLeft (node : Tree κ ν) (color : Color) (key : κ) (value : ν) :
    Tree κ ν → Option (Tree κ ν × Bool)
  | .null => none
  | .node _ sleft skey svalue sright =>
    if sright.isRed then
      -- Case 4 - left rotate at parent + color flips
      some (.node color (.node .black node key value sleft) skey svalue (sright.setColor .black), false)
    else match sleft with
      | .node .red tmpleft tmpkey tmpvalue tmpright =>
        -- Case 3 - right rotate at sibling, and then case 4
        some (.node color (.node .black node key value tmpleft) tmpkey tmpvalue
          (.node .black (tmpright.setColor .black) skey svalue sright), false)
      | _ =>
        -- Case 2 - sibling color flip
        some (.node .black node key value (.node .red sleft skey svalue sright), decide (color = .black))

/-- The same for a right child. -/
def eraseRight (node : Tree κ ν) (color : Color) (key : κ) (value : ν) :
    Tree κ ν → Option (Tree κ ν × Bool)
  | .null => none
  | .node _ sleft skey svalue sright =>
    if sleft.isRed then
      some (.node color (sleft.setColor .black) skey svalue (.node .black sright key value node), false)
    else match sright with
      | .node .red tmpleft tmpkey tmpvalue tmpright =>
        some (.node color (.node .black sleft skey svalue (tmpleft.setColor .black)) tmpkey tmpvalue
          (.node .black tmpright key value node), false)
      | _ =>
        some (.node .black (.node .red sleft skey svalue sright) key value node, decide (color = .black))

/-- `____rbt_erase_color` at the parent in front of the path, below which `node` is one black
node short. -/
def rbtEraseColor (node : Tree κ ν) : List (Parent κ ν) → Option (Tree κ ν)
  | [] => some node
  | .left color key value sibling :: up =>
    match sibling with
    | .node .red sleft skey svalue sright =>
      -- Case 1 - left rotate at parent, which is red then, so that the loop ends
      if sleft.isNull then none
      else (eraseLeft node .red key value (sleft.setColor .black)).map fun fixed =>
        plug (.node color fixed.1 skey svalue sright) up
    | sibling =>
      (eraseLeft node color key value sibling).bind fun fixed =>
        if fixed.2 then rbtEraseColor fixed.1 up else some (plug fixed.1 up)
  | .right color sibling key value :: up =>
    match sibling with
    | .node .red sleft skey svalue sright =>
      if sright.isNull then none
      else (eraseRight node .red key value (sright.setColor .black)).map fun fixed =>
        plug (.node color sleft skey svalue fixed.1) up
    | sibling =>
      (eraseRight node color key value sibling).bind fun fixed =>
        if fixed.2 then rbtEraseColor fixed.1 up else some (plug fixed.1 up)

/-- The end of `__rbt_erase_augmented`, and `rbt_erase`: a node of this colour is gone from the
end of the path, and its child has come to its place. -/
def rebalance (color : Color) (child : Tree κ ν) (path : List (Parent κ ν)) : Option (Tree κ ν) :=
  match child with
  | .null => if color = .black then rbtEraseColor .null path else some (plug .null path)
  | .node _ left key value right => some (plug (.node .black left key value right) path)

/-- `rbt_erase`. -/
def rbtErase (node : Place κ ν) : Option (Tree κ ν) :=
  match node.left, node.right with
  | .null, .null => rebalance node.color .null node.path
  | .null, child => some (plug (child.setColor node.color) node.path)
  | tmp, .null => some (plug (tmp.setColor node.color) node.path)
  | left, .node color left' key value right' =>
    let successor := leftmost color left' key value right' []
    rebalance successor.color successor.right
      (successor.path ++ .right node.color left successor.key successor.value :: node.path)

/-- The node with this value. -/
def locate [DecidableEq ν] (value : ν) : Tree κ ν → List (Parent κ ν) → Option (Place κ ν)
  | .null, _ => none
  | .node color left k v right, path =>
    if v = value then some ⟨color, left, k, v, right, path⟩
    else (locate value left (.left color k v right :: path)).orElse fun _ =>
      locate value right (.right color left k v :: path)

/-- `rbt_delete` of a node that is linked, with the next node, which it returns. -/
def rbtDelete [DecidableEq ν] (root : Tree κ ν) (value : ν) : Option (Option ν × Tree κ ν) :=
  (locate value root []).bind fun node =>
    (rbtErase node).map fun root' => ((rbtNext node).map Place.value, root')

/-- The nodes in order. -/
def Tree.toList : Tree κ ν → List (κ × ν)
  | .null => []
  | .node _ left key value right => left.toList ++ (key, value) :: right.toList

/-- The nodes in front of what is below the path. -/
def before : List (Parent κ ν) → List (κ × ν)
  | [] => []
  | .left _ _ _ _ :: up => before up
  | .right _ left key value :: up => before up ++ left.toList ++ [(key, value)]

/-- The nodes behind what is below the path. -/
def after : List (Parent κ ν) → List (κ × ν)
  | [] => []
  | .left _ key value right :: up => (key, value) :: right.toList ++ after up
  | .right _ _ _ _ :: up => after up

@[simp] theorem list_null : (Tree.null : Tree κ ν).toList = [] := rfl

@[simp] theorem list_node (color : Color) (left right : Tree κ ν) (key : κ) (value : ν) :
    (Tree.node color left key value right).toList = left.toList ++ (key, value) :: right.toList := rfl

@[simp] theorem before_nil : before ([] : List (Parent κ ν)) = [] := rfl

@[simp] theorem after_nil : after ([] : List (Parent κ ν)) = [] := rfl

@[simp] theorem before_left (color : Color) (key : κ) (value : ν) (right : Tree κ ν)
    (up : List (Parent κ ν)) : before (.left color key value right :: up) = before up := rfl

@[simp] theorem before_right (color : Color) (left : Tree κ ν) (key : κ) (value : ν)
    (up : List (Parent κ ν)) :
    before (.right color left key value :: up) = before up ++ left.toList ++ [(key, value)] := rfl

@[simp] theorem after_left (color : Color) (key : κ) (value : ν) (right : Tree κ ν)
    (up : List (Parent κ ν)) :
    after (.left color key value right :: up) = (key, value) :: right.toList ++ after up := rfl

@[simp] theorem after_right (color : Color) (left : Tree κ ν) (key : κ) (value : ν)
    (up : List (Parent κ ν)) : after (.right color left key value :: up) = after up := rfl

@[simp] theorem list_color (color : Color) (tree : Tree κ ν) :
    (tree.setColor color).toList = tree.toList := by
  cases tree <;> rfl

@[simp] theorem fill_color (color : Color) (child : Tree κ ν) (parent : Parent κ ν) :
    (parent.fill color child).toList = (parent.fill parent.color child).toList := by
  cases parent <;> rfl

theorem plug_list (tree : Tree κ ν) (path : List (Parent κ ν)) :
    (plug tree path).toList = before path ++ tree.toList ++ after path := by
  induction path generalizing tree with
  | nil => simp [plug]
  | cons parent up ih =>
    rw [plug, ih]
    cases parent <;> simp [Parent.fill]

/-- The rotations of an insertion keep the order of the nodes. -/
theorem insert_color_list {left right : Tree κ ν} {key : κ} {value : ν} {path : List (Parent κ ν)}
    {root : Tree κ ν} (h : rbtInsertColor left key value right path = some root) :
    root.toList = before path ++ left.toList ++ (key, value) :: right.toList ++ after path := by
  induction path using List.twoStepInduction generalizing left key value right with
  | nil =>
    cases h
    simp
  | singleton parent =>
    rw [rbtInsertColor] at h
    split at h
    · cases h
      simp [plug_list]
    · cases h
  | cons_cons parent gparent up ih _ =>
    unfold rbtInsertColor at h
    split at h
    · cases h
      simp [plug_list]
    · cases gparent with
      | left gcolor gkey gvalue tmp =>
        simp only at h
        split at h
        · rw [ih h]
          cases parent <;> simp [Parent.fill]
        · cases parent with
          | left pcolor pkey pvalue pright =>
            cases h
            simp [plug_list]
          | right pcolor pleft pkey pvalue =>
            cases h
            simp [plug_list]
      | right gcolor tmp gkey gvalue =>
        simp only at h
        split at h
        · rw [ih h]
          cases parent <;> simp [Parent.fill]
        · cases parent with
          | left pcolor pkey pvalue pright =>
            cases h
            simp [plug_list]
          | right pcolor pleft pkey pvalue =>
            cases h
            simp [plug_list]

theorem erase_left_list {node sibling : Tree κ ν} {color : Color} {key : κ} {value : ν}
    {fixed : Tree κ ν × Bool} (h : eraseLeft node color key value sibling = some fixed) :
    fixed.1.toList = node.toList ++ (key, value) :: sibling.toList := by
  cases sibling with
  | null => cases h
  | node scolor sleft skey svalue sright =>
    unfold eraseLeft at h
    dsimp only at h
    split at h
    · cases h
      simp
    · split at h <;> cases h <;> simp

theorem erase_right_list {node sibling : Tree κ ν} {color : Color} {key : κ} {value : ν}
    {fixed : Tree κ ν × Bool} (h : eraseRight node color key value sibling = some fixed) :
    fixed.1.toList = sibling.toList ++ (key, value) :: node.toList := by
  cases sibling with
  | null => cases h
  | node scolor sleft skey svalue sright =>
    unfold eraseRight at h
    dsimp only at h
    split at h
    · cases h
      simp
    · split at h <;> cases h <;> simp

/-- So do those of an erasure. -/
theorem erase_color_list {node : Tree κ ν} {path : List (Parent κ ν)} {root : Tree κ ν}
    (h : rbtEraseColor node path = some root) :
    root.toList = before path ++ node.toList ++ after path := by
  induction path generalizing node with
  | nil =>
    cases h
    simp
  | cons parent up ih =>
    cases parent with
    | left color key value sibling =>
      unfold rbtEraseColor at h
      split at h
      · split at h
        · cases h
        · obtain ⟨fixed, hfixed, rfl⟩ := Option.map_eq_some_iff.mp h
          simp [plug_list, erase_left_list hfixed]
      · obtain ⟨fixed, hfixed, h⟩ := Option.bind_eq_some_iff.mp h
        split at h
        · simp [ih h, erase_left_list hfixed]
        · cases h
          simp [plug_list, erase_left_list hfixed]
    | right color sibling key value =>
      unfold rbtEraseColor at h
      split at h
      · split at h
        · cases h
        · obtain ⟨fixed, hfixed, rfl⟩ := Option.map_eq_some_iff.mp h
          simp [plug_list, erase_right_list hfixed]
      · obtain ⟨fixed, hfixed, h⟩ := Option.bind_eq_some_iff.mp h
        split at h
        · simp [ih h, erase_right_list hfixed]
        · cases h
          simp [plug_list, erase_right_list hfixed]

theorem rebalance_list {color : Color} {child : Tree κ ν} {path : List (Parent κ ν)} {root : Tree κ ν}
    (h : rebalance color child path = some root) :
    root.toList = before path ++ child.toList ++ after path := by
  cases child with
  | null =>
    rw [rebalance] at h
    split at h
    · exact erase_color_list h
    · cases h
      exact plug_list _ _
  | node ccolor left key value right =>
    cases h
    simp [plug_list]

/-- The leftmost node of a subtree has no left child, and comes first in it. -/
theorem leftmost_list (color : Color) (left : Tree κ ν) (key : κ) (value : ν) (right : Tree κ ν)
    (path : List (Parent κ ν)) {place : Place κ ν} (h : leftmost color left key value right path = place) :
    place.left = .null ∧ before place.path = before path ∧
      (place.key, place.value) :: place.right.toList ++ after place.path =
        left.toList ++ (key, value) :: right.toList ++ after path := by
  induction left generalizing color key value right path with
  | null =>
    cases h
    exact ⟨rfl, rfl, by simp [leftmost]⟩
  | node color' left' key' value' right' ih _ =>
    rw [leftmost] at h
    obtain ⟨hnull, hbefore, hlist⟩ := ih color' key' value' right' _ h
    exact ⟨hnull, hbefore, by simp [hlist]⟩

theorem leftmost_append (color : Color) (left : Tree κ ν) (key : κ) (value : ν) (right : Tree κ ν)
    (path up : List (Parent κ ν)) : leftmost color left key value right (path ++ up) =
      { leftmost color left key value right path with
        path := (leftmost color left key value right path).path ++ up } := by
  induction left generalizing color key value right path with
  | null => rfl
  | node color' left' key' value' right' ih _ =>
    exact ih color' key' value' right' (.left color key value right :: path)

theorem before_append (path up : List (Parent κ ν)) : before (path ++ up) = before up ++ before path := by
  induction path with
  | nil => simp
  | cons parent path ih => cases parent <;> simp [ih]

theorem after_append (path up : List (Parent κ ν)) : after (path ++ up) = after path ++ after up := by
  induction path with
  | nil => simp
  | cons parent path ih => cases parent <;> simp [ih]

/-- A node is taken out from between its subtrees. -/
theorem erase_list {node : Place κ ν} {root : Tree κ ν} (h : rbtErase node = some root) :
    root.toList = before node.path ++ node.left.toList ++ node.right.toList ++ after node.path := by
  obtain ⟨color, left, key, value, right, path⟩ := node
  rw [rbtErase] at h
  cases left with
  | null =>
    cases right with
    | null => simpa using rebalance_list h
    | node rcolor rleft rkey rvalue rright =>
      cases h
      simp [plug_list, Tree.setColor]
  | node lcolor lleft lkey lvalue lright =>
    cases right with
    | null =>
      cases h
      simp [plug_list, Tree.setColor]
    | node rcolor rleft rkey rvalue rright =>
      have hlist := rebalance_list h
      obtain ⟨-, hbefore, hafter⟩ := leftmost_list rcolor rleft rkey rvalue rright [] rfl
      simp only [before_nil, after_nil, List.append_nil] at hbefore hafter
      simp only [before_append, after_append, hbefore, before_right, after_right] at hlist
      rw [hlist]
      simp [← hafter]

/-- The walk ends between the keys that are not above and those that are. -/
theorem walk_list [LinearOrder κ] {less : κ → κ → Bool} (hless : ∀ a b, less a b = true ↔ a < b)
    (key : κ) {tree : Tree κ ν} (h : Multimap.Sorted tree.toList) (path : List (Parent κ ν)) :
    ∃ front rest, tree.toList = front ++ rest ∧ before (walk less key tree path) = before path ++ front ∧
      after (walk less key tree path) = rest ++ after path ∧ (∀ entry ∈ front, entry.1 ≤ key) ∧
      ∀ entry ∈ rest, key < entry.1 := by
  induction tree generalizing path with
  | null => exact ⟨[], [], rfl, by simp [walk], by simp [walk], by simp, by simp⟩
  | node color left k value right ihl ihr =>
    simp only [Multimap.Sorted, list_node, List.map_append, List.map_cons, List.pairwise_append,
      List.pairwise_cons] at h
    obtain ⟨hleft, ⟨hk, hright⟩, hcross⟩ := h
    rw [walk]
    by_cases hlt : less key k = true
    · obtain ⟨front, rest, hlist, hbefore, hafter, hfront, hrest⟩ :=
        ihl hleft (.left color k value right :: path)
      rw [if_pos hlt]
      refine ⟨front, rest ++ (k, value) :: right.toList, by simp [hlist], by simp [hbefore],
        by simp [hafter], hfront, fun entry hm => ?_⟩
      have hkey : key < k := (hless key k).mp hlt
      rcases List.mem_append.mp hm with hm | hm
      · exact hrest entry hm
      · rcases List.mem_cons.mp hm with rfl | hm
        · exact hkey
        · exact hkey.trans_le (hk _ (List.mem_map_of_mem hm))
    · obtain ⟨front, rest, hlist, hbefore, hafter, hfront, hrest⟩ :=
        ihr hright (.right color left k value :: path)
      rw [if_neg hlt]
      refine ⟨left.toList ++ (k, value) :: front, rest, by simp [hlist], by simp [hbefore],
        by simp [hafter], fun entry hm => ?_, hrest⟩
      have hkey : k ≤ key := not_lt.mp fun hk => hlt ((hless key k).mpr hk)
      rcases List.mem_append.mp hm with hm | hm
      · exact (hcross _ (List.mem_map_of_mem hm) k (by simp)).trans hkey
      · rcases List.mem_cons.mp hm with rfl | hm
        · exact hkey
        · exact hfront entry hm

/-- The walk parts the nodes wherever it ends. -/
theorem walk_parts (less : κ → κ → Bool) (key : κ) (tree : Tree κ ν) (path : List (Parent κ ν)) :
    ∃ front rest, tree.toList = front ++ rest ∧ before (walk less key tree path) = before path ++ front ∧
      after (walk less key tree path) = rest ++ after path := by
  induction tree generalizing path with
  | null => exact ⟨[], [], rfl, by simp [walk], by simp [walk]⟩
  | node color left k value right ihl ihr =>
    rw [walk]
    by_cases hlt : less key k = true
    · obtain ⟨front, rest, hlist, hbefore, hafter⟩ := ihl (.left color k value right :: path)
      rw [if_pos hlt]
      exact ⟨front, rest ++ (k, value) :: right.toList, by simp [hlist], by simp [hbefore],
        by simp [hafter]⟩
    · obtain ⟨front, rest, hlist, hbefore, hafter⟩ := ihr (.right color left k value :: path)
      rw [if_neg hlt]
      exact ⟨left.toList ++ (k, value) :: front, rest, by simp [hlist], by simp [hbefore],
        by simp [hafter]⟩

/-- An insertion adds one node, whatever is compared. -/
theorem insert_perm {less : κ → κ → Bool} {root root' : Tree κ ν} {key : κ} {value : ν}
    (h : insertBy less root key value = some root') :
    root'.toList.Perm ((key, value) :: root.toList) := by
  obtain ⟨front, rest, hlist, hbefore, hafter⟩ := walk_parts less key root []
  rw [insert_color_list h, hbefore, hafter, hlist]
  simp

/-- A node that is inserted goes behind those with its key. -/
theorem insert_list [LinearOrder κ] {less : κ → κ → Bool} (hless : ∀ a b, less a b = true ↔ a < b)
    {root root' : Tree κ ν} {key : κ} {value : ν} (h : Multimap.Sorted root.toList)
    (hinsert : insertBy less root key value = some root') :
    root'.toList = Multimap.insertKey key value root.toList := by
  obtain ⟨front, rest, hlist, hbefore, hafter, hfront, hrest⟩ := walk_list hless key h []
  rw [insert_color_list hinsert, hbefore, hafter, hlist, Multimap.insert_append hfront hrest]
  simp

/-- The nodes behind this one. -/
def Place.rest (node : Place κ ν) : List (κ × ν) := node.right.toList ++ after node.path

theorem ascend_list (node : Tree κ ν) (path : List (Parent κ ν)) :
    (∃ next, ascend node path = some next ∧ after path = (next.key, next.value) :: next.rest) ∨
      ascend node path = none ∧ after path = [] := by
  induction path generalizing node with
  | nil => exact .inr ⟨rfl, rfl⟩
  | cons parent up ih =>
    cases parent with
    | left color key value right => exact .inl ⟨_, rfl, rfl⟩
    | right color left key value => exact ih _

/-- `rbt_next` goes to the first of the nodes behind, if there is one. -/
theorem next_list (node : Place κ ν) :
    (∃ next, rbtNext node = some next ∧ node.rest = (next.key, next.value) :: next.rest) ∨
      rbtNext node = none ∧ node.rest = [] := by
  cases hright : node.right with
  | null =>
    rw [rbtNext, hright, Place.rest, hright]
    exact ascend_list node.tree node.path
  | node color left key value right =>
    obtain ⟨-, -, hlist⟩ := leftmost_list color left key value right
      (.right node.color node.left node.key node.value :: node.path) rfl
    refine .inl ⟨_, by rw [rbtNext, hright], ?_⟩
    rw [Place.rest, hright]
    exact hlist.symm

theorem rounds_list {fuel : Nat} {node : Place κ ν} (hfuel : node.rest.length < fuel) :
    rounds fuel (some node) = node.value :: Multimap.values node.rest := by
  induction fuel generalizing node with
  | zero => cases hfuel
  | succ fuel ih =>
    rw [rounds]
    rcases next_list node with ⟨next, hnext, hrest⟩ | ⟨hnone, hrest⟩
    · rw [hnext, hrest, ih (by rw [hrest, List.length_cons] at hfuel; omega)]
      rfl
    · rw [hnone, hrest]
      cases fuel <;> rfl

/-- `rbt_for_each` visits every node once, in order. -/
theorem for_each_list {root : Tree κ ν} {fuel : Nat} (hfuel : root.toList.length ≤ fuel) :
    rbtForEach fuel root = Multimap.values root.toList := by
  cases root with
  | null =>
    rw [rbtForEach, rbtFirst]
    cases fuel <;> rfl
  | node color left key value right =>
    obtain ⟨-, -, hlist⟩ := leftmost_list color left key value right [] rfl
    simp only [after_nil, List.append_nil, ← list_node color] at hlist
    have hrest : (Tree.node color left key value right).toList =
        ((leftmost color left key value right []).key, (leftmost color left key value right []).value) ::
          (leftmost color left key value right []).rest := hlist.symm
    rw [rbtForEach, rbtFirst, rounds_list, hrest]
    · rfl
    · rw [hrest, List.length_cons] at hfuel
      omega

theorem locate_some [DecidableEq ν] {value : ν} {tree : Tree κ ν} {path : List (Parent κ ν)}
    {node : Place κ ν} (h : locate value tree path = some node) :
    node.value = value ∧ plug node.tree node.path = plug tree path := by
  induction tree generalizing path with
  | null => cases h
  | node color left k v right ihl ihr =>
    rw [locate] at h
    split at h
    · rename_i hv
      cases h
      exact ⟨hv, rfl⟩
    · cases hfind : locate value left (.left color k v right :: path) with
      | some found =>
        rw [hfind] at h
        cases h
        exact ihl hfind
      | none =>
        rw [hfind] at h
        exact ihr h

/-- A node that is linked is found. -/
theorem locate_mem [DecidableEq ν] {value : ν} {tree : Tree κ ν} (hm : value ∈ Multimap.values tree.toList)
    (path : List (Parent κ ν)) : ∃ node, locate value tree path = some node := by
  induction tree generalizing path with
  | null => cases hm
  | node color left k v right ihl ihr =>
    rw [locate]
    by_cases hv : v = value
    · exact ⟨_, if_pos hv⟩
    · rw [if_neg hv]
      simp only [Multimap.values, list_node, List.map_append, List.map_cons, List.mem_append,
        List.mem_cons] at hm
      cases hfind : locate value left (.left color k v right :: path) with
      | some node => exact ⟨node, rfl⟩
      | none =>
        rcases hm with hleft | heq | hright
        · obtain ⟨node, heq⟩ := ihl hleft (.left color k v right :: path)
          rw [hfind] at heq
          cases heq
        · exact absurd heq.symm hv
        · exact ihr hright (.right color left k v :: path)

/-- The nodes around one that is found. -/
theorem locate_list [DecidableEq ν] {value : ν} {root : Tree κ ν} {node : Place κ ν}
    (h : locate value root [] = some node) :
    root.toList = (before node.path ++ node.left.toList) ++ (node.key, value) :: node.rest := by
  obtain ⟨rfl, hplug⟩ := locate_some h
  rw [show root = plug root [] from rfl, ← hplug, plug_list]
  simp [Place.tree, Place.rest]

end Yclib.Rbt
