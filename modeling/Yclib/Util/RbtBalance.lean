import Yclib.Util.Rbt

namespace Yclib.Rbt

variable {κ ν : Type}

/-- A red node has no red child, and so many black nodes lie on the way to each NULL below. -/
inductive Balanced : Tree κ ν → Color → Nat → Prop
  | null : Balanced .null .black 0
  | red {left right : Tree κ ν} {key : κ} {value : ν} {n : Nat} (hl : Balanced left .black n)
      (hr : Balanced right .black n) : Balanced (.node .red left key value right) .red n
  | black {left right : Tree κ ν} {key : κ} {value : ν} {n : Nat} {lcolor rcolor : Color}
      (hl : Balanced left lcolor n) (hr : Balanced right rcolor n) :
      Balanced (.node .black left key value right) .black (n + 1)

/-- A balanced subtree of this colour and height can hang from the end of the path, in a tree
with a black root. -/
inductive Hangs : List (Parent κ ν) → Color → Nat → Prop
  | root {n : Nat} : Hangs [] .black n
  | redLeft {key : κ} {value : ν} {right : Tree κ ν} {up : List (Parent κ ν)} {n : Nat}
      (hr : Balanced right .black n) (hup : Hangs up .red n) :
      Hangs (.left .red key value right :: up) .black n
  | redRight {key : κ} {value : ν} {left : Tree κ ν} {up : List (Parent κ ν)} {n : Nat}
      (hl : Balanced left .black n) (hup : Hangs up .red n) :
      Hangs (.right .red left key value :: up) .black n
  | blackLeft {key : κ} {value : ν} {right : Tree κ ν} {up : List (Parent κ ν)} {n : Nat}
      {color rcolor : Color} (hr : Balanced right rcolor n) (hup : Hangs up .black (n + 1)) :
      Hangs (.left .black key value right :: up) color n
  | blackRight {key : κ} {value : ν} {left : Tree κ ν} {up : List (Parent κ ν)} {n : Nat}
      {color lcolor : Color} (hl : Balanced left lcolor n) (hup : Hangs up .black (n + 1)) :
      Hangs (.right .black left key value :: up) color n

/-- The tree has a black root, or none, and is balanced. -/
def Sound (root : Tree κ ν) : Prop := ∃ n, Balanced root .black n

section
variable {tree left right : Tree κ ν} {path : List (Parent κ ν)} {color : Color} {key : κ} {value : ν}
  {n : Nat}

theorem plug_sound (hpath : Hangs path color n) (htree : Balanced tree color n) : Sound (plug tree path) := by
  induction hpath generalizing tree with
  | root => exact ⟨_, htree⟩
  | redLeft hr _ ih => exact ih (.red htree hr)
  | redRight hl _ ih => exact ih (.red hl htree)
  | blackLeft hr _ ih => exact ih (.black htree hr)
  | blackRight hl _ ih => exact ih (.black hl htree)

/-- Where a red node can hang, a black one can. -/
theorem Hangs.any (h : Hangs path .red n) (color : Color) : Hangs path color n := by
  cases h with
  | blackLeft hr hup => exact .blackLeft hr hup
  | blackRight hl hup => exact .blackRight hl hup

theorem is_red (h : Balanced tree color n) : tree.isRed = decide (color = .red) := by
  cases h <;> rfl

theorem is_null (h : Balanced tree color n) (hcolor : color = .red ∨ 0 < n) : tree.isNull = false := by
  cases h with
  | null =>
    rcases hcolor with hcolor | hn
    · cases hcolor
    · cases hn
  | red => rfl
  | black => rfl

/-- A subtree that is black stays as it is. -/
theorem set_black (h : Balanced tree .black n) : tree.setColor .black = tree := by
  cases h <;> rfl

/-- A red node becomes black, and higher. -/
theorem red_black (h : Balanced tree .red n) : Balanced (tree.setColor .black) .black (n + 1) := by
  cases h with
  | red hl hr => exact .black hl hr

/-- The parents of a subtree of a balanced tree. -/
theorem unplug (h : Balanced (plug tree path) color n) (hroot : color = .black) :
    ∃ color n, Balanced tree color n ∧ Hangs path color n := by
  induction path generalizing tree with
  | nil => exact ⟨color, n, h, hroot ▸ .root⟩
  | cons parent up ih =>
    obtain ⟨pcolor, m, hparent, hup⟩ := ih h
    cases parent with
    | left c k v other =>
      cases hparent with
      | red hl hr => exact ⟨_, _, hl, .redLeft hr hup⟩
      | black hl hr => exact ⟨_, _, hl, .blackLeft hr hup⟩
    | right c other k v =>
      cases hparent with
      | red hl hr => exact ⟨_, _, hr, .redRight hl hup⟩
      | black hl hr => exact ⟨_, _, hr, .blackRight hl hup⟩

/-- `__rbt_insert` follows no NULL pointer, and leaves the tree balanced. -/
theorem insert_color_sound (hl : Balanced left .black n) (hr : Balanced right .black n)
    (hpath : Hangs path .black n) :
    ∃ root, rbtInsertColor left key value right path = some root ∧ Sound root := by
  induction path using List.twoStepInduction generalizing left key value right n with
  | nil => exact ⟨_, rfl, _, .black hl hr⟩
  | singleton parent =>
    cases hpath with
    | redLeft hr' hup => cases hup
    | redRight hl' hup => cases hup
    | blackLeft hr' hup => exact ⟨_, rfl, plug_sound (.blackLeft hr' hup) (.red hl hr)⟩
    | blackRight hl' hup => exact ⟨_, rfl, plug_sound (.blackRight hl' hup) (.red hl hr)⟩
  | cons_cons parent gparent up ih _ =>
    have hnode : Balanced (.node .red left key value right) .red n := .red hl hr
    cases hpath with
    | blackLeft hr' hup =>
      refine ⟨_, rfl, plug_sound (.blackLeft hr' hup) hnode⟩
    | blackRight hl' hup =>
      refine ⟨_, rfl, plug_sound (.blackRight hl' hup) hnode⟩
    | @redLeft pkey pvalue pright _ _ hr' hup =>
      have hparent : Balanced (.node .black (.node .red left key value right) pkey pvalue pright) .black (n + 1) :=
        .black hnode hr'
      cases hup with
      | @blackLeft gkey gvalue tmp _ _ _ tcolor htmp hup =>
        unfold rbtInsertColor
        cases tcolor with
        | red =>
          simp only [Parent.color, is_red htmp, reduceCtorEq, if_false, decide_true, if_true]
          exact ih hparent (red_black htmp) hup
        | black =>
          simp only [Parent.color, is_red htmp, reduceCtorEq, if_false, decide_false, Bool.false_eq_true]
          rw [set_black hr']
          exact ⟨_, rfl, plug_sound hup (.black hnode (.red hr' htmp))⟩
      | @blackRight gkey gvalue tmp _ _ _ tcolor htmp hup =>
        unfold rbtInsertColor
        cases tcolor with
        | red =>
          simp only [Parent.color, is_red htmp, reduceCtorEq, if_false, decide_true, if_true]
          exact ih (red_black htmp) hparent hup
        | black =>
          simp only [Parent.color, is_red htmp, reduceCtorEq, if_false, decide_false, Bool.false_eq_true]
          rw [set_black hl, set_black hr]
          exact ⟨_, rfl, plug_sound hup (.black (.red htmp hl) (.red hr hr'))⟩
    | @redRight pkey pvalue pleft _ _ hl' hup =>
      have hparent : Balanced (.node .black pleft pkey pvalue (.node .red left key value right)) .black (n + 1) :=
        .black hl' hnode
      cases hup with
      | @blackLeft gkey gvalue tmp _ _ _ tcolor htmp hup =>
        unfold rbtInsertColor
        cases tcolor with
        | red =>
          simp only [Parent.color, is_red htmp, reduceCtorEq, if_false, decide_true, if_true]
          exact ih hparent (red_black htmp) hup
        | black =>
          simp only [Parent.color, is_red htmp, reduceCtorEq, if_false, decide_false, Bool.false_eq_true]
          rw [set_black hl, set_black hr]
          exact ⟨_, rfl, plug_sound hup (.black (.red hl' hl) (.red hr htmp))⟩
      | @blackRight gkey gvalue tmp _ _ _ tcolor htmp hup =>
        unfold rbtInsertColor
        cases tcolor with
        | red =>
          simp only [Parent.color, is_red htmp, reduceCtorEq, if_false, decide_true, if_true]
          exact ih (red_black htmp) hparent hup
        | black =>
          simp only [Parent.color, is_red htmp, reduceCtorEq, if_false, decide_false, Bool.false_eq_true]
          rw [set_black hl']
          exact ⟨_, rfl, plug_sound hup (.black (.red htmp hl') hnode)⟩

/-- What the cases 2 to 4 of `____rbt_erase_color` leave of a parent of this colour, below which
a node was short: the loop goes on only where the parent was black, and is short now. -/
def Fixed (color : Color) (n : Nat) (fixed : Tree κ ν × Bool) : Prop :=
  if fixed.2 then color = .black ∧ Balanced fixed.1 .black (n + 1)
  else match color with
    | .red => ∃ color, Balanced fixed.1 color (n + 1)
    | .black => Balanced fixed.1 .black (n + 2)

/-- The parent keeps its colour above two black nodes. -/
theorem fixed_node (color : Color) (hl : Balanced left .black (n + 1)) (hr : Balanced right .black (n + 1)) :
    Fixed color n (.node color left key value right, false) := by
  cases color with
  | red => exact ⟨_, .red hl hr⟩
  | black => exact .black hl hr

/-- The parent becomes black above a red sibling. -/
theorem fixed_flip (color : Color) (h : Balanced tree .black (n + 1)) :
    Fixed color n (tree, decide (color = .black)) := by
  cases color with
  | red => exact ⟨_, h⟩
  | black => exact ⟨rfl, h⟩

theorem erase_left_sound {node sibling : Tree κ ν} (hnode : Balanced node .black n)
    (hsibling : Balanced sibling .black (n + 1)) (color : Color) :
    ∃ fixed, eraseLeft node color key value sibling = some fixed ∧ Fixed color n fixed := by
  cases hsibling with
  | @black sleft sright skey svalue _ lcolor rcolor hl hr =>
    unfold eraseLeft
    simp only [is_red hr]
    cases rcolor with
    | red => exact ⟨_, rfl, fixed_node color (.black hnode hl) (red_black hr)⟩
    | black =>
      cases hl with
      | red hl' hr' =>
        refine ⟨_, rfl, ?_⟩
        rw [set_black hr']
        exact fixed_node color (.black hnode hl') (.black hr' hr)
      | null => exact ⟨_, rfl, fixed_flip color (.black hnode (.red .null hr))⟩
      | black hl' hr' => exact ⟨_, rfl, fixed_flip color (.black hnode (.red (.black hl' hr') hr))⟩

theorem erase_right_sound {node sibling : Tree κ ν} (hnode : Balanced node .black n)
    (hsibling : Balanced sibling .black (n + 1)) (color : Color) :
    ∃ fixed, eraseRight node color key value sibling = some fixed ∧ Fixed color n fixed := by
  cases hsibling with
  | @black sleft sright skey svalue _ lcolor rcolor hl hr =>
    unfold eraseRight
    simp only [is_red hl]
    cases lcolor with
    | red => exact ⟨_, rfl, fixed_node color (red_black hl) (.black hr hnode)⟩
    | black =>
      cases hr with
      | red hl' hr' =>
        refine ⟨_, rfl, ?_⟩
        rw [set_black hl']
        exact fixed_node color (.black hl hl') (.black hr' hnode)
      | null => exact ⟨_, rfl, fixed_flip color (.black (.red hl .null) hnode)⟩
      | black hl' hr' => exact ⟨_, rfl, fixed_flip color (.black (.red hl (.black hl' hr')) hnode)⟩

/-- The loop goes on above, or ends. -/
theorem fixed_loop {fixed : Tree κ ν × Bool} (hfixed : Fixed color n fixed)
    (hred : color = .red → Hangs path .red (n + 1)) (hblack : color = .black → Hangs path .black (n + 2))
    (ih : ∀ {node : Tree κ ν} {n : Nat}, Balanced node .black n → Hangs path .black (n + 1) →
      ∃ root, rbtEraseColor node path = some root ∧ Sound root) :
    ∃ root, (if fixed.2 then rbtEraseColor fixed.1 path else some (plug fixed.1 path)) = some root ∧
      Sound root := by
  obtain ⟨tree, more⟩ := fixed
  cases more with
  | true =>
    obtain ⟨hcolor, htree⟩ := hfixed
    exact ih htree (hblack hcolor)
  | false =>
    refine ⟨_, rfl, ?_⟩
    cases color with
    | red =>
      obtain ⟨color, htree⟩ := hfixed
      exact plug_sound ((hred rfl).any color) htree
    | black => exact plug_sound (hblack rfl) hfixed

/-- Below a parent that is red now the loop ends. -/
theorem fixed_red {fixed : Tree κ ν × Bool} (hfixed : Fixed .red n fixed) :
    ∃ color, Balanced fixed.1 color (n + 1) := by
  obtain ⟨tree, more⟩ := fixed
  cases more with
  | true => cases hfixed.1
  | false => exact hfixed

/-- `____rbt_erase_color` follows no NULL pointer, and leaves the tree balanced. -/
theorem erase_color_sound {node : Tree κ ν} (hnode : Balanced node .black n)
    (hpath : Hangs path .black (n + 1)) :
    ∃ root, rbtEraseColor node path = some root ∧ Sound root := by
  induction path generalizing node n with
  | nil => exact ⟨node, rfl, n, hnode⟩
  | cons parent up ih =>
    cases hpath with
    | @redLeft pkey pvalue sibling _ _ hsibling hup =>
      obtain ⟨fixed, heq, hfixed⟩ := @erase_left_sound _ _ pkey pvalue _ _ _ hnode hsibling .red
      cases hsibling with
      | black hl hr =>
        unfold rbtEraseColor
        simp only [heq, Option.bind_some]
        exact fixed_loop hfixed (fun _ => hup) (fun h => by cases h) ih
    | @redRight pkey pvalue sibling _ _ hsibling hup =>
      obtain ⟨fixed, heq, hfixed⟩ := @erase_right_sound _ _ pkey pvalue _ _ _ hnode hsibling .red
      cases hsibling with
      | black hl hr =>
        unfold rbtEraseColor
        simp only [heq, Option.bind_some]
        exact fixed_loop hfixed (fun _ => hup) (fun h => by cases h) ih
    | @blackLeft pkey pvalue sibling _ _ _ scolor hsibling hup =>
      cases hsibling with
      | @black sleft sright skey svalue _ lcolor rcolor hl hr =>
        have hblack : Balanced (.node .black sleft skey svalue sright) .black (n + 1) := .black hl hr
        obtain ⟨fixed, heq, hfixed⟩ := @erase_left_sound _ _ pkey pvalue _ _ _ hnode hblack .black
        unfold rbtEraseColor
        simp only [heq, Option.bind_some]
        exact fixed_loop hfixed (fun h => by cases h) (fun _ => hup) ih
      | @red sleft sright skey svalue _ hl hr =>
        obtain ⟨fixed, heq, hfixed⟩ := @erase_left_sound _ _ pkey pvalue _ _ _ hnode hl .red
        obtain ⟨color, hfixed⟩ := fixed_red hfixed
        unfold rbtEraseColor
        simp only [is_null hl (.inr (Nat.succ_pos n)), set_black hl, heq, Option.map_some, Bool.false_eq_true,
          if_false]
        exact ⟨_, rfl, plug_sound hup (.black hfixed hr)⟩
    | @blackRight pkey pvalue sibling _ _ _ scolor hsibling hup =>
      cases hsibling with
      | @black sleft sright skey svalue _ lcolor rcolor hl hr =>
        have hblack : Balanced (.node .black sleft skey svalue sright) .black (n + 1) := .black hl hr
        obtain ⟨fixed, heq, hfixed⟩ := @erase_right_sound _ _ pkey pvalue _ _ _ hnode hblack .black
        unfold rbtEraseColor
        simp only [heq, Option.bind_some]
        exact fixed_loop hfixed (fun h => by cases h) (fun _ => hup) ih
      | @red sleft sright skey svalue _ hl hr =>
        obtain ⟨fixed, heq, hfixed⟩ := @erase_right_sound _ _ pkey pvalue _ _ _ hnode hr .red
        obtain ⟨color, hfixed⟩ := fixed_red hfixed
        unfold rbtEraseColor
        simp only [is_null hr (.inr (Nat.succ_pos n)), set_black hr, heq, Option.map_some, Bool.false_eq_true,
          if_false]
        exact ⟨_, rfl, plug_sound hup (.black hl hfixed)⟩

/-- A node that had at most a right child is gone from a balanced tree. -/
theorem rebalance_sound (h : Balanced (.node color .null key value right) color n)
    (hpath : Hangs path color n) : ∃ root, rebalance color right path = some root ∧ Sound root := by
  cases h with
  | red hl hr =>
    cases hl
    cases hr
    exact ⟨_, rfl, plug_sound (hpath.any .black) .null⟩
  | black hl hr =>
    cases hl
    cases hr with
    | null => exact erase_color_sound .null hpath
    | red hl' hr' => exact ⟨_, rfl, plug_sound hpath (.black hl' hr')⟩

theorem node_color {color' : Color} (h : Balanced (.node color left key value right) color' n) :
    color' = color := by
  cases h <;> rfl

/-- The leftmost node hangs where the subtree does. -/
theorem leftmost_sound (h : Balanced (.node color left key value right) color n) (hpath : Hangs path color n) :
    ∃ m, Balanced (leftmost color left key value right path).tree
        (leftmost color left key value right path).color m ∧
      Hangs (leftmost color left key value right path).path
        (leftmost color left key value right path).color m := by
  induction left generalizing color key value right path n with
  | null => exact ⟨n, h, hpath⟩
  | node lcolor lleft lkey lvalue lright ih _ =>
    cases h with
    | red hl hr =>
      obtain rfl := node_color hl
      exact ih hl (.redLeft hr hpath)
    | black hl hr =>
      obtain rfl := node_color hl
      exact ih hl (.blackLeft hr hpath)

/-- The parents of the leftmost node of a right child, under another key. -/
theorem successor_sound {rcolor : Color} {rleft rright : Tree κ ν} {rkey : κ} {rvalue : ν}
    (h : Balanced (.node color left key value (.node rcolor rleft rkey rvalue rright)) color n)
    (hpath : Hangs path color n) {successor : Place κ ν}
    (hs : leftmost rcolor rleft rkey rvalue rright [] = successor) :
    ∃ m, Balanced (.node successor.color .null successor.key successor.value successor.right)
        successor.color m ∧
      Hangs (successor.path ++ .right color left successor.key successor.value :: path) successor.color m := by
  have hright : ∃ m, Balanced (.node rcolor rleft rkey rvalue rright) rcolor m ∧
      Hangs (.right color left successor.key successor.value :: path) rcolor m := by
    cases h with
    | red hl hr =>
      obtain rfl := node_color hr
      exact ⟨n, hr, .redRight hl hpath⟩
    | black hl hr =>
      obtain rfl := node_color hr
      exact ⟨_, hr, .blackRight hl hpath⟩
  obtain ⟨m, hr, hup⟩ := hright
  obtain ⟨m', htree, hhangs⟩ := leftmost_sound hr hup
  obtain ⟨hnull, -, -⟩ := leftmost_list rcolor rleft rkey rvalue rright [] hs
  have happend := leftmost_append rcolor rleft rkey rvalue rright []
    (.right color left successor.key successor.value :: path)
  rw [List.nil_append, hs] at happend
  rw [happend] at htree hhangs
  rw [Place.tree, hnull] at htree
  exact ⟨m', htree, hhangs⟩

/-- `rbt_erase` follows no NULL pointer, and leaves the tree balanced. -/
theorem erase_sound {node : Place κ ν} (h : Balanced node.tree node.color n)
    (hpath : Hangs node.path node.color n) : ∃ root, rbtErase node = some root ∧ Sound root := by
  obtain ⟨color, left, key, value, right, path⟩ := node
  unfold rbtErase
  cases left with
  | null =>
    cases right with
    | null => exact rebalance_sound h hpath
    | node rcolor rleft rkey rvalue rright =>
      refine ⟨_, rfl, ?_⟩
      cases h with
      | red hl hr =>
        cases hl
        cases hr
      | black hl hr =>
        cases hl
        cases hr with
        | red hl' hr' => exact plug_sound hpath (.black hl' hr')
  | node lcolor lleft lkey lvalue lright =>
    cases right with
    | null =>
      refine ⟨_, rfl, ?_⟩
      cases h with
      | red hl hr =>
        cases hr
        cases hl
      | black hl hr =>
        cases hr
        cases hl with
        | red hl' hr' => exact plug_sound hpath (.black hl' hr')
    | node rcolor rleft rkey rvalue rright =>
      obtain ⟨m, htree, hhangs⟩ := successor_sound h hpath rfl
      exact rebalance_sound htree hhangs

theorem walk_sound (less : κ → κ → Bool) (key : κ) (h : Balanced tree color n) (hpath : Hangs path color n) :
    Hangs (walk less key tree path) .black 0 := by
  induction h generalizing path with
  | null => exact hpath
  | red hl hr ihl ihr =>
    rw [walk]
    split
    · exact ihl (.redLeft hr hpath)
    · exact ihr (.redRight hl hpath)
  | black hl hr ihl ihr =>
    rw [walk]
    split
    · exact ihl (.blackLeft hr hpath)
    · exact ihr (.blackRight hl hpath)

/-- An insertion comes back. -/
theorem insert_sound (less : κ → κ → Bool) (h : Sound tree) (key : κ) (value : ν) :
    ∃ root, insertBy less tree key value = some root ∧ Sound root := by
  obtain ⟨n, h⟩ := h
  exact insert_color_sound .null .null (walk_sound less key h .root)

/-- So does a deletion of a node that is linked; it returns the next node. -/
theorem delete_sound [DecidableEq ν] (h : Sound tree) (hm : value ∈ Multimap.values tree.toList) :
    ∃ root key front rest, rbtDelete tree value = some (rest.head?.map Prod.snd, root) ∧ Sound root ∧
      tree.toList = front ++ (key, value) :: rest ∧ root.toList = front ++ rest := by
  obtain ⟨n, h⟩ := h
  obtain ⟨node, hlocate⟩ := locate_mem hm []
  obtain ⟨-, hplug⟩ := locate_some hlocate
  have hroot : Balanced (plug node.tree node.path) .black n := by
    rw [hplug]
    exact h
  obtain ⟨color, m, htree, hpath⟩ := unplug hroot rfl
  obtain rfl := node_color htree
  obtain ⟨root, herase, hsound⟩ := erase_sound htree hpath
  have hnext : (rbtNext node).map Place.value = node.rest.head?.map Prod.snd := by
    rcases next_list node with ⟨next, hnext, hrest⟩ | ⟨hnone, hrest⟩
    · rw [hnext, hrest]
      rfl
    · rw [hnone, hrest]
      rfl
  refine ⟨root, node.key, before node.path ++ node.left.toList, node.rest, ?_, hsound,
    locate_list hlocate, ?_⟩
  · rw [rbtDelete, hlocate, Option.bind_some, herase, hnext, Option.map_some]
  · rw [erase_list herase, Place.rest]
    simp

end

end Yclib.Rbt
