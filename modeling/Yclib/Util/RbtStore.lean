import Yclib.Util.RbtBalance

namespace Yclib.Rbt

/-! The red-black trees as ordered multimaps, over all insertions and deletions. -/

/-- The bytes of a string as numbers, in which `strcmp` compares them. -/
def Str.codes (str : Str) : List Nat := str.bytes.map UInt8.toNat

theorem codes_injective : Function.Injective Str.codes := by
  rintro ⟨bytes⟩ ⟨bytes'⟩ h
  rw [Str.mk.injEq]
  exact List.map_injective_iff.mpr (fun _ _ => UInt8.toNat_inj.mp) h

instance strOrder : LinearOrder Str := LinearOrder.lift' Str.codes codes_injective

theorem strcmp_codes (a b : List UInt8) : strcmpLess a b = true ↔ a.map UInt8.toNat < b.map UInt8.toNat := by
  induction a generalizing b with
  | nil => cases b <;> simp [strcmpLess]
  | cons x a ih =>
    cases b with
    | nil => simp [strcmpLess]
    | cons y b =>
      rw [strcmpLess, List.map_cons, List.map_cons, List.cons_lt_cons_iff]
      split
      · rename_i heq
        subst heq
        rw [ih]
        simp
      · rename_i hne
        rw [decide_eq_true_iff, UInt8.lt_iff_toNat_lt]
        simp [UInt8.toNat_inj, hne]

theorem strcmp_less (a b : Str) : strcmpLess a.bytes b.bytes = true ↔ a < b := strcmp_codes a.bytes b.bytes

inductive Op (κ ν : Type)
  | insert (key : κ) (value : ν)
  | delete (value : ν)

section
variable {κ ν : Type} [LinearOrder κ]

/-- The tree holds the linked nodes, each once, in the order of their keys and those with equal
keys in the order of their insertion, and iteration visits them so. -/
structure Ordered (root : Tree κ ν) (linked : List (κ × ν)) : Prop where
  perm : root.toList.Perm linked
  nodup : (Multimap.values root.toList).Nodup
  sorted : Multimap.Sorted root.toList
  stable : ∀ key, (root.toList.filter fun entry => entry.1 = key) = linked.filter fun entry => entry.1 = key
  visited : ∀ fuel, root.toList.length ≤ fuel → rbtForEach fuel root = Multimap.values root.toList

theorem null_ordered : Ordered (.null : Tree κ ν) [] := by
  refine ⟨.refl _, List.nodup_nil, List.Pairwise.nil, fun _ => rfl, fun fuel _ => ?_⟩
  cases fuel <;> rfl

end

variable {κ ν : Type} [DecidableEq ν]

def step (insert : Tree κ ν → κ → ν → Option (Tree κ ν)) (root : Tree κ ν) : Op κ ν → Option (Tree κ ν)
  | .insert key value => insert root key value
  | .delete value => (rbtDelete root value).map Prod.snd

def run (insert : Tree κ ν → κ → ν → Option (Tree κ ν)) : List (Op κ ν) → Tree κ ν → Option (Tree κ ν)
  | [], root => some root
  | op :: ops, root => (step insert root op).bind (run insert ops)

/-- The nodes that are inserted and not deleted, in the order of their insertion. -/
def link (linked : List (κ × ν)) : Op κ ν → List (κ × ν)
  | .insert key value => linked ++ [(key, value)]
  | .delete value => linked.filter fun entry => entry.2 ≠ value

/-- Only nodes that are not linked are inserted, and only linked ones deleted. -/
def Allowed : List (κ × ν) → List (Op κ ν) → Prop
  | _, [] => True
  | linked, .insert key value :: ops =>
    value ∉ Multimap.values linked ∧ Allowed (link linked (.insert key value)) ops
  | linked, .delete value :: ops =>
    value ∈ Multimap.values linked ∧ Allowed (link linked (.delete value)) ops

section
variable [LinearOrder κ]

variable {root : Tree κ ν} {linked : List (κ × ν)}

theorem insert_ordered {less : κ → κ → Bool} (hless : ∀ a b, less a b = true ↔ a < b)
    (h : Ordered root linked) (hsound : Sound root) (key : κ) {value : ν}
    (hnew : value ∉ Multimap.values linked) :
    ∃ root', insertBy less root key value = some root' ∧ Sound root' ∧
      Ordered root' (link linked (.insert key value)) := by
  obtain ⟨root', hinsert, hsound'⟩ := insert_sound less hsound key value
  have hlist := insert_list hless h.sorted hinsert
  have hperm : root'.toList.Perm (link linked (.insert key value)) := by
    rw [hlist]
    exact Multimap.insert_perm.trans ((h.perm.cons _).trans (List.perm_append_singleton _ _).symm)
  refine ⟨root', hinsert, hsound', hperm, ?_, ?_, fun key' => ?_, fun fuel hfuel => for_each_list hfuel⟩
  · refine (hperm.map Prod.snd).nodup_iff.mpr ?_
    have hnodup : (Multimap.values linked).Nodup := (h.perm.map Prod.snd).nodup_iff.mp h.nodup
    simp only [link, List.map_append, List.map_cons, List.map_nil]
    exact List.nodup_append.mpr ⟨hnodup, by simp, fun a ha b hb => by
      rintro rfl
      exact hnew (List.mem_singleton.mp hb ▸ ha)⟩
  · rw [hlist]
    exact Multimap.insert_sorted h.sorted
  · rw [hlist, link, List.filter_append, ← h.stable]
    by_cases heq : key = key'
    · subst heq
      rw [Multimap.insert_filter_key h.sorted]
      simp
    · rw [Multimap.insert_filter (by simpa using heq)]
      simp [heq]

theorem delete_ordered (h : Ordered root linked) (hsound : Sound root) {value : ν}
    (hm : value ∈ Multimap.values linked) :
    ∃ next root', rbtDelete root value = some (next, root') ∧ Sound root' ∧
      Ordered root' (link linked (.delete value)) := by
  have hmem : value ∈ Multimap.values root.toList := (h.perm.map Prod.snd).mem_iff.mpr hm
  obtain ⟨root', key, front, rest, hdelete, hsound', hlist, hlist'⟩ := delete_sound hsound hmem
  have hnodup := h.nodup
  rw [hlist] at hnodup
  simp only [Multimap.values, List.map_append, List.map_cons] at hnodup
  have hfilter : root'.toList = root.toList.filter fun entry => entry.2 ≠ value := by
    have hother : ∀ entry ∈ front ++ rest, entry.2 ≠ value := by
      rintro entry hmem' rfl
      rw [List.nodup_middle, ← List.map_append] at hnodup
      exact (List.nodup_cons.mp hnodup).1 (List.mem_map_of_mem hmem')
    have hself : (front ++ rest).filter (fun entry => decide (entry.2 ≠ value)) = front ++ rest :=
      List.filter_eq_self.mpr fun entry hmem' => decide_eq_true (hother entry hmem')
    rw [hlist', hlist, ← hself]
    simp
  have hperm : root'.toList.Perm (link linked (.delete value)) := by
    rw [hfilter]
    exact h.perm.filter _
  refine ⟨_, root', hdelete, hsound', hperm, ?_, ?_, fun key' => ?_, fun fuel hfuel => for_each_list hfuel⟩
  · rw [hfilter]
    exact h.nodup.sublist (List.filter_sublist.map _)
  · rw [hfilter]
    exact List.Pairwise.sublist (List.filter_sublist.map _) h.sorted
  · rw [hfilter, link, List.filter_comm, h.stable, List.filter_comm]

theorem run_ordered {less : κ → κ → Bool} (hless : ∀ a b, less a b = true ↔ a < b) {ops : List (Op κ ν)}
    (hallowed : Allowed linked ops) (h : Ordered root linked) (hsound : Sound root) :
    ∃ root', run (insertBy less) ops root = some root' ∧ Ordered root' (ops.foldl link linked) := by
  induction ops generalizing root linked with
  | nil => exact ⟨root, rfl, h⟩
  | cons op ops ih =>
    cases op with
    | insert key value =>
      obtain ⟨hnew, hallowed⟩ := hallowed
      obtain ⟨root₁, hinsert, hsound₁, h₁⟩ := insert_ordered hless h hsound key hnew
      obtain ⟨root', hrun, h'⟩ := ih hallowed h₁ hsound₁
      exact ⟨root', by rw [run, step, hinsert, Option.bind_some, hrun], h'⟩
    | delete value =>
      obtain ⟨hlinked, hallowed⟩ := hallowed
      obtain ⟨next, root₁, hdelete, hsound₁, h₁⟩ := delete_ordered h hsound hlinked
      obtain ⟨root', hrun, h'⟩ := ih hallowed h₁ hsound₁
      exact ⟨root', by rw [run, step, hdelete, Option.map_some, Option.bind_some, hrun], h'⟩

end

/-- For all insertions and deletions of nodes with integer keys or with strings, the tree is the
ordered multimap of the nodes that are linked, and is iterated in its order. -/
theorem store_ordered :
    (∀ ops : List (Op Nat ν), Allowed [] ops →
      ∃ root, run rbtInsertInt ops .null = some root ∧ Ordered root (ops.foldl link [])) ∧
    ∀ ops : List (Op Str ν), Allowed [] ops →
      ∃ root, run rbtInsertStr ops .null = some root ∧ Ordered root (ops.foldl link []) :=
  ⟨fun _ h => run_ordered (fun _ _ => decide_eq_true_iff) h null_ordered ⟨0, .null⟩,
    fun _ h => run_ordered strcmp_less h null_ordered ⟨0, .null⟩⟩

theorem store_ordered_twice : ∃ root,
    run rbtInsertInt [.insert 2 'a', .insert 1 'b', .insert 2 'c', .insert 2 'd', .delete 'a'] .null =
      some root ∧ Ordered root [(1, 'b'), (2, 'c'), (2, 'd')] :=
  store_ordered.1 _ ⟨by decide, by decide, by decide, by decide, by decide, trivial⟩

end Yclib.Rbt
