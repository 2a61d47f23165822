import Mathlib.Data.List.Perm.Basic
import Mathlib.Data.List.Nodup
import Mathlib.Data.List.Pairwise
import Mathlib.Order.Lattice

namespace Yclib.Multimap

/-! Ordered multimaps as lists of keys and values, where entries with equal keys are in the
order of their insertion. -/

variable {κ ν : Type}

/-- The entry goes behind those with its key. -/
def insertKey [LinearOrder κ] (key : κ) (value : ν) : List (κ × ν) → List (κ × ν)
  | [] => [(key, value)]
  | entry :: entries =>
    if key < entry.1 then (key, value) :: entry :: entries else entry :: insertKey key value entries

/-- The entry with the value is taken out; there has to be one. -/
def deleteValue [DecidableEq ν] (value : ν) : List (κ × ν) → Option (List (κ × ν))
  | [] => none
  | entry :: entries =>
    if entry.2 = value then some entries else (deleteValue value entries).map (entry :: ·)

/-- The first of the values with the key. -/
def searchKey [DecidableEq κ] (key : κ) (entries : List (κ × ν)) : Option ν :=
  (entries.find? fun entry => entry.1 = key).map Prod.snd

/-- What a search may give, whichever of the values with the key it comes to. -/
def Finds (key : κ) (entries : List (κ × ν)) : Option ν → Prop
  | none => ∀ value, (key, value) ∉ entries
  | some value => (key, value) ∈ entries

def values (entries : List (κ × ν)) : List ν := entries.map Prod.snd

def Sorted [LinearOrder κ] (entries : List (κ × ν)) : Prop := (entries.map Prod.fst).Pairwise (· ≤ ·)

section
variable [LinearOrder κ] {key : κ} {value : ν} {entries rest : List (κ × ν)}

theorem insert_nil : insertKey key value [] = [(key, value)] := rfl

theorem insert_cons {entry : κ × ν} : insertKey key value (entry :: entries) =
    if key < entry.1 then (key, value) :: entry :: entries else entry :: insertKey key value entries := rfl

theorem insert_perm : (insertKey key value entries).Perm ((key, value) :: entries) := by
  induction entries with
  | nil => exact .refl _
  | cons entry entries ih =>
    rw [insert_cons]
    split
    · exact .refl _
    · exact (ih.cons entry).trans (.swap _ _ _)

theorem mem_insert {entry : κ × ν} :
    entry ∈ insertKey key value entries ↔ entry = (key, value) ∨ entry ∈ entries := by
  rw [insert_perm.mem_iff, List.mem_cons]

theorem mem_insert_values {other : ν} :
    other ∈ values (insertKey key value entries) ↔ other = value ∨ other ∈ values entries := by
  rw [values, (insert_perm.map Prod.snd).mem_iff]
  simp [values]

theorem insert_nodup (h : (values entries).Nodup) (hnew : value ∉ values entries) :
    (values (insertKey key value entries)).Nodup :=
  (insert_perm.map Prod.snd).nodup_iff.mpr (List.nodup_cons.mpr ⟨hnew, h⟩)

/-- A key that is not there yet has one entry, like the others. -/
theorem insert_single (hnone : ∀ value, (key, value) ∉ entries)
    (h : ∀ k v w, (k, v) ∈ entries → (k, w) ∈ entries → v = w) (k : κ) (v w : ν)
    (hv : (k, v) ∈ insertKey key value entries) (hw : (k, w) ∈ insertKey key value entries) : v = w := by
  rcases mem_insert.mp hv with hv | hv <;> rcases mem_insert.mp hw with hw | hw
  · rw [(Prod.mk.inj hv).2, (Prod.mk.inj hw).2]
  · exact absurd ((Prod.mk.inj hv).1 ▸ hw) (hnone w)
  · exact absurd ((Prod.mk.inj hw).1 ▸ hv) (hnone v)
  · exact h k v w hv hw

theorem insert_sorted (h : Sorted entries) : Sorted (insertKey key value entries) := by
  induction entries with
  | nil => simp [insert_nil, Sorted]
  | cons entry entries ih =>
    have hs := h
    simp only [Sorted, List.map_cons, List.pairwise_cons] at hs
    rw [insert_cons]
    split
    · rename_i hlt
      refine List.pairwise_cons.mpr ⟨?_, h⟩
      intro key' hm
      rcases List.mem_cons.mp hm with rfl | hm
      · exact hlt.le
      · exact hlt.le.trans (hs.1 key' hm)
    · rename_i hle
      refine List.pairwise_cons.mpr ⟨?_, ih hs.2⟩
      intro key' hm
      obtain ⟨entry', hm', rfl⟩ := List.mem_map.mp hm
      rcases mem_insert.mp hm' with rfl | hm'
      · exact not_lt.mp hle
      · exact hs.1 _ (List.mem_map_of_mem hm')

theorem insert_map {ν' : Type} (f : ν → ν') :
    (insertKey key value entries).map (fun entry => (entry.1, f entry.2)) =
      insertKey key (f value) (entries.map fun entry => (entry.1, f entry.2)) := by
  induction entries with
  | nil => rfl
  | cons entry entries ih =>
    rw [insert_cons, List.map_cons, insert_cons]
    split
    · rfl
    · rw [List.map_cons, ih]

/-- An entry that is filtered out is not missed. -/
theorem insert_filter {p : κ × ν → Bool} (h : p (key, value) = false) :
    (insertKey key value entries).filter p = entries.filter p := by
  induction entries with
  | nil => simp [insert_nil, h]
  | cons entry entries ih =>
    rw [insert_cons]
    split
    · rw [List.filter_cons_of_neg (by simp [h])]
    · rw [List.filter_cons, List.filter_cons, ih]

/-- The entry comes last of those with its key. -/
theorem insert_filter_key (h : Sorted entries) :
    ((insertKey key value entries).filter fun entry => entry.1 = key) =
      (entries.filter fun entry => entry.1 = key) ++ [(key, value)] := by
  induction entries with
  | nil => simp [insert_nil]
  | cons entry entries ih =>
    have hs := h
    simp only [Sorted, List.map_cons, List.pairwise_cons] at hs
    rw [insert_cons]
    split
    · rename_i hlt
      have hnone : ((entry :: entries).filter fun entry => entry.1 = key) = [] := by
        rw [List.filter_eq_nil_iff]
        intro entry' hm heq
        have hle : entry.1 ≤ entry'.1 := by
          rcases List.mem_cons.mp hm with rfl | hm
          · exact le_refl _
          · exact hs.1 _ (List.mem_map_of_mem hm)
        rw [decide_eq_true_iff] at heq
        exact absurd (hlt.trans_le hle) (heq ▸ lt_irrefl _)
      rw [List.filter_cons_of_pos (by simp), hnone]
      rfl
    · rw [List.filter_cons, List.filter_cons, ih hs.2]
      split <;> rfl

/-- Where the keys in front are not above and those behind are above, an entry goes between. -/
theorem insert_append {front : List (κ × ν)} (hfront : ∀ entry ∈ front, entry.1 ≤ key)
    (hrest : ∀ entry ∈ rest, key < entry.1) :
    insertKey key value (front ++ rest) = front ++ (key, value) :: rest := by
  induction front with
  | nil =>
    cases rest with
    | nil => rfl
    | cons entry rest => rw [List.nil_append, insert_cons, if_pos (hrest entry (by simp))]; rfl
  | cons entry front ih =>
    rw [List.cons_append, insert_cons, if_neg (not_lt.mpr (hfront entry (by simp))),
      ih (fun e he => hfront e (List.mem_cons_of_mem _ he))]
    rfl

end

section
variable [DecidableEq ν] {value : ν} {entries : List (κ × ν)}

theorem delete_cons {entry : κ × ν} : deleteValue value (entry :: entries) =
    if entry.2 = value then some entries else (deleteValue value entries).map (entry :: ·) := rfl

theorem delete_of_mem (h : value ∈ values entries) : ∃ key front rest,
    entries = front ++ (key, value) :: rest ∧ deleteValue value entries = some (front ++ rest) := by
  induction entries with
  | nil => cases h
  | cons entry entries ih =>
    by_cases he : entry.2 = value
    · exact ⟨entry.1, [], entries, by simp [← he], by simp [delete_cons, he]⟩
    · have hm : value ∈ values entries := (List.mem_cons.mp h).resolve_left (Ne.symm he)
      obtain ⟨key, front, rest, heq, hdel⟩ := ih hm
      exact ⟨key, entry :: front, rest, by simp [heq], by simp [delete_cons, he, hdel]⟩

theorem delete_sublist {entries' : List (κ × ν)} (hdel : deleteValue value entries = some entries') :
    entries'.Sublist entries := by
  induction entries generalizing entries' with
  | nil => cases hdel
  | cons entry entries ih =>
    rw [delete_cons] at hdel
    split at hdel
    · cases hdel
      exact List.sublist_cons_self _ _
    · obtain ⟨rest, hrest, rfl⟩ := Option.map_eq_some_iff.mp hdel
      exact (ih hrest).cons_cons _

theorem delete_sorted [LinearOrder κ] (h : Sorted entries) {entries' : List (κ × ν)}
    (hdel : deleteValue value entries = some entries') : Sorted entries' :=
  List.Pairwise.sublist ((delete_sublist hdel).map Prod.fst) h

/-- With each value once, the values left are the other ones. -/
theorem delete_perm (h : value ∈ values entries) (hd : (values entries).Nodup) :
    ∃ entries', deleteValue value entries = some entries' ∧
      (values entries).Perm (value :: values entries') ∧
      ∀ entry, entry ∈ entries' ↔ entry ∈ entries ∧ entry.2 ≠ value := by
  obtain ⟨key, front, rest, rfl, hdel⟩ := delete_of_mem h
  refine ⟨front ++ rest, hdel, by simp [values], fun entry => ?_⟩
  have hv : value ∉ values (front ++ rest) := by
    simp only [values, List.map_append, List.map_cons, List.nodup_middle] at hd ⊢
    exact (List.nodup_cons.mp hd).1
  constructor
  · intro hm
    refine ⟨?_, fun he => hv (he ▸ List.mem_map_of_mem hm)⟩
    simp only [List.mem_append, List.mem_cons] at hm ⊢
    tauto
  · rintro ⟨hm, hne⟩
    simp only [List.mem_append, List.mem_cons] at hm ⊢
    rcases hm with hm | rfl | hm
    · exact .inl hm
    · exact absurd rfl hne
    · exact .inr hm

/-- An entry that is put in and taken out leaves the others as they were. -/
theorem delete_insert [LinearOrder κ] {key : κ} (h : value ∉ values entries) :
    deleteValue value (insertKey key value entries) = some entries := by
  induction entries with
  | nil => simp [insert_nil, delete_cons]
  | cons entry entries ih =>
    have hne : entry.2 ≠ value := fun he => h (by simp [values, he])
    rw [insert_cons]
    split
    · rw [delete_cons, if_pos rfl]
    · rw [delete_cons, if_neg hne, ih fun hm => h (List.mem_cons_of_mem _ hm), Option.map_some]

end

theorem search_some [DecidableEq κ] {key : κ} {value : ν} {entries : List (κ × ν)}
    (h : searchKey key entries = some value) : (key, value) ∈ entries := by
  obtain ⟨entry, hfind, rfl⟩ := Option.map_eq_some_iff.mp h
  have hkey := List.find?_some hfind
  rw [decide_eq_true_iff] at hkey
  exact hkey ▸ List.mem_of_find?_eq_some hfind

theorem search_none [DecidableEq κ] {key : κ} {entries : List (κ × ν)} (h : searchKey key entries = none) :
    ∀ entry ∈ entries, entry.1 ≠ key := by
  have hfind := Option.map_eq_none_iff.mp h
  intro entry hm he
  exact absurd (List.find?_eq_none.mp hfind entry hm) (by simpa using he)

theorem search_missing [DecidableEq κ] {key : κ} {entries : List (κ × ν)} (h : ∀ entry ∈ entries, entry.1 ≠ key) :
    searchKey key entries = none := by
  rw [searchKey, Option.map_eq_none_iff, List.find?_eq_none]
  intro entry hm
  simpa using h entry hm

theorem search_mem [DecidableEq κ] {key : κ} {entries : List (κ × ν)} (h : key ∈ entries.map Prod.fst) :
    ∃ value, searchKey key entries = some value := by
  cases hsearch : searchKey key entries with
  | some value => exact ⟨value, rfl⟩
  | none =>
    obtain ⟨entry, hm, heq⟩ := List.mem_map.mp h
    exact absurd heq (search_none hsearch entry hm)

/-- What is found in front is found. -/
theorem search_append [DecidableEq κ] {key : κ} {value : ν} {front rest : List (κ × ν)}
    (h : searchKey key front = some value) : searchKey key (front ++ rest) = some value := by
  obtain ⟨entry, hfind, rfl⟩ := Option.map_eq_some_iff.mp h
  rw [searchKey, List.find?_append, hfind]
  rfl

/-- What is not in front is searched for behind. -/
theorem search_behind [DecidableEq κ] {key : κ} {value : ν} {front rest : List (κ × ν)}
    (h : key ∉ front.map Prod.fst) : searchKey key (front ++ (key, value) :: rest) = some value := by
  have hnone : front.find? (fun entry => entry.1 = key) = none := by
    rw [List.find?_eq_none]
    intro entry hm heq
    exact h (by simpa [decide_eq_true_iff.mp heq] using List.mem_map_of_mem (f := Prod.fst) hm)
  simp [searchKey, List.find?_append, hnone]

/-- Where no other value has the key, a search finds the one that has. -/
theorem search_unique [DecidableEq κ] {key : κ} {value : ν} {entries : List (κ × ν)}
    (h : (key, value) ∈ entries) (honly : ∀ other, (key, other) ∈ entries → other = value) :
    searchKey key entries = some value := by
  cases hsearch : searchKey key entries with
  | none => exact absurd rfl (search_none hsearch _ h)
  | some other => rw [honly other (search_some hsearch)]

theorem search_map [DecidableEq κ] {ν' : Type} {key : κ} {entries : List (κ × ν)} (f : κ → ν → ν') :
    searchKey key (entries.map fun entry => (entry.1, f entry.1 entry.2)) =
      (searchKey key entries).map (f key) := by
  induction entries with
  | nil => rfl
  | cons entry entries ih =>
    by_cases h : entry.1 = key
    · simp [searchKey, h]
    · simpa [searchKey, h] using ih

/-- A search for another key does not come to the entry. -/
theorem search_insert_other [LinearOrder κ] {key key' : κ} {value : ν} {entries : List (κ × ν)}
    (h : key' ≠ key) : searchKey key' (insertKey key value entries) = searchKey key' entries := by
  rw [searchKey, searchKey, ← List.head?_filter, ← List.head?_filter,
    insert_filter (by simpa using h.symm)]

/-- Where no value has had the key, a search finds the one that has it now. -/
theorem search_insert [LinearOrder κ] {key : κ} {value : ν} {entries : List (κ × ν)}
    (h : searchKey key entries = none) : searchKey key (insertKey key value entries) = some value := by
  refine search_unique (mem_insert.mpr (.inl rfl)) fun other hm => ?_
  rcases mem_insert.mp hm with heq | hm
  · exact congrArg Prod.snd heq
  · exact absurd rfl (search_none h _ hm)

end Yclib.Multimap
