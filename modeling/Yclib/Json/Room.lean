import Yclib.Json.RoundTrip

namespace Yclib.Json

/-- Nothing is stored behind the end of a block. -/
def Fits (blocks : List (Int × Nat)) : Prop := ∀ block ∈ blocks, (block.2 : Int) ≤ block.1

/-- Texts so short have lengths that an `int` can count. -/
def shortText : Nat := 2 ^ 28

section
variable {size : Int} {text : List UInt8} {blocks : List (Int × Nat)}

theorem fits_stored (hblocks : Fits blocks) (h : (text.length + 1 : Int) ≤ size) :
    Fits (stored size text blocks).blocks := by
  intro block hm
  rcases List.mem_append.mp hm with hm | hm
  · exact hblocks block hm
  · rw [List.mem_singleton.mp hm]
    exact_mod_cast h

theorem fits_nil : Fits [] := by simp [Fits]

theorem i32_room {stored len : Nat} (h : stored ≤ len) (hlt : len < 2 ^ 31) : (stored : Int) ≤ i32 len := by
  rw [i32_of_lt (by omega) (by omega)]
  exact_mod_cast h

end

/-- What a byte is counted for is what is stored for it. -/
theorem escape_width (b : UInt8) : (escape b).length = width b := by
  have hall : ∀ n < 256, (escape (UInt8.ofNat n)).length = width (UInt8.ofNat n) := by decide +kernel
  have hb := hall b.toNat b.toNat_lt
  rwa [UInt8.ofNat_toNat] at hb

theorem string_fits {s : List UInt8} (h : (printStringPtr s).text.length < shortText) :
    Fits (printStringPtr s).blocks := by
  have hwidth : (s.map width).sum = (s.flatMap escape).length := by
    rw [List.length_flatMap]
    exact congrArg List.sum (List.map_congr_left fun b _ => (escape_width b).symm)
  have htext := string_text s
  rw [htext] at h
  simp only [List.length_cons, List.length_append, List.length_nil, shortText] at h
  rw [printStringPtr] at htext ⊢
  split
  · refine fits_stored fits_nil ?_
    rw [hwidth]
    simp only [List.length_cons, List.length_append, List.length_nil]
    exact_mod_cast i32_room (by omega) (by omega)
  · rename_i hflag
    rw [if_neg hflag] at htext
    have hlen := congrArg List.length htext
    simp only [stored, List.length_cons, List.length_append, List.length_nil] at hlen
    refine fits_stored fits_nil ?_
    simp only [List.length_cons, List.length_append, List.length_nil]
    exact_mod_cast i32_room (by omega) (by omega)

theorem signed_length {i : Int} (h0 : -2 ^ 31 ≤ i) (h1 : i < 2 ^ 31) : (signed i).length ≤ 11 := by
  have hdigits := decimal_length (n := i.natAbs) (k := 10) (by decide) (by omega)
  rw [signed]
  split
  · rw [List.length_cons]
    omega
  · omega

section
variable {fmt : Bool} {depth : Nat}

/-- The entries of an array are in its text, and what is between them is counted for. -/
theorem join_items_length (fmt : Bool) (entries : List (List UInt8)) :
    (entries.map List.length).sum ≤ (joinItems fmt entries).length ∧ (joinItems fmt entries).length ≤
      (entries.map fun entry => entry.length + 2 + if fmt then 1 else 0).sum := by
  fun_induction joinItems fmt entries with
  | case1 => simp
  | case2 entry =>
    simp only [List.map_cons, List.map_nil, List.sum_cons, List.sum_nil]
    omega
  | case3 entry entries hne ih =>
    cases fmt
    · simp only [List.map_cons, List.sum_cons, List.length_append, List.length_cons, List.length_nil,
        Bool.false_eq_true, if_false] at ih ⊢
      omega
    · simp only [List.map_cons, List.sum_cons, List.length_append, List.length_cons, List.length_nil,
        if_true] at ih ⊢
      omega

theorem tabs_length (fmt : Bool) (depth : Nat) : (tabs fmt depth).length = if fmt then depth else 0 := by
  cases fmt <;> simp [tabs]

/-- What `print_object` counts for an entry. -/
def entryLen (fmt : Bool) (depth : Nat) (entry : List UInt8 × List UInt8) : Nat :=
  entry.2.length + entry.1.length + 2 + if fmt then 2 + depth else 0

theorem join_members_length (fmt : Bool) (depth : Nat) (entries : List (List UInt8 × List UInt8)) :
    (entries.map fun entry => entry.1.length + entry.2.length).sum + entries.length ≤
        (joinMembers fmt depth entries).length ∧
      (joinMembers fmt depth entries).length ≤ (entries.map (entryLen fmt depth)).sum ∧
      (entries.map (entryLen fmt depth)).sum ≤ (joinMembers fmt depth entries).length + entries.length := by
  induction entries with
  | nil => simp [joinMembers]
  | cons entry entries ih =>
    have htabs := tabs_length fmt depth
    have hlast : (if entries = [] then [] else [comma]).length ≤ 1 := by
      split <;> simp
    cases fmt
    · simp only [joinMembers, entryLen, List.map_cons, List.sum_cons, List.length_append, List.length_cons,
        List.length_nil, Bool.false_eq_true, if_false] at ih htabs ⊢
      omega
    · simp only [joinMembers, entryLen, List.map_cons, List.sum_cons, List.length_append, List.length_cons,
        List.length_nil, if_true] at ih htabs ⊢
      omega

end

section
variable {fmt : Bool} {depth : Nat}

/-- An array whose entries fit into their blocks fits into its own. -/
theorem array_fits {entries : List Printed} (hentries : Fits (entries.flatMap Printed.blocks))
    (hpos : ∀ entry ∈ entries, 0 < entry.text.length) (h : (printArray fmt entries).text.length < shortText) :
    Fits (printArray fmt entries).blocks := by
  rw [printArray] at h ⊢
  split
  · exact fits_stored fits_nil (by decide)
  · rename_i hne
    rw [if_neg hne] at h
    obtain ⟨hin, hcount⟩ := join_items_length fmt (entries.map Printed.text)
    simp only [List.map_map] at hin hcount
    have hfour : (entries.map fun entry => entry.text.length + 2 + if fmt then 1 else 0).sum ≤
        4 * (entries.map fun entry => entry.text.length).sum := by
      rw [← List.sum_map_mul_left]
      refine List.sum_le_sum fun entry hm => ?_
      have := hpos entry hm
      split <;> omega
    simp only [stored, List.length_cons, List.length_append, List.length_nil, shortText] at h
    refine fits_stored hentries ?_
    simp only [List.length_cons, List.length_append, List.length_nil]
    simp only [Function.comp_def] at hin hcount
    exact_mod_cast i32_room (by omega) (by omega)

theorem object_fits {entries : List (Printed × Printed)}
    (hentries : Fits (entries.flatMap fun entry => entry.1.blocks ++ entry.2.blocks))
    (h : (printObject fmt depth entries).text.length < shortText) :
    Fits (printObject fmt depth entries).blocks := by
  have htabs : ∀ depth, (tabs fmt depth).length = if fmt then depth else 0 := tabs_length fmt
  have hline : (if fmt then [newline] else []).length = if fmt then 1 else 0 := by
    cases fmt <;> rfl
  rw [printObject] at h ⊢
  split
  · refine fits_stored fits_nil ?_
    simp only [List.length_cons, List.length_append, List.length_nil, htabs, hline]
    cases fmt
    · simp
    · simp only [if_true]
      push_cast
      omega
  · rename_i hne
    rw [if_neg hne] at h
    obtain ⟨hin, hcount, hmore⟩ := join_members_length fmt (depth + 1)
      (entries.map fun entry => (entry.1.text, entry.2.text))
    simp only [List.map_map, List.length_map, Function.comp_def, entryLen] at hin hcount hmore
    simp only [stored, List.length_cons, List.length_append, List.length_nil, shortText, htabs, hline] at h
    refine fits_stored hentries ?_
    simp only [List.length_cons, List.length_append, List.length_nil, htabs, hline]
    cases fmt
    · simp only [Bool.false_eq_true, if_false] at hin hcount hmore h ⊢
      exact_mod_cast i32_room (by omega) (by omega)
    · simp only [if_true] at hin hcount hmore h ⊢
      exact_mod_cast i32_room (by omega) (by omega)

end

section
variable {D : Type} {arith : Doubles D} {fmt : Bool}

theorem items_pos (hexact : arith.Exact) (items : Items D) (depth : Nat) (h : items.Whole arith) :
    ∀ entry ∈ printItems arith fmt depth items, 0 < entry.text.length := by
  cases items with
  | nil => simp [printItems]
  | cons item next =>
    intro entry hm
    rcases List.mem_cons.mp hm with rfl | hm
    · obtain ⟨b, bs, hfront, -⟩ := value_front fmt depth hexact h.1
      rw [hfront]
      exact Nat.succ_pos _
    · exact items_pos hexact next depth h.2 entry hm

theorem entry_short {entries : List Printed} (h : (printArray fmt entries).text.length < shortText) :
    ∀ entry ∈ entries, entry.text.length < shortText := by
  intro entry hm
  have hne : entries ≠ [] := List.ne_nil_of_mem hm
  rw [printArray, if_neg hne] at h
  have hin := (join_items_length fmt (entries.map Printed.text)).1
  have hle := List.single_le_sum (fun _ _ => Nat.zero_le _) _
    (List.mem_map.mpr ⟨entry.text, List.mem_map.mpr ⟨entry, hm, rfl⟩, rfl⟩ :
      entry.text.length ∈ (entries.map Printed.text).map List.length)
  simp only [stored, List.length_cons, List.length_append, List.length_nil] at h
  omega

theorem member_short {depth : Nat} {entries : List (Printed × Printed)}
    (h : (printObject fmt depth entries).text.length < shortText) :
    ∀ entry ∈ entries, entry.1.text.length < shortText ∧ entry.2.text.length < shortText := by
  intro entry hm
  have hne : entries ≠ [] := List.ne_nil_of_mem hm
  rw [printObject, if_neg hne] at h
  have hin := (join_members_length fmt (depth + 1)
    (entries.map fun entry => (entry.1.text, entry.2.text))).1
  have hle := List.single_le_sum (fun _ _ => Nat.zero_le _) _
    (List.mem_map.mpr ⟨(entry.1.text, entry.2.text), List.mem_map.mpr ⟨entry, hm, rfl⟩, rfl⟩ :
      entry.1.text.length + entry.2.text.length ∈ (entries.map fun entry => (entry.1.text, entry.2.text)).map
        fun entry => entry.1.length + entry.2.length)
  simp only [stored, List.length_cons, List.length_append, List.length_nil] at h
  omega

mutual

/-- Every block that is asked for while a value is printed has room for what is stored in it. -/
theorem value_fits (hexact : arith.Exact) (item : CJson D) (depth : Nat) (h : item.Whole arith)
    (hshort : (printValue arith fmt depth item).text.length < shortText) :
    Fits (printValue arith fmt depth item).blocks := by
  match item with
  | .null => exact fits_stored fits_nil (by decide)
  | .bool false => exact fits_stored fits_nil (by decide)
  | .bool true => exact fits_stored fits_nil (by decide)
  | .number i d =>
    obtain ⟨h0, h1, rfl⟩ := h
    have hlen := signed_length h0 h1
    rw [printValue, printNumber]
    split
    · exact fits_stored fits_nil (by decide)
    · rw [if_pos (hexact.isInt i h0 h1)]
      refine fits_stored fits_nil ?_
      omega
  | .string s => exact string_fits hshort
  | .array child =>
    rw [printValue] at hshort ⊢
    refine array_fits ?_ ?_ hshort
    · intro block hm
      obtain ⟨entry, hentry, hblock⟩ := List.mem_flatMap.mp hm
      exact items_fit hexact child (depth + 1) h (entry_short hshort) entry hentry block hblock
    · exact items_pos hexact child (depth + 1) h
  | .object child =>
    rw [printValue] at hshort ⊢
    refine object_fits ?_ hshort
    intro block hm
    obtain ⟨entry, hentry, hblock⟩ := List.mem_flatMap.mp hm
    obtain ⟨hname, hvalue⟩ := members_fit hexact child (depth + 1) h (member_short hshort) entry hentry
    rcases List.mem_append.mp hblock with hblock | hblock
    · exact hname block hblock
    · exact hvalue block hblock

theorem items_fit (hexact : arith.Exact) (items : Items D) (depth : Nat) (h : items.Whole arith)
    (hshort : ∀ entry ∈ printItems arith fmt depth items, entry.text.length < shortText) :
    ∀ entry ∈ printItems arith fmt depth items, Fits entry.blocks := by
  match items with
  | .nil => simp [printItems]
  | .cons item next =>
    intro entry hm
    rcases List.mem_cons.mp hm with rfl | hm
    · exact value_fits hexact item depth h.1 (hshort _ hm)
    · exact items_fit hexact next depth h.2 (fun entry hm => hshort entry (by simp [printItems, hm])) entry hm

theorem members_fit (hexact : arith.Exact) (members : Members D) (depth : Nat) (h : members.Whole arith)
    (hshort : ∀ entry ∈ printMembers arith fmt depth members,
      entry.1.text.length < shortText ∧ entry.2.text.length < shortText) :
    ∀ entry ∈ printMembers arith fmt depth members, Fits entry.1.blocks ∧ Fits entry.2.blocks := by
  match members with
  | .nil => simp [printMembers]
  | .cons string item next =>
    intro entry hm
    rcases List.mem_cons.mp hm with rfl | hm
    · obtain ⟨hname, hvalue⟩ := hshort _ hm
      exact ⟨string_fits hname, value_fits hexact item depth h.2.1 hvalue⟩
    · exact members_fit hexact next depth h.2.2 (fun entry hm => hshort entry (by simp [printMembers, hm])) entry hm

end

/-- While a tree of the program is printed, formatted or not, nothing is stored behind the end of a
block, as long as the text has less than 2^28 bytes. -/
theorem print_fits (hexact : arith.Exact) {item : CJson D} (h : item.Whole arith)
    (hshort : (cJSONPrint arith fmt item).length < 2 ^ 28) : Fits (printValue arith fmt 0 item).blocks :=
  value_fits hexact item 0 h hshort

theorem print_fits_server : Fits (printValue rationals true 0 serverMessage).blocks :=
  print_fits rationals_exact server_whole (by decide +kernel)

end

end Yclib.Json
