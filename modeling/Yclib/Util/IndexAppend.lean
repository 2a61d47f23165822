import Yclib.Util.IndexLoad

namespace Yclib.FileMgr
open Multimap Network

/-! `rns_fmgr_add` where an allocation, the file or a write fails. -/

/-- `rns_file_write` at the end of a file, where `write` fails or writes so many bytes at most, with
its result. -/
def rnsFileWrite (file buf : List UInt8) : Option Nat → List UInt8 × Int
  | none => (file, -1)
  | some n => (file ++ buf.take n, (buf.take n).length)

/-- What `rns_fmgr_add` meets: whether the two allocations and the opening of the file go through, and
what the three writes come to. -/
structure Meets where
  finfo : Bool
  opens : Bool
  name : Bool
  key : Option Nat
  len : Option Nat
  file : Option Nat

/-- `rns_fmgr_add`, with whether it reports success. No file with a longer name can be opened. -/
def rnsFmgrAddMeets (fmgr : Fmgr) (file : List UInt8) (key : Nat) (meets : Meets) : Fmgr × Bool :=
  if meets.finfo ∧ (meets.opens ∧ file.length < 4096) ∧ meets.name then
    let first := rnsFileWrite fmgr.file (rnsHtob64 key) meets.key
    if first.2 ≠ 8 then ({ fmgr with file := first.1 }, false)
    else
      let second := rnsFileWrite first.1 (rnsHtob32 (u32 file.length)) meets.len
      if second.2 ≠ 4 then ({ fmgr with file := second.1 }, false)
      else
        let third := rnsFileWrite second.1 file meets.file
        if third.2 ≠ file.length then ({ fmgr with file := third.1 }, false)
        else ({ file := third.1, root := insertKey key file fmgr.root }, true)
  else (fmgr, false)

/-- It comes to no write, or nothing is written in the first one. -/
def Meets.Before (meets : Meets) (file : List UInt8) : Prop :=
  meets.finfo = false ∨ meets.opens = false ∨ 4096 ≤ file.length ∨ meets.name = false ∨
    meets.key.getD 0 = 0

/-- The tree is as it was, and so is what is loaded from the index, now and after later records. -/
structure Atomic (fmgr fmgr' : Fmgr) : Prop where
  root : fmgr'.root = fmgr.root
  loads : ∀ later : List Add, (rnsFmgrLoad (fmgr'.file ++ index later)).map Fmgr.root =
    (rnsFmgrLoad (fmgr.file ++ index later)).map Fmgr.root

section
variable {m m' : Mem} {bound bound' walker : Nat} {root root' : List (Nat × List UInt8)}
  {fmgr : Fmgr} {file : List UInt8} {key : Nat} {meets : Meets}

/-- Where everything goes through, the record is in the index and the file in the tree. -/
theorem add_through (fmgr : Fmgr) (add : Add) :
    rnsFmgrAddMeets fmgr add.file add.key ⟨true, true, true, some 8, some 4, some add.file.length⟩ =
      (rnsFmgrAdd fmgr add, true) := by
  have hopens := add.opens
  have hkey := htob64_length add.key
  have hlen : (rnsHtob32 (u32 add.file.length)).length = 4 := htob_length _ _
  simp [rnsFmgrAddMeets, rnsFileWrite, hopens, rnsFmgrAdd, List.take_of_length_le, hkey, hlen]

/-- A write appends what it has written. -/
theorem write_bytes (file buf : List UInt8) (ret : Option Nat) :
    (rnsFileWrite file buf ret).1 = file ++ buf.take (ret.getD 0) := by
  cases ret <;> simp [rnsFileWrite]

/-- A failure leaves the tree, and behind the index some bytes, unless it comes before them. -/
theorem add_fails (hfail : (rnsFmgrAddMeets fmgr file key meets).2 = false) :
    ∃ bytes, (rnsFmgrAddMeets fmgr file key meets).1 = { fmgr with file := fmgr.file ++ bytes } ∧
      bytes.length < 2 ^ 13 ∧ (bytes = [] ↔ meets.Before file) := by
  have hkey := htob64_length key
  have hlen : (rnsHtob32 (u32 file.length)).length = 4 := htob_length _ _
  unfold rnsFmgrAddMeets at hfail ⊢
  by_cases hgo : meets.finfo ∧ (meets.opens ∧ file.length < 4096) ∧ meets.name
  · simp only [if_pos hgo] at hfail ⊢
    obtain ⟨hfinfo, ⟨hopens, hlt⟩, hname⟩ := hgo
    have hbefore : meets.Before file ↔ meets.key.getD 0 = 0 := by
      simp [Meets.Before, hfinfo, hopens, hname, Nat.not_le.mpr hlt]
    rw [hbefore]
    by_cases hfirst : (rnsFileWrite fmgr.file (rnsHtob64 key) meets.key).2 ≠ 8
    · rw [if_pos hfirst, write_bytes]
      refine ⟨_, rfl, by rw [List.length_take]; omega, ?_⟩
      rw [List.take_eq_nil_iff, ← List.length_eq_zero_iff]
      omega
    rw [if_neg hfirst] at hfail ⊢
    -- the key has been written
    have hwritten : meets.key.getD 0 ≠ 0 := by
      rw [ne_eq, not_not] at hfirst
      cases hret : meets.key with
      | none =>
        rw [hret] at hfirst
        cases hfirst
      | some n =>
        rintro rfl
        rw [hret] at hfirst
        cases hfirst
    have hnonempty : (rnsHtob64 key).take (meets.key.getD 0) ≠ [] := by
      rw [ne_eq, List.take_eq_nil_iff, ← List.length_eq_zero_iff]
      omega
    by_cases hsecond : (rnsFileWrite (rnsFileWrite fmgr.file (rnsHtob64 key) meets.key).1
        (rnsHtob32 (u32 file.length)) meets.len).2 ≠ 4
    · rw [if_pos hsecond, write_bytes, write_bytes, List.append_assoc]
      refine ⟨_, rfl, by simp only [List.length_append, List.length_take]; omega, ?_⟩
      simp [hnonempty, hwritten]
    rw [if_neg hsecond] at hfail ⊢
    split at hfail
    · rename_i hthird
      rw [if_pos hthird, write_bytes, write_bytes, write_bytes, List.append_assoc, List.append_assoc]
      refine ⟨_, rfl, by simp only [List.length_append, List.length_take]; omega, ?_⟩
      simp [hnonempty, hwritten]
    · cases hfail
  · rw [if_neg hgo]
    refine ⟨[], by simp, by decide, iff_of_true rfl ?_⟩
    simp only [Meets.Before]
    by_contra hnone
    simp only [not_or, Bool.not_eq_false, not_le] at hnone
    exact hgo ⟨hnone.1, ⟨hnone.2.1, hnone.2.2.1⟩, hnone.2.2.2.1⟩

/-- A record that has been loaded. -/
theorem load_some (hload : loadLoop m bound walker root = some root') (hlt : walker < bound) :
    walker + 12 + rnsBtoh32 m (walker + 8) ≤ bound ∧
      loadLoop m bound (walker + 12 + rnsBtoh32 m (walker + 8)) (insertKey (rnsBtoh64 m walker)
        (cString (slice m (walker + 12) (rnsBtoh32 m (walker + 8)))) root) = some root' := by
  rw [loadLoop, if_pos hlt] at hload
  split at hload
  · cases hload
  · simp only at hload
    split at hload
    · cases hload
    · exact ⟨by omega, hload⟩

/-- A loop that has more bytes comes to where it has ended before. -/
theorem load_on (hload : loadLoop m bound walker root = some root') (hle : walker ≤ bound)
    (hmore : bound ≤ bound') (hm : ∀ i < bound, m' i = m i) :
    loadLoop m' bound' walker root = loadLoop m' bound' bound root' := by
  induction hrest : bound - walker using Nat.strong_induction_on generalizing walker root with
  | _ n ih =>
    subst hrest
    rcases Nat.eq_or_lt_of_le hle with rfl | hlt
    · rw [loadLoop, if_neg (lt_irrefl _)] at hload
      rw [Option.some.inj hload]
    · obtain ⟨hin, hnext⟩ := load_some hload hlt
      have hlen : rnsBtoh32 m' (walker + 8) = rnsBtoh32 m (walker + 8) := by
        simp only [rnsBtoh32, btoh_succ, btoh_zero]
        rw [hm _ (by omega), hm _ (by omega), hm _ (by omega), hm _ (by omega)]
      have hkey : rnsBtoh64 m' walker = rnsBtoh64 m walker := by
        rw [rnsBtoh64, rnsBtoh64, hm walker hlt]
      have hname : slice m' (walker + 12) (rnsBtoh32 m (walker + 8)) =
          slice m (walker + 12) (rnsBtoh32 m (walker + 8)) := by
        apply List.map_congr_left
        intro i hi
        rw [List.mem_range] at hi
        exact hm _ (by omega)
      rw [loadLoop, if_pos (by omega), if_neg (by omega)]
      simp only [hlen, hkey, hname]
      rw [if_neg (by omega)]
      exact ih _ (by omega) hnext hin rfl

theorem load_keeps (hload : loadLoop m bound walker root = some root') : root.length ≤ root'.length := by
  induction hrest : bound - walker using Nat.strong_induction_on generalizing walker root with
  | _ n ih =>
    subst hrest
    by_cases hlt : walker < bound
    · obtain ⟨hin, hnext⟩ := load_some hload hlt
      have hle := ih _ (by omega) hnext rfl
      rw [insert_perm.length_eq] at hle
      exact (Nat.le_succ _).trans hle
    · rw [loadLoop, if_neg hlt] at hload
      rw [Option.some.inj hload]

/-- A round adds a file. -/
theorem load_grows (hload : loadLoop m bound walker root = some root') (hlt : walker < bound) :
    root.length < root'.length := by
  have hle := load_keeps (load_some hload hlt).2
  rw [insert_perm.length_eq] at hle
  exact hle

/-- With bytes behind it, an index is not read as it was. -/
theorem load_behind {loaded : Fmgr} {bytes : List UInt8} (hload : rnsFmgrLoad file = some loaded)
    (hbytes : bytes ≠ []) (hfew : bytes.length < 2 ^ 13) :
    (rnsFmgrLoad (file ++ bytes)).map Fmgr.root ≠ some loaded.root := by
  have hpos := List.length_pos_of_ne_nil hbytes
  have hmod := @Int.bmod_def file.length (2 ^ 32)
  have hmod' := @Int.bmod_def (file ++ bytes).length (2 ^ 32)
  rw [List.length_append] at hmod'
  intro hsame
  unfold rnsFmgrLoad i32 at hload hsame
  simp only at hload hsame
  split at hload
  · cases hload
  rename_i hsize
  obtain ⟨root, hroot, rfl⟩ := Option.map_eq_some_iff.mp hload
  split at hsame
  · cases hsame
  rename_i hsize'
  rw [Option.map_map, Option.map_eq_some_iff] at hsame
  obtain ⟨root', hroot', heq⟩ := hsame
  rw [List.length_append] at hsize' hroot'
  have hlonger : (Int.bmod (file.length : Int) (2 ^ 32)).toNat <
      (Int.bmod ((file.length + bytes.length : Nat) : Int) (2 ^ 32)).toNat := by omega
  have hframe : ∀ i < (Int.bmod (file.length : Int) (2 ^ 32)).toNat, bufOf (file ++ bytes) i = bufOf file i := by
    intro i hi
    have hlt : i < file.length := by omega
    exact List.getD_append file bytes 0 i hlt
  rw [load_on hroot (Nat.zero_le _) hlonger.le hframe] at hroot'
  have hgrows := load_grows hroot' hlonger
  simp only [Function.comp] at heq
  exact absurd (congrArg List.length heq) hgrows.ne'

end

/-- Every failure that comes before the first byte leaves everything as it was, and where the index can be
loaded no other one does. -/
theorem add_atomic_iff (fmgr : Fmgr) (file : List UInt8) (key : Nat) (meets : Meets)
    (hfail : (rnsFmgrAddMeets fmgr file key meets).2 = false) :
    (meets.Before file → Atomic fmgr (rnsFmgrAddMeets fmgr file key meets).1) ∧
      ∀ loaded, rnsFmgrLoad fmgr.file = some loaded →
        (Atomic fmgr (rnsFmgrAddMeets fmgr file key meets).1 ↔ meets.Before file) := by
  obtain ⟨bytes, hadd, hfew, hbefore⟩ := add_fails hfail
  rw [hadd, ← hbefore]
  have hnone : bytes = [] → Atomic fmgr { fmgr with file := fmgr.file ++ bytes } := by
    rintro rfl
    exact ⟨rfl, fun later => by rw [List.append_nil]⟩
  refine ⟨hnone, ?_⟩
  intro loaded hload
  refine ⟨?_, hnone⟩
  intro hatomic
  by_contra hbytes
  have hloads := hatomic.loads []
  have hempty : index [] = [] := rfl
  simp only [hempty, List.append_nil, hload, Option.map_some] at hloads
  exact load_behind hload hbytes hfew hloads

/-- The first write fails. -/
theorem add_atomic_full :
    (Meets.Before ⟨true, true, true, none, none, none⟩ [97] →
      Atomic ⟨[], []⟩ (rnsFmgrAddMeets ⟨[], []⟩ [97] 1 ⟨true, true, true, none, none, none⟩).1) ∧
    ∀ loaded, rnsFmgrLoad [] = some loaded →
      (Atomic ⟨[], []⟩ (rnsFmgrAddMeets ⟨[], []⟩ [97] 1 ⟨true, true, true, none, none, none⟩).1 ↔
        Meets.Before ⟨true, true, true, none, none, none⟩ [97]) :=
  add_atomic_iff ⟨[], []⟩ [97] 1 _ (by decide)

/-- The second write fails, so that the key stays in an index that was empty. -/
theorem add_not_atomic : ¬ ∀ (fmgr : Fmgr) (file : List UInt8) (key : Nat) (meets : Meets),
    (rnsFmgrAddMeets fmgr file key meets).2 = false → Atomic fmgr (rnsFmgrAddMeets fmgr file key meets).1 := by
  intro hall
  have hatomic := hall ⟨[], []⟩ [97] 0 ⟨true, true, true, some 8, none, none⟩ (by decide)
  have hloads := hatomic.loads []
  have hempty : rnsFmgrLoad ([] ++ index []) = some ⟨[], []⟩ := load_whole (by decide)
  have hkey : (rnsFmgrAddMeets ⟨[], []⟩ [97] 0 ⟨true, true, true, some 8, none, none⟩).1.file ++ index [] =
      [] ++ rnsHtob64 0 := by decide
  rw [hkey, hempty] at hloads
  exact load_behind hempty (by decide) (by decide) hloads

end Yclib.FileMgr
