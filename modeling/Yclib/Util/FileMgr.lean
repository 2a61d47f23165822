import Yclib.Util.CSearch
import Yclib.Util.Multimap
import Yclib.Util.Network

namespace Yclib.FileMgr
open Multimap Network

/-! `rns_fmgr.c`: a tree of files by their keys, and the index file it is loaded from. -/

/-- `rns_htob64`, whose argument is a `uint32_t`. A shift by 32 and more, which the language
leaves open, is by the amount modulo 32, as on the hosts the daemon runs on. -/
def rnsHtob64 (data : Nat) : List UInt8 :=
  (List.range 8).map fun i => UInt8.ofNat (u32 data >>> ((56 - 8 * i) % 32))

/-- The loop of `rns_btoh64`, which stays at its first byte. -/
def btoh64Loop (b : UInt8) : Nat → Nat → Nat
  | 0, result => result
  | size + 1, result =>
    let result := u32 (result + b.toNat)
    if size = 0 then result else btoh64Loop b size (u32 (result <<< 8))

/-- `rns_btoh64`. -/
def rnsBtoh64 (m : Mem) (w : Nat) : Nat := btoh64Loop (m w) 8 0

/-- `rns_fmgr_t`: the index file and the tree. -/
structure Fmgr where
  file : List UInt8
  root : List (Nat × List UInt8)

/-- A file that `rns_fmgr_add` can open, other than the index. -/
structure Add where
  file : List UInt8
  key : Nat
  ends : 0 ∉ file
  opens : file.length < 4096

/-- `rns_fmgr_add` that goes through: the record is appended, and the file inserted. -/
def rnsFmgrAdd (fmgr : Fmgr) (add : Add) : Fmgr where
  file := fmgr.file ++ rnsHtob64 add.key ++ rnsHtob32 (u32 add.file.length) ++ add.file
  root := insertKey add.key add.file fmgr.root

/-- The loop of `rns_fmgr_load` from `walker` on. There is no result where a record is not there
as a whole. -/
def loadLoop (m : Mem) (bound walker : Nat) (root : List (Nat × List UInt8)) :
    Option (List (Nat × List UInt8)) :=
  if walker < bound then
    if bound < walker + 12 then none
    else
      let key := rnsBtoh64 m walker
      let len := rnsBtoh32 m (walker + 8)
      if bound < walker + 12 + len then none
      else
        loadLoop m bound (walker + 12 + len)
          (insertKey key (cString (slice m (walker + 12) len)) root)
  else some root
termination_by bound - walker

/-- The bytes of a file that is read into a buffer. -/
def bufOf (file : List UInt8) : Mem := fun i => file.getD i 0

/-- `rns_fmgr_load`, where `rns_file_size` is an `int32_t`. -/
def rnsFmgrLoad (file : List UInt8) : Option Fmgr :=
  let size := i32 file.length
  if size < 0 then none
  else (loadLoop (bufOf file) size.toNat 0 []).map fun root => ⟨file, root⟩

/-- The record of a file in the index. -/
def record (add : Add) : List UInt8 :=
  rnsHtob64 add.key ++ rnsHtob32 (u32 add.file.length) ++ add.file

def index (adds : List Add) : List UInt8 := adds.flatMap record

/-- The key that comes back for the one that is written. -/
def reread (key : Nat) : Nat := 0x01010101 * (key / 2 ^ 24 % 256)

theorem reread_reread (key : Nat) : reread (reread key) = reread key := by
  unfold reread
  have hlt : key / 2 ^ 24 % 256 < 256 := Nat.mod_lt _ (by decide)
  generalize key / 2 ^ 24 % 256 = b at hlt
  have hdiv : 0x01010101 * b / 2 ^ 24 = b := Nat.div_eq_of_lt_le (by omega) (by omega)
  rw [hdiv, Nat.mod_eq_of_lt hlt]

theorem btoh64_loop (b : UInt8) : btoh64Loop b 8 0 = 0x01010101 * b.toNat := by
  have h := b.toNat_lt
  simp [btoh64Loop, u32, Nat.shiftLeft_eq]
  omega

theorem htob64_length (data : Nat) : (rnsHtob64 data).length = 8 := by simp [rnsHtob64]

theorem btoh64_htob64 {m : Mem} {w key : Nat} (h : Holds m w (rnsHtob64 key)) :
    rnsBtoh64 m w = reread key := by
  have hfirst := h 0 (by simp [htob64_length])
  rw [rnsBtoh64, btoh64_loop]
  simp only [Nat.add_zero] at hfirst
  rw [hfirst, reread]
  have hshift : (56 - 8 * 0) % 32 = 24 := rfl
  simp only [rnsHtob64, List.getElem_map, List.getElem_range, UInt8.toNat_ofNat',
    Nat.shiftRight_eq_div_pow, u32, hshift]
  omega

theorem record_length (add : Add) : (record add).length = 12 + add.file.length := by
  simp only [record, List.length_append, htob64_length, rnsHtob32, htob_length]

theorem c_string_file (add : Add) : cString add.file = add.file := c_string_plain add.ends

theorem record_count {m : Mem} {walker : Nat} {add : Add} (h : Holds m walker (record add)) :
    rnsBtoh32 m (walker + 8) = add.file.length := by
  obtain ⟨hkey, hlen⟩ := holds_append.mp (holds_append.mp h).1
  rw [htob64_length] at hlen
  have hopens := add.opens
  rw [rnsBtoh32, btoh_htob hlen, u32]
  omega

/-- A record is read with its name, and with the key that comes back. -/
theorem load_record {m : Mem} {bound walker : Nat} {add : Add} (root : List (Nat × List UInt8))
    (h : Holds m walker (record add)) (hbound : walker + (record add).length ≤ bound) :
    loadLoop m bound walker root = loadLoop m bound (walker + (record add).length)
      (insertKey (reread add.key) add.file root) := by
  have hrecord := record_length add
  have hcount := record_count h
  obtain ⟨hhead, hfile⟩ := holds_append.mp h
  obtain ⟨hkey, -⟩ := holds_append.mp hhead
  simp only [List.length_append, htob64_length, rnsHtob32, htob_length] at hfile
  have hname : slice m (walker + 12) add.file.length = add.file := slice_holds hfile
  rw [loadLoop, if_pos (by omega), if_neg (by omega)]
  simp only [hcount]
  rw [if_neg (by omega), btoh64_htob64 hkey, hname, c_string_file, hrecord, ← Nat.add_assoc]

/-- The tree with the files of some records, by the keys that come back. -/
def reinsert (root : List (Nat × List UInt8)) (adds : List Add) : List (Nat × List UInt8) :=
  adds.foldl (fun root add => insertKey (reread add.key) add.file root) root

theorem load_index {m : Mem} {walker : Nat} {adds : List Add} (root : List (Nat × List UInt8))
    (h : Holds m walker (index adds)) :
    loadLoop m (walker + (index adds).length) walker root = some (reinsert root adds) := by
  induction adds generalizing walker root with
  | nil =>
    rw [loadLoop, if_neg (by simp [index])]
    rfl
  | cons add adds ih =>
    have hindex : index (add :: adds) = record add ++ index adds := rfl
    rw [hindex] at h
    obtain ⟨hrecord, hrest⟩ := holds_append.mp h
    rw [hindex, List.length_append, ← Nat.add_assoc, load_record root hrecord (by omega), ih _ hrest]
    rfl

/-- Where not all of the index is read, a file is missing. -/
theorem load_short {m : Mem} {bound walker : Nat} {adds : List Add} {root root' : List (Nat × List UInt8)}
    (h : Holds m walker (index adds)) (hle : walker ≤ bound)
    (hlt : bound < walker + (index adds).length) (hload : loadLoop m bound walker root = some root') :
    root'.length < root.length + adds.length := by
  induction adds generalizing walker root with
  | nil =>
    simp only [index, List.flatMap_nil, List.length_nil] at hlt
    omega
  | cons add adds ih =>
    have hindex : index (add :: adds) = record add ++ index adds := rfl
    rw [hindex] at h
    obtain ⟨hrecord, hrest⟩ := holds_append.mp h
    rw [hindex, List.length_append] at hlt
    by_cases hin : walker + (record add).length ≤ bound
    · rw [load_record root hrecord hin] at hload
      have hshort := ih hrest hin (by omega) hload
      rw [insert_perm.length_eq] at hshort
      simp only [List.length_cons] at hshort ⊢
      omega
    · have hlength := record_length add
      rw [loadLoop] at hload
      simp only [record_count hrecord] at hload
      by_cases hw : walker < bound
      · rw [if_pos hw] at hload
        by_cases hhead : bound < walker + 12
        · rw [if_pos hhead] at hload
          cases hload
        · rw [if_neg hhead, if_pos (by omega)] at hload
          cases hload
      · rw [if_neg hw] at hload
        cases hload
        simp

theorem add_all (fmgr : Fmgr) (adds : List Add) : adds.foldl rnsFmgrAdd fmgr =
    ⟨fmgr.file ++ index adds, adds.foldl (fun root add => insertKey add.key add.file root) fmgr.root⟩ := by
  induction adds generalizing fmgr with
  | nil => simp [index]
  | cons add adds ih =>
    rw [List.foldl_cons, ih]
    simp [rnsFmgrAdd, index, record]

/-- Whatever keys the files are inserted by, all of them are in the tree. -/
theorem insert_all_perm (key : Nat → Nat) (root : List (Nat × List UInt8)) (adds : List Add) :
    (adds.foldl (fun root add => insertKey (key add.key) add.file root) root).Perm
      (adds.map (fun add => (key add.key, add.file)) ++ root) := by
  induction adds generalizing root with
  | nil => exact .refl _
  | cons add adds ih =>
    refine (ih _).trans ?_
    rw [List.map_cons, List.cons_append]
    exact (insert_perm.append_left _).trans List.perm_middle

/-- With the keys that come back for those written, the tree is the same only if they are. -/
theorem reinsert_iff (root : List (Nat × List UInt8)) (adds : List Add) :
    reinsert root adds = adds.foldl (fun root add => insertKey add.key add.file root) root ↔
      ∀ add ∈ adds, add.key = reread add.key := by
  constructor
  · intro heq add hm
    have hperm := (insert_all_perm reread root adds).symm.trans
      ((List.Perm.of_eq heq).trans (insert_all_perm id root adds))
    have hentry : (add.key, add.file) ∈ adds.map fun add => (reread add.key, add.file) :=
      ((List.perm_append_right_iff root).mp hperm).mem_iff.mpr (List.mem_map.mpr ⟨add, hm, rfl⟩)
    obtain ⟨other, -, hother⟩ := List.mem_map.mp hentry
    have hkey : reread other.key = add.key := congrArg Prod.fst hother
    rw [← hkey, reread_reread]
  · intro h
    unfold reinsert
    induction adds generalizing root with
    | nil => rfl
    | cons add adds ih =>
      rw [List.foldl_cons, List.foldl_cons, ← h add (by simp)]
      exact ih _ (fun other hm => h other (by simp [hm]))

theorem buf_holds (file : List UInt8) : Holds (bufOf file) 0 file := by
  intro i hi
  simp [bufOf, hi]

/-- An index of less than two gigabytes is read as a whole. -/
theorem load_whole {adds : List Add} (h : (index adds).length < 2 ^ 31) :
    rnsFmgrLoad (index adds) = some ⟨index adds, reinsert [] adds⟩ := by
  have hsize : i32 (index adds).length = (index adds).length := i32_of_lt (by omega) (by omega)
  have hload := load_index [] (buf_holds (index adds))
  rw [Nat.zero_add] at hload
  simp only [rnsFmgrLoad, hsize]
  rw [if_neg (by omega), Int.toNat_natCast, hload, Option.map_some]

/-- Of a longer one, nothing is read or files are missing. -/
theorem load_long {adds : List Add} (h : 2 ^ 31 ≤ (index adds).length) {fmgr : Fmgr}
    (hload : rnsFmgrLoad (index adds) = some fmgr) : fmgr.root.length < adds.length := by
  simp only [rnsFmgrLoad] at hload
  split at hload
  · cases hload
  · rename_i hpos
    obtain ⟨root, hroot, rfl⟩ := Option.map_eq_some_iff.mp hload
    have hsize : (i32 (index adds).length).toNat < (index adds).length := by
      have hb := Int.bmod_lt (x := (index adds).length) (m := 2 ^ 32) (by decide)
      unfold i32
      omega
    simpa using load_short (buf_holds (index adds)) (Nat.zero_le _) (by omega) hroot

theorem index_append (earlier adds : List Add) : index (earlier ++ adds) = index earlier ++ index adds := by
  simp [index]

theorem index_length (adds : List Add) :
    (index adds).length = (adds.map fun add => 12 + add.file.length).sum := by
  simp only [index, List.length_flatMap, record_length]

/-- The tree that a run has made on top of those before it is rebuilt if and only if the
index is shorter than two gigabytes and the keys are those that come back. -/
theorem rebuilt_iff (earlier adds : List Add) (fmgr : Fmgr)
    (hload : rnsFmgrLoad (index earlier) = some fmgr)
    (hearlier : (earlier.map fun add => 12 + add.file.length).sum < 2 ^ 31) :
    rnsFmgrLoad (adds.foldl rnsFmgrAdd fmgr).file = some (adds.foldl rnsFmgrAdd fmgr) ↔
      ((earlier ++ adds).map fun add => 12 + add.file.length).sum < 2 ^ 31 ∧
        ∀ add ∈ adds, add.key = 0x01010101 * (add.key / 2 ^ 24 % 256) := by
  rw [← index_length] at hearlier
  rw [load_whole hearlier] at hload
  cases hload
  rw [add_all, ← index_append, ← index_length]
  have hsplit : reinsert [] (earlier ++ adds) = reinsert (reinsert [] earlier) adds := by
    simp only [reinsert, List.foldl_append]
  constructor
  · intro hrebuilt
    have hsmall : (index (earlier ++ adds)).length < 2 ^ 31 := by
      by_contra hlong
      have hshort := load_long (not_lt.mp hlong) hrebuilt
      have hall := (insert_all_perm id (reinsert [] earlier) adds).length_eq
      have hold := (insert_all_perm reread [] earlier).length_eq
      simp only [id, List.length_append, List.length_map, List.length_nil] at hall hold hshort
      unfold reinsert at hall hshort
      omega
    refine ⟨hsmall, ?_⟩
    rw [load_whole hsmall, hsplit] at hrebuilt
    exact (reinsert_iff _ adds).mp (congrArg Fmgr.root (Option.some.inj hrebuilt))
  · rintro ⟨hsmall, hkeys⟩
    rw [load_whole hsmall, hsplit, (reinsert_iff _ adds).mpr hkeys]

/-- Two files, the one by the key 0 and the other one by a key of four equal bytes. -/
def twoFiles : List Add := [⟨[97], 0, by decide, by decide⟩, ⟨[98], 0x05050505, by decide, by decide⟩]

theorem rebuilt_two : rnsFmgrLoad (twoFiles.foldl rnsFmgrAdd ⟨[], []⟩).file =
    some (twoFiles.foldl rnsFmgrAdd ⟨[], []⟩) := by
  have hload : rnsFmgrLoad (index []) = some ⟨[], []⟩ := load_whole (by decide)
  exact (rebuilt_iff [] twoFiles ⟨[], []⟩ hload (by decide)).mpr ⟨by decide, by decide⟩

/-- A file by the key 1 comes back by the key 0. -/
theorem key_one_lost : ¬ ∀ adds : List Add, rnsFmgrLoad (adds.foldl rnsFmgrAdd ⟨[], []⟩).file =
    some (adds.foldl rnsFmgrAdd ⟨[], []⟩) := by
  intro hall
  have hloaded : (rnsFmgrLoad (index [⟨[97], 1, by decide, by decide⟩])).map Fmgr.root =
      some [(0, [97])] := by
    rw [load_whole (by decide)]
    decide
  have heq := congrArg (Option.map Fmgr.root) (hall [⟨[97], 1, by decide, by decide⟩])
  rw [add_all, List.nil_append, hloaded] at heq
  revert heq
  decide

end Yclib.FileMgr
