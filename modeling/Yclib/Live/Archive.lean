import Yclib.Live.Gop
import Yclib.Util.Decimal
import Yclib.Util.IndexAppend

namespace Yclib.Live
open Multimap FileMgr

/-! How `yms_channel_recd` keeps blocks in files: the key of a file is the offset of its first block. -/

/-- The index of a channel's files, and what is in them. -/
structure Archive where
  fmgr : Fmgr
  files : List UInt8 → List UInt8

/-- What a `channel_t` says of its files. -/
structure Recorder where
  recddir : List UInt8
  contentId : List UInt8
  recdsize : Nat

/-- What a call of `yms_channel_recd` meets: whether the file that is found can be opened, whether
`rns_file_size` has its size, what `rns_fmgr_add` meets, whether a file that could not be opened for it
is empty then, and what the write of the block comes to. -/
structure RecdMeets where
  opens : Bool
  stat : Bool
  add : Meets
  empties : Bool
  write : Option Nat

/-- `%s/%s-%llu.ts`. -/
def Recorder.fullName (rec : Recorder) (offset : Nat) : List UInt8 :=
  rec.recddir ++ ascii "/" ++ rec.contentId ++ ascii "-" ++ decimal offset ++ ascii ".ts"

/-- What there is room for in the buffer of the name. -/
def Recorder.name (rec : Recorder) (offset : Nat) : List UInt8 := (rec.fullName offset).take 127

/-- `rns_fmgr_search` but for the opening: the last file whose key is not above. -/
def rnsFmgrSearch (fmgr : Fmgr) (key : Nat) : Option (Nat × List UInt8) :=
  (fmgr.root.filter fun finfo => finfo.1 ≤ key).getLast?

/-- `rns_file_write` of a block, which has to go through as a whole. -/
def Archive.write (archive : Archive) (file buf : List UInt8) (write : Option Nat) : Archive × Bool :=
  let written := rnsFileWrite (archive.files file) buf write
  ({ archive with files := Function.update archive.files file written.1 }, written.2 = blockSize)

/-- The file that a block goes behind, where one is found that goes on. -/
def Archive.goesOn (archive : Archive) (rec : Recorder) (meets : RecdMeets) (offset : Nat) : Option (List UInt8) :=
  match rnsFmgrSearch archive.fmgr offset with
  | none => none
  | some (key, file) =>
    let size : Int := if meets.stat then i32 (archive.files file).length else -2
    if meets.opens = false ∨ size < 0 ∨ rec.recdsize < size.toNat ∨ size.toNat + key < offset then none
    else some file

/-- `yms_channel_recd`, with whether the block is saved. -/
def ymsChannelRecd (rec : Recorder) (archive : Archive) (meets : RecdMeets) (buf : List UInt8) (offset : Nat) :
    Archive × Bool :=
  match archive.goesOn rec meets offset with
  | some file => archive.write file buf meets.write
  | none =>
    let file := rec.name offset
    let added := rnsFmgrAddMeets archive.fmgr file offset meets.add
    let files :=
      if meets.add.finfo ∧ (meets.add.opens ∨ meets.empties) then Function.update archive.files file []
      else archive.files
    if added.2 then Archive.write ⟨added.1, files⟩ file buf meets.write else (⟨added.1, files⟩, false)

/-- The byte at an offset, in the file that a search for it finds. -/
def Archive.byte (archive : Archive) (p : Nat) : Option UInt8 :=
  (rnsFmgrSearch archive.fmgr p).bind fun finfo => (archive.files finfo.2)[p - finfo.1]?

/-- The names of the files up to an offset fit into their buffer. -/
def Recorder.Named (rec : Recorder) (n : Nat) : Prop := ∀ offset ≤ n, (rec.fullName offset).length < 128

/-- A file has its name, and from its key on it has what comes in front of the offset. -/
structure Filed (rec : Recorder) (files : List UInt8 → List UInt8) (bytes : List UInt8) (next : Nat)
    (finfo : Nat × List UInt8) : Prop where
  name : finfo.2 = rec.name finfo.1
  ends : finfo.1 + (files finfo.2).length ≤ next
  bytes : files finfo.2 <+: bytes.drop finfo.1

/-- Every file of the index is in its place, and none begins behind the offset. -/
structure InPlace (rec : Recorder) (archive : Archive) (bytes : List UInt8) (next : Nat) : Prop where
  sorted : (archive.fmgr.root.map Prod.fst).Pairwise (· < ·)
  begins : ∀ finfo ∈ archive.fmgr.root, finfo.1 < next
  filed : ∀ finfo ∈ archive.fmgr.root, Filed rec archive.files bytes next finfo

section
variable {rec : Recorder} {archive : Archive} {bytes more buf : List UInt8} {next n p : Nat}
  {meets : RecdMeets} {finfo : Nat × List UInt8} {files files' : List UInt8 → List UInt8}

/-- What is recorded stays in its place while more comes behind it. -/
theorem InPlace.append (h : InPlace rec archive bytes next) (hnext : next ≤ bytes.length) :
    InPlace rec archive (bytes ++ more) next := by
  refine ⟨h.sorted, h.begins, fun finfo hm => ?_⟩
  obtain ⟨hname, hends, hbytes⟩ := h.filed finfo hm
  have hbegins := h.begins finfo hm
  refine ⟨hname, hends, ?_⟩
  rw [List.drop_append_of_le_length (by omega)]
  exact hbytes.trans (List.prefix_append _ _)

theorem search_mem_root {fmgr : Fmgr} (h : rnsFmgrSearch fmgr p = some finfo) :
    finfo ∈ fmgr.root ∧ finfo.1 ≤ p := by
  have hm := List.mem_filter.mp (List.mem_of_getLast? h)
  exact ⟨hm.1, of_decide_eq_true hm.2⟩

/-- What is found in a file is what came in at its offset. -/
theorem InPlace.right (h : InPlace rec archive bytes next) {b : UInt8} (hbyte : archive.byte p = some b) :
    bytes[p]? = some b := by
  obtain ⟨finfo, hsearch, hb⟩ := Option.bind_eq_some_iff.mp hbyte
  obtain ⟨hm, hle⟩ := search_mem_root hsearch
  obtain ⟨rest, hrest⟩ := (h.filed finfo hm).bytes
  have hlt := List.getElem?_eq_some_iff.mp hb
  have hdrop : (bytes.drop finfo.1)[p - finfo.1]? = some b := by
    rw [← hrest, List.getElem?_append_left hlt.1]
    exact hb
  rw [List.getElem?_drop] at hdrop
  rwa [Nat.add_sub_cancel' hle] at hdrop

/-- What a call has done to the files: those in front are found as they were, and a block that is saved
is found behind them. -/
structure Grown (rec : Recorder) (archive archive' : Archive) (saved : Bool) (bytes : List UInt8) (next : Nat) :
    Prop where
  place : InPlace rec archive' bytes (next + blockSize)
  before : ∀ p < next, archive'.byte p = archive.byte p
  block : saved = true → ∀ p, next ≤ p → p < next + blockSize → archive'.byte p = bytes[p]?

end

end Yclib.Live
