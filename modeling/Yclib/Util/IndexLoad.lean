import Yclib.Util.FileMgr
import Yclib.Util.Loop

namespace Yclib.FileMgr
open Loop Network

/-! What the loop of `rns_fmgr_load` reads of an index file that may have been cut or damaged. -/

/-- The bytes that `rns_strncpy` of `n` bytes reads: none behind a NUL. -/
def copied (m : Mem) (w : Nat) : Nat → Nat
  | 0 => 0
  | n + 1 => if m w = 0 then 1 else copied m (w + 1) n + 1

/-- The length of the name in the first record of these bytes. -/
def nameLength (left : List UInt8) : Nat := rnsBtoh32 (bufOf left) 8

/-- These bytes are records as a whole. Only the name of the last one may be cut, where it has a NUL
or is not copied. -/
def Whole (room : Nat → Bool) (walker : Nat) (left : List UInt8) : Prop :=
  if _h : 12 ≤ left.length then
    if nameLength left ≤ left.length - 12 then
      Whole room (walker + 12 + nameLength left) (left.drop (12 + nameLength left))
    else 0 ∈ left.drop 12 ∨ room walker = false
  else left = []
termination_by left.length
decreasing_by
  rw [List.length_drop]
  omega

/-- The buffer that the file is read into, with what is behind it. -/
def loaded (bytes : List UInt8) (behind : Mem) : Mem := fun i => bytes.getD i (behind i)

section
variable {m : Mem} {w n bound walker : Nat} {bs left : List UInt8} {room : Nat → Bool}
  {looks : List (Nat × Nat)}

theorem name_length (h : Holds m walker left) (hlen : 12 ≤ left.length) :
    rnsBtoh32 m (walker + 8) = nameLength left := by
  have hbyte : ∀ i, i < 4 → m (walker + 8 + i) = bufOf left (8 + i) := by
    intro i hi
    have hlt : 8 + i < left.length := by omega
    have hfound := h (8 + i) hlt
    rw [Nat.add_assoc, hfound]
    simp [bufOf, hlt]
  simp only [nameLength, rnsBtoh32, btoh_succ, btoh_zero]
  simp only [hbyte 0 (by decide), hbyte 1 (by decide), hbyte 2 (by decide), hbyte 3 (by decide)]

/-- All reads are in front of this position. -/
def Inside (bound : Nat) (looks : List (Nat × Nat)) : Prop := ∀ look ∈ looks, look.1 + look.2 ≤ bound

end

end Yclib.FileMgr
