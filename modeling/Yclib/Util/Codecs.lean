import Yclib.Util.FileMgr

namespace Yclib.Codecs
open Network FileMgr

/-! The codec pairs of `rns_network.c`, and what the decoders leave of the buffers that they read. -/

/-- The loop of `rns_htol16`, `rns_htol24` and `rns_htol32`: the least significant of `size` bytes is
stored first. -/
def htol (data size : Nat) : List UInt8 := (List.range size).map fun i => UInt8.ofNat (data >>> (8 * i))

def rnsHtol16 (data : Nat) : List UInt8 := htol data 2
def rnsHtol24 (data : Nat) : List UInt8 := htol data 3
def rnsHtol32 (data : Nat) : List UInt8 := htol data 4

def rnsLtoh16 (m : Mem) (w : Nat) : Nat := ltoh m w 2
def rnsLtoh24 (m : Mem) (w : Nat) : Nat := ltoh m w 3

/-- A round of `rns_reverse`: two bytes change places by three exclusive ors. -/
def swapBytes (m : Mem) (left right : Nat) : Mem :=
  let m := Function.update m right (m right ^^^ m left)
  let m := Function.update m left (m right ^^^ m left)
  Function.update m right (m right ^^^ m left)

def reverseLoop (m : Mem) (left right : Nat) : Mem :=
  if left < right then reverseLoop (swapBytes m left right) (left + 1) (right - 1) else m
termination_by right - left

/-- `rns_reverse` of a buffer in memory. -/
def rnsReverseBuf (m : Mem) (w size : Nat) : Mem := reverseLoop m w (w + size - 1)

/-- `rns_htold`, which reverses the double and not what it writes. -/
def rnsHtold (d : UInt64) : List UInt8 := rnsReverse (hostBytes d)

/-- `rns_ltohd`, with the memory that it leaves: it reverses the buffer that it reads. -/
def rnsLtohd (m : Mem) (w : Nat) : UInt64 × Mem :=
  let m := rnsReverseBuf m w 8
  (UInt64.ofNat (ofHostBytes (slice m w 8)), m)

/-- The pairs of an encoder and a decoder. -/
inductive Codec
  | b16
  | b24
  | b32
  | b64
  | l16
  | l24
  | l32
  | bd
  | ld
deriving DecidableEq

namespace Codec

/-- The width of the values; a double is its bit pattern. -/
def bits : Codec → Nat
  | b16 | l16 => 16
  | b24 | l24 => 24
  | b32 | l32 => 32
  | b64 | bd | ld => 64

def encode : Codec → Nat → List UInt8
  | b16, value => rnsHtob16 value
  | b24, value => rnsHtob24 value
  | b32, value => rnsHtob32 value
  | b64, value => rnsHtob64 value
  | l16, value => rnsHtol16 value
  | l24, value => rnsHtol24 value
  | l32, value => rnsHtol32 value
  | bd, value => rnsHtobd (UInt64.ofNat value)
  | ld, value => rnsHtold (UInt64.ofNat value)

/-- The value that is decoded, and the memory that is left. -/
def decode : Codec → Mem → Nat → Nat × Mem
  | b16, m, w => (rnsBtoh16 m w, m)
  | b24, m, w => (rnsBtoh24 m w, m)
  | b32, m, w => (rnsBtoh32 m w, m)
  | b64, m, w => (rnsBtoh64 m w, m)
  | l16, m, w => (rnsLtoh16 m w, m)
  | l24, m, w => (rnsLtoh24 m w, m)
  | l32, m, w => (rnsLtoh32 m w, m)
  | bd, m, w => ((rnsBtohd m w).toNat, m)
  | ld, m, w => ((rnsLtohd m w).1.toNat, (rnsLtohd m w).2)

/-- What was encoded is decoded again, wherever it is in memory. -/
def Returns (codec : Codec) (value : Nat) : Prop :=
  ∀ m w, Holds m w (codec.encode value) → (codec.decode m w).1 = value

/-- Nothing is modified. -/
def Leaves (codec : Codec) (m : Mem) (w : Nat) : Prop := (codec.decode m w).2 = m

end Codec

section
variable {m : Mem} {left right w size : Nat}

theorem swap_bytes (h : left < right) (i : Nat) :
    swapBytes m left right i = if i = left then m right else if i = right then m left else m i := by
  have hne : right ≠ left := by omega
  unfold swapBytes
  by_cases hl : i = left
  · subst hl
    simp [Function.update_of_ne hne.symm, Function.update_of_ne hne]
  · by_cases hr : i = right
    · subst hr
      simp [hl, Function.update_of_ne hne.symm]
    · simp [hl, hr]

/-- Each round brings its two bytes to their places, and the rounds in between are those of a shorter buffer. -/
theorem reverse_loop (m : Mem) (left right i : Nat) :
    reverseLoop m left right i = if left ≤ i ∧ i ≤ right then m (left + right - i) else m i := by
  induction hn : right - left using Nat.strong_induction_on generalizing m left right with
  | _ n ih =>
    rw [reverseLoop]
    by_cases h : left < right
    · rw [if_pos h, ih (right - 1 - (left + 1)) (by omega) _ _ _ rfl]
      simp only [swap_bytes h]
      by_cases hin : left ≤ i ∧ i ≤ right
      · rw [if_pos hin]
        by_cases hl : i = left
        · subst hl
          rw [if_neg (by omega), if_pos rfl, Nat.add_sub_cancel_left]
        · by_cases hr : i = right
          · subst hr
            rw [if_neg (by omega), if_neg hl, if_pos rfl, Nat.add_sub_cancel]
          · have hat : left + 1 + (right - 1) - i = left + right - i := by omega
            rw [if_pos (by omega), hat, if_neg (by omega), if_neg (by omega)]
      · rw [if_neg hin, if_neg (by omega), if_neg (by omega), if_neg (by omega)]
    · rw [if_neg h]
      by_cases hin : left ≤ i ∧ i ≤ right
      · have hat : left + right - i = i := by omega
        rw [if_pos hin, hat]
      · rw [if_neg hin]

/-- The buffer is reversed in place. -/
theorem reverse_slice (m : Mem) (w size : Nat) : slice (rnsReverseBuf m w size) w size = (slice m w size).reverse := by
  apply List.ext_getElem (by simp)
  intro i hi hi'
  rw [slice_length] at hi
  have hat : w + (w + size - 1) - (w + i) = w + (size - 1 - i) := by omega
  simp only [slice, List.getElem_reverse, List.getElem_map, List.getElem_range, List.length_map, List.length_range,
    rnsReverseBuf, reverse_loop]
  rw [if_pos (by omega), hat]

/-- Memory that is reversed is as it was where it reads the same backwards. -/
theorem reverse_same (hsize : 0 < size) : rnsReverseBuf m w size = m ↔ (slice m w size).reverse = slice m w size := by
  constructor
  · intro h
    rw [← reverse_slice, h]
  · intro h
    have hbytes : slice (rnsReverseBuf m w size) w size = slice m w size := by rw [reverse_slice, h]
    funext i
    by_cases hin : w ≤ i ∧ i < w + size
    · have hi := List.map_inj_left.mp hbytes (i - w) (List.mem_range.mpr (by omega))
      rwa [Nat.add_sub_cancel' hin.1] at hi
    · rw [rnsReverseBuf, reverse_loop, if_neg (by omega)]

theorem htol_length (data size : Nat) : (htol data size).length = size := by simp [htol]

/-- Each decoder of the little-endian family undoes the encoder of its width. -/
theorem ltoh_htol {data : Nat} (h : Holds m w (htol data size)) : ltoh m w size = data % 256 ^ size := by
  induction size with
  | zero => simp [ltoh, Nat.mod_one]
  | succ size ih =>
    have hsplit : htol data (size + 1) = htol data size ++ [UInt8.ofNat (data >>> (8 * size))] := by
      simp [htol, List.range_succ]
    rw [hsplit, holds_append, htol_length] at h
    have hlast := (holds_cons.mp h.2).1
    have hpow : (2 : Nat) ^ (8 * size) = 256 ^ size := by rw [Nat.pow_mul]
    rw [ltoh, ih h.1, hlast, UInt8.toNat_ofNat', Nat.shiftRight_eq_div_pow, hpow, show (2 : Nat) ^ 8 = 256 from rfl,
      Nat.pow_succ, Nat.mod_mul, Nat.mul_comm (256 ^ size)]

/-- What each decoder makes of what its encoder has stored. -/
theorem decoded {codec : Codec} {value : Nat} (hv : value < 2 ^ codec.bits) (h : Holds m w (codec.encode value)) :
    (codec.decode m w).1 = if codec = .b64 then reread value else value := by
  cases codec with
  | b16 => exact (btoh_htob h).trans (Nat.mod_eq_of_lt hv)
  | b24 => exact (btoh_htob h).trans (Nat.mod_eq_of_lt hv)
  | b32 => exact (btoh_htob h).trans (Nat.mod_eq_of_lt hv)
  | b64 => exact btoh64_htob64 h
  | l16 => exact (ltoh_htol h).trans (Nat.mod_eq_of_lt hv)
  | l24 => exact (ltoh_htol h).trans (Nat.mod_eq_of_lt hv)
  | l32 => exact (ltoh_htol h).trans (Nat.mod_eq_of_lt hv)
  | bd =>
    have hvalue : rnsBtohd m w = UInt64.ofNat value := btohd_htobd h
    rw [Codec.decode, hvalue]
    exact UInt64.toNat_ofNat_of_lt' hv
  | ld =>
    have hslice : slice m w 8 = rnsHtold (UInt64.ofNat value) := slice_holds h
    simp only [Codec.decode, rnsLtohd]
    rw [reverse_slice, hslice, rnsHtold, rnsReverse, List.reverse_reverse, host_bytes_value, UInt64.ofNat_toNat]
    exact UInt64.toNat_ofNat_of_lt' hv

theorem leaves_iff (codec : Codec) (m : Mem) (w : Nat) :
    codec.Leaves m w ↔ (codec = .ld → (slice m w 8).reverse = slice m w 8) := by
  cases codec with
  | ld => simpa [Codec.Leaves, Codec.decode, rnsLtohd] using reverse_same (show 0 < 8 by decide)
  | _ => simp [Codec.Leaves, Codec.decode]

end

/-- The pair of 64 bits gives back the values that have one byte four times, all other pairs every value. The
decoder of little-endian doubles leaves its buffer reversed, all others leave it as it was. -/
theorem codecs_iff (codec : Codec) :
    (∀ value < 2 ^ codec.bits, codec.Returns value ↔ (codec = .b64 → reread value = value)) ∧
      ∀ m w, codec.Leaves m w ↔ (codec = .ld → (slice m w 8).reverse = slice m w 8) := by
  refine ⟨fun value hv => ⟨?_, ?_⟩, leaves_iff codec⟩
  · rintro hreturns rfl
    have hholds : Holds (bufOf (Codec.b64.encode value)) 0 (Codec.b64.encode value) := buf_holds _
    exact (decoded hv hholds).symm.trans (hreturns _ _ hholds)
  · intro hsame m w hholds
    rw [decoded hv hholds]
    split
    · rename_i hcodec
      exact hsame hcodec
    · rfl

/-- The number 1 is decoded as 0, and a double is turned around where it lies. -/
theorem one_lost : ¬ Codec.b64.Returns 1 ∧ ¬ Codec.ld.Leaves (fun i => UInt8.ofNat i) 0 := by
  constructor
  · intro hreturns
    have hdecoded := hreturns _ _ (buf_holds (Codec.b64.encode 1))
    revert hdecoded
    decide
  · rw [leaves_iff]
    decide

end Yclib.Codecs
