import Mathlib

namespace Yclib

/-- Memory as a pointer sees it: the byte at each offset from the start of a block. -/
abbrev Mem := Nat → UInt8

/-- Assignment to a `uint32_t`. -/
def u32 (n : Nat) : Nat := n % 2 ^ 32

/-- A difference stored in a `uint32_t`: a negative one wraps around. -/
def u32Sub (a b : Nat) : Nat := (a + 2 ^ 32 - b % 2 ^ 32) % 2 ^ 32

/-- Conversion to an `int32_t` result. -/
def i32 (n : Int) : Int := n.bmod (2 ^ 32)

theorem u32_of_lt {n : Nat} (h : n < 2 ^ 32) : u32 n = n := Nat.mod_eq_of_lt h

theorem u32_sub_of_le {a b : Nat} (h : b ≤ a) (ha : a < 2 ^ 32) : u32Sub a b = a - b := by
  unfold u32Sub
  omega

theorem i32_of_lt {n : Int} (h0 : 0 ≤ n) (h : n < 2 ^ 31) : i32 n = n := by
  unfold i32
  rw [Int.bmod_def]
  omega

theorem i32_of_ge {n : Int} (h0 : 2 ^ 31 ≤ n) (h : n < 2 ^ 32) : i32 n = n - 2 ^ 32 := by
  unfold i32
  rw [Int.bmod_def]
  omega

/-- The `size` bytes from offset `w` on are those of the list. -/
def Holds (m : Mem) (w : Nat) (bs : List UInt8) : Prop :=
  ∀ i, (h : i < bs.length) → m (w + i) = bs[i]

theorem holds_nil (m : Mem) (w : Nat) : Holds m w [] := fun _ h => absurd h (by simp)

theorem holds_cons {m : Mem} {w : Nat} {b : UInt8} {bs : List UInt8} :
    Holds m w (b :: bs) ↔ m w = b ∧ Holds m (w + 1) bs := by
  constructor
  · intro h
    refine ⟨h 0 (by simp), ?_⟩
    intro i hi
    have := h (i + 1) (by simpa using hi)
    simpa [Nat.add_assoc, Nat.add_comm 1 i] using this
  · rintro ⟨hb, hs⟩ i hi
    cases i with
    | zero => simpa using hb
    | succ i =>
      have := hs i (by simpa using hi)
      simpa [Nat.add_assoc, Nat.add_comm 1 i] using this

theorem holds_append {m : Mem} {w : Nat} {xs ys : List UInt8} :
    Holds m w (xs ++ ys) ↔ Holds m w xs ∧ Holds m (w + xs.length) ys := by
  induction xs generalizing w with
  | nil => simp [holds_nil]
  | cons x xs ih =>
    simp only [List.cons_append, holds_cons, ih, List.length_cons, and_assoc]
    rw [Nat.add_assoc, Nat.add_comm 1]

/-- The bytes a `memcpy` of `n` bytes from offset `w` would copy. -/
def slice (m : Mem) (w n : Nat) : List UInt8 := (List.range n).map (fun i => m (w + i))

@[simp] theorem slice_length (m : Mem) (w n : Nat) : (slice m w n).length = n := by
  simp [slice]

theorem slice_holds {m : Mem} {w : Nat} {bs : List UInt8} (h : Holds m w bs) :
    slice m w bs.length = bs := by
  apply List.ext_getElem (by simp)
  intro i h1 h2
  simpa [slice] using h i h2

namespace Network

/-- The loop of `rns_btoh16`, `rns_btoh24` and `rns_btoh32`: the bytes are added
in turn, the sum shifted by eight bits between two of them. -/
def btoh (m : Mem) (w : Nat) : Nat → Nat
  | 0 => 0
  | n + 1 => btoh m w n * 256 + (m (w + n)).toNat

def rnsBtoh16 (m : Mem) (w : Nat) : Nat := btoh m w 2
def rnsBtoh24 (m : Mem) (w : Nat) : Nat := btoh m w 3
def rnsBtoh32 (m : Mem) (w : Nat) : Nat := btoh m w 4

/-- The loop of `rns_ltoh32`: the first byte is the least significant. -/
def ltoh (m : Mem) (w : Nat) : Nat → Nat
  | 0 => 0
  | n + 1 => ltoh m w n + (m (w + n)).toNat * 256 ^ n

def rnsLtoh32 (m : Mem) (w : Nat) : Nat := ltoh m w 4

/-- The loop of `rns_htob16`, `rns_htob24` and `rns_htob32`: the most significant
of `size` bytes is stored first. -/
def htob (data : Nat) : Nat → List UInt8
  | 0 => []
  | n + 1 => UInt8.ofNat (data >>> (8 * n)) :: htob data n

def rnsHtob16 (data : Nat) : List UInt8 := htob data 2
def rnsHtob24 (data : Nat) : List UInt8 := htob data 3
def rnsHtob32 (data : Nat) : List UInt8 := htob data 4

/-- A double in memory, as the eight bytes of its bit pattern on the
little-endian hosts the daemon runs on. -/
def hostBytes (d : UInt64) : List UInt8 :=
  (List.range 8).map (fun i => UInt8.ofNat (d.toNat >>> (8 * i)))

def ofHostBytes : List UInt8 → Nat
  | [] => 0
  | b :: bs => b.toNat + 256 * ofHostBytes bs

/-- `rns_reverse` swaps the ends of the buffer inwards until they meet. -/
def rnsReverse (bs : List UInt8) : List UInt8 := bs.reverse

def rnsHtobd (d : UInt64) : List UInt8 := rnsReverse (hostBytes d)

def rnsBtohd (m : Mem) (w : Nat) : UInt64 :=
  UInt64.ofNat (ofHostBytes (rnsReverse (slice m w 8)))

theorem btoh_zero (m : Mem) (w : Nat) : btoh m w 0 = 0 := rfl

theorem btoh_succ (m : Mem) (w n : Nat) :
    btoh m w (n + 1) = btoh m w n * 256 + (m (w + n)).toNat := rfl

theorem htob_succ (data n : Nat) :
    htob data (n + 1) = UInt8.ofNat (data >>> (8 * n)) :: htob data n := rfl

@[simp] theorem htob_length (data n : Nat) : (htob data n).length = n := by
  induction n with
  | zero => rfl
  | succ n ih => simp [htob_succ, ih]

@[simp] theorem rnsHtobd_length (d : UInt64) : (rnsHtobd d).length = 8 := by
  simp [rnsHtobd, rnsReverse, hostBytes]

theorem btoh_lt (m : Mem) (w n : Nat) : btoh m w n < 256 ^ n := by
  induction n with
  | zero => simp [btoh_zero]
  | succ n ih =>
    have := (m (w + n)).toNat_lt
    simp only [btoh_succ, Nat.pow_succ]
    omega

theorem btoh_shift (m : Mem) (w n : Nat) :
    btoh m w (n + 1) = (m w).toNat * 256 ^ n + btoh m (w + 1) n := by
  induction n with
  | zero => simp [btoh_zero, btoh_succ]
  | succ n ih =>
    rw [btoh_succ, ih, btoh_succ, Nat.pow_succ, show w + 1 + n = w + (n + 1) by omega]
    ring

/-- Each decoder of the family undoes the encoder of its width. -/
theorem btoh_htob {m : Mem} {w data n : Nat} (h : Holds m w (htob data n)) :
    btoh m w n = data % 256 ^ n := by
  induction n generalizing w with
  | zero => simp [btoh_zero, Nat.mod_one]
  | succ n ih =>
    obtain ⟨hb, hs⟩ := holds_cons.mp h
    rw [btoh_shift, ih hs, hb, UInt8.toNat_ofNat', Nat.shiftRight_eq_div_pow]
    have hp : (2 : Nat) ^ (8 * n) = 256 ^ n := by rw [Nat.pow_mul]
    rw [hp, show (2 : Nat) ^ 8 = 256 from rfl, Nat.pow_succ, Nat.mod_mul]
    ring

theorem host_bytes_value (d : UInt64) : ofHostBytes (hostBytes d) = d.toNat := by
  have h := d.toNat_lt
  simp only [hostBytes, List.range, List.range.loop, List.map, ofHostBytes,
    UInt8.toNat_ofNat', Nat.shiftRight_eq_div_pow]
  omega

/-- The double codec pair agrees on every bit pattern. -/
theorem btohd_htobd {m : Mem} {w : Nat} {d : UInt64} (h : Holds m w (rnsHtobd d)) :
    rnsBtohd m w = d := by
  have hs := slice_holds h
  rw [rnsHtobd_length] at hs
  rw [rnsBtohd, hs, rnsHtobd]
  simp only [rnsReverse, List.reverse_reverse, host_bytes_value]
  exact UInt64.ofNat_toNat

end Network

end Yclib
