import Mathlib.Data.List.Basic

namespace Yclib

/-- The bytes of a string literal of the source. -/
def ascii (s : String) : List UInt8 := s.toList.map (fun c => UInt8.ofNat c.toNat)

/-- What `%s`, `rns_strlen` and `rns_strncmp` see of a buffer: it ends at its first NUL. -/
def cString (bs : List UInt8) : List UInt8 := bs.takeWhile (· ≠ 0)

/-- `!rns_strncmp(str, lit, n)`: at most `n` bytes are compared, and none behind a NUL.
The NUL that ends either string is the byte behind its list. -/
def strncmpEq : List UInt8 → List UInt8 → Nat → Bool
  | _, _, 0 => true
  | str, lit, n + 1 =>
    let a := str.headD 0
    let b := lit.headD 0
    a == b && (a == 0 || strncmpEq str.tail lit.tail n)

example : strncmpEq (ascii "pl") (ascii "play") 2 = true := by decide

end Yclib
