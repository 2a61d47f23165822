import Yclib.Util.Decimal
import Yclib.Util.Network

namespace Yclib.Json

/-! The trees of `cJSON.c`, which `rns_json.c` builds, writes and reads. -/

/-- The arithmetic of `double` that the code does: what `parse_number` computes with, and what
`print_number` asks. `text` is what `%.0f`, `%e` or `%f` print. -/
structure Doubles (D : Type) where
  ofInt : Int → D
  /-- `n*10.0` and a digit. -/
  digit : D → Nat → D
  /-- `sign*n*pow(10.0, e)`, with whether the sign is negative. -/
  scale : Bool → D → Int → D
  toInt : D → Int
  isZero : D → Bool
  /-- `fabs((double)i-d)<=DBL_EPSILON && d<=INT_MAX && d>=INT_MIN`. -/
  isInt : Int → D → Bool
  text : D → List UInt8

/-- Whole numbers below 2^53 are exact. -/
structure Doubles.Exact {D : Type} (arith : Doubles D) : Prop where
  digit : ∀ n d : Nat, d < 10 → n * 10 + d < 2 ^ 53 →
    arith.digit (arith.ofInt n) d = arith.ofInt ((n * 10 + d : Nat) : Int)
  plus : ∀ n : Nat, n < 2 ^ 53 → arith.scale false (arith.ofInt n) 0 = arith.ofInt n
  minus : ∀ n : Nat, 0 < n → n < 2 ^ 53 → arith.scale true (arith.ofInt n) 0 = arith.ofInt (-n)
  toInt : ∀ i, -2 ^ 31 ≤ i → i < 2 ^ 31 → arith.toInt (arith.ofInt i) = i
  isZero : ∀ i, -2 ^ 31 ≤ i → i < 2 ^ 31 → (arith.isZero (arith.ofInt i) ↔ i = 0)
  isInt : ∀ i, -2 ^ 31 ≤ i → i < 2 ^ 31 → arith.isInt i (arith.ofInt i)

mutual

/-- A `cJSON` with its type's fields. -/
inductive CJson (D : Type)
  | null
  | bool (value : Bool)
  | number (valueint : Int) (valuedouble : D)
  | string (valuestring : List UInt8)
  | array (child : Items D)
  | object (child : Members D)

/-- The chain of an array's items. -/
inductive Items (D : Type)
  | nil
  | cons (item : CJson D) (next : Items D)

/-- The chain of an object's items, which have names. -/
inductive Members (D : Type)
  | nil
  | cons (string : List UInt8) (item : CJson D) (next : Members D)

end

mutual

/-- What the program makes: strings end at their NUL, and numbers are those of an `int`. -/
def CJson.Whole {D : Type} (arith : Doubles D) : CJson D → Prop
  | .number i d => -2 ^ 31 ≤ i ∧ i < 2 ^ 31 ∧ d = arith.ofInt i
  | .string s => 0 ∉ s
  | .array items => items.Whole arith
  | .object members => members.Whole arith
  | _ => True

def Items.Whole {D : Type} (arith : Doubles D) : Items D → Prop
  | .nil => True
  | .cons item next => item.Whole arith ∧ next.Whole arith

def Members.Whole {D : Type} (arith : Doubles D) : Members D → Prop
  | .nil => True
  | .cons string item next => 0 ∉ string ∧ item.Whole arith ∧ next.Whole arith

end

/-- Rational numbers, which are what doubles stand for where nothing is rounded. `%f` and `%e` are
left out: of numbers that are not whole, nothing is printed. -/
def rationals : Doubles ℚ where
  ofInt i := i
  digit n d := n * 10 + d
  scale neg n e := (if neg then -1 else 1) * n * 10 ^ e
  toInt d := d.num.tdiv d.den
  isZero d := d = 0
  isInt i d := |(i : ℚ) - d| ≤ 1 / 2 ^ 52 ∧ d ≤ 2 ^ 31 - 1 ∧ -2 ^ 31 ≤ d
  text d := if d.den = 1 then (if d < 0 then [45] else []) ++ decimal d.num.natAbs else []

theorem rationals_exact : rationals.Exact where
  digit n d _ _ := by
    simp only [rationals]
    push_cast
    ring
  plus n _ := by simp [rationals]
  minus n _ _ := by simp [rationals]
  toInt i _ _ := by simp [rationals]
  isZero i _ _ := by simp [rationals]
  isInt i h0 h := by
    have hle : (i : ℚ) ≤ 2 ^ 31 - 1 := by exact_mod_cast (show i ≤ 2 ^ 31 - 1 by omega)
    have hge : -2 ^ 31 ≤ (i : ℚ) := by exact_mod_cast h0
    simp [rationals, hle, hge]

end Yclib.Json
