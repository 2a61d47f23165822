import Yclib.Json.Print

namespace Yclib.Json

/-! How `cJSON.c` reads a tree from a text, which is a string: behind it there is a NUL. -/

/-- What a parser comes to: it returns where it has stopped, it returns 0, or it looks at what is
behind the NUL of the text or stores behind the end of a block. -/
inductive Parsed (α : Type)
  | item (value : α) (rest : List UInt8)
  | null
  | outside

/-- What follows a parser that has returned. There is no result where the rounds have run out. -/
def Parsed.next {α β : Type} (parsed : Option (Parsed α))
    (follow : α → List UInt8 → Option (Parsed β)) : Option (Parsed β) :=
  match parsed with
  | none => none
  | some .null => some .null
  | some .outside => some .outside
  | some (.item value rest) => follow value rest

def isDigit (b : UInt8) : Bool := 48 ≤ b ∧ b ≤ 57

/-- `skip`. -/
def skip (value : List UInt8) : List UInt8 := value.dropWhile fun b => b ≠ 0 ∧ b ≤ 32

/-- The first loop of `parse_string`: how long the string is at most. -/
def scanString : List UInt8 → Option Nat
  | [] => some 0
  | b :: rest =>
    if b = quote then some 0
    else if b = backslash then
      match rest with
      | [] => none
      | _ :: rest => (scanString rest).map (· + 1)
    else (scanString rest).map (· + 1)

/-- A digit of a `\u` escape. -/
def hexValue (b : UInt8) : Option Nat :=
  if 48 ≤ b ∧ b ≤ 57 then some (b.toNat - 48)
  else if 65 ≤ b ∧ b ≤ 70 then some (10 + b.toNat - 65)
  else if 97 ≤ b ∧ b ≤ 102 then some (10 + b.toNat - 97)
  else none

/-- `parse_hex4`, which stops at the first byte that is no digit. -/
def parseHex4 (str : List UInt8) : Nat :=
  match hexValue (str.getD 0 0), hexValue (str.getD 1 0), hexValue (str.getD 2 0), hexValue (str.getD 3 0) with
  | some a, some b, some c, some d => ((a * 16 + b) * 16 + c) * 16 + d
  | _, _, _, _ => 0

/-- The `switch` over `len` that stores a character. -/
def utf8Bytes (uc : Nat) : List UInt8 :=
  let later (uc : Nat) : UInt8 := UInt8.ofNat ((uc ||| 0x80) &&& 0xBF)
  if uc < 0x80 then [UInt8.ofNat uc]
  else if uc < 0x800 then [UInt8.ofNat (uc >>> 6 ||| 0xC0), later uc]
  else if uc < 0x10000 then [UInt8.ofNat (uc >>> 12 ||| 0xE0), later (uc >>> 6), later uc]
  else [UInt8.ofNat (uc >>> 18 ||| 0xF0), later (uc >>> 12), later (uc >>> 6), later uc]

/-- `case 'u'`: what is stored, and how many bytes behind the `u` are passed. -/
def transcode (str : List UInt8) : List UInt8 × Nat :=
  let uc := parseHex4 str
  if (0xDC00 ≤ uc ∧ uc ≤ 0xDFFF) ∨ uc = 0 then ([], 4)
  else if 0xD800 ≤ uc ∧ uc ≤ 0xDBFF then
    if str.getD 4 0 ≠ backslash ∨ str.getD 5 0 ≠ 117 then ([], 4)
    else
      let uc2 := parseHex4 (str.drop 6)
      if uc2 < 0xDC00 ∨ 0xDFFF < uc2 then ([], 10)
      else (utf8Bytes (0x10000 + ((uc &&& 0x3FF) <<< 10 ||| uc2 &&& 0x3FF)), 10)
  else (utf8Bytes uc, 4)

/-- The other cases of the `switch`: the character that a short escape stands for. -/
def unescape (c : UInt8) : UInt8 :=
  if c = 98 then 8 else if c = 102 then 12 else if c = 110 then newline
    else if c = 114 then 13 else if c = 116 then tab else c

/-- The second loop of `parse_string`: what is stored, and where it stops. There is no result where
it passes the NUL. -/
def copyString : List UInt8 → Option (List UInt8 × List UInt8)
  | [] => some ([], [])
  | b :: rest =>
    if b = quote then some ([], b :: rest)
    else if b ≠ backslash then (copyString rest).map fun copied => (b :: copied.1, copied.2)
    else
      match rest with
      | [] => none
      | c :: rest =>
        if c = 117 then
          let (bytes, passed) := transcode rest
          if rest.length < passed then none
          else (copyString (rest.drop passed)).map fun copied => (bytes ++ copied.1, copied.2)
        else
          (copyString rest).map fun copied => (unescape c :: copied.1, copied.2)
termination_by str => str.length

/-- `parse_string`, whose block has room for what its first loop has counted and a NUL. -/
def parseString : List UInt8 → Parsed (List UInt8)
  | [] => .null
  | b :: body =>
    if b ≠ quote then .null
    else
      match scanString body with
      | none => .outside
      | some len =>
        match copyString body with
        | none => .outside
        | some (out, rest) => if len < out.length then .outside else .item out rest.tail

section
variable {b c : UInt8} {rest : List UInt8}

@[simp] theorem scan_quote : scanString (quote :: rest) = some 0 := by
  rw [scanString.eq_def]
  rfl

theorem scan_plain (hquote : b ≠ quote) (hback : b ≠ backslash) :
    scanString (b :: rest) = (scanString rest).map (· + 1) := by
  rw [scanString.eq_def]
  simp only [if_neg hquote, if_neg hback]

@[simp] theorem scan_back : scanString (backslash :: c :: rest) = (scanString rest).map (· + 1) := by
  rw [scanString.eq_def]
  rfl

@[simp] theorem copy_quote : copyString (quote :: rest) = some ([], quote :: rest) := by
  rw [copyString.eq_def]
  rfl

theorem copy_plain (hquote : b ≠ quote) (hback : b ≠ backslash) :
    copyString (b :: rest) = (copyString rest).map fun copied => (b :: copied.1, copied.2) := by
  rw [copyString.eq_def]
  simp only [if_neg hquote, if_pos hback]

theorem copy_short (h : c ≠ 117) : copyString (backslash :: c :: rest) =
    (copyString rest).map fun copied => (unescape c :: copied.1, copied.2) := by
  have hne : backslash ≠ quote := by decide
  rw [copyString.eq_def]
  simp only [if_neg hne, ne_eq, not_true_eq_false, if_false, if_neg h]

theorem copy_unicode : copyString (backslash :: 117 :: rest) =
    if rest.length < (transcode rest).2 then none
    else (copyString (rest.drop (transcode rest).2)).map fun copied =>
      ((transcode rest).1 ++ copied.1, copied.2) := by
  have hne : backslash ≠ quote := by decide
  rw [copyString.eq_def]
  simp only [if_neg hne, ne_eq, not_true_eq_false, if_false, if_true]

end

section
variable {D : Type} (arith : Doubles D)

/-- A loop over digits. -/
def parseDigits (n : D) (num : List UInt8) : D × List UInt8 :=
  ((num.takeWhile isDigit).foldl (fun n b => arith.digit n (b.toNat - 48)) n, num.dropWhile isDigit)

/-- The digits in front of the point. -/
def parseInteger (num : List UInt8) : D × List UInt8 :=
  let num := if num.head? = some 48 then num.tail else num
  if num.head?.any fun b => 49 ≤ b ∧ b ≤ 57 then parseDigits arith (arith.ofInt 0) num else (arith.ofInt 0, num)

/-- The digits behind the point, and what `scale` is then. -/
def parseFraction (n : D) (num : List UInt8) : D × Int × List UInt8 :=
  if num.head? = some 46 ∧ isDigit (num.getD 1 0) then
    let (n, rest) := parseDigits arith n num.tail
    (n, -(num.tail.takeWhile isDigit).length, rest)
  else (n, 0, num)

/-- The exponent of a number. -/
def parseExponent (num : List UInt8) : Int × List UInt8 :=
  if num.head? = some 101 ∨ num.head? = some 69 then
    let num := num.tail
    let neg := num.head? = some 45
    let num := if num.head? = some 43 ∨ num.head? = some 45 then num.tail else num
    let subscale := (num.takeWhile isDigit).foldl (fun subscale b => i32 (subscale * 10 + (b.toNat - 48))) 0
    (if neg then -subscale else subscale, num.dropWhile isDigit)
  else (0, num)

/-- `parse_number`. -/
def parseNumber (num : List UInt8) : CJson D × List UInt8 :=
  let neg := num.head? = some 45
  let (n, num) := parseInteger arith (if neg then num.tail else num)
  let (n, scale, num) := parseFraction arith n num
  let (exponent, num) := parseExponent num
  let n := arith.scale neg n (scale + exponent)
  (.number (arith.toInt n) n, num)

mutual

/-- `parse_value`. -/
def parseValue : Nat → List UInt8 → Option (Parsed (CJson D))
  | 0, _ => none
  | rounds + 1, value =>
    if strncmpEq value (ascii "null") 4 then some (.item .null (value.drop 4))
    else if strncmpEq value (ascii "false") 5 then some (.item (.bool false) (value.drop 5))
    else if strncmpEq value (ascii "true") 4 then some (.item (.bool true) (value.drop 4))
    else
      match value with
      | [] => some .null
      | b :: rest =>
        if b = quote then
          Parsed.next (some (parseString (b :: rest))) fun out rest => some (.item (.string out) rest)
        else if b = 45 ∨ isDigit b then
          let (item, rest) := parseNumber arith (b :: rest)
          some (.item item rest)
        else if b = 91 then
          if (skip rest).head? = some 93 then some (.item (.array .nil) (skip rest).tail)
          else Parsed.next (parseItems rounds (skip rest)) fun child rest => some (.item (.array child) rest)
        else if b = 123 then
          if (skip rest).head? = some 125 then some (.item (.object .nil) (skip rest).tail)
          else Parsed.next (parseMembers rounds (skip rest)) fun child rest => some (.item (.object child) rest)
        else some .null

/-- The items of `parse_array`. -/
def parseItems : Nat → List UInt8 → Option (Parsed (Items D))
  | 0, _ => none
  | rounds + 1, value =>
    Parsed.next (parseValue rounds (skip value)) fun child rest =>
      let rest := skip rest
      if rest.head? = some comma then
        Parsed.next (parseItems rounds rest.tail) fun items rest => some (.item (.cons child items) rest)
      else if rest.head? = some 93 then some (.item (.cons child .nil) rest.tail)
      else some .null

/-- The items of `parse_object`, with their names. -/
def parseMembers : Nat → List UInt8 → Option (Parsed (Members D))
  | 0, _ => none
  | rounds + 1, value =>
    Parsed.next (some (parseString (skip value))) fun string rest =>
      let rest := skip rest
      if rest.head? ≠ some colon then some .null
      else
        Parsed.next (parseValue rounds (skip rest.tail)) fun child rest =>
          let rest := skip rest
          if rest.head? = some comma then
            Parsed.next (parseMembers rounds rest.tail) fun items rest => some (.item (.cons string child items) rest)
          else if rest.head? = some 125 then some (.item (.cons string child .nil) rest.tail)
          else some .null

end

/-- `cJSON_Parse`. Every round passes a byte, but for those of values that begin arrays and objects,
whose next round does. -/
def cJSONParse (value : List UInt8) : Option (Parsed (CJson D)) :=
  parseValue arith (2 * value.length + 1) (skip value)

/-- `rns_json_read` of a buffer, whose size it does not look at. -/
def rnsJsonRead (buf : List UInt8) : Option (Parsed (CJson D)) := cJSONParse arith (cString buf)

end

theorem strncmp_other {b c : UInt8} {str lit : List UInt8} {n : Nat} (h : b ≠ c) :
    strncmpEq (b :: str) (c :: lit) (n + 1) = false := by
  simp [strncmpEq, h]

section
variable {D : Type} {arith : Doubles D} {rounds : Nat} {b : UInt8} {rest : List UInt8}

/-- What begins with none of their first bytes is none of the three literals. -/
theorem parse_other (hnull : b ≠ 110) (hfalse : b ≠ 102) (htrue : b ≠ 116) :
    strncmpEq (b :: rest) (ascii "null") 4 = false ∧ strncmpEq (b :: rest) (ascii "false") 5 = false ∧
      strncmpEq (b :: rest) (ascii "true") 4 = false :=
  ⟨strncmp_other hnull, strncmp_other hfalse, strncmp_other htrue⟩

theorem parse_string_value : parseValue arith (rounds + 1) (quote :: rest) =
    Parsed.next (some (parseString (quote :: rest))) fun out rest => some (.item (.string out) rest) := by
  obtain ⟨hnull, hfalse, htrue⟩ := @parse_other quote rest (by decide) (by decide) (by decide)
  rw [parseValue]
  simp [hnull, hfalse, htrue]

theorem parse_number_value (h : b = 45 ∨ isDigit b = true) : parseValue arith (rounds + 1) (b :: rest) =
    some (.item (parseNumber arith (b :: rest)).1 (parseNumber arith (b :: rest)).2) := by
  have hne : ∀ c : UInt8, 57 < c → b ≠ c := by
    rintro c hc rfl
    rcases h with rfl | h
    · exact absurd hc (by decide)
    · simp only [isDigit, decide_eq_true_eq, UInt8.le_iff_toNat_le] at h
      exact Nat.not_lt.mpr h.2 (UInt8.lt_iff_toNat_lt.mp hc)
  have hquote : b ≠ quote := by
    rintro rfl
    revert h
    decide
  obtain ⟨hnull, hfalse, htrue⟩ :=
    @parse_other b rest (hne _ (by decide)) (hne _ (by decide)) (hne _ (by decide))
  rw [parseValue]
  simp [hnull, hfalse, htrue, hquote, h]

theorem parse_array_value : parseValue arith (rounds + 1) (91 :: rest) =
    if (skip rest).head? = some 93 then some (.item (.array .nil) (skip rest).tail)
    else Parsed.next (parseItems arith rounds (skip rest)) fun child rest =>
      some (.item (.array child) rest) := by
  obtain ⟨hnull, hfalse, htrue⟩ := @parse_other 91 rest (by decide) (by decide) (by decide)
  have hquote : (91 : UInt8) ≠ quote := by decide
  have hdigit : isDigit 91 = false := by decide
  rw [parseValue]
  simp [hnull, hfalse, htrue, hquote, hdigit]

theorem parse_object_value : parseValue arith (rounds + 1) (123 :: rest) =
    if (skip rest).head? = some 125 then some (.item (.object .nil) (skip rest).tail)
    else Parsed.next (parseMembers arith rounds (skip rest)) fun child rest =>
      some (.item (.object child) rest) := by
  obtain ⟨hnull, hfalse, htrue⟩ := @parse_other 123 rest (by decide) (by decide) (by decide)
  have hquote : (123 : UInt8) ≠ quote := by decide
  have hdigit : isDigit 123 = false := by decide
  rw [parseValue]
  simp [hnull, hfalse, htrue, hquote, hdigit]

end

end Yclib.Json
