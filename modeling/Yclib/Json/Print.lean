import Yclib.Json.Value

namespace Yclib.Json

/-! How `cJSON.c` prints a tree, as `cJSON_Print` and `cJSON_PrintUnformatted` have it done: every
value into a block of its own. -/

def quote : UInt8 := 34
def backslash : UInt8 := 92
def comma : UInt8 := 44
def colon : UInt8 := 58
def blank : UInt8 := 32
def tab : UInt8 := 9
def newline : UInt8 := 10

/-- What a printer returns, and the blocks that were asked for on the way: the size of each and how
many bytes were stored in it. -/
structure Printed where
  text : List UInt8
  blocks : List (Int × Nat)

/-- A text that is stored with a NUL behind it in a block of this size. -/
def stored (size : Int) (text : List UInt8) (blocks : List (Int × Nat)) : Printed :=
  ⟨text, blocks ++ [(size, text.length + 1)]⟩

/-- `cJSON_strdup`. -/
def strdup (str : List UInt8) : Printed := stored (str.length + 1) str []

section
variable {D : Type} (arith : Doubles D)

/-- `%d`. -/
def signed (i : Int) : List UInt8 := if i < 0 then 45 :: decimal i.natAbs else decimal i.natAbs

def printNumber (valueint : Int) (valuedouble : D) : Printed :=
  if arith.isZero valuedouble then stored 2 [48] []
  else if arith.isInt valueint valuedouble then stored 21 (signed valueint) []
  else stored 64 (arith.text valuedouble) []

/-- A digit of `%x`. -/
def hexDigit (n : Nat) : UInt8 := UInt8.ofNat (if n < 10 then 48 + n else 87 + n)

/-- Whether `strchr("\"\\\b\f\n\r\t",token)` finds it. -/
def short (token : UInt8) : Bool := token ∈ [quote, backslash, 8, 12, newline, 13, tab]

/-- What `print_string_ptr` stores for a byte. -/
def escape (token : UInt8) : List UInt8 :=
  if 31 < token ∧ token ≠ quote ∧ token ≠ backslash then [token]
  else backslash ::
    if token = backslash then [backslash]
    else if token = quote then [quote]
    else if token = 8 then [98]
    else if token = 12 then [102]
    else if token = newline then [110]
    else if token = 13 then [114]
    else if token = tab then [116]
    else [117, 48, 48, hexDigit (token.toNat / 16), hexDigit (token.toNat % 16)]

/-- What `len` is raised by for a byte. -/
def width (token : UInt8) : Nat := if short token then 2 else if token < 32 then 6 else 1

/-- `*ptr` is a signed `char`. -/
def flagged (token : UInt8) : Bool := token < 32 ∨ token = quote ∨ token = backslash

/-- `print_string_ptr`. -/
def printStringPtr (str : List UInt8) : Printed :=
  if str.any flagged then
    stored (i32 ((str.map width).sum + 3 : Nat)) (quote :: (str.flatMap escape ++ [quote])) []
  else stored (i32 (str.length + 3 : Nat)) (quote :: (str ++ [quote])) []

/-- The entries of an array, one behind the other. -/
def joinItems (fmt : Bool) : List (List UInt8) → List UInt8
  | [] => []
  | [entry] => entry
  | entry :: entries => entry ++ (comma :: if fmt then [blank] else []) ++ joinItems fmt entries

/-- `print_array` with its entries printed. -/
def printArray (fmt : Bool) (entries : List Printed) : Printed :=
  if entries = [] then stored 3 [91, 93] []
  else
    let len : Nat := 5 + (entries.map fun entry => entry.text.length + 2 + if fmt then 1 else 0).sum
    stored (i32 len) (91 :: (joinItems fmt (entries.map Printed.text) ++ [93])) (entries.flatMap Printed.blocks)

/-- The tabs in front of a line. -/
def tabs (fmt : Bool) (depth : Nat) : List UInt8 := if fmt then List.replicate depth tab else []

/-- The entries of an object at a depth, each with its name. -/
def joinMembers (fmt : Bool) (depth : Nat) : List (List UInt8 × List UInt8) → List UInt8
  | [] => []
  | (name, entry) :: entries =>
    tabs fmt depth ++ name ++ (colon :: if fmt then [tab] else []) ++ entry ++
      (if entries = [] then [] else [comma]) ++ (if fmt then [newline] else []) ++ joinMembers fmt depth entries

/-- `print_object` at a depth, with its names and entries printed. -/
def printObject (fmt : Bool) (depth : Nat) (entries : List (Printed × Printed)) : Printed :=
  if entries = [] then
    stored (if fmt then depth + 4 else 3)
      (123 :: ((if fmt then [newline] else []) ++ tabs fmt (depth - 1) ++ [125])) []
  else
    let len : Nat := 7 + (if fmt then depth + 1 else 0) + (entries.map fun entry =>
      entry.2.text.length + entry.1.text.length + 2 + if fmt then 2 + (depth + 1) else 0).sum
    stored (i32 len)
      (123 :: ((if fmt then [newline] else []) ++
        joinMembers fmt (depth + 1) (entries.map fun entry => (entry.1.text, entry.2.text)) ++
        tabs fmt depth ++ [125]))
      (entries.flatMap fun entry => entry.1.blocks ++ entry.2.blocks)

mutual

/-- `print_value`. -/
def printValue (fmt : Bool) (depth : Nat) : CJson D → Printed
  | .null => strdup (ascii "null")
  | .bool false => strdup (ascii "false")
  | .bool true => strdup (ascii "true")
  | .number i d => printNumber arith i d
  | .string s => printStringPtr s
  | .array child => printArray fmt (printItems fmt (depth + 1) child)
  | .object child => printObject fmt depth (printMembers fmt (depth + 1) child)

def printItems (fmt : Bool) (depth : Nat) : Items D → List Printed
  | .nil => []
  | .cons item next => printValue fmt depth item :: printItems fmt depth next

def printMembers (fmt : Bool) (depth : Nat) : Members D → List (Printed × Printed)
  | .nil => []
  | .cons string item next =>
    (printStringPtr string, printValue fmt depth item) :: printMembers fmt depth next

end

/-- `cJSON_Print` and `cJSON_PrintUnformatted`, of which `rns_json_write` calls the second one. -/
def cJSONPrint (fmt : Bool) (item : CJson D) : List UInt8 := (printValue arith fmt 0 item).text

def rnsJsonWrite (json : CJson D) : List UInt8 := cJSONPrint arith false json

end

example : rnsJsonWrite rationals (.object (.cons (ascii "ip") (.string (ascii "a\"b"))
    (.cons (ascii "port") (.number 80 80) .nil))) = ascii "\x7b\"ip\":\"a\\\"b\",\"port\":80\x7d" := by decide +kernel

end Yclib.Json
