import Yclib.Util.Network

namespace Yclib.Amf

/-- `sd_str_t`: the length is a `uint16_t`. -/
structure SdStr where
  str : List UInt8
  short : str.length < 2 ^ 16
deriving DecidableEq

/-- The tables of readers and writers have entries for nine types. -/
instance neZeroTypes : NeZero 9 := ⟨by decide⟩

mutual

/-- `sd_value_t` with what its `void*` points to. `null` is a value whose pointer
is NULL, under a tag the reader and writer tables serve: types 4 to 7 have no
payload, the others are left so by a reader whose input ended too early. -/
inductive SdValue
  | dbl (number : UInt64)
  | ui8 (value : UInt8)
  | str (s : SdStr)
  | obj (o : SdObj)
  | ecma (size : UInt32) (o : SdObj)
  | null (type : Fin 9)

/-- `sd_obj_t`: the properties in the order `rns_list_for_each` visits them, which
is the order they were added in. -/
inductive SdObj
  | nil
  | add (name : SdStr) (value : SdValue) (rest : SdObj)

end

/-- `SD_TYPE_END`. -/
def sdTypeEnd : Nat := 13

def SdValue.type : SdValue → Nat
  | .dbl _ => 0
  | .ui8 _ => 1
  | .str _ => 2
  | .obj _ => 3
  | .ecma _ _ => 8
  | .null type => type

theorem SdValue.type_lt (v : SdValue) : v.type < 9 := by
  cases v <;> simp [SdValue.type]

def SdStr.size (s : SdStr) : Nat := s.str.length + 2

mutual

/-- The number of bytes AMF0 gives a value. -/
def SdValue.size : SdValue → Nat
  | .dbl _ => 9
  | .ui8 _ => 2
  | .str s => 1 + s.size
  | .obj o => 1 + o.size
  | .ecma _ o => 5 + o.size
  | .null _ => 1

def SdObj.size : SdObj → Nat
  | .nil => 3
  | .add name value rest => name.size + value.size + rest.size

end

mutual

/-- Every value in the tree has the payload its type calls for. -/
def SdValue.Whole : SdValue → Prop
  | .obj o => o.Whole
  | .ecma _ o => o.Whole
  | .null type => 4 ≤ type.val ∧ type.val ≤ 7
  | _ => True

def SdObj.Whole : SdObj → Prop
  | .nil => True
  | .add _ value rest => value.Whole ∧ rest.Whole

end

mutual

/-- The AMF0 encoding of a value. -/
def SdValue.bytes : SdValue → List UInt8
  | .dbl d => 0 :: Network.rnsHtobd d
  | .ui8 b => [1, b]
  | .str s => 2 :: (Network.rnsHtob16 s.str.length ++ s.str)
  | .obj o => 3 :: o.bytes
  | .ecma size o => 8 :: (Network.rnsHtob32 size.toNat ++ o.bytes)
  | .null type => [UInt8.ofNat type]

def SdObj.bytes : SdObj → List UInt8
  | .nil => [0, 0, 9]
  | .add name value rest =>
    (Network.rnsHtob16 name.str.length ++ name.str) ++ (value.bytes ++ rest.bytes)

end

theorem value_size_pos (v : SdValue) : 0 < v.size := by
  cases v <;> simp [SdValue.size]

theorem obj_size_pos (o : SdObj) : 3 ≤ o.size := by
  cases o with
  | nil => simp [SdObj.size]
  | add name value rest =>
    have := obj_size_pos rest
    simp only [SdObj.size]
    omega

/-- An encoding begins with the value's type. -/
theorem value_bytes_head (v : SdValue) : ∃ tail, v.bytes = UInt8.ofNat v.type :: tail := by
  cases v with
  | dbl d => exact ⟨_, rfl⟩
  | ui8 b => exact ⟨_, rfl⟩
  | str s => exact ⟨_, rfl⟩
  | obj o => exact ⟨_, rfl⟩
  | ecma size o => exact ⟨_, rfl⟩
  | null type => exact ⟨_, rfl⟩

mutual

theorem value_bytes_length (v : SdValue) : v.bytes.length = v.size := by
  match v with
  | .dbl _ => simp [SdValue.bytes, SdValue.size]
  | .ui8 _ => rfl
  | .str s =>
    simp [SdValue.bytes, SdValue.size, SdStr.size, Network.rnsHtob16]
    omega
  | .obj o =>
    simp only [SdValue.bytes, SdValue.size, List.length_cons, obj_bytes_length o]
    omega
  | .ecma size o =>
    simp only [SdValue.bytes, SdValue.size, List.length_cons, List.length_append,
      obj_bytes_length o, Network.rnsHtob32, Network.htob_length]
    omega
  | .null _ => rfl

theorem obj_bytes_length (o : SdObj) : o.bytes.length = o.size := by
  match o with
  | .nil => rfl
  | .add name value rest =>
    simp only [SdObj.bytes, SdObj.size, SdStr.size, List.length_append,
      value_bytes_length value, obj_bytes_length rest, Network.rnsHtob16, Network.htob_length]
    omega

end

end Yclib.Amf
