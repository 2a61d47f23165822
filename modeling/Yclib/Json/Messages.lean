import Yclib.Json.RoundTrip

namespace Yclib.Json

/-! How `rns_json.c` builds a message, and how what was sent is looked up in what was read. -/

/-- `tolower`. -/
def toLower (b : UInt8) : UInt8 := if 65 ≤ b ∧ b ≤ 90 then b + 32 else b

/-- `!cJSON_strcasecmp(s1,s2)`. -/
def strcaseEq (s1 s2 : List UInt8) : Bool := s1.map toLower = s2.map toLower

section
variable {D : Type} (arith : Doubles D)

def Items.toList : Items D → List (CJson D)
  | .nil => []
  | .cons item next => item :: next.toList

def Members.toList : Members D → List (List UInt8 × CJson D)
  | .nil => []
  | .cons string item next => (string, item) :: next.toList

def Items.suffix : Items D → CJson D → Items D
  | .nil, item => .cons item .nil
  | .cons child next, item => .cons child (next.suffix item)

def Members.suffix : Members D → List UInt8 → CJson D → Members D
  | .nil, string, item => .cons string item .nil
  | .cons name child next, string, item => .cons name child (next.suffix string item)

def createNumber (num : Int) : CJson D := .number num (arith.ofInt num)

/-- `cJSON_CreateString` of what is in front of a NUL. -/
def createString (string : List UInt8) : CJson D := .string (cString string)

def rnsJsonCreateObj : CJson D := .object .nil
def rnsJsonCreateArray : CJson D := .array .nil

/-- `rns_json_add`. A key that is NULL is none, and is not looked at where an array is added to. -/
def rnsJsonAdd (json : CJson D) (key : List UInt8) (item : CJson D) : CJson D :=
  match json with
  | .object child => .object (child.suffix (cString key) item)
  | .array child => .array (child.suffix item)
  | json => json

/-- What `rns_json_add_int` and `rns_json_add_str` do with the item that they have made. -/
def addItem (json : CJson D) (key : Option (List UInt8)) (item : CJson D) : CJson D × Int :=
  match json, key with
  | .object child, some key => (.object (child.suffix (cString key) item), 0)
  | .array child, _ => (.array (child.suffix item), 0)
  | json, _ => (json, -2)

def rnsJsonAddInt (json : CJson D) (key : Option (List UInt8)) (value : Int) : CJson D × Int :=
  addItem json key (createNumber arith value)

def rnsJsonAddStr (json : CJson D) (key value : Option (List UInt8)) : CJson D × Int :=
  match value with
  | none => (json, 0)
  | some value => addItem json key (createString value)

/-- `cJSON_GetObjectItem`. The items of an array have no names. -/
def getObjectItem (object : CJson D) (string : List UInt8) : Option (CJson D) :=
  match object with
  | .object child => (child.toList.find? fun c => strcaseEq c.1 string).map Prod.snd
  | _ => none

/-- `rns_json_node` from a node on, for the names in front of the NULL. -/
def nodeBelow (parent : CJson D) : List (List UInt8) → Option (CJson D)
  | [] => some parent
  | name :: names => (getObjectItem parent name).bind fun node => nodeBelow node names

def rnsJsonNode (json : CJson D) (names : List (List UInt8)) : Option (CJson D) :=
  if names = [] then none else nodeBelow json names

/-- `cJSON_GetArraySize`, which counts the items of an object as well. -/
def rnsJsonArraySize (json : CJson D) : Nat :=
  match json with
  | .array child => child.toList.length % 2 ^ 32
  | .object child => child.toList.length % 2 ^ 32
  | _ => 0

/-- `cJSON_GetArrayItem` of what an `int` makes of `item`. -/
def rnsJsonArrayNode (json : CJson D) (item : Nat) : Option (CJson D) :=
  let item := (i32 item).toNat
  match json with
  | .array child => child.toList[item]?
  | .object child => (child.toList[item]?).map Prod.snd
  | _ => none

end

/-- What is added to a message under a key. -/
inductive Field (D : Type)
  | int (value : Int)
  | str (value : Option (List UInt8))
  | item (value : CJson D)

section
variable {D : Type} (arith : Doubles D)

/-- A call of one of the three. -/
def Field.add (json : CJson D) (key : List UInt8) : Field D → CJson D
  | .int value => (rnsJsonAddInt arith json (some key) value).1
  | .str value => (rnsJsonAddStr json (some key) value).1
  | .item value => rnsJsonAdd json key value

/-- The calls that fill an object or an array. -/
def fill (json : CJson D) (fields : List (List UInt8 × Field D)) : CJson D :=
  fields.foldl (fun json field => field.2.add arith json field.1) json

/-- What a field has to hold. -/
def Field.Whole : Field D → Prop
  | .int value => -2 ^ 31 ≤ value ∧ value < 2 ^ 31
  | .str _ => True
  | .item value => value.Whole arith

/-- The item that a field becomes. A string that is NULL becomes none. -/
def Field.item? : Field D → Option (CJson D)
  | .int value => some (createNumber arith value)
  | .str value => value.map createString
  | .item value => some value

/-- The fields that become items, under the keys that the code sees. -/
def sent (fields : List (List UInt8 × Field D)) : List (List UInt8 × CJson D) :=
  fields.filterMap fun field => (field.2.item? arith).map fun item => (cString field.1, item)

end

section
variable {D : Type} {arith : Doubles D}

theorem items_suffix (items : Items D) (item : CJson D) : (items.suffix item).toList = items.toList ++ [item] := by
  induction items using Items.toList.induct with
  | case1 => rfl
  | case2 child next ih => exact congrArg (child :: ·) ih

theorem members_suffix (members : Members D) (string : List UInt8) (item : CJson D) :
    (members.suffix string item).toList = members.toList ++ [(string, item)] := by
  induction members using Members.toList.induct with
  | case1 => rfl
  | case2 name child next ih => exact congrArg ((name, child) :: ·) ih

theorem items_whole (items : Items D) : items.Whole arith ↔ ∀ item ∈ items.toList, item.Whole arith := by
  induction items using Items.toList.induct with
  | case1 => simp [Items.Whole, Items.toList]
  | case2 child next ih => simp [Items.Whole, Items.toList, ih]

theorem members_whole (members : Members D) :
    members.Whole arith ↔ ∀ entry ∈ members.toList, 0 ∉ entry.1 ∧ entry.2.Whole arith := by
  induction members using Members.toList.induct with
  | case1 => simp [Members.Whole, Members.toList]
  | case2 name child next ih => simp [Members.Whole, Members.toList, ih, and_assoc]

/-- A call on an object puts what it adds behind the rest. -/
theorem add_object (arith : Doubles D) (members : Members D) (key : List UInt8) (field : Field D) :
    ∃ more, field.add arith (.object members) key = .object more ∧
      more.toList = members.toList ++ sent arith [(key, field)] := by
  cases field with
  | int value => exact ⟨_, rfl, members_suffix _ _ _⟩
  | str value =>
    cases value with
    | none => exact ⟨members, rfl, (List.append_nil _).symm⟩
    | some value => exact ⟨_, rfl, members_suffix _ _ _⟩
  | item value => exact ⟨_, rfl, members_suffix _ _ _⟩

theorem add_array (arith : Doubles D) (items : Items D) (key : List UInt8) (field : Field D) :
    ∃ more, field.add arith (.array items) key = .array more ∧
      more.toList = items.toList ++ (sent arith [(key, field)]).map Prod.snd := by
  cases field with
  | int value => exact ⟨_, rfl, items_suffix _ _⟩
  | str value =>
    cases value with
    | none => exact ⟨items, rfl, (List.append_nil _).symm⟩
    | some value => exact ⟨_, rfl, items_suffix _ _⟩
  | item value => exact ⟨_, rfl, items_suffix _ _⟩

theorem sent_cons (field : List UInt8 × Field D) (fields : List (List UInt8 × Field D)) :
    sent arith (field :: fields) = sent arith [field] ++ sent arith fields := by
  simp only [sent]
  rw [← List.filterMap_append]
  rfl

theorem fill_object (arith : Doubles D) (members : Members D) (fields : List (List UInt8 × Field D)) :
    ∃ more, fill arith (.object members) fields = .object more ∧
      more.toList = members.toList ++ sent arith fields := by
  induction fields generalizing members with
  | nil => exact ⟨members, rfl, (List.append_nil _).symm⟩
  | cons field fields ih =>
    obtain ⟨added, hadd, hlist⟩ := add_object arith members field.1 field.2
    obtain ⟨more, hfill, hmore⟩ := ih added
    refine ⟨more, ?_, ?_⟩
    · rw [← hfill, ← hadd]
      rfl
    · rw [hmore, hlist, sent_cons field fields, List.append_assoc]

theorem fill_array (arith : Doubles D) (items : Items D) (fields : List (List UInt8 × Field D)) :
    ∃ more, fill arith (.array items) fields = .array more ∧
      more.toList = items.toList ++ (sent arith fields).map Prod.snd := by
  induction fields generalizing items with
  | nil => exact ⟨items, rfl, (List.append_nil _).symm⟩
  | cons field fields ih =>
    obtain ⟨added, hadd, hlist⟩ := add_array arith items field.1 field.2
    obtain ⟨more, hfill, hmore⟩ := ih added
    refine ⟨more, ?_, ?_⟩
    · rw [← hfill, ← hadd]
      rfl
    · rw [hmore, hlist, sent_cons field fields, List.map_append, List.append_assoc]

theorem string_ends (bs : List UInt8) : 0 ∉ cString bs := fun h => by simpa using List.mem_takeWhile_imp h

theorem sent_whole {fields : List (List UInt8 × Field D)} (h : ∀ field ∈ fields, field.2.Whole arith) :
    ∀ entry ∈ sent arith fields, 0 ∉ entry.1 ∧ entry.2.Whole arith := by
  intro entry hm
  obtain ⟨⟨key, field⟩, hfield, hentry⟩ := List.mem_filterMap.mp hm
  obtain ⟨item, hitem, rfl⟩ := Option.map_eq_some_iff.mp hentry
  refine ⟨string_ends key, ?_⟩
  have hwhole := h _ hfield
  cases field with
  | int value =>
    cases hitem
    exact ⟨hwhole.1, hwhole.2, rfl⟩
  | str value =>
    obtain ⟨value, rfl, rfl⟩ := Option.map_eq_some_iff.mp hitem
    exact string_ends value
  | item value =>
    cases hitem
    exact hwhole

/-- What was added to a message is found in what was read of it, by the names in front of it: of the
fields whose keys are the name but for capital letters, the first one. -/
theorem message_delivered (hexact : arith.Exact) {fields : List (List UInt8 × Field D)}
    (h : ∀ field ∈ fields, field.2.Whole arith) (behind : List UInt8) :
    ∃ json, rnsJsonRead arith (rnsJsonWrite arith (fill arith rnsJsonCreateObj fields) ++ 0 :: behind) =
        some (.item json []) ∧
      ∀ key names, rnsJsonNode json (key :: names) =
        ((sent arith fields).find? fun entry => strcaseEq entry.1 key).bind fun entry => nodeBelow entry.2 names := by
  obtain ⟨members, hfill, hlist⟩ := fill_object arith Members.nil fields
  have hlist : members.toList = sent arith fields := hlist
  have hwhole : (CJson.object members).Whole arith := by
    rw [CJson.Whole, members_whole, hlist]
    exact sent_whole h
  refine ⟨.object members, ?_, fun key names => ?_⟩
  · rw [rnsJsonCreateObj, hfill]
    exact write_read hexact hwhole behind
  · rw [rnsJsonNode, if_neg (by simp), nodeBelow, getObjectItem, hlist, Option.bind_map]
    rfl

/-- What `resp_server` adds to its answer. -/
def serverFields : List (List UInt8 × Field ℚ) :=
  [(ascii "ip", .str (some (ascii "10.0.0.1"))), (ascii "port", .int 80), (ascii "isbind", .int 1)]

theorem server_fields_whole : ∀ field ∈ serverFields, field.2.Whole rationals := by
  simp [serverFields, Field.Whole]

theorem message_delivered_server :
    ∃ json, rnsJsonRead rationals (rnsJsonWrite rationals (fill rationals rnsJsonCreateObj serverFields) ++ 0 :: []) =
        some (.item json []) ∧
      ∀ key names, rnsJsonNode json (key :: names) =
        ((sent rationals serverFields).find? fun entry => strcaseEq entry.1 key).bind
          fun entry => nodeBelow entry.2 names :=
  message_delivered rationals_exact server_fields_whole []

/-- The items of an array are counted and found by their places in what was read of it. -/
theorem array_delivered (hexact : arith.Exact) {fields : List (List UInt8 × Field D)}
    (h : ∀ field ∈ fields, field.2.Whole arith) (behind : List UInt8) :
    ∃ json, rnsJsonRead arith (rnsJsonWrite arith (fill arith rnsJsonCreateArray fields) ++ 0 :: behind) =
        some (.item json []) ∧
      rnsJsonArraySize json = (sent arith fields).length % 2 ^ 32 ∧
      ∀ item < 2 ^ 31, rnsJsonArrayNode json item = ((sent arith fields)[item]?).map Prod.snd := by
  obtain ⟨items, hfill, hlist⟩ := fill_array arith Items.nil fields
  have hlist : items.toList = (sent arith fields).map Prod.snd := hlist
  have hwhole : (CJson.array items).Whole arith := by
    rw [CJson.Whole, items_whole, hlist]
    intro item hm
    obtain ⟨entry, hentry, rfl⟩ := List.mem_map.mp hm
    exact (sent_whole h entry hentry).2
  refine ⟨.array items, ?_, ?_, fun item hitem => ?_⟩
  · rw [rnsJsonCreateArray, hfill]
    exact write_read hexact hwhole behind
  · rw [rnsJsonArraySize, hlist, List.length_map]
  · have hindex : (i32 item).toNat = item := by
      rw [i32_of_lt (by omega) (by omega)]
      rfl
    simp only [rnsJsonArrayNode, hindex, hlist, List.getElem?_map]

theorem array_delivered_server :
    ∃ json, rnsJsonRead rationals (rnsJsonWrite rationals (fill rationals rnsJsonCreateArray serverFields) ++ 0 :: []) =
        some (.item json []) ∧
      rnsJsonArraySize json = (sent rationals serverFields).length % 2 ^ 32 ∧
      ∀ item < 2 ^ 31, rnsJsonArrayNode json item = ((sent rationals serverFields)[item]?).map Prod.snd :=
  array_delivered rationals_exact server_fields_whole []

end

end Yclib.Json
