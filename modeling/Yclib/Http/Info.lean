import Yclib.Util.CString
import Yclib.Util.Network
import Yclib.Util.RbtStore

namespace Yclib.Http.Reading

/-! `rns_http_info_read`: what is made of the bytes between `read_pos` and `write_pos`. Where
it hangs on memory behind a buffer that is full, there is no result. The searches inside a
line are for bytes of the line: what they find behind it is not used. -/

/-- `rns_http_info_t.state`. The states from CODE to ARGS pass within one line. -/
inductive InfoState
  | init
  | header
  | chunk
  | body
  | done
  | error
deriving DecidableEq

inductive Method
  | none
  | post
  | get
  | put
deriving DecidableEq

/-- `rns_http_info_t`. The bytes of `body` are those that `body_size` counts. -/
structure Info where
  code : Nat
  method : Method
  uri : List UInt8
  headers : List (Rbt.Str × List UInt8)
  args : List (Rbt.Str × List UInt8)
  body : List UInt8
  totalSize : Nat
  currSize : Nat
  chunk : Bool
  chunksize : Nat
  state : InfoState
deriving DecidableEq

/-- `rns_http_info_init`, which leaves the method and the URI. -/
def rnsHttpInfoInit (info : Info) : Info :=
  { info with
    code := 0, headers := [], args := [], body := [], totalSize := 0, currSize := 0
    chunk := false, chunksize := 0, state := .init }

/-- The `read_info` of the two tunes, and `read_type`, which says whose turn it is. -/
structure Tunes where
  readType : Bool
  request : Info
  response : Info
deriving DecidableEq

/-- `&hconn->tune[hconn->read_type].read_info`. -/
def Tunes.info (tunes : Tunes) : Info := if tunes.readType then tunes.response else tunes.request

def Tunes.setInfo (tunes : Tunes) (info : Info) : Tunes :=
  if tunes.readType then { tunes with response := info } else { tunes with request := info }

@[simp] theorem Tunes.info_set (tunes : Tunes) (info : Info) : (tunes.setInfo info).info = info := by
  unfold Tunes.info Tunes.setInfo
  cases tunes.readType <;> rfl

@[simp] theorem Tunes.set_type (tunes : Tunes) (info : Info) :
    (tunes.setInfo info).readType = tunes.readType := by
  unfold Tunes.setInfo
  cases tunes.readType <;> rfl

@[simp] theorem Tunes.set_set (tunes : Tunes) (info info' : Info) :
    (tunes.setInfo info).setInfo info' = tunes.setInfo info' := by
  unfold Tunes.setInfo
  cases tunes.readType <;> rfl

/-- `rns_strstr(walker, "\r\n")`: the bytes in front of the first one and those behind it. The
search ends at a NUL. -/
def findCrlf : List UInt8 → Option (List UInt8 × List UInt8)
  | [] => none
  | b :: bs =>
    if b = 0 then none
    else if b = 13 ∧ bs.head? = some 10 then some ([], bs.tail)
    else (findCrlf bs).map fun found => (b :: found.1, found.2)

/-- `rns_strchr`, and `rns_strstr` of a single byte. -/
def cut (b : UInt8) : List UInt8 → Option (List UInt8 × List UInt8)
  | [] => none
  | c :: cs => if c = b then some ([], cs) else (cut b cs).map fun found => (c :: found.1, found.2)

/-- `while(*walker == ' ')++walker`. -/
def skipSpaces (walker : List UInt8) : List UInt8 := walker.dropWhile (· = 32)

def isSpace (b : UInt8) : Bool := b = 32 || (9 ≤ b && b ≤ 13)

def isDigit (b : UInt8) : Bool := 48 ≤ b && b ≤ 57

def readDigits : Nat → List UInt8 → Nat
  | value, [] => value
  | value, b :: bs => if isDigit b then readDigits (value * 10 + (b.toNat - 48)) bs else value

/-- `rns_atoi`, of a number that an `int` holds. -/
def rnsAtoi (str : List UInt8) : Int :=
  let walker := str.dropWhile isSpace
  if walker.head? = some 45 then -readDigits 0 walker.tail
  else if walker.head? = some 43 then readDigits 0 walker.tail
  else readDigits 0 walker

/-- An `int32_t` assigned to a `uint32_t`. -/
def ofInt (n : Int) : Nat := (n % 2 ^ 32).toNat

def rnsChar2value (c : UInt8) : Nat :=
  if 48 ≤ c ∧ c ≤ 57 then c.toNat - 48
  else if 97 ≤ c ∧ c ≤ 102 then c.toNat - 97 + 10
  else if 65 ≤ c ∧ c ≤ 70 then c.toNat - 65 + 10
  else 0

/-- `rns_hex2dec`, which takes eight digits at most. -/
def rnsHex2dec (hex : List UInt8) : Nat :=
  (hex.take 8).foldl (fun value c => u32 (value * 16 + rnsChar2value c)) 0

/-- `rns_split_key_value`. -/
def rnsSplitKeyValue (str : List UInt8) (delim : UInt8) : Option (List UInt8 × List UInt8) :=
  (cut delim str).map fun found => (found.1, skipSpaces found.2)

/-- `rbt_insert` of what a key and a value were split from, if there are any. -/
def insertSplit (str : List UInt8) (delim : UInt8) (entries : List (Rbt.Str × List UInt8)) :
    List (Rbt.Str × List UInt8) :=
  match rnsSplitKeyValue str delim with
  | none => entries
  | some entry => Multimap.insertKey ⟨entry.1⟩ entry.2 entries

/-- The bytes in front of `HTTP`, all if there is none. -/
def beforeHttp : List UInt8 → List UInt8
  | [] => []
  | b :: bs => if strncmpEq (b :: bs) (ascii "HTTP") 4 then [] else b :: beforeHttp bs

/-- The end of the URI, or of the last argument: in front of `HTTP` and of the spaces there. -/
def untilVersion (walker : List UInt8) : List UInt8 := (beforeHttp walker).rdropWhile (· = 32)

/-- `RNS_HTTP_INFO_STATE_ARGS`, on what the `&` part. -/
def readArgs (args : List (Rbt.Str × List UInt8)) : List (List UInt8) →
    List (Rbt.Str × List UInt8)
  | [] => args
  | [item] => insertSplit (untilVersion item) 61 args
  | item :: items => readArgs (insertSplit item 61 args) items

/-- One round of the loop: it returns, goes on behind what it has read, or reads outside the
buffer. -/
inductive Turn
  | stop (tunes : Tunes) (walker : List UInt8)
  | go (tunes : Tunes) (walker : List UInt8)
  | outside

/-- The state ERROR, in which the loop takes what is left. -/
def failTurn (tunes : Tunes) : Turn := .stop (tunes.setInfo { tunes.info with state := .error }) []

/-- `RNS_HTTP_INFO_STATE_URI` and `RNS_HTTP_INFO_STATE_ARGS`. A URI that is `HTTP` is given
a length below zero. -/
def uriTurn (tunes : Tunes) (walker rest : List UInt8) : Turn :=
  let walker := skipSpaces walker
  if walker = [] then failTurn tunes
  else
    match cut 63 walker with
    | some found =>
      .go (tunes.setInfo { tunes.info with
        uri := found.1, args := readArgs tunes.info.args (found.2.splitOn 38), state := .header }) rest
    | none =>
      if strncmpEq walker (ascii "HTTP") 4 then .outside
      else .go (tunes.setInfo { tunes.info with uri := untilVersion walker, state := .header }) rest

/-- `RNS_HTTP_INFO_STATE_METHOD`. The method of a GET request is POST as well. -/
def methodTurn (tunes : Tunes) (walker rest : List UInt8) : Turn :=
  let walker := skipSpaces walker
  match cut 32 walker with
  | none => failTurn tunes
  | some found =>
    if strncmpEq walker (ascii "POST") found.1.length then
      uriTurn (tunes.setInfo { tunes.info with method := .post }) found.2 rest
    else if strncmpEq walker (ascii "GET") found.1.length then
      uriTurn (tunes.setInfo { tunes.info with method := .post }) found.2 rest
    else failTurn tunes

/-- `RNS_HTTP_INFO_STATE_CODE`. -/
def codeTurn (tunes : Tunes) (walker rest : List UInt8) : Turn :=
  let walker := skipSpaces walker
  match cut 32 walker with
  | none => failTurn tunes
  | some _ =>
    .go (tunes.setInfo { tunes.info with code := ofInt (rnsAtoi walker), state := .header }) rest

/-- `RNS_HTTP_INFO_STATE_INIT`, once the first line is there. -/
def startTurn (tunes : Tunes) (line rest : List UInt8) : Turn :=
  let walker := skipSpaces line
  match cut 32 walker with
  | none => failTurn tunes
  | some found =>
    if strncmpEq walker (ascii "HTTP") 4 then codeTurn { tunes with readType := true } found.2 rest
    else methodTurn { tunes with readType := false } walker rest

/-- A line that is not there yet is waited for; its end is looked for up to a NUL. -/
def waitTurn (full : Bool) (tunes : Tunes) (walker behind : List UInt8) : Turn :=
  if full ∧ 0 ∉ behind then .outside else .stop tunes walker

/-- A line of the header goes into the map, and says how long the body is. -/
def Info.readHeader (info : Info) (line : List UInt8) : Info :=
  match rnsSplitKeyValue line 58 with
  | none => info
  | some entry =>
    { info with
      totalSize :=
        if strncmpEq entry.1 (ascii "Content-Length") 14 then ofInt (rnsAtoi entry.2)
        else info.totalSize
      chunk := strncmpEq entry.1 (ascii "Transfer-Encoding") 14 || info.chunk
      headers := Multimap.insertKey ⟨entry.1⟩ entry.2 info.headers }

/-- `RNS_HTTP_INFO_STATE_HEADER`. The two bytes behind the line may not be there yet. -/
def headerTurn (full : Bool) (tunes : Tunes) (walker : List UInt8) : Turn :=
  match findCrlf walker with
  | none => waitTurn full tunes walker walker
  | some found =>
    let info := tunes.info.readHeader found.1
    let walker := skipSpaces found.2
    if walker.take 2 = [13, 10] then
      .go (tunes.setInfo { info with state := if info.chunk then .chunk else .body }) (walker.drop 2)
    else if full ∧ (walker = [] ∨ walker = [13]) then .outside
    else .go (tunes.setInfo info) walker

/-- The line with the size of a chunk. -/
def sizeTurn (tunes : Tunes) (line rest : List UInt8) : Turn :=
  let info := { tunes.info with chunksize := rnsHex2dec line }
  if info.chunksize = 0 then .go (tunes.setInfo { info with state := .done }) rest
  else
    .go (tunes.setInfo { info with
      totalSize := u32 (info.totalSize + info.chunksize), state := .body }) rest

/-- `RNS_HTTP_INFO_STATE_CHUNK`. The end of the chunk before is passed over. -/
def chunkTurn (full : Bool) (tunes : Tunes) (walker : List UInt8) : Turn :=
  let walker := skipSpaces walker
  match findCrlf walker with
  | none => waitTurn full tunes walker walker
  | some found =>
    if found.1 = [] then
      match findCrlf found.2 with
      | none => waitTurn full tunes found.2 found.2
      | some found => sizeTurn tunes found.1 found.2
    else sizeTurn tunes found.1 found.2

/-- `RNS_HTTP_INFO_STATE_BODY`. -/
def bodyTurn (tunes : Tunes) (walker : List UInt8) : Turn :=
  let info := tunes.info
  let left := u32Sub info.totalSize info.currSize
  let len := min walker.length left
  .stop (tunes.setInfo { info with
    body := info.body ++ walker.take len
    currSize := u32 (info.currSize + len)
    state := if info.chunk = false ∧ left ≤ walker.length then .done else info.state })
    (walker.drop len)

/-- The body of the loop, where `walker` is not at the end. -/
def turn (full : Bool) (tunes : Tunes) (walker : List UInt8) : Turn :=
  match tunes.info.state with
  | .init =>
    match findCrlf walker with
    | none => waitTurn full tunes walker walker
    | some found => startTurn tunes found.1 found.2
  | .header => headerTurn full tunes walker
  | .chunk => chunkTurn full tunes walker
  | .body => bodyTurn tunes walker
  | .done => .stop tunes walker
  | .error => .stop tunes []

/-- Behind the loop: a body of no bytes is complete. -/
def finish (tunes : Tunes) : Tunes :=
  if tunes.info.state = .body ∧ tunes.info.totalSize = 0 then
    tunes.setInfo { tunes.info with state := .done }
  else tunes

/-- The loop of `rns_http_info_read`, in so many rounds. -/
def readLoop (full : Bool) : Nat → Tunes → List UInt8 → Option (Tunes × List UInt8)
  | 0, _, _ => none
  | fuel + 1, tunes, walker =>
    if walker = [] then some (finish tunes, [])
    else
      match turn full tunes walker with
      | .stop tunes walker => some (tunes, walker)
      | .go tunes walker => readLoop full fuel tunes walker
      | .outside => none

/-- `rns_http_info_read`, with the bytes it leaves. `full` tells whether the bytes reach to
the end of the buffer, so that no NUL is behind them. -/
def rnsHttpInfoRead (full : Bool) (tunes : Tunes) (walker : List UInt8) :
    Option (Tunes × List UInt8) :=
  readLoop full (walker.length + 1) tunes walker

end Yclib.Http.Reading
