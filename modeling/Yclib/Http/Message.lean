import Yclib.Http.Reading

namespace Yclib.Http.Reading

/-! Messages as a peer sends them, in the forms that the parser takes. -/

def crlf : List UInt8 := [13, 10]

/-- No byte of the text ends a line or a string. -/
def Text (bs : List UInt8) : Prop := ∀ b ∈ bs, b ≠ 0 ∧ b ≠ 13 ∧ b ≠ 10

inductive Version
  | http10
  | http11

def Version.text : Version → List UInt8
  | .http10 => ascii "HTTP/1.0"
  | .http11 => ascii "HTTP/1.1"

/-- The first line. The query of a request has a last argument and those in front of it. -/
inductive Start
  | request (post : Bool) (path : List UInt8) (query : Option (List (List UInt8) × List UInt8))
      (version : Version)
  | response (version : Version) (code reason : List UInt8)

/-- Text that neither ends a word nor goes on with the version. -/
def Word (bs : List UInt8) : Prop := Text bs ∧ 32 ∉ bs ∧ ¬ ascii "HTTP" <:+: bs

def Start.WellFormed : Start → Prop
  | .request _ path query _ =>
    path ≠ [] ∧ Word path ∧ 63 ∉ path ∧
      ∀ items ∈ query, Word items.2 ∧ 38 ∉ items.2 ∧ ∀ item ∈ items.1, Text item ∧ 38 ∉ item
  | .response _ code reason => code ≠ [] ∧ (∀ b ∈ code, isDigit b) ∧ Text reason

/-- What is behind the path. -/
def Start.target : Option (List (List UInt8) × List UInt8) → Version → List UInt8
  | none, version => 32 :: version.text
  | some items, version =>
    63 :: List.intercalate [38] (items.1 ++ [items.2 ++ 32 :: version.text])

def Start.line : Start → List UInt8
  | .request post path query version =>
    (if post then ascii "POST" else ascii "GET") ++ 32 :: (path ++ Start.target query version)
  | .response version code reason => version.text ++ 32 :: (code ++ 32 :: reason)

/-- The arguments of the query, each as a key and a value. -/
def Start.args : Option (List (List UInt8) × List UInt8) → List (Rbt.Str × List UInt8)
  | none => []
  | some items => (items.1 ++ [items.2]).foldl (fun args item => insertSplit item 61 args) []

def Start.isResponse : Start → Bool
  | .request .. => false
  | .response .. => true

/-- What is read from the first line. -/
def Start.info (info : Info) : Start → Info
  | .request _ path query _ =>
    { rnsHttpInfoInit info with
      method := .post, uri := path, args := Start.args query, state := .header }
  | .response _ code reason =>
    { rnsHttpInfoInit info with code := ofInt (rnsAtoi (code ++ 32 :: reason)), state := .header }

def Start.tunes (tunes : Tunes) (start : Start) : Tunes :=
  let tunes := { tunes with readType := start.isResponse }
  tunes.setInfo (start.info tunes.info)

/-- A chunk, with the text of its size. -/
structure Chunk where
  size : List UInt8
  data : List UInt8

def isHex (b : UInt8) : Bool := isDigit b || (97 ≤ b && b ≤ 102) || (65 ≤ b && b ≤ 70)

/-- The number that hexadecimal digits stand for, however many. -/
def hexValue (hex : List UInt8) : Nat := hex.foldl (fun value c => value * 16 + rnsChar2value c) 0

/-- How the end of a message is told. -/
inductive Content
  | none
  | length (spaces : Nat) (digits data : List UInt8)
  | chunked (coding : List UInt8) (chunks : List Chunk) (last : List UInt8)

/-- A size as it is sent. -/
def Size (size : List UInt8) (n : Nat) : Prop := size ≠ [] ∧ (∀ b ∈ size, isHex b) ∧ hexValue size = n

def Content.WellFormed : Content → Prop
  | .none => True
  | .length _ digits data => digits ≠ [] ∧ (∀ b ∈ digits, isDigit b) ∧ readDigits 0 digits = data.length
  | .chunked coding chunks last =>
    Text coding ∧ (∀ chunk ∈ chunks, Size chunk.size chunk.data.length ∧ chunk.data ≠ []) ∧ Size last 0

/-- The line of the header that tells it. -/
def Content.header : Content → List (List UInt8)
  | .none => []
  | .length spaces digits _ =>
    [ascii "Content-Length" ++ 58 :: (List.replicate spaces 32 ++ digits)]
  | .chunked coding _ _ => [ascii "Transfer-Encoding" ++ 58 :: coding]

def chunkBytes (last : List UInt8) : List Chunk → List UInt8
  | [] => last ++ crlf ++ crlf
  | chunk :: chunks => chunk.size ++ crlf ++ (chunk.data ++ crlf ++ chunkBytes last chunks)

def Content.bytes : Content → List UInt8
  | .none => []
  | .length _ _ data => data
  | .chunked _ chunks last => chunkBytes last chunks

def Content.body : Content → List UInt8
  | .none => []
  | .length _ _ data => data
  | .chunked _ chunks _ => (chunks.map Chunk.data).flatten

def Content.isChunked : Content → Bool
  | .chunked .. => true
  | _ => false

/-- A message; `front` and `back` are the other lines of its header. -/
structure Message where
  start : Start
  front : List (List UInt8)
  content : Content
  back : List (List UInt8)

/-- A line of the header that says nothing of the body. -/
def Other (header : List UInt8) : Prop :=
  Text header ∧ (∃ b, header.head? = some b ∧ b ≠ 32) ∧
    ¬ ascii "Content-Length" <+: header ∧ ¬ ascii "Transfer-Encod" <+: header

def Message.headers (msg : Message) : List (List UInt8) := msg.front ++ msg.content.header ++ msg.back

/-- A message in a form that the parser takes: a GET or POST request or a response, with a
line of the header at least. -/
structure Message.WellFormed (msg : Message) : Prop where
  start : msg.start.WellFormed
  content : msg.content.WellFormed
  other : ∀ header ∈ msg.front ++ msg.back, Other header
  headers : msg.headers ≠ []

/-- Lines of the header as they are sent. -/
def lines (headers : List (List UInt8)) : List UInt8 := (headers.map (· ++ crlf)).flatten

def Message.bytes (msg : Message) : List UInt8 :=
  msg.start.line ++ crlf ++ (lines msg.headers ++ crlf ++ msg.content.bytes)

/-- What the header is read to, with the state that its end leads to. -/
def Message.info (msg : Message) (tunes : Tunes) : Info :=
  let info := msg.headers.foldl Info.readHeader (msg.start.tunes tunes).info
  { info with state := if info.chunk then .chunk else .body }

/-- What the callbacks find of the message. -/
def Message.head (msg : Message) (tunes : Tunes) : Head :=
  ((msg.start.tunes tunes).setInfo (msg.info tunes)).head

/-- The connection reads as one that is just made. -/
def Tunes.Fresh (tunes : Tunes) : Prop :=
  tunes.request = rnsHttpInfoInit tunes.request ∧ tunes.response = rnsHttpInfoInit tunes.response

end Yclib.Http.Reading
