import Yclib.Http.Bodies

namespace Yclib.Http.Reading

/-! Requests one after the other on a connection that is kept. -/

inductive Event
  | recv (read : Recv)
  | answered (connection : Option (List UInt8))

/-- A call of `recv`, or the end of a response in `write_func`. -/
def step (hconn : Hconn) : Event → Option Hconn
  | .recv read => recv hconn read
  | .answered connection => some (rnsHconnRespClose hconn connection)

def Event.bytes : Event → List UInt8
  | .recv (.bytes piece) => piece
  | _ => []

/-- How many requests have been handed out with their end. -/
def Hconn.complete (hconn : Hconn) : Nat := hconn.log.countP Call.isDone

/-- A response ends where `read_func` is not running and a request waits for it. -/
def Event.Can (hconn : Hconn) : Event → Prop
  | .recv read => read.Can hconn
  | .answered _ => hconn.reading = false ∧ hconn.answered < hconn.complete

def stream (requests : List Message) : List UInt8 := (requests.map Message.bytes).flatten

/-- A request that is handed out at all: one with a body in chunks has a chunk. -/
structure Message.Request (msg : Message) : Prop where
  counted : msg.Counted
  request : msg.start.isResponse = false
  chunks : ∀ coding chunks last, msg.content = .chunked coding chunks last → chunks ≠ []

/-- No byte of a request comes in while a response is pending, each request fits the buffer and does
not end with it, and its reads end where they may. So many bytes are there before the event. -/
def Follows (requests : List Message) (taken : Nat) (hconn : Hconn) : Event → Prop
  | .recv (.bytes piece) => ∀ front msg back off, requests = front ++ msg :: back →
      taken = (stream front).length + off → off < msg.bytes.length →
      off + piece.length ≤ msg.bytes.length ∧
        (off = 0 → hconn.answered = hconn.complete ∧ msg.Fits hconn.writePos ∧
          (hconn.writePos + msg.bytes.length) % rnsHttpBufSize ≠ 0) ∧
        msg.Clean [.bytes piece] (msg.bytes.drop (off + piece.length))
  | .recv _ => True
  | .answered connection => keeps connection = true

/-- What is reached as the bytes of the requests come in. -/
inductive Reach (requests : List Message) : Option Hconn → Nat → Prop
  | accept {hconn : Hconn} (ready : hconn.Ready) (log : hconn.log = []) (answered : hconn.answered = 0) :
      Reach requests (some hconn) 0
  | step {hconn : Hconn} {taken : Nat} {event : Event} (before : Reach requests (some hconn) taken)
      (alive : hconn.closed = false) (can : event.Can hconn)
      (sent : event.bytes <+: (stream requests).drop taken) (follows : Follows requests taken hconn event) :
      Reach requests (step hconn event) (taken + event.bytes.length)

def headerMap (headers : List (List UInt8)) : List (Rbt.Str × List UInt8) :=
  headers.foldl (fun entries line => insertSplit line 58 entries) []

/-- What is seen of a request is its own. -/
structure Own (msg : Message) (head : Head) : Prop where
  uri : ∀ post path query version, msg.start = .request post path query version →
    head.uri = path ∧ head.args = Start.args query
  headers : head.headers = headerMap msg.headers

section
variable {msg : Message} {tunes : Tunes} {log : List Call} {hconn : Hconn} {rest : List UInt8}

end

theorem stream_append (front back : List Message) : stream (front ++ back) = stream front ++ stream back := by
  simp [stream]

section
variable {requests : List Message} {hconn : Hconn} {taken : Nat}

end

end Yclib.Http.Reading
