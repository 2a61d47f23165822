import Yclib.Http.HeaderMap
import Yclib.Http.Message
import Yclib.Util.Decimal
import Yclib.Util.Snprintf

namespace Yclib.Http.HeaderMap
open Rbt Snprintf
open Reading (crlf)

/-! The text of a header, in a block of 1024 bytes. -/

/-- `"%s: %s\r\n"`. -/
def headerLine (key : Str) (data : List UInt8) : List UInt8 := key.bytes ++ ascii ": " ++ data ++ crlf

/-- So many rounds over the headers, from this node on. -/
def headerRounds : Nat → Option (Place Str Item) → Printed → Printed
  | 0, _, s => s
  | _ + 1, none, s => s
  | fuel + 1, some node, s =>
    headerRounds fuel (rbtNext node) (snprintf 1024 s (headerLine node.key node.value.data))

/-- The first line, the headers and the blank line. There are no more rounds than items. -/
def printHeader (first : List UInt8) (root : Rbt.Tree Str Item) : Printed :=
  let s := headerRounds root.toList.length (rbtFirst root) (snprintf 1024 .empty first)
  snprintf 1024 s crlf

/-- `"%s %s HTTP/1.1\r\n"`. -/
def requestLine (method uri : List UInt8) : List UInt8 := method ++ ascii " " ++ uri ++ ascii " HTTP/1.1" ++ crlf

/-- `rns_hconn_req_header`: the first bytes of the block, as many as the sum, are sent. -/
def rnsHconnReqHeader (hconn : Hconn) (method uri : List UInt8) : Printed :=
  printHeader (requestLine method uri) hconn.req.root

/-- `ret_str`. -/
def retStr (retCode : Nat) : List UInt8 :=
  match retCode with
  | 100 => ascii "Continue"
  | 101 => ascii "Switching Protocols"
  | 200 => ascii "OK"
  | 201 => ascii "Created"
  | 202 => ascii "Accepted"
  | 203 => ascii "Non-Authoritative Information"
  | 204 => ascii "No Content"
  | 205 => ascii "Reset Content"
  | 206 => ascii "Partial Content"
  | 300 => ascii "Multiple Choices"
  | 301 => ascii "Moved Permanently"
  | 302 => ascii "Found"
  | 303 => ascii "See Other"
  | 304 => ascii "Not Modified"
  | 305 => ascii "Use Proxy"
  | 307 => ascii "Temporary Redirect"
  | 400 => ascii "Bad Request"
  | 401 => ascii "Unauthorized"
  | 402 => ascii "Payment Required"
  | 403 => ascii "Forbidden"
  | 404 => ascii "Not Found"
  | 405 => ascii "Method Not Allowed"
  | 406 => ascii "Not Acceptable"
  | 407 => ascii "Proxy Authentication Required"
  | 408 => ascii "Request Timeout"
  | 409 => ascii "Conflict"
  | 410 => ascii "Gone"
  | 411 => ascii "Length Required"
  | 412 => ascii "Precondition Failed"
  | 413 => ascii "Request Entity Too Large"
  | 414 => ascii "Request-URI Too Long"
  | 415 => ascii "Unsupported Media Type"
  | 416 => ascii "Requested Range Not Satisfiable"
  | 417 => ascii "Expectation Failed"
  | 500 => ascii "Internal Server Error"
  | 501 => ascii "Not Implemented"
  | 502 => ascii "Bad Gateway"
  | 503 => ascii "Service Unavailable"
  | 504 => ascii "Gateway Timeout"
  | 505 => ascii "HTTP Version Not Supported"
  | _ => []

/-- `"HTTP/1.1 %d %s\r\n"`. -/
def statusLine (retCode : UInt32) : List UInt8 :=
  ascii "HTTP/1.1 " ++ signedDecimal retCode.toNat ++ ascii " " ++ (retStr retCode.toNat).take 63 ++ crlf

/-- `rns_hconn_resp_header`. -/
def rnsHconnRespHeader (hconn : Hconn) (retCode : UInt32) : Printed :=
  printHeader (statusLine retCode) hconn.resp.root

/-- The texts of a header. -/
def headerTexts (first : List UInt8) (root : Rbt.Tree Str Item) : List (List UInt8) :=
  first :: root.toList.map (fun entry => headerLine entry.1 entry.2.data) ++ [crlf]

theorem rounds_texts {fuel : Nat} {node : Place Str Item} (s : Printed) (hfuel : node.rest.length < fuel) :
    headerRounds fuel (some node) s = (((node.key, node.value) :: node.rest).map
      fun entry => headerLine entry.1 entry.2.data).foldl (snprintf 1024) s := by
  induction fuel generalizing node s with
  | zero => cases hfuel
  | succ fuel ih =>
    rw [headerRounds]
    rcases next_list node with ⟨next, hnext, hrest⟩ | ⟨hnone, hrest⟩
    · rw [hnext, hrest, ih _ (by rw [hrest, List.length_cons] at hfuel; omega)]
      rfl
    · rw [hnone, hrest]
      cases fuel <;> rfl

/-- The texts are printed one behind the other, in the order of the tree. -/
theorem print_texts (first : List UInt8) (root : Rbt.Tree Str Item) :
    printHeader first root = (headerTexts first root).foldl (snprintf 1024) .empty := by
  rw [headerTexts, List.cons_append, List.foldl_cons, List.foldl_append]
  cases root with
  | null => rfl
  | node color left key value right =>
    obtain ⟨-, -, hlist⟩ := leftmost_list color left key value right [] rfl
    simp only [after_nil, List.append_nil, ← list_node color] at hlist
    have hrest : (Rbt.Tree.node color left key value right).toList =
        ((leftmost color left key value right []).key, (leftmost color left key value right []).value) ::
          (leftmost color left key value right []).rest := hlist.symm
    rw [printHeader, rbtFirst, rounds_texts, hrest]
    · rfl
    · rw [hrest, List.length_cons]
      exact Nat.lt_succ_self _

/-- The bytes of a header. -/
def headerBytes (first : List UInt8) (root : Rbt.Tree Str Item) : List UInt8 := (headerTexts first root).flatten

/-- No line is as long as `snprintf` cannot tell. -/
def Short (first : List UInt8) (root : Rbt.Tree Str Item) : Prop :=
  ∀ text ∈ headerTexts first root, text.length < 2 ^ 31

theorem short_plain {first : List UInt8} {root : Rbt.Tree Str Item} (hfirst : first ≠ []) (h : Short first root) :
    Plain (headerTexts first root) := by
  intro text hm
  refine ⟨?_, h text hm⟩
  rw [headerTexts, List.cons_append, List.mem_cons, List.mem_append, List.mem_map, List.mem_singleton] at hm
  rcases hm with rfl | ⟨entry, -, rfl⟩ | rfl
  · exact hfirst
  · simp [headerLine, crlf]
  · simp [crlf]

theorem print_holding {first : List UInt8} {root : Rbt.Tree Str Item}
    (hroom : (headerBytes first root).length < 1024) :
    Holding 1024 (printHeader first root) (headerBytes first root) := by
  rw [print_texts]
  refine texts_holding (by decide) empty_holding ?_
  rw [List.length_nil, Nat.zero_add]
  exact hroom

theorem print_right {first : List UInt8} (root : Rbt.Tree Str Item) (hfirst : first ≠ []) :
    ((headerBytes first root).length < 1024 → Right 1024 (printHeader first root)) ∧
      (Short first root → Right 1024 (printHeader first root) → (headerBytes first root).length < 1024) := by
  refine ⟨fun hroom => (print_holding hroom).toRight, ?_⟩
  intro hshort
  rw [print_texts]
  exact (texts_right (by decide) (by decide) (short_plain hfirst hshort)).mp

/-- For all headers, methods, URIs and status codes: a header is printed inside its block and the bytes that
are sent are those written, if and only if it has less than 1024 bytes. -/
theorem header_right_iff (hconn : Hconn) :
    (∀ method uri, let first := requestLine method uri
      ((headerBytes first hconn.req.root).length < 1024 → Right 1024 (rnsHconnReqHeader hconn method uri)) ∧
        (Short first hconn.req.root → Right 1024 (rnsHconnReqHeader hconn method uri) →
          (headerBytes first hconn.req.root).length < 1024)) ∧
    ∀ retCode, let first := statusLine retCode
      ((headerBytes first hconn.resp.root).length < 1024 → Right 1024 (rnsHconnRespHeader hconn retCode)) ∧
        (Short first hconn.resp.root → Right 1024 (rnsHconnRespHeader hconn retCode) →
          (headerBytes first hconn.resp.root).length < 1024) := by
  constructor
  · intro method uri
    exact print_right hconn.req.root (by simp [requestLine, crlf])
  · intro retCode
    exact print_right hconn.resp.root (by simp [statusLine, crlf])

/-- A request for a URI of 1100 bytes. -/
theorem header_too_long : ¬ ∀ (hconn : Hconn) (method uri : List UInt8),
    Right 1024 (rnsHconnReqHeader hconn method uri) := by
  intro hall
  have hright := hall .init (ascii "GET") (List.replicate 1100 97)
  have hlength : (requestLine (ascii "GET") (List.replicate 1100 97)).length = 1115 := by
    simp only [requestLine, List.length_append, List.length_replicate]
    decide
  have hshort : Short (requestLine (ascii "GET") (List.replicate 1100 97)) .null := by
    intro text hm
    rcases List.mem_cons.mp hm with rfl | hm
    · rw [hlength]
      decide
    · rw [List.mem_singleton.mp hm]
      decide
  have hne : requestLine (ascii "GET") (List.replicate 1100 97) ≠ [] := by
    rw [← List.length_pos_iff, hlength]
    decide
  have hfew := (print_right .null hne).2 hshort hright
  rw [headerBytes, headerTexts, List.cons_append, List.flatten_cons, List.length_append, hlength] at hfew
  omega

/-- A header of these entries. -/
def entriesText (first : List UInt8) (entries : List (Str × List UInt8)) : List UInt8 :=
  first ++ (entries.flatMap fun entry => headerLine entry.1 entry.2) ++ crlf

/-- The bytes of the block that are sent. -/
def sent (s : Printed) : List UInt8 := slice s.mem 0 s.sum

/-- The tree is a map: searches come to the value of their key, and its entries are each key once, in
order, with its value. -/
structure IsMap (root : Rbt.Tree Str Item) (map : Map) (entries : List (Str × List UInt8)) : Prop where
  found : ∀ key, (rbtSearchStr root key).map (fun node => node.value.data) = map key
  once : (entries.map Prod.fst).Pairwise (· < ·)
  values : ∀ key value, (key, value) ∈ entries ↔ map key = some value

theorem stored_map {headers : Headers} {map : Map} {linked : List (Str × Item)} (h : Stored headers map linked) :
    IsMap headers.root map (headers.root.toList.map fun entry => (entry.1, entry.2.data)) := by
  obtain ⟨hsorted, hvalues⟩ := stored_list h
  refine ⟨?_, ?_, ?_⟩
  · intro key
    rw [← h.found key, ← search_stored h key, Option.map_map]
    rfl
  · rw [List.map_map]
    exact hsorted
  · intro key value
    rw [← hvalues key value, List.mem_map]
    constructor
    · rintro ⟨⟨key', item⟩, hm, heq⟩
      obtain ⟨rfl, rfl⟩ := Prod.mk.inj heq
      exact ⟨item, hm, rfl⟩
    · rintro ⟨item, hm, rfl⟩
      exact ⟨(key, item), hm, rfl⟩

/-- What is sent where there is room. -/
theorem print_sent {first : List UInt8} {root : Rbt.Tree Str Item}
    (hroom : (entriesText first (root.toList.map fun entry => (entry.1, entry.2.data))).length < 1024) :
    sent (printHeader first root) = entriesText first (root.toList.map fun entry => (entry.1, entry.2.data)) := by
  have hbytes : entriesText first (root.toList.map fun entry => (entry.1, entry.2.data)) =
      headerBytes first root := by
    simp [entriesText, headerBytes, headerTexts, List.flatMap_def, Function.comp_def]
  rw [hbytes] at hroom ⊢
  have hprinted := print_holding hroom
  rw [sent, hprinted.length]
  exact slice_holds hprinted.holds

/-- For all insertions into the headers of a request and of a response: each of them is the map that has the
value written last for a key, and is sent as that map where there is room. -/
theorem headers_map (inserts : List Insert) : ∃ hconn, run inserts = some hconn ∧
    (∃ entries, IsMap hconn.req.root (reqMap inserts) entries ∧
      ∀ method uri, (entriesText (requestLine method uri) entries).length < 1024 →
        sent (rnsHconnReqHeader hconn method uri) = entriesText (requestLine method uri) entries) ∧
    ∃ entries, IsMap hconn.resp.root (respMap inserts) entries ∧
      ∀ retCode, (entriesText (statusLine retCode) entries).length < 1024 →
        sent (rnsHconnRespHeader hconn retCode) = entriesText (statusLine retCode) entries := by
  obtain ⟨hconn, hrun, ⟨reqs, hreq⟩, resps, hresp⟩ := run_stored inserts
  refine ⟨hconn, hrun, ⟨_, stored_map hreq, ?_⟩, _, stored_map hresp, ?_⟩
  · intro method uri hroom
    exact print_sent hroom
  · intro retCode hroom
    exact print_sent hroom

end Yclib.Http.HeaderMap
