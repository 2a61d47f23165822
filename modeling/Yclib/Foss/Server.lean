import Yclib.Util.Multimap
import Yclib.Util.Network
import Yclib.Util.RbtStore

namespace Yclib.Foss

/-! The foss server: the trs servers that are on line, which of them a set-top box gets, and the
callbacks of the queries behind `/GetServer` and `/phone/GetStbid`. -/

/-- `rns_addr_t`. -/
structure Addr where
  ip : Nat
  port : Nat
deriving DecidableEq

/-- A `trsmgr_t`; its load is the key that it has in `ntrsmgr`. -/
structure Trsmgr where
  id : Rbt.Str
  addr : Addr

/-- A `foss_t`: the two trees, with the trs servers by the order in which they were made. -/
structure Server where
  strsmgr : List (Rbt.Str × Nat)
  ntrsmgr : List (Nat × Nat)
  trsmgr : Nat → Trsmgr
  made : Nat

inductive Resp
  | error (code : Nat)
  | ok
  | server (addr : Addr)
  | stb (stbid stbUseId : Rbt.Str)
deriving DecidableEq

namespace Server

/-- No trs server is on line. -/
def create : Server := ⟨[], [], fun _ => ⟨⟨[]⟩, ⟨0, 0⟩⟩, 0⟩

/-- `/Foss/login` with the peer, ip and port of its body, if they are there. -/
def login (foss : Server) : Option (Rbt.Str × Addr) → Server × Resp
  | none => (foss, .error 400)
  | some (peer, addr) =>
    match Multimap.searchKey peer foss.strsmgr with
    | none =>
      ({ strsmgr := Multimap.insertKey peer foss.made foss.strsmgr
         ntrsmgr := Multimap.insertKey 0 foss.made foss.ntrsmgr
         trsmgr := Function.update foss.trsmgr foss.made ⟨peer, addr⟩
         made := foss.made + 1 }, .ok)
    | some _ => (foss, .ok)

theorem login_known {foss : Server} {peer : Rbt.Str} {addr : Addr} {trsmgr : Nat}
    (h : Multimap.searchKey peer foss.strsmgr = some trsmgr) : foss.login (some (peer, addr)) = (foss, .ok) := by
  simp [login, h]

theorem login_new {foss : Server} {peer : Rbt.Str} {addr : Addr}
    (h : Multimap.searchKey peer foss.strsmgr = none) :
    foss.login (some (peer, addr)) =
      ({ strsmgr := Multimap.insertKey peer foss.made foss.strsmgr
         ntrsmgr := Multimap.insertKey 0 foss.made foss.ntrsmgr
         trsmgr := Function.update foss.trsmgr foss.made ⟨peer, addr⟩
         made := foss.made + 1 }, .ok) := by
  simp [login, h]

/-- `trs_login`, the callback of a trs server's timer. -/
def trsLogin (foss : Server) (trsmgr : Nat) : Option Server :=
  (Multimap.deleteValue trsmgr foss.strsmgr).bind fun strsmgr =>
    (Multimap.deleteValue trsmgr foss.ntrsmgr).map fun ntrsmgr =>
      { foss with strsmgr := strsmgr, ntrsmgr := ntrsmgr }

/-- `rbt_first(&foss->ntrsmgr)`, with its key. -/
def first (foss : Server) : Option (Nat × Nat) := foss.ntrsmgr.head?

/-- `rbt_delete`, `rbt_set_key_int` and `rbt_insert`: the load goes up by one. -/
def addLoad (foss : Server) (number trsmgr : Nat) : Option Server :=
  (Multimap.deleteValue trsmgr foss.ntrsmgr).map fun ntrsmgr =>
    { foss with ntrsmgr := Multimap.insertKey (u32 (u32 number + 1)) trsmgr ntrsmgr }

/-- `server_get_work` on a row that may have been parsed to the `trsid` of a box. -/
def serverGetWork (foss : Server) : Option Rbt.Str → Resp
  | none => .error 400
  | some trsid =>
    match Multimap.searchKey trsid foss.strsmgr with
    | none => .error 400
    | some trsmgr => .server (foss.trsmgr trsmgr).addr

end Server

/-- What comes of `server_get_done`: the trees, the responses, and the trs server that a box is
being registered for. -/
structure Got where
  foss : Server
  resps : List Resp
  registry : Option Nat

/-- `server_get_done`. There may be no connection for the registration, and where there is one
(`some starts`) the query may not start. -/
def serverGetDone (foss : Server) (rownum : Nat) (m : Option Bool) : Option Got :=
  if rownum = 0 then
    match foss.first with
    | none => some ⟨foss, [.error 400], none⟩
    | some (number, trsmgr) =>
      match m with
      | none => some ⟨foss, [.error 400], none⟩
      | some starts =>
        (foss.addLoad number trsmgr).map fun foss =>
          if starts then ⟨foss, [.server (foss.trsmgr trsmgr).addr], some trsmgr⟩
          else ⟨foss, [.error 400], none⟩
  else some ⟨foss, [], none⟩

section
variable {foss : Server} {m : Option Bool} {number trsmgr : Nat}

theorem get_none (h : foss.first = none) : serverGetDone foss 0 m = some ⟨foss, [.error 400], none⟩ := by
  simp [serverGetDone, h]

theorem get_out (h : foss.first = some (number, trsmgr)) :
    serverGetDone foss 0 none = some ⟨foss, [.error 400], none⟩ := by
  simp [serverGetDone, h]

theorem get_registry {after : Server} {starts : Bool} (h : foss.first = some (number, trsmgr))
    (hload : foss.addLoad number trsmgr = some after) :
    serverGetDone foss 0 (some starts) = some (if starts then
      ⟨after, [.server (after.trsmgr trsmgr).addr], some trsmgr⟩ else ⟨after, [.error 400], none⟩) := by
  simp [serverGetDone, h, hload]

end

end Yclib.Foss
