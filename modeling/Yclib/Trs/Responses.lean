import Yclib.Util.Rbt

namespace Yclib.Trs.Responses

/-! What a client of the trs server is sent for one request: by the dispatcher and its handler, and
by the callbacks of the queries and of the requests to the foss server that the handler starts. -/

/-- How a query or a request to another server begins: there is no connection for it, it is refused, or
its callbacks will be called. -/
inductive Begun
  | noConn
  | refused
  | started
deriving DecidableEq

/-- The callbacks of `/stb/../get` and those of `/third/../get`. -/
inductive Family
  | stb
  | third
deriving DecidableEq

/-- What a request still waits for: an update of the database, an answer of the foss server, a query for
boxes, for phones or for the entries of the list, a poll with or without its connection in `stbs` and
a timer of its own. -/
inductive Job
  | write
  | foss (flag : Bool)
  | boxes (family : Family)
  | phones
  | entries (family : Family)
  | poll (held timed : Bool)
deriving DecidableEq

/-- The codes that were sent; `number` of the `rns_ctx_t`, which is there or destroyed; and whether
something undefined happened. -/
structure Req where
  sent : List Nat
  jobs : List Job
  number : UInt32
  ctx : Bool
  broken : Bool

namespace Req

def create : Req := ⟨[], [], 0, true, false⟩

/-- `rns_hconn_resp2`. -/
def resp2 (req : Req) (code : Nat) : Req := { req with sent := req.sent ++ [code] }

def start (req : Req) (job : Job) : Req := { req with jobs := req.jobs ++ [job] }

def finish (req : Req) (job : Job) : Req := { req with jobs := req.jobs.erase job }

/-- `*n += 1`. -/
def count (req : Req) : Req := { req with number := req.number + 1 }

/-- What goes through a null pointer, or through a context that is destroyed. -/
def fault (req : Req) : Req := { req with broken := true }

def use (req : Req) (callback : Req → Req) : Req := if req.ctx then callback req else req.fault

/-- A query that is counted before it is started, and stays so if it is refused. -/
def query (req : Req) (job : Job) : Begun → Req
  | .noConn => req
  | .refused => req.count
  | .started => req.count.start job

/-- `*n -= 1`, where the last one answers and destroys the context. -/
def countDown (req : Req) (code : Nat) : Req :=
  let req := { req with number := req.number - 1 }
  if req.number = 0 then { req.resp2 code with ctx := false } else req

/-- A row with no box or phone in it starts nothing. -/
def parsed (req : Req) (job : Job) : Option Begun → Req
  | none => req
  | some begun => req.query job begun

/-- `stb_get`, `fstb_get`, `ps_get`, `mark_get`, `phone_get`, `fphone_get` and the callbacks that add an
entry to the array. -/
def work (req : Req) (row : Option Begun) : Job → Req
  | .boxes .stb => req.use fun req => req.parsed (.entries .stb) row
  | .boxes .third => req.use fun req => req.parsed .phones row
  | .phones => req.use fun req => req.parsed (.entries .third) row
  | .entries _ => req.use fun req => req
  | _ => req

/-- `stb_get_done` and `stb_get_done2`, which start the query for the entries of the user. -/
def stbGetDone (req : Req) (begun : Begun) : Req := (req.query (.entries .stb) begun).countDown 200

/-- `done_func` and the callbacks `done` of the queries. -/
def done (req : Req) (begun : Begun) : Job → Req
  | .write => req.resp2 200
  | .boxes .stb => req.use fun req => req.stbGetDone begun
  | .boxes .third => req.use fun req => req.countDown 400
  | .phones => req.use fun req => req.countDown 400
  | .entries _ => req.use fun req => req.countDown 200
  | _ => req

/-- `get_error`. -/
def getError (req : Req) : Req := { req.resp2 400 with ctx := false }

/-- `third_error`. -/
def thirdError (req : Req) : Req := req.countDown 400

/-- `error_func` and the callbacks `error` of the queries. -/
def error (req : Req) : Job → Req
  | .write => req.resp2 400
  | .boxes .stb => req.use getError
  | .entries .stb => req.use getError
  | .boxes .third => req.use thirdError
  | .phones => req.use thirdError
  | .entries .third => req.use thirdError
  | _ => req

/-- `foss_bind_resp` and `foss_unbind_resp`; a request that fails has no callback. -/
def fossResp (req : Req) (flag : Bool) : Option Nat → Req
  | none => req
  | some code => if code ≠ 200 then req.resp2 400 else if flag then req.resp2 200 else req

/-- The screen info, or the timer of a box with its callback `stb_screen_resp`. -/
def polled (req : Req) (held timed pushed : Bool) : Req :=
  if pushed then if held then req.resp2 200 else req
  else if timed then req.resp2 200 else req

end Req

inductive Call
  | work (job : Job) (row : Option Begun)
  | done (job : Job) (begun : Begun)
  | error (job : Job)
  | fossResp (flag : Bool) (code : Option Nat)
  | polled (held timed pushed : Bool)

def Req.step (req : Req) : Call → Req
  | .work job row => req.work row job
  | .done job begun => (req.finish job).done begun job
  | .error job => (req.finish job).error job
  | .fossResp flag code => (req.finish (.foss flag)).fossResp flag code
  | .polled held timed pushed => (req.finish (.poll held timed)).polled held timed pushed

def Job.IsQuery : Job → Prop
  | .boxes _ | .phones | .entries _ => True
  | _ => False

/-- A callback comes for what is waited for; a timer is that of the poll. -/
def Call.Can (req : Req) : Call → Prop
  | .work job _ => job ∈ req.jobs ∧ job.IsQuery
  | .done job _ => job ∈ req.jobs ∧ (job.IsQuery ∨ job = .write)
  | .error job => job ∈ req.jobs ∧ (job.IsQuery ∨ job = .write)
  | .fossResp flag _ => .foss flag ∈ req.jobs
  | .polled held timed pushed => .poll held timed ∈ req.jobs ∧ (pushed = true ∨ timed = true)

/-- The count tells the last query. -/
def Req.Counts (req : Req) : Prop := req.number = 1 ↔ req.jobs.length = 1

/-- The calls that keep to one response. -/
def Call.Fine (req : Req) : Call → Prop
  | .work _ _ => True
  | .done .write _ => True
  | .done (.boxes .stb) .refused => req.number = 0 ↔ req.jobs.length = 1
  | .done (.boxes .stb) .started => req.number ≠ 0
  | .done _ _ => req.Counts
  | .error .write => True
  | .error (.boxes .stb) => req.jobs.length = 1
  | .error (.entries .stb) => req.jobs.length = 1
  | .error _ => req.Counts
  | .fossResp true code => code ≠ none
  | .fossResp false code => code = none ∨ code = some 200
  | .polled held _ pushed => pushed = true → held = true

def Req.run (req : Req) (calls : List Call) : Req := calls.foldl Req.step req

def Req.Allowed (req : Req) : List Call → Prop
  | [] => True
  | call :: calls => call.Can req ∧ (req.step call).Allowed calls

def Req.Fine (req : Req) : List Call → Prop
  | [] => True
  | call :: calls => call.Fine req ∧ (req.step call).Fine calls

/-- One response, and nothing undefined. -/
def Req.Answered (req : Req) : Prop := req.sent.length = 1 ∧ req.broken = false

/-- A node of a `rns_json_t`, whose `valuestring` is NULL where it is no string. -/
structure Node where
  valuestring : Option Rbt.Str
  valueint : Int

/-- The nodes of an object by their names. -/
abbrev Json := String → Option Node

/-- A screen info with the keycode of the volume, and no content that is one. -/
def Json.NoVolume (sinfo : Json) : Prop :=
  (sinfo "keycode").elim 0 Node.valueint = 233 ∧ (sinfo "content").bind Node.valuestring = none

instance (sinfo : Json) : Decidable sinfo.NoVolume := inferInstanceAs (Decidable (_ ∧ _))

/-- `rns_http_info_t`, with the body as `rns_json_read` reads it. -/
structure Info where
  uri : String
  args : String → Option Rbt.Str
  body : Option Json

/-- What a `stbdev_t` has of interest here. -/
structure Stb where
  phones : List Rbt.Str
  sinfo : Bool
  timer : Bool
  stbUserId : Option Rbt.Str

/-- What `stbdev_find` and `phonedev_find` find, a phone with the box it is bound to, and whether a box
has a connection in `stbs`. -/
structure Server where
  stbroot : Rbt.Str → Option Stb
  phoneroot : Rbt.Str → Option (Option Rbt.Str)
  stbs : Rbt.Str → Bool

/-- How what a handler starts begins: at the foss server, at the cms, in the database. -/
structure Begins where
  foss : Begun
  cms : Begun
  db : Begun

namespace Req

/-- The end of `phone_bindStb` and `phone_unbindStb`: it is not the connection to the foss server that
is compared with NULL. -/
def askFoss (req : Req) (flag : Bool) : Begun → Req
  | .noConn => req.fault
  | .refused => req.resp2 400
  | .started => req.start (.foss flag)

def phoneUnbindStb (req : Req) (flag : Bool) (foss : Begun) (stb : Option Rbt.Str) : Req :=
  match stb with
  | none => req.resp2 400
  | some _ => req.askFoss flag foss

/-- An update of the database, with the codes that are sent without a connection and when it is refused. -/
def update (req : Req) (noConn refused : Option Nat) : Begun → Req
  | .noConn => noConn.elim req req.resp2
  | .refused => refused.elim req req.resp2
  | .started => req.start .write

def stbSwitchUser (req : Req) (db : Begun) : Req := req.update (some 404) (some 404) db

/-- Also `stb_mark_add`. -/
def stbPlayhistoryAdd (req : Req) (db : Begun) : Req := req.update (some 404) none db

def stbMarkDelete (req : Req) (db : Begun) : Req := req.update none (some 404) db

/-- Also `phone_mark_add`. -/
def phonePlayhistoryAdd (req : Req) (db : Begun) : Req := req.update (some 404) none db

def phoneMarkDelete (req : Req) (db : Begun) : Req := req.update none (some 404) db

/-- `stb_ps_get` and `stb_mark_get`, where again the wrong connection is compared with NULL. -/
def stbPsGet (req : Req) (cms db : Begun) : Req :=
  match cms with
  | .noConn => req.fault
  | .refused => req
  | .started => req.query (.boxes .stb) db

def phonePlayhistoryGet (req : Req) : Begun → Req
  | .noConn => req
  | .refused => req.resp2 400
  | .started => req.query (.boxes .third) .started

def phoneMarkGet (req : Req) : Begun → Req
  | .noConn => req.resp2 400
  | .refused => req.resp2 400
  | .started => req.query (.boxes .third) .started

/-- `phone_screen`; `rns_atoi` reads the volume. -/
def phoneScreen (req : Req) (stb : Option Rbt.Str) (sinfo : Json) : Req :=
  match stb with
  | none => req.resp2 404
  | some _ =>
    if sinfo.NoVolume then req.fault else req.resp2 200

def stbBindphonelist (req : Req) (stb : Stb) : Req :=
  match stb.phones with
  | [] => req.resp2 401
  | _ => req.resp2 200

/-- `stb_screen` for a connection that is put in `stbs` if there is none for the box. -/
def stbScreen (req : Req) (stb : Stb) (there : Bool) : Req :=
  if stb.sinfo then req.resp2 200
  else if there && stb.timer then req
  else req.start (.poll (!there) (!stb.timer))

end Req

inductive Route
  | bindStb
  | unbindStb
  | screen
  | bindphonelist
  | stbScreen
  | saveInfo
  | sendInfo
  | switchuser
  | stbAdd
  | stbGet
  | stbMarkDelete
  | phoneAdd
  | phonePlayhistoryGet
  | phoneMarkGet
  | phoneMarkDelete
  | wrong

/-- The comparisons of `dispatch_cb`. -/
def route (uri : String) : Route :=
  if uri = "/phone/bindStb" then .bindStb
  else if uri = "/phone/unbindStb" then .unbindStb
  else if uri = "/phone/screen" ∨ uri = "/phone/control" then .screen
  else if uri = "/stb/bindphonelist" then .bindphonelist
  else if uri = "/stb/screen" ∨ uri = "/stb/getScreenInfo" then .stbScreen
  else if uri = "/stb/saveInfo" then .saveInfo
  else if uri = "/stb/sendInfo" then .sendInfo
  else if uri = "/stb/switchuser" then .switchuser
  else if uri = "/stb/playhistory/add" then .stbAdd
  else if uri = "/stb/playhistory/get" then .stbGet
  else if uri = "/stb/marks/get" then .stbGet
  else if uri = "/stb/marks/add" then .stbAdd
  else if uri = "/stb/marks/delete" then .stbMarkDelete
  else if uri = "/phone/playhistory/add" then .phoneAdd
  else if uri = "/third/playhistory/get" then .phonePlayhistoryGet
  else if uri = "/phone/marks/add" then .phoneAdd
  else if uri = "/third/marks/get" then .phoneMarkGet
  else if uri = "/phone/marks/delete" then .phoneMarkDelete
  else .wrong

/-- `/phone/bindStb` of either dispatcher: `phone_create` and `stb_create2` need the strings. -/
def bindStb (req : Req) (flag : Bool) (begins : Begins) (info : Info) : Req :=
  match info.body with
  | none => req.resp2 400
  | some body =>
    match body "stbid", body "phoneid" with
    | some stbid, some phoneid =>
      if stbid.valuestring = none ∨ phoneid.valuestring = none then req.fault
      else req.askFoss flag begins.foss
    | _, _ => req.resp2 400

/-- The phone of the body of a request. -/
def Server.phone (server : Server) (info : Info) : Option (Option Rbt.Str) :=
  (info.body.bind fun body => body "phoneid").bind fun phoneid => phoneid.valuestring.bind server.phoneroot

/-- `/phone/unbindStb` of either dispatcher. -/
def unbindStb (req : Req) (flag : Bool) (server : Server) (begins : Begins) (info : Info) : Req :=
  match server.phone info with
  | none => req.resp2 400
  | some stb => req.phoneUnbindStb flag begins.foss stb

/-- `/phone/screen` and `/phone/control`. -/
def screen (req : Req) (server : Server) (info : Info) : Req :=
  match info.body with
  | none => req.resp2 400
  | some body =>
    match server.phone info with
    | none => req.resp2 400
    | some stb => req.phoneScreen stb body

def bindphonelist (req : Req) (server : Server) (info : Info) : Req :=
  match (info.args "stbid").bind server.stbroot with
  | none => req.resp2 401
  | some stb => req.stbBindphonelist stb

/-- `/stb/screen` and `/stb/getScreenInfo`. -/
def stbScreen (req : Req) (server : Server) (info : Info) : Req :=
  match info.args "stbid" with
  | none => req.resp2 400
  | some stbid =>
    match server.stbroot stbid with
    | none => req.resp2 401
    | some stb => req.stbScreen stb (server.stbs stbid)

/-- The box of the body of a request. -/
def Server.named (server : Server) (info : Info) : Option Stb :=
  (info.body.bind fun body => body "stbid").bind fun stbid => stbid.valuestring.bind server.stbroot

def saveInfo (req : Req) (server : Server) (info : Info) : Req :=
  match info.body.bind fun body => body "volume" with
  | none => req.resp2 400
  | some _ => (server.named info).elim (req.resp2 400) fun _ => req.resp2 200

def sendInfo (req : Req) (server : Server) (info : Info) : Req :=
  (server.named info).elim (req.resp2 400) fun _ => req.resp2 200

/-- The user is only switched to the one that the box has. -/
def switchuser (req : Req) (server : Server) (begins : Begins) (info : Info) : Req :=
  match info.body.bind fun body => body "StbUserId" with
  | none => req.resp2 400
  | some stbuserid =>
    match server.named info with
    | none => req.resp2 400
    | some stb =>
      match stb.stbUserId with
      | none => req
      | some user =>
        match stbuserid.valuestring with
        | none => req.fault
        | some other => if other = user then req.stbSwitchUser begins.db else req

/-- `stb_playhistory_create`, and what is done with what it makes. -/
def stbPlayhistory (req : Req) (info : Info) (handle : Req → Req) : Req :=
  match info.body.bind fun body => body "stbid" with
  | none => req.resp2 400
  | some _ => handle req

/-- `phone_playhistory_create`, which reads the node `mobile` also where it is not found. -/
def phonePlayhistory (req : Req) (info : Info) (handle : Req → Req) : Req :=
  match info.body with
  | none => req.resp2 400
  | some body =>
    match body "mobile" with
    | none => req.fault
    | some _ => handle req

/-- The `StbUserId` of a request for a list. -/
def withUser (req : Req) (info : Info) (handle : Req → Req) : Req :=
  match info.args "StbUserId" with
  | none => req.resp2 400
  | some _ => handle req

def marksDelete (req : Req) (begins : Begins) (info : Info) : Req :=
  match info.args "phoneid", info.args "media_id" with
  | some _, some _ => req.phoneMarkDelete begins.db
  | _, _ => req.resp2 400

def dispatchCb (server : Server) (begins : Begins) (info : Info) : Req :=
  match route info.uri with
  | .bindStb => bindStb .create true begins info
  | .unbindStb => unbindStb .create true server begins info
  | .screen => screen .create server info
  | .bindphonelist => bindphonelist .create server info
  | .stbScreen => stbScreen .create server info
  | .saveInfo => saveInfo .create server info
  | .sendInfo => sendInfo .create server info
  | .switchuser => switchuser .create server begins info
  | .stbAdd => stbPlayhistory .create info fun req => req.stbPlayhistoryAdd begins.db
  | .stbGet => withUser .create info fun req => req.stbPsGet begins.cms begins.db
  | .stbMarkDelete => stbPlayhistory .create info fun req => req.stbMarkDelete begins.db
  | .phoneAdd => phonePlayhistory .create info fun req => req.phonePlayhistoryAdd begins.db
  | .phonePlayhistoryGet => withUser .create info fun req => req.phonePlayhistoryGet begins.db
  | .phoneMarkGet => withUser .create info fun req => req.phoneMarkGet begins.db
  | .phoneMarkDelete => marksDelete .create begins info
  | .wrong => Req.create.resp2 400

/-- The response that comes before anything is looked at, with those of the handlers. -/
def fossDispatchCb (server : Server) (begins : Begins) (info : Info) : Req :=
  let req := Req.create.resp2 200
  match route info.uri with
  | .bindStb => bindStb req false begins info
  | .unbindStb => unbindStb req false server begins info
  | _ => req.resp2 400

inductive Dispatcher
  | dispatchCb
  | fossDispatchCb

def Dispatcher.accept : Dispatcher → Server → Begins → Info → Req
  | .dispatchCb => Responses.dispatchCb
  | .fossDispatchCb => Responses.fossDispatchCb

/-- The requests that are answered once or wait for what answers them once. -/
def Route.Fine (server : Server) (begins : Begins) (info : Info) : Route → Prop
  | .bindStb => ∀ body stbid phoneid, info.body = some body → body "stbid" = some stbid →
    body "phoneid" = some phoneid → stbid.valuestring ≠ none ∧ phoneid.valuestring ≠ none ∧ begins.foss ≠ .noConn
  | .unbindStb => ∀ stb, server.phone info = some (some stb) → begins.foss ≠ .noConn
  | .screen => ∀ body stb, info.body = some body → server.phone info = some (some stb) → ¬body.NoVolume
  | .stbScreen => ∀ stbid, info.args "stbid" = some stbid → ∀ stb, server.stbroot stbid = some stb →
    stb.sinfo = true ∨ server.stbs stbid = false ∨ stb.timer = false
  | .switchuser => ∀ stbuserid, (info.body.bind fun body => body "StbUserId") = some stbuserid →
    ∀ stb, server.named info = some stb → ∃ user, stb.stbUserId = some user ∧ stbuserid.valuestring = some user
  | .stbAdd => ∀ stbid, (info.body.bind fun body => body "stbid") = some stbid → begins.db ≠ .refused
  | .stbGet => ∀ user, info.args "StbUserId" = some user → begins.cms = .started ∧ begins.db = .started
  | .stbMarkDelete => ∀ stbid, (info.body.bind fun body => body "stbid") = some stbid → begins.db ≠ .noConn
  | .phoneAdd => ∀ body, info.body = some body → body "mobile" ≠ none ∧ begins.db ≠ .refused
  | .phonePlayhistoryGet => ∀ user, info.args "StbUserId" = some user → begins.db ≠ .noConn
  | .phoneMarkDelete => ∀ phoneid, info.args "phoneid" = some phoneid →
    ∀ media, info.args "media_id" = some media → begins.db ≠ .noConn
  | _ => True

/-- The requests of the foss server after whose first response nothing is sent. -/
def Route.FossFine (server : Server) (begins : Begins) (info : Info) : Route → Prop
  | .bindStb => ∃ body stbid phoneid, info.body = some body ∧ body "stbid" = some stbid ∧
    body "phoneid" = some phoneid ∧ stbid.valuestring ≠ none ∧ phoneid.valuestring ≠ none ∧ begins.foss = .started
  | .unbindStb => ∃ stb, server.phone info = some (some stb) ∧ begins.foss = .started
  | _ => False

def Dispatcher.Fine (server : Server) (begins : Begins) (info : Info) : Dispatcher → Prop
  | .dispatchCb => (route info.uri).Fine server begins info
  | .fossDispatchCb => (route info.uri).FossFine server begins info

/-- Requests that are answered, or wait for what can answer them. -/
inductive Good : Req → Prop
  | answered (code : Nat) (number : UInt32) (ctx : Bool) : Good ⟨[code], [], number, ctx, false⟩
  | write (number : UInt32) (ctx : Bool) : Good ⟨[], [.write], number, ctx, false⟩
  | foss (flag : Bool) (number : UInt32) (ctx : Bool) :
      Good ⟨if flag then [] else [200], [.foss flag], number, ctx, false⟩
  | poll (held timed : Bool) (number : UInt32) (ctx : Bool) : Good ⟨[], [.poll held timed], number, ctx, false⟩
  | queries {jobs : List Job} (number : UInt32) (some : jobs ≠ []) (all : ∀ job ∈ jobs, job.IsQuery) :
      Good ⟨[], jobs, number, true, false⟩

/-- Requests that cannot come to one response any more. -/
inductive Doomed (req : Req) : Prop
  | broken (broken : req.broken = true)
  | twice (twice : 2 ≤ req.sent.length)
  | silent (sent : req.sent = []) (jobs : req.jobs = [])
  | freed (ctx : req.ctx = false) (some : req.jobs ≠ []) (all : ∀ job ∈ req.jobs, job.IsQuery)

/-- A condition decides between the two. -/
def Told (fine : Prop) (req : Req) : Prop := (fine → Good req) ∧ (¬fine → Doomed req)

section
variable {req : Req}

theorem Told.congr {fine other : Prop} (h : Told fine req) (hiff : fine ↔ other) : Told other req :=
  ⟨fun ho => h.1 (hiff.mpr ho), fun hn => h.2 fun hf => hn (hiff.mp hf)⟩

/-- Nothing that was sent is taken back, and nothing undefined is mended. -/
structure Grows (req later : Req) : Prop where
  sent : req.sent.length ≤ later.sent.length
  broken : req.broken = true → later.broken = true

theorem Grows.refl (req : Req) : Grows req req := ⟨le_refl _, id⟩

theorem Grows.trans {later last : Req} (h : Grows req later) (hl : Grows later last) : Grows req last :=
  ⟨h.sent.trans hl.sent, fun hb => hl.broken (h.broken hb)⟩

end

section
variable {server : Server} {begins : Begins} {info : Info}

end

end Yclib.Trs.Responses
