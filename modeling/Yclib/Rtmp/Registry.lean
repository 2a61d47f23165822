import Yclib.Util.Network

namespace Yclib.Rtmp.Registry

/-! The streams a server knows: the counter of `createStream`, and the two trees that
`publish` and `deleteStream` keep. -/

/-- The nodes of a tree with their keys and the streams they are part of, in no
particular order. -/
abbrev Rbt (κ : Type) := List (κ × Nat)

section
variable {κ : Type}

/-- `rbt_insert`, which goes past equal keys. -/
def rbtInsert (tree : Rbt κ) (key : κ) (stream : Nat) : Rbt κ := (key, stream) :: tree

/-- `rbt_delete` of the node that is part of the stream. -/
def rbtDelete (tree : Rbt κ) (stream : Nat) : Rbt κ := tree.filter (·.2 ≠ stream)

/-- What `rbt_search_int` and `rbt_search_str` may find: a node with the key, whichever the
shape of the tree brings them to, and NULL only if there is none. -/
def Finds (tree : Rbt κ) (key : κ) : Option Nat → Prop
  | none => ∀ stream, (key, stream) ∉ tree
  | some stream => (key, stream) ∈ tree

def streams (tree : Rbt κ) : List Nat := tree.map Prod.snd

end

/-- `rns_rtmp_t`; `made` counts the streams made so far and names the next one. -/
structure Server where
  sindex : Nat
  mstreams : Rbt (List UInt8)
  nstreams : Rbt Nat
  made : Nat

/-- `rns_rtmpserver_create`. -/
def Server.create : Server := ⟨0, [], [], 0⟩

/-- How far memory goes in `rns_rtmp_msg_stream_create`. -/
inductive Memory
  | noStream
  | noName
  | enough

/-- `rns_rtmp_msg_stream_create`. The node is in the tree before the name and the pool are
allocated, and stays there when the stream is freed again. -/
def rnsRtmpMsgStreamCreate (rtmp : Server) (name : List UInt8) : Memory → Server × Option Nat
  | .noStream => (rtmp, none)
  | .noName =>
    ({ rtmp with mstreams := rbtInsert rtmp.mstreams name rtmp.made, made := rtmp.made + 1 }, none)
  | .enough =>
    ({ rtmp with mstreams := rbtInsert rtmp.mstreams name rtmp.made, made := rtmp.made + 1 },
      some rtmp.made)

/-- `rtmp_command_publish` on the message stream `streamid`, with what it finds under the
name. If that is a stream, it goes on with the node of the chunk stream in place of the
one it has found: there is no result. -/
def rtmpCommandPublish (rtmp : Server) (name : List UInt8) (streamid : Nat) (memory : Memory) :
    Option Nat → Option Server
  | some _ => none
  | none =>
    match rnsRtmpMsgStreamCreate rtmp name memory with
    | (rtmp, none) => some rtmp
    | (rtmp, some stream) =>
      some { rtmp with nstreams := rbtInsert rtmp.nstreams streamid stream }

/-- `rtmp_command_createStream`: the server and the id it hands out. -/
def rtmpCommandCreateStream (rtmp : Server) : Server × Nat :=
  let sindex := u32 (rtmp.sindex + 1)
  ({ rtmp with sindex := sindex }, sindex)

/-- `rtmp_command_deleteStream`, with what it finds under the id. The counter goes down in
either case. -/
def rtmpCommandDeleteStream (rtmp : Server) (found : Option Nat) : Server :=
  let rtmp := match found with
    | none => rtmp
    | some stream => { rtmp with
        nstreams := rbtDelete rtmp.nstreams stream
        mstreams := rbtDelete rtmp.mstreams stream }
  { rtmp with sindex := u32Sub rtmp.sindex 1 }

/-- The commands of all clients that act on the registries. -/
inductive Command
  | createStream
  | publish (name : List UInt8) (streamid : Nat) (memory : Memory)
  | deleteStream (streamid : Nat)

/-- What comes of a command: the server, or nothing if it does not come back. -/
inductive Served (rtmp : Server) : Command → Option Server → Prop
  | createStream : Served rtmp .createStream (some (rtmpCommandCreateStream rtmp).1)
  | publish {name : List UInt8} {streamid : Nat} {memory : Memory} {found : Option Nat}
      (h : Finds rtmp.mstreams name found) :
      Served rtmp (.publish name streamid memory) (rtmpCommandPublish rtmp name streamid memory found)
  | deleteStream {streamid : Nat} {found : Option Nat} (h : Finds rtmp.nstreams streamid found) :
      Served rtmp (.deleteStream streamid) (some (rtmpCommandDeleteStream rtmp found))

/-- The ids handed out and not deleted since, after one more command. -/
def held (rtmp : Server) (ids : List Nat) : Command → List Nat
  | .createStream => (rtmpCommandCreateStream rtmp).2 :: ids
  | .publish .. => ids
  | .deleteStream streamid => ids.filter (· ≠ streamid)

/-- What is reached by commands that all meet `P`, and the ids that are held then. -/
inductive Reach (P : Server → List Nat → Command → Prop) : Option Server → List Nat → Prop
  | start : Reach P (some Server.create) []
  | step {rtmp : Server} {ids : List Nat} {command : Command} {result : Option Server}
      (hr : Reach P (some rtmp) ids) (hp : P rtmp ids command) (hs : Served rtmp command result) :
      Reach P result (held rtmp ids command)

/-- The two trees index the same streams, each once. -/
structure Agree (rtmp : Server) : Prop where
  once : (streams rtmp.mstreams).Nodup
  same : (streams rtmp.mstreams).Perm (streams rtmp.nstreams)

/-- The stream registered under the name is the one of the message stream. -/
def Published (rtmp : Server) (name : List UInt8) (streamid : Nat) : Prop :=
  ∃ stream, (name, stream) ∈ rtmp.mstreams ∧ (streamid, stream) ∈ rtmp.nstreams

/-- No name is published that is registered, and memory goes out before a stream is in the
tree or not at all. -/
def Orderly (rtmp : Server) (_ : List Nat) : Command → Prop
  | .publish name _ memory => (∀ stream, (name, stream) ∉ rtmp.mstreams) ∧ memory ≠ .noName
  | _ => True

section
variable {κ : Type}

theorem streams_delete (tree : Rbt κ) (stream : Nat) :
    streams (rbtDelete tree stream) = (streams tree).filter (· ≠ stream) := by
  simp [streams, rbtDelete, List.filter_map, Function.comp_def]

theorem streams_insert (tree : Rbt κ) (key : κ) (stream : Nat) :
    streams (rbtInsert tree key stream) = stream :: streams tree := rfl

end

/-- The streams in the trees are among those made. -/
structure Inv (rtmp : Server) : Prop where
  agree : Agree rtmp
  made : ∀ stream ∈ streams rtmp.mstreams, stream < rtmp.made

theorem publish_inv {rtmp : Server} (hinv : Inv rtmp) (name : List UInt8) (streamid : Nat) :
    Inv { rtmp with
      mstreams := rbtInsert rtmp.mstreams name rtmp.made
      nstreams := rbtInsert rtmp.nstreams streamid rtmp.made
      made := rtmp.made + 1 } := by
  obtain ⟨⟨honce, hsame⟩, hmade⟩ := hinv
  have hnew : rtmp.made ∉ streams rtmp.mstreams := fun hm => lt_irrefl _ (hmade _ hm)
  refine ⟨⟨?_, ?_⟩, ?_⟩
  · rw [streams_insert]
    exact List.nodup_cons.mpr ⟨hnew, honce⟩
  · rw [streams_insert, streams_insert]
    exact hsame.cons _
  · intro stream hm
    rw [streams_insert] at hm
    rcases List.mem_cons.mp hm with rfl | hm
    · exact Nat.lt_succ_self _
    · exact Nat.lt_succ_of_lt (hmade stream hm)

section
variable (rtmp : Server) (found : Option Nat)

theorem delete_mstreams : (rtmpCommandDeleteStream rtmp found).mstreams =
    found.elim rtmp.mstreams (rbtDelete rtmp.mstreams) := by
  unfold rtmpCommandDeleteStream
  cases found <;> rfl

theorem delete_nstreams : (rtmpCommandDeleteStream rtmp found).nstreams =
    found.elim rtmp.nstreams (rbtDelete rtmp.nstreams) := by
  unfold rtmpCommandDeleteStream
  cases found <;> rfl

theorem delete_made : (rtmpCommandDeleteStream rtmp found).made = rtmp.made := by
  unfold rtmpCommandDeleteStream
  cases found <;> rfl

theorem delete_sindex : (rtmpCommandDeleteStream rtmp found).sindex = u32Sub rtmp.sindex 1 := by
  unfold rtmpCommandDeleteStream
  cases found <;> rfl

end

theorem delete_inv {rtmp : Server} (hinv : Inv rtmp) (found : Option Nat) :
    Inv (rtmpCommandDeleteStream rtmp found) := by
  obtain ⟨⟨honce, hsame⟩, hmade⟩ := hinv
  refine ⟨⟨?_, ?_⟩, ?_⟩
  · rw [delete_mstreams]
    cases found with
    | none => exact honce
    | some stream =>
      rw [Option.elim_some, streams_delete]
      exact honce.filter _
  · rw [delete_mstreams, delete_nstreams]
    cases found with
    | none => exact hsame
    | some stream =>
      rw [Option.elim_some, Option.elim_some, streams_delete, streams_delete]
      exact hsame.filter _
  · rw [delete_mstreams, delete_made]
    cases found with
    | none => exact hmade
    | some stream =>
      rw [Option.elim_some, streams_delete]
      exact fun other hm => hmade other (List.mem_filter.mp hm).1

theorem create_inv {rtmp : Server} (hinv : Inv rtmp) : Inv (rtmpCommandCreateStream rtmp).1 := by
  unfold rtmpCommandCreateStream
  exact ⟨⟨hinv.agree.once, hinv.agree.same⟩, hinv.made⟩

/-- Every command that is in order comes back, and a stream it publishes is in both trees. -/
theorem served_inv {rtmp : Server} {ids : List Nat} {command : Command} {result : Option Server}
    (hinv : Inv rtmp) (hp : Orderly rtmp ids command) (hs : Served rtmp command result) :
    ∃ rtmp', result = some rtmp' ∧ Inv rtmp' ∧ ∀ name streamid,
      command = .publish name streamid .enough → Published rtmp' name streamid := by
  cases hs with
  | createStream => exact ⟨_, rfl, create_inv hinv, by simp⟩
  | deleteStream h => exact ⟨_, rfl, delete_inv hinv _, by simp⟩
  | @publish name streamid memory found h =>
    obtain ⟨hfree, hmem⟩ := hp
    cases found with
    | some stream => exact absurd h (hfree stream)
    | none =>
      cases memory with
      | noStream => exact ⟨_, rfl, hinv, by simp⟩
      | noName => exact absurd rfl hmem
      | enough =>
        refine ⟨_, rfl, publish_inv hinv name streamid, ?_⟩
        rintro name' streamid' heq
        cases heq
        exact ⟨rtmp.made, List.mem_cons_self, List.mem_cons_self⟩

theorem reach_inv {result : Option Server} {ids : List Nat} (hr : Reach Orderly result ids) :
    ∃ rtmp, result = some rtmp ∧ Inv rtmp := by
  generalize hP : Orderly = P at hr
  induction hr with
  | start => exact ⟨_, rfl, ⟨List.nodup_nil, List.Perm.nil⟩, fun _ hm => nomatch hm⟩
  | step _ hp hs ih =>
    subst hP
    obtain ⟨rtmp, heq, hinv⟩ := ih
    cases heq
    obtain ⟨rtmp', hresult, hinv', -⟩ := served_inv hinv hp hs
    exact ⟨rtmp', hresult, hinv'⟩

/-- Only the last id is deleted while it is held, and the counter wraps around with no id
held. -/
def Stacked (rtmp : Server) (ids : List Nat) : Command → Prop
  | .createStream => rtmp.sindex ≠ 2 ^ 32 - 1 ∨ ids = []
  | .publish .. => True
  | .deleteStream streamid => streamid = rtmp.sindex ∨ rtmp.sindex ∉ ids

/-- The ids held are not above the counter. -/
structure Below (rtmp : Server) (ids : List Nat) : Prop where
  width : rtmp.sindex < 2 ^ 32
  below : ∀ id ∈ ids, id ≤ rtmp.sindex

/-- The id that is handed out is above the ids held, unless there is none. -/
theorem create_above {rtmp : Server} {ids : List Nat} (hb : Below rtmp ids)
    (hp : Stacked rtmp ids .createStream) : ids = [] ∨
      (rtmpCommandCreateStream rtmp).2 = rtmp.sindex + 1 := by
  rcases hp with hp | hp
  · have := hb.width
    exact .inr (u32_of_lt (by omega))
  · exact .inl hp

theorem publish_sindex {rtmp rtmp' : Server} {name : List UInt8} {streamid : Nat} {memory : Memory}
    {found : Option Nat} (h : rtmpCommandPublish rtmp name streamid memory found = some rtmp') :
    rtmp'.sindex = rtmp.sindex := by
  cases found with
  | some _ => cases h
  | none => cases memory <;> cases h <;> rfl

theorem served_below {rtmp rtmp' : Server} {ids : List Nat} {command : Command}
    (hb : Below rtmp ids) (hp : Stacked rtmp ids command) (hs : Served rtmp command (some rtmp')) :
    Below rtmp' (held rtmp ids command) := by
  obtain ⟨hwidth, hbelow⟩ := hb
  generalize hresult : some rtmp' = result at hs
  cases hs with
  | createStream =>
    obtain rfl := Option.some.inj hresult
    refine ⟨Nat.mod_lt _ (by omega), fun id hm => ?_⟩
    rcases List.mem_cons.mp hm with rfl | hm
    · exact Nat.le_refl _
    · rcases create_above ⟨hwidth, hbelow⟩ hp with rfl | hnew
      · cases hm
      · have hle := hbelow id hm
        rw [show (rtmpCommandCreateStream rtmp).1.sindex = _ from hnew]
        omega
  | publish h =>
    have hsame := publish_sindex hresult.symm
    exact ⟨hsame ▸ hwidth, hsame ▸ hbelow⟩
  | @deleteStream streamid found h =>
    obtain rfl := Option.some.inj hresult
    rw [held]
    constructor
    · rw [delete_sindex]
      exact Nat.mod_lt _ (by omega)
    · intro id hm
      obtain ⟨hm, hne⟩ := List.mem_filter.mp hm
      have hle := hbelow id hm
      have hlast : id ≠ rtmp.sindex := by
        rintro rfl
        rcases hp with hp | hp
        · simp [hp] at hne
        · exact hp hm
      rw [delete_sindex]
      unfold u32Sub
      omega

theorem reach_below {result : Option Server} {ids : List Nat} (hr : Reach Stacked result ids) :
    ∀ rtmp, result = some rtmp → Below rtmp ids := by
  generalize hP : Stacked = P at hr
  induction hr with
  | start =>
    rintro rtmp heq
    cases heq
    refine ⟨?_, ?_⟩
    · simp only [Server.create]
      omega
    · simp
  | step _ hp hs ih =>
    subst hP
    rintro rtmp' rfl
    exact served_below (ih _ rfl) hp hs

/-- After commands that delete the last id only, `createStream` hands out no id that is
held. -/
theorem stream_id_fresh {rtmp : Server} {ids : List Nat} (hr : Reach Stacked (some rtmp) ids)
    (hp : Stacked rtmp ids .createStream) : (rtmpCommandCreateStream rtmp).2 ∉ ids := by
  have hb := reach_below hr rtmp rfl
  rcases create_above hb hp with rfl | hnew
  · exact List.not_mem_nil
  · intro hm
    have hle := hb.below _ hm
    omega

theorem create_at (n : Nat) (hn : n + 1 < 2 ^ 32) :
    rtmpCommandCreateStream { Server.create with sindex := n } =
      ({ Server.create with sindex := n + 1 }, n + 1) := by
  simp only [rtmpCommandCreateStream, u32_of_lt hn]

theorem delete_at (n : Nat) (hn : n + 1 < 2 ^ 32) :
    rtmpCommandDeleteStream { Server.create with sindex := n + 1 } none =
      { Server.create with sindex := n } := by
  simp only [rtmpCommandDeleteStream, u32_sub_of_le (Nat.le_add_left 1 n) hn, Nat.add_sub_cancel]

theorem created_at {P : Server → List Nat → Command → Prop} {n : Nat} {ids : List Nat}
    (hr : Reach P (some { Server.create with sindex := n }) ids) (hn : n + 1 < 2 ^ 32)
    (hp : P { Server.create with sindex := n } ids .createStream) :
    Reach P (some { Server.create with sindex := n + 1 }) ((n + 1) :: ids) := by
  have hstep := hr.step hp .createStream
  simpa only [held, create_at n hn] using hstep

theorem stream_id_fresh_second :
    (rtmpCommandCreateStream { Server.create with sindex := 1 }).2 ∉ [1] :=
  stream_id_fresh (created_at .start (by omega) (.inr rfl)) (.inl (by simp))

/-- The id of a stream deleted out of turn brings back the one above it. -/
theorem stream_id_twice : ¬ ∀ (rtmp : Server) (ids : List Nat),
    Reach (fun _ _ _ => True) (some rtmp) ids → (rtmpCommandCreateStream rtmp).2 ∉ ids := by
  intro hall
  have htwo : Reach (fun _ _ _ => True) (some { Server.create with sindex := 2 }) [2, 1] :=
    created_at (created_at .start (by omega) trivial) (by omega) trivial
  have hdeleted := htwo.step trivial (@Served.deleteStream _ 1 none (fun _ hm => nomatch hm))
  rw [delete_at 1 (by omega)] at hdeleted
  have hfresh := hall _ _ hdeleted
  rw [create_at 1 (by omega)] at hfresh
  exact hfresh List.mem_cons_self

end Yclib.Rtmp.Registry
