import Yclib.Util.RbtBalance
import Yclib.Util.Pool
import Mathlib.Logic.Function.Basic

namespace Yclib.Rtmp.StreamCreate
open Rbt

/-! `rns_rtmp_msg_stream_create`: what it leaves of the server where memory runs out, and what
is in the new stream where it does not. An address of zero is NULL. -/

def rtmpBlockSize : Nat := 524288

def rtmpBlockNum : Nat := 1000

/-- `RBT_TYPE_INT`. -/
def rbtTypeInt : Nat := 0

/-- `rns_rtmp_msg_stream_t` behind its two nodes. -/
structure MsgStream where
  name : Nat
  msgsNext : Nat
  msgsPrev : Nat
  blocksNode : Nat
  blocksType : Nat
  mp : Nat
  playersNext : Nat
  playersPrev : Nat
  rtmp : Nat
  videometa : Nat
  audiometa : Nat
  ctlmeta : Nat
  metadata : Nat
  type : Nat
  state : Nat
  netstreamid : Nat
  offset : Nat

/-- What `calloc` leaves there. -/
def MsgStream.zero : MsgStream := ⟨0, 0, 0, 0, 0, 0, 0, 0, 0, 0, 0, 0, 0, 0, 0, 0, 0⟩

/-- The address of `msgs` in the stream at `stream`, which has two nodes and `name` in front. -/
def msgsAt (stream : Nat) : Nat := stream + 72

def playersAt (stream : Nat) : Nat := stream + 112

/-- The `n` bytes of a value, the lowest first. -/
def le (n value : Nat) : List UInt8 := (List.range n).map fun i => UInt8.ofNat (value / 256 ^ i)

/-- The bytes from `&stream->name` to the end of the stream. -/
def MsgStream.image (stream : MsgStream) : List UInt8 :=
  le 8 stream.name ++ le 8 stream.msgsNext ++ le 8 stream.msgsPrev ++ le 8 stream.blocksNode ++
    -- the type of a tree is an `uint32_t` with four bytes behind it that nothing uses
    le 8 stream.blocksType ++ le 8 stream.mp ++ le 8 stream.playersNext ++ le 8 stream.playersPrev ++
    le 8 stream.rtmp ++ le 8 stream.videometa ++ le 8 stream.audiometa ++ le 8 stream.ctlmeta ++
    le 8 stream.metadata ++ le 4 stream.type ++ le 4 stream.state ++ le 8 stream.netstreamid ++
    le 8 stream.offset

/-- The streams of a `rns_rtmp_t`: `mstreams`, whose keys are NULL where there was no memory for
them, with the bytes of each stream from its `name` on and the strings that are allocated. -/
structure Server where
  mstreams : Tree (Option Str) Nat
  streams : Nat → Option (List UInt8)
  strings : Nat → Option Str

def Server.setStream (rtmp : Server) (stream : Nat) (image : List UInt8) : Server :=
  { rtmp with streams := Function.update rtmp.streams stream (some image) }

/-- `rns_free(stream)`. -/
def Server.free (rtmp : Server) (stream : Nat) : Server :=
  { rtmp with streams := Function.update rtmp.streams stream none }

/-- What the allocations return, in their order. -/
structure Memory where
  stream : Nat
  key : Nat
  name : Nat
  ptr : Nat

/-- `rns_strcmp` of two keys is below zero; what it says of NULL is not used. -/
def keyLess : Option Str → Option Str → Bool
  | some key, some other => strcmpLess key.bytes other.bytes
  | _, _ => false

def parentKey {κ : Type} : Parent κ Nat → κ
  | .left _ key _ _ => key
  | .right _ _ key _ => key

/-- The keys that `rbt_insert_str` compares with this one. -/
def compared (root : Tree (Option Str) Nat) (key : Option Str) : List (Option Str) :=
  (walk keyLess key root []).map parentKey

/-- `rbt_insert_str`, which reads both strings it compares. -/
def rbtInsert (root : Tree (Option Str) Nat) (key : Option Str) (stream : Nat) :
    Option (Tree (Option Str) Nat) :=
  if ∀ other ∈ compared root key, key ≠ none ∧ other ≠ none then insertBy keyLess root key stream
  else none

/-- `rns_strncpy(dst, src, rns_strlen(src))`, which writes all bytes of the string and no NUL. -/
def rnsStrncpy (dst : List UInt8) (src : Str) : Option (List UInt8) :=
  if src.bytes.length ≤ dst.length then some (src.bytes ++ dst.drop src.bytes.length) else none

/-- The arguments that `rns_mpool_init` turns down. -/
def MpoolRefuses (addr size blockSize : Nat) : Prop :=
  size < blockSize ∨ size < Pool.mpoolSize ∨ addr = 0 ∨ size % blockSize ≠ 0

instance (addr size blockSize : Nat) : Decidable (MpoolRefuses addr size blockSize) := by
  unfold MpoolRefuses
  infer_instance

/-- `rns_rtmp_msg_stream_create` with the stream it returns. There is no result where it uses
memory that is not its own. -/
def rnsRtmpMsgStreamCreate (rtmp : Server) (name : Str) (memory : Memory) : Option (Server × Nat) :=
  if memory.stream = 0 then some (rtmp, 0)
  else
    let stream := { MsgStream.zero with
      msgsNext := msgsAt memory.stream
      msgsPrev := msgsAt memory.stream
      playersNext := playersAt memory.stream
      playersPrev := playersAt memory.stream
      blocksType := rbtTypeInt
      blocksNode := 0 }
    -- `rbt_set_key_str` leaves the key as it is where it cannot copy the name
    let key := if memory.key = 0 then none else some name
    (rbtInsert rtmp.mstreams key memory.stream).bind fun mstreams =>
      let rtmp := { rtmp with mstreams := mstreams }
      let stream := { stream with name := memory.name }
      let rtmp := rtmp.setStream memory.stream stream.image
      if memory.name = 0 then some (rtmp.free memory.stream, 0)
      else
        let rtmp := { rtmp with strings := Function.update rtmp.strings memory.name (some name) }
        if memory.ptr = 0 then some (rtmp.free memory.stream, 0)
        else if MpoolRefuses memory.ptr (rtmpBlockSize * rtmpBlockNum) rtmpBlockSize then
          some (rtmp.free memory.stream, 0)
        else
          let stream := { stream with mp := memory.ptr }
          -- the name is written once more, over the pointer to it
          (rnsStrncpy stream.image name).map fun image =>
            (rtmp.setStream memory.stream image, memory.stream)

/-- The stream as it is set up: its lists and its tree are empty, its pool and its name are
those made for it, and the rest is zero. -/
def initial (memory : Memory) : MsgStream :=
  { MsgStream.zero with
    name := memory.name
    msgsNext := msgsAt memory.stream
    msgsPrev := msgsAt memory.stream
    blocksType := rbtTypeInt
    mp := memory.ptr
    playersNext := playersAt memory.stream
    playersPrev := playersAt memory.stream }

/-- The tree holds one new entry, under the name, and the stream it refers to is set up. -/
structure Created (rtmp rtmp' : Server) (name : Str) (memory : Memory) : Prop where
  sound : Sound rtmp'.mstreams
  entries : rtmp'.mstreams.toList.Perm ((some name, memory.stream) :: rtmp.mstreams.toList)
  named : rtmp'.strings memory.name = some name
  stream : rtmp'.streams memory.stream = some (initial memory).image
  others : ∀ other, other ≠ memory.stream → rtmp'.streams other = rtmp.streams other

/-- The tree is as it was, and so is what its entries refer to. -/
structure Kept (rtmp rtmp' : Server) : Prop where
  tree : rtmp'.mstreams = rtmp.mstreams
  streams : ∀ entry ∈ rtmp.mstreams.toList, rtmp'.streams entry.2 = rtmp.streams entry.2

/-- What creation comes to if it is atomic. -/
inductive Atomic (rtmp : Server) (name : Str) (memory : Memory) : Option (Server × Nat) → Prop
  | fails {rtmp' : Server} (h : Kept rtmp rtmp') : Atomic rtmp name memory (some (rtmp', 0))
  | creates {rtmp' : Server} (hs : memory.stream ≠ 0) (h : Created rtmp rtmp' name memory) :
    Atomic rtmp name memory (some (rtmp', memory.stream))

/-- Memory does not run out once there is a stream, no key on the way to its place is NULL, and
the bytes of the name are already those of the pointer to it and of what is behind. -/
structure Enough (rtmp : Server) (name : Str) (memory : Memory) : Prop where
  copied : memory.key ≠ 0
  named : memory.name ≠ 0
  pooled : memory.ptr ≠ 0
  keyed : ∀ other ∈ compared rtmp.mstreams (some name), other ≠ none
  bytes : name.bytes <+: (initial memory).image

section
variable {rtmp : Server} {name : Str} {memory : Memory}

theorem strncpy_same {dst : List UInt8} {src : Str} :
    rnsStrncpy dst src = some dst ↔ src.bytes <+: dst := by
  unfold rnsStrncpy
  constructor
  · intro h
    split at h
    · injection h with h
      exact ⟨_, h⟩
    · cases h
  · rintro ⟨rest, h⟩
    rw [if_pos (by rw [← h]; simp), ← h]
    simp

/-- The pool is made wherever there is memory for it. -/
theorem refuses_iff (addr : Nat) :
    MpoolRefuses addr (rtmpBlockSize * rtmpBlockNum) rtmpBlockSize ↔ addr = 0 := by
  simp [MpoolRefuses, rtmpBlockSize, rtmpBlockNum, Pool.mpoolSize]

theorem insert_iff {root tree : Tree (Option Str) Nat} {key : Option Str} {stream : Nat} :
    rbtInsert root key stream = some tree ↔
      (∀ other ∈ compared root key, key ≠ none ∧ other ≠ none) ∧
        insertBy keyLess root key stream = some tree := by
  unfold rbtInsert
  split
  · next h => exact ⟨fun hi => ⟨h, hi⟩, fun hi => hi.2⟩
  · next h => exact ⟨fun hi => (nomatch hi), fun hi => absurd hi.1 h⟩

/-- The server with the new entry, the copy of the name and the bytes of the stream. -/
def made (rtmp : Server) (tree : Tree (Option Str) Nat) (name : Str) (memory : Memory)
    (image : List UInt8) : Server where
  mstreams := tree
  streams := Function.update rtmp.streams memory.stream (some image)
  strings := Function.update rtmp.strings memory.name (some name)

/-- The key of the new node. -/
def keyOf (name : Str) (memory : Memory) : Option Str :=
  if memory.key = 0 then none else some name

theorem create_crashes (hs : memory.stream ≠ 0)
    (hi : rbtInsert rtmp.mstreams (keyOf name memory) memory.stream = none) :
    rnsRtmpMsgStreamCreate rtmp name memory = none := by
  rw [keyOf] at hi
  simp only [rnsRtmpMsgStreamCreate, if_neg hs, hi, Option.bind_none]

/-- Where the name or the pool cannot be allocated, the node stays in the tree. -/
theorem create_fails {tree : Tree (Option Str) Nat} (hs : memory.stream ≠ 0)
    (hi : rbtInsert rtmp.mstreams (keyOf name memory) memory.stream = some tree)
    (hm : memory.name = 0 ∨ memory.ptr = 0) :
    ∃ rtmp', rnsRtmpMsgStreamCreate rtmp name memory = some (rtmp', 0) ∧ rtmp'.mstreams = tree := by
  rw [keyOf] at hi
  simp only [rnsRtmpMsgStreamCreate, if_neg hs, hi, Option.bind_some]
  by_cases hn : memory.name = 0
  · rw [if_pos hn]
    exact ⟨_, rfl, rfl⟩
  · have hp : memory.ptr = 0 := hm.resolve_left hn
    rw [if_neg hn, if_pos hp]
    exact ⟨_, rfl, rfl⟩

theorem create_writes {tree : Tree (Option Str) Nat} (hs : memory.stream ≠ 0)
    (hi : rbtInsert rtmp.mstreams (keyOf name memory) memory.stream = some tree)
    (hn : memory.name ≠ 0) (hp : memory.ptr ≠ 0) :
    rnsRtmpMsgStreamCreate rtmp name memory =
      (rnsStrncpy (initial memory).image name).map fun image =>
        (made rtmp tree name memory image, memory.stream) := by
  have hrefuses : ¬ MpoolRefuses memory.ptr (rtmpBlockSize * rtmpBlockNum) rtmpBlockSize := by
    rw [refuses_iff]
    exact hp
  rw [keyOf] at hi
  simp only [rnsRtmpMsgStreamCreate, if_neg hs, hi, Option.bind_some, if_neg hn, if_neg hp,
    if_neg hrefuses, Server.setStream, Function.update_idem]
  rfl

/-- An entry that is in the tree to stay is not a failure that leaves the tree as it was. -/
theorem kept_not_inserted {rtmp' : Server} {tree : Tree (Option Str) Nat} {key : Option Str}
    {stream : Nat} (hk : Kept rtmp rtmp') (hi : rbtInsert rtmp.mstreams key stream = some tree)
    (htree : rtmp'.mstreams = tree) : False := by
  have hperm := insert_perm (insert_iff.mp hi).2
  rw [← htree, hk.tree] at hperm
  have hlength := hperm.length_eq
  rw [List.length_cons] at hlength
  omega

theorem created_made {tree : Tree (Option Str) Nat} (hsound : Sound rtmp.mstreams)
    (hi : rbtInsert rtmp.mstreams (some name) memory.stream = some tree) :
    Created rtmp (made rtmp tree name memory (initial memory).image) name memory := by
  have hinsert := (insert_iff.mp hi).2
  obtain ⟨root, hroot, hbalanced⟩ := insert_sound keyLess hsound (some name) memory.stream
  rw [hinsert] at hroot
  cases hroot
  refine ⟨hbalanced, insert_perm hinsert, ?_, ?_, ?_⟩
  · exact Function.update_self ..
  · exact Function.update_self ..
  · intro other hne
    exact Function.update_of_ne hne ..

/-- A key that could not be copied is not the name. -/
theorem created_keyed {rtmp' : Server} {tree : Tree (Option Str) Nat}
    (hc : Created rtmp rtmp' name memory) (htree : rtmp'.mstreams = tree)
    (hi : rbtInsert rtmp.mstreams (keyOf name memory) memory.stream = some tree) :
    memory.key ≠ 0 := by
  intro hkey
  have hperm := insert_perm (insert_iff.mp hi).2
  rw [keyOf, if_pos hkey, ← htree] at hperm
  have hcons := hperm.symm.trans hc.entries
  have hcount := hcons.count_eq (some name, memory.stream)
  simp at hcount

theorem enough_of_atomic (hs : memory.stream ≠ 0)
    (ha : Atomic rtmp name memory (rnsRtmpMsgStreamCreate rtmp name memory)) :
    Enough rtmp name memory := by
  cases hi : rbtInsert rtmp.mstreams (keyOf name memory) memory.stream with
  | none =>
    rw [create_crashes hs hi] at ha
    cases ha
  | some tree =>
    by_cases hm : memory.name = 0 ∨ memory.ptr = 0
    · obtain ⟨rtmp', hfails, htree⟩ := create_fails hs hi hm
      rw [hfails] at ha
      generalize hr : (0 : Nat) = r at ha
      cases ha with
      | fails hk => exact (kept_not_inserted hk hi htree).elim
      | creates hne => exact absurd hr.symm hne
    · obtain ⟨hn, hp⟩ := not_or.mp hm
      rw [create_writes hs hi hn hp] at ha
      cases hcopy : rnsStrncpy (initial memory).image name with
      | none =>
        rw [hcopy] at ha
        cases ha
      | some image =>
        rw [hcopy] at ha
        generalize hr : (made rtmp tree name memory image, memory.stream) = r at ha
        rw [Option.map_some, hr] at ha
        cases ha with
        | fails hk => exact absurd (congrArg Prod.snd hr) hs
        | creates _ hc =>
          obtain ⟨rfl, -⟩ := Prod.mk.inj hr
          have hkey := created_keyed hc rfl hi
          have hstream := hc.stream
          simp only [made, Function.update_self, Option.some.injEq] at hstream
          rw [hstream] at hcopy
          rw [keyOf, if_neg hkey] at hi
          have hkeyed := (insert_iff.mp hi).1
          exact ⟨hkey, hn, hp, fun other hother => (hkeyed other hother).2, strncpy_same.mp hcopy⟩

theorem atomic_of_enough (hsound : Sound rtmp.mstreams) (hs : memory.stream ≠ 0)
    (h : Enough rtmp name memory) :
    Atomic rtmp name memory (rnsRtmpMsgStreamCreate rtmp name memory) := by
  obtain ⟨hkey, hn, hp, hkeyed, hbytes⟩ := h
  obtain ⟨tree, htree, -⟩ := insert_sound keyLess hsound (some name) memory.stream
  have hi : rbtInsert rtmp.mstreams (some name) memory.stream = some tree :=
    insert_iff.mpr ⟨fun other hother => ⟨Option.some_ne_none _, hkeyed other hother⟩, htree⟩
  have hi' : rbtInsert rtmp.mstreams (keyOf name memory) memory.stream = some tree := by
    rw [keyOf, if_neg hkey]
    exact hi
  rw [create_writes hs hi' hn hp, strncpy_same.mpr hbytes]
  exact .creates hs (created_made hsound hi)

/-- Creation is atomic exactly where there is no memory for the stream, or enough for
everything and the name that is written over the stream changes nothing there. -/
theorem create_atomic_iff (hsound : Sound rtmp.mstreams) :
    Atomic rtmp name memory (rnsRtmpMsgStreamCreate rtmp name memory) ↔
      memory.stream = 0 ∨ Enough rtmp name memory := by
  by_cases hs : memory.stream = 0
  · have hnull : rnsRtmpMsgStreamCreate rtmp name memory = some (rtmp, 0) := by
      simp only [rnsRtmpMsgStreamCreate, if_pos hs]
    rw [hnull]
    exact ⟨fun _ => .inl hs, fun _ => .fails ⟨rfl, fun _ _ => rfl⟩⟩
  · constructor
    · intro ha
      exact .inr (enough_of_atomic hs ha)
    · intro h
      exact atomic_of_enough hsound hs (h.resolve_left hs)

end

/-- A server without streams. -/
def started : Server where
  mstreams := .null
  streams := fun _ => none
  strings := fun _ => none

def plenty : Memory := ⟨4096, 8192, 12288, 16384⟩

theorem create_atomic_iff_unnamed :
    Atomic started ⟨[]⟩ plenty (rnsRtmpMsgStreamCreate started ⟨[]⟩ plenty) :=
  (@create_atomic_iff started ⟨[]⟩ plenty ⟨0, .null⟩).mpr
    (.inr ⟨by decide, by decide, by decide, by decide, List.nil_prefix⟩)

/-- The stream `live` is created with its name for the pointer to it, and if there is no memory
for the name, the tree holds the stream that is freed. -/
theorem live_not_atomic :
    ¬ Atomic started ⟨[0x6C, 0x69, 0x76, 0x65]⟩ plenty
        (rnsRtmpMsgStreamCreate started ⟨[0x6C, 0x69, 0x76, 0x65]⟩ plenty) ∧
      ¬ Atomic started ⟨[0x6C, 0x69, 0x76, 0x65]⟩ { plenty with name := 0 }
        (rnsRtmpMsgStreamCreate started ⟨[0x6C, 0x69, 0x76, 0x65]⟩ { plenty with name := 0 }) := by
  constructor
  · intro ha
    exact absurd (enough_of_atomic (by decide) ha).bytes (by decide)
  · intro ha
    exact (enough_of_atomic (by decide) ha).named rfl

end Yclib.Rtmp.StreamCreate
