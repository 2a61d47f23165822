import Yclib.Feed.Halts
import Yclib.Rtmp.Ready

namespace Yclib.Rtmp
open Network

variable {ω : Type}

/-- All of the client's reply is there, and its first four bytes are not those of `CS1`. -/
def Refused (CS1 xs : List UInt8) : Prop := 1536 ≤ xs.length ∧ xs.take 4 ≠ CS1.take 4

/-- The first four bytes are those of `CS1`, and the bytes behind the first eight are not. -/
def Skipped (CS1 xs : List UInt8) : Prop :=
  xs.take 4 = CS1.take 4 ∧ (xs.drop 8).take 1528 ≠ CS1.drop 8

/-- The reply does not match, and of the bytes at every eighth position the first that are not skipped
are refused. -/
def Mismatched (CS1 xs : List UInt8) : Prop :=
  ∃ k, Refused CS1 (xs.drop (8 * k)) ∧ ∀ j < k, Skipped CS1 (xs.drop (8 * j))

/-- How many bytes there are in front of the reply that the parser waits for. -/
def ConnState.beforeReply : ConnState → Option Nat
  | .handshakeC0 => some 1537
  | .handshakeC1 => some 1536
  | .handshakeC2 => some 0
  | _ => none

/-- The piece has a reply in it that does not match. -/
def MismatchedReply (rconn : Conn ω) (xs : List UInt8) : Prop :=
  ∃ n, rconn.state.beforeReply = some n ∧ Mismatched rconn.CS1 (xs.drop n)

theorem before_reply {state : ConnState} {n : Nat} (h : state.beforeReply = some n) :
    state = .handshakeC0 ∧ n = 1537 ∨ state = .handshakeC1 ∧ n = 1536 ∨ state = .handshakeC2 ∧ n = 0 := by
  cases state with
  | handshakeC0 => exact .inl ⟨rfl, (Option.some.inj h).symm⟩
  | handshakeC1 => exact .inr (.inl ⟨rfl, (Option.some.inj h).symm⟩)
  | handshakeC2 => exact .inr (.inr ⟨rfl, (Option.some.inj h).symm⟩)
  | _ => cases h

theorem mismatched_length {CS1 xs : List UInt8} (h : Mismatched CS1 xs) : 1536 ≤ xs.length := by
  obtain ⟨k, ⟨hlen, -⟩, -⟩ := h
  rw [List.length_drop] at hlen
  omega

/-- A reply that is not skipped mismatches if it is refused, and one that is does if the
bytes behind the first eight do. -/
theorem mismatched_iff {CS1 xs : List UInt8} :
    Mismatched CS1 xs ↔ Refused CS1 xs ∨ Skipped CS1 xs ∧ Mismatched CS1 (xs.drop 8) := by
  constructor
  · intro h
    obtain ⟨k, hrefused, hskipped⟩ := h
    cases k with
    | zero => exact .inl (by simpa using hrefused)
    | succ k =>
      have hfirst := hskipped 0 (by omega)
      refine .inr ⟨by simpa using hfirst, k, ?_, ?_⟩
      · rwa [List.drop_drop, Nat.add_comm, ← Nat.mul_succ]
      · intro j hj
        have hlater := hskipped (j + 1) (by omega)
        rwa [List.drop_drop, Nat.add_comm, ← Nat.mul_succ]
  · intro h
    rcases h with hrefused | ⟨hfirst, k, hrefused, hskipped⟩
    · exact ⟨0, by simpa using hrefused, by simp⟩
    · refine ⟨k + 1, ?_, ?_⟩
      · rwa [List.drop_drop, Nat.add_comm, ← Nat.mul_succ] at hrefused
      · intro j hj
        cases j with
        | zero => simpa using hfirst
        | succ j =>
          have hlater := hskipped j (by omega)
          rwa [List.drop_drop, Nat.add_comm, ← Nat.mul_succ] at hlater

section
variable {room : Nat → Bool} {h : Handlers ω} {b : Behind} {rconn : Conn ω} {xs : List UInt8}

theorem msg_parse_state {m stale : Mem} {size used : Nat} {r : Conn ω}
    (hp : rtmpMsgParse room h rconn m size stale = .ret r used) :
    r.state = rconn.state ∧ (used = 0 → r.ichunksize = rconn.ichunksize) := by
  have hcbuf : ∀ {parse skip}, cbufParse room parse skip rconn m size stale = .ret r used →
      r.state = rconn.state ∧ (used = 0 → r.ichunksize = rconn.ichunksize) := by
    intro parse skip hc
    simp only [cbufParse] at hc
    split at hc
    · split at hc
      · cases hc
      · split at hc
        · cases hc
          exact ⟨rfl, fun _ => rfl⟩
        · cases hc
          exact ⟨rfl, fun _ => rfl⟩
    · cases hc
  simp only [rtmpMsgParse] at hp
  split at hp
  · cases hp
    exact ⟨rfl, fun _ => rfl⟩
  split at hp
  · split at hp
    · cases hp
      exact ⟨rfl, fun _ => rfl⟩
    · cases hp
      exact ⟨rfl, fun h0 => by cases h0⟩
  split at hp
  · split at hp
    · cases hp
      exact ⟨rfl, fun _ => rfl⟩
    · cases hp
      exact ⟨rfl, fun _ => rfl⟩
  split at hp
  · split at hp
    · cases hp
      exact ⟨rfl, fun _ => rfl⟩
    · cases hp
      exact ⟨rfl, fun _ => rfl⟩
  split at hp
  · exact hcbuf hp
  split at hp
  · split at hp
    · cases hp
    · cases hp
      exact ⟨rfl, fun _ => rfl⟩
  split at hp
  · exact hcbuf hp
  split at hp
  · exact hcbuf hp
  split at hp
  · exact hcbuf hp
  · cases hp
    exact ⟨rfl, fun _ => rfl⟩

/-- A payload takes bytes, or the chunk is over. -/
theorem payload_advances (hst : rconn.state = .chunkPayload) (hne : xs ≠ []) {m : Mem} {s' : Conn ω} {n : Nat}
    (hstep : rtmpPayloadStep room h b.stale rconn m xs.length = .next s' n) :
    (0 < n ∨ s'.rank < rconn.rank) ∧ s'.state.beforeReply = none := by
  have hpos := List.length_pos_iff.mpr hne
  simp only [rtmpPayloadStep] at hstep
  split at hstep
  · cases hstep
  · cases hstep
  · rename_i r s hret
    obtain ⟨hstate, hsize⟩ := msg_parse_state hret
    split at hstep
    · rename_i hpart
      obtain ⟨hs, hlen, -⟩ := hpart
      rw [hsize hs] at hlen
      cases hstep
      refine ⟨.inl ?_, ?_⟩
      · rw [if_neg (by omega)]
        omega
      · show r.state.beforeReply = none
        rw [hstate, hst]
        rfl
    · cases hstep
      exact ⟨.inr (by simp [Conn.rank, ConnState.rank, hst]), rfl⟩

/-- Past the reply every step takes bytes or leads on, and none leads back. -/
theorem later_step (hst : rconn.state.beforeReply = none) (hne : xs ≠ []) {s' : Conn ω} {n : Nat}
    (hstep : rtmpStep room h b rconn xs = .next s' n) :
    (0 < n ∨ s'.rank < rconn.rank) ∧ s'.state.beforeReply = none := by
  cases hs : rconn.state <;> simp only [rtmpStep, hs] at hstep
  case handshakeC0 | handshakeC1 | handshakeC2 =>
    rw [hs] at hst
    cases hst
  case handshakeS0 | handshakeS1 | handshakeS2 =>
    cases hstep
    exact ⟨.inr (by simp [Conn.rank, ConnState.rank, hs]), rfl⟩
  case chunkFmt =>
    split at hstep
    · cases hstep
    · cases hstep
      exact ⟨.inr (by simp [Conn.rank, ConnState.rank, hs]), rfl⟩
  case chunkChannel1 =>
    split at hstep
    · cases hstep
    · cases hstep
      refine ⟨.inl (by omega), ?_⟩
      dsimp only
      split
      · rfl
      · split <;> rfl
  case chunkChannel2 | chunkChannel3 =>
    split at hstep
    · cases hstep
    · cases hstep
      exact ⟨.inl (by omega), rfl⟩
  case chunkChannel =>
    cases hstep
    refine ⟨.inr ?_, ?_⟩
    · simp only [Conn.rank, hs]
      split <;> simp [ConnState.rank]
    · dsimp only
      split <;> rfl
  case chunkTimestamp | chunkMsgType =>
    split at hstep
    · cases hstep
    · split at hstep
      · cases hstep
      · cases hstep
        refine ⟨.inl (by omega), ?_⟩
        dsimp only
        split <;> rfl
  case chunkMsgLen | chunkMsgStreamid =>
    split at hstep
    · cases hstep
    · split at hstep
      · cases hstep
      · cases hstep
        exact ⟨.inl (by omega), rfl⟩
  case chunkExtraTimestamp =>
    split at hstep
    · cases hstep
    · split at hstep
      · cases hstep
      split at hstep
      · split at hstep
        · cases hstep
        · cases hstep
          exact ⟨.inl (by omega), rfl⟩
      · cases hstep
        exact ⟨.inr (by simp [Conn.rank, ConnState.rank, hs]), rfl⟩
  case chunkPayload =>
    split at hstep
    · cases hstep
    · split at hstep
      · cases hstep
      · exact payload_advances hs hne hstep

/-- The comparison of the reply: refused bytes stay where they are. -/
theorem reply_step (hst : rconn.state = .handshakeC2) :
    rtmpStep room h b rconn xs =
      if xs.length < 1536 then .leave
      else if xs.take 4 ≠ rconn.CS1.take 4 then .next rconn 0
      else if (xs.drop 8).take 1528 ≠ rconn.CS1.drop 8 then .next rconn 8
      else .next { rconn with state := .chunkFmt } 1536 := by
  simp only [rtmpStep, hst]
  split
  · rfl
  · have hfirst := slice_mem_of (m := b.past) (show 0 + 4 ≤ xs.length by omega)
    have hrest := slice_mem_of (m := b.past) (show 8 + 1528 ≤ xs.length by omega)
    rw [hfirst, hrest, List.drop_zero]

/-- No step brings a mismatch about or gets past one. -/
theorem mismatch_kept (hne : xs ≠ []) {s' : Conn ω} {n : Nat}
    (hstep : rtmpStep room h b rconn xs = .next s' n) :
    MismatchedReply s' (xs.drop n) ↔ MismatchedReply rconn xs := by
  cases hs : rconn.state.beforeReply with
  | none =>
    have hlater := (later_step hs hne hstep).2
    simp [MismatchedReply, hs, hlater]
  | some w =>
    rcases before_reply hs with ⟨hst, rfl⟩ | ⟨hst, rfl⟩ | ⟨hst, rfl⟩
    · simp only [rtmpStep, hst] at hstep
      split at hstep
      · cases hstep
      · cases hstep
        simp [MismatchedReply, hst, ConnState.beforeReply]
    · simp only [rtmpStep, hst] at hstep
      split at hstep
      · cases hstep
      · cases hstep
        simp [MismatchedReply, hst, ConnState.beforeReply]
    · have hhere : MismatchedReply rconn xs ↔ Mismatched rconn.CS1 xs := by
        simp [MismatchedReply, hst, ConnState.beforeReply]
      rw [hhere, mismatched_iff]
      rw [reply_step hst] at hstep
      split at hstep
      · cases hstep
      split at hstep
      · cases hstep
        rw [List.drop_zero, hhere, mismatched_iff]
      rename_i hfirst
      have hnot : ¬ Refused rconn.CS1 xs := fun hr => hfirst hr.2
      split at hstep
      · rename_i hrest
        cases hstep
        have hskip : Skipped rconn.CS1 xs := ⟨not_ne_iff.mp hfirst, hrest⟩
        simp [MismatchedReply, hst, ConnState.beforeReply, hnot, hskip]
      · rename_i hrest
        cases hstep
        have hskip : ¬ Skipped rconn.CS1 xs := fun hs => hrest hs.2
        simp [MismatchedReply, ConnState.beforeReply, hnot, hskip]

/-- A mismatch leads from step to step. -/
theorem mismatch_goes (hm : MismatchedReply rconn xs) :
    xs ≠ [] ∧ ∃ s' n, rtmpStep room h b rconn xs = .next s' n := by
  obtain ⟨w, hs, hmis⟩ := hm
  have hlen := mismatched_length hmis
  rw [List.length_drop] at hlen
  refine ⟨List.length_pos_iff.mp (by omega), ?_⟩
  rcases before_reply hs with ⟨hst, rfl⟩ | ⟨hst, rfl⟩ | ⟨hst, rfl⟩
  · simp only [rtmpStep, hst, if_neg (show ¬ xs.length < 1 by omega)]
    exact ⟨_, _, rfl⟩
  · simp only [rtmpStep, hst, if_neg (show ¬ xs.length < 1536 by omega)]
    exact ⟨_, _, rfl⟩
  · rw [reply_step hst, if_neg (by omega)]
    split
    · exact ⟨_, _, rfl⟩
    split
    · exact ⟨_, _, rfl⟩
    · exact ⟨_, _, rfl⟩

/-- Without a mismatch every step takes bytes, leads on or leaves. -/
theorem step_advances (hne : xs ≠ []) (hm : ¬ MismatchedReply rconn xs) :
    Feed.Advances Conn.rank rconn (rtmpStep room h b rconn xs) := by
  cases hstep : rtmpStep room h b rconn xs with
  | stuck => trivial
  | leave => trivial
  | next s' n =>
    cases hs : rconn.state.beforeReply with
    | none => exact (later_step hs hne hstep).1
    | some w =>
      left
      rcases before_reply hs with ⟨hst, -⟩ | ⟨hst, -⟩ | ⟨hst, -⟩
      · simp only [rtmpStep, hst] at hstep
        split at hstep
        · cases hstep
        · cases hstep
          exact Nat.one_pos
      · simp only [rtmpStep, hst] at hstep
        split at hstep
        · cases hstep
        · cases hstep
          exact Nat.succ_pos 1535
      · rw [reply_step hst] at hstep
        split at hstep
        · cases hstep
        rename_i hlen
        split at hstep
        · rename_i hfirst
          refine absurd ⟨0, by rw [hst]; rfl, ?_⟩ hm
          exact mismatched_iff.mpr (.inl ⟨Nat.not_lt.mp hlen, hfirst⟩)
        split at hstep
        · cases hstep
          exact Nat.succ_pos 7
        · cases hstep
          exact Nat.succ_pos 1535

end

/-- On every piece whose message handlers return, the loop of `rtmp_parse` comes to an exit if and only
if the piece has no reply of the client that mismatches, and only then does every round take bytes or
lead to a state nearer to one that does. -/
theorem parse_exits_iff (room : Nat → Bool) (h : Handlers ω) (b : Behind) (rconn : Conn ω) (xs : List UInt8)
    (hret : Feed.Returns (rtmpStep room h) b rconn xs) :
    ((∃ r, Feed.Fed (rtmpStep room h) b rconn xs r) ↔ ¬ MismatchedReply rconn xs) ∧
      (Feed.Progresses (rtmpStep room h) Conn.rank b rconn xs ↔ ¬ MismatchedReply rconn xs) := by
  apply Feed.fed_iff ?_ ?_ ?_ hret
  · intro s xs s' n hne hstep
    exact mismatch_kept hne hstep
  · intro s xs hm
    exact mismatch_goes hm
  · intro s xs hne hm
    exact step_advances hne hm

/-- A connection that waits for the reply to a challenge of zeros. -/
def waiting : Conn Unit := { Conn.create (List.replicate 1536 0) (fun _ => none) () with state := .handshakeC2 }

/-- A short piece is left at once. -/
theorem parse_exits_short :
    Feed.Returns (rtmpStep cbufHolds .silent) ⟨fun _ => 0, fun _ => 0⟩ waiting [1] ∧
      ((∃ r, Feed.Fed (rtmpStep cbufHolds .silent) ⟨fun _ => 0, fun _ => 0⟩ waiting [1] r) ↔
        ¬ MismatchedReply waiting [1]) := by
  have hleave : rtmpStep cbufHolds .silent ⟨fun _ => 0, fun _ => 0⟩ waiting [1] = .leave := by
    rw [reply_step rfl, if_pos (by decide)]
  have hret : Feed.Returns (rtmpStep cbufHolds .silent) ⟨fun _ => 0, fun _ => 0⟩ waiting [1] := by
    intro t ys hpass _
    cases hpass with
    | here =>
      rw [hleave]
      intro h
      cases h
    | next _ hstep =>
      rw [hleave] at hstep
      cases hstep
  exact ⟨hret, (parse_exits_iff _ _ _ _ _ hret).1⟩

/-- Where bytes are refused nothing changes any more. -/
theorem refused_stays {room : Nat → Bool} {h : Handlers ω} {b : Behind} {rconn r : Conn ω} {xs ys : List UInt8}
    (hst : rconn.state = .handshakeC2) (hr : Refused rconn.CS1 xs)
    (hpass : Feed.Passes (rtmpStep room h) b rconn xs r ys) : r = rconn ∧ ys = xs := by
  induction hpass with
  | here => exact ⟨rfl, rfl⟩
  | next _ hstep _ ih =>
    rw [reply_step hst, if_neg (Nat.not_lt.mpr hr.1), if_pos hr.2] at hstep
    cases hstep
    exact ih hst hr

/-- A reply of ones is looked at again and again, and no handler is called. -/
theorem wrong_reply_loops :
    Feed.Returns (rtmpStep cbufHolds .silent) ⟨fun _ => 0, fun _ => 0⟩ waiting (List.replicate 1536 1) ∧
      ¬ ∃ r, Feed.Fed (rtmpStep cbufHolds .silent) ⟨fun _ => 0, fun _ => 0⟩ waiting (List.replicate 1536 1) r := by
  have hrefused : Refused waiting.CS1 (List.replicate 1536 1) := by
    refine ⟨by rw [List.length_replicate], ?_⟩
    rw [waiting, Conn.create, List.take_replicate, List.take_replicate]
    decide
  constructor
  · intro t ys hpass _
    obtain ⟨rfl, rfl⟩ := refused_stays rfl hrefused hpass
    rw [reply_step rfl, if_neg (Nat.not_lt.mpr hrefused.1), if_pos hrefused.2]
    intro h
    cases h
  · have hmis : MismatchedReply waiting (List.replicate 1536 1) :=
      ⟨0, rfl, mismatched_iff.mpr (.inl hrefused)⟩
    intro hfed
    obtain ⟨r, hfed⟩ := hfed
    exact Feed.fed_ends (fun _ _ _ _ hne hstep => mismatch_kept hne hstep)
      (fun _ _ hm => mismatch_goes hm) hfed hmis

end Yclib.Rtmp
