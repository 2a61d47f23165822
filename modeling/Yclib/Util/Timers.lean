import Yclib.Util.Multimap
import Mathlib.Algebra.Ring.Nat
import Mathlib.Logic.Function.Basic

namespace Yclib.Timers
open Multimap

/-! The timers of an epoll loop, which are in one tree by their deadline and in another one
by their address, and the pass of the loop over those that are due. -/

/-- Assignment to a `uint64_t`. -/
def u64 (n : Nat) : Nat := n % 2 ^ 64

theorem u64_of_lt {n : Nat} (h : n < 2 ^ 64) : u64 n = n := Nat.mod_eq_of_lt h

/-- `rns_cb_t`. -/
structure Cb where
  func : Option Nat
  data : Nat

/-- `rns_epoll_t`: the trees hold the addresses of the timers, and `mem` what is there. -/
structure Epoll where
  i : List (Nat × Nat)
  t : List (Nat × Nat)
  mem : Nat → Option Cb

def Epoll.init : Epoll := ⟨[], [], fun _ => none⟩

/-- `rns_timer_add` at the time `curt`, with the address that `rns_malloc` returns. -/
def rnsTimerAdd (ep : Epoll) (delay : Nat) (cb : Option Cb) (cbs : Option Nat) (curt : Nat) : Epoll :=
  match cb, cbs with
  | some cb, some cbs =>
    if delay = 0 then ep
    else
      { i := insertKey cbs cbs ep.i
        t := insertKey (u64 (curt + delay)) cbs ep.t
        mem := Function.update ep.mem cbs (some cb) }
  | _, _ => ep

/-- `rns_timer_delete`. -/
def rnsTimerDelete (ep : Epoll) (id : Nat) : Option Epoll :=
  match searchKey id ep.i with
  | none => some ep
  | some cbs =>
    (deleteValue cbs ep.i).bind fun i =>
      (deleteValue cbs ep.t).map fun t => { i := i, t := t, mem := Function.update ep.mem cbs none }

/-- `rns_timer_delay` at the time `curt`. -/
def rnsTimerDelay (ep : Epoll) (id delay curt : Nat) : Option Epoll :=
  if delay = 0 then some ep
  else
    match searchKey id ep.i with
    | none => some ep
    | some cbs => (deleteValue cbs ep.t).map fun t => { ep with t := insertKey (u64 (curt + delay)) cbs t }

inductive Call
  | add (delay : Nat) (cb : Option Cb) (cbs : Option Nat) (curt : Nat)
  | delay (id delay curt : Nat)
  | delete (id : Nat)

def call (ep : Epoll) : Call → Option Epoll
  | .add delay cb cbs curt => some (rnsTimerAdd ep delay cb cbs curt)
  | .delay id delay curt => rnsTimerDelay ep id delay curt
  | .delete id => rnsTimerDelete ep id

def calls (ep : Epoll) : List Call → Option Epoll
  | [] => some ep
  | c :: cs => (call ep c).bind (calls · cs)

/-- Memory that is in use is not allocated. -/
def Fresh (ep : Epoll) : Call → Prop
  | .add _ _ (some cbs) _ => ep.mem cbs = none
  | _ => True

/-- The deadline last set for each timer there is. -/
def lastSet (deadline : Nat → Option Nat) : Call → Nat → Option Nat
  | .add delay (some _) (some cbs) curt =>
    if delay = 0 then deadline else Function.update deadline cbs (some (u64 (curt + delay)))
  | .add _ _ _ _ => deadline
  | .delay id delay curt =>
    if delay = 0 ∨ deadline id = none then deadline
    else Function.update deadline id (some (u64 (curt + delay)))
  | .delete id => Function.update deadline id none

/-- What is reached by calls, wherever they come from, and the deadlines set then. -/
inductive Reach : Option Epoll → (Nat → Option Nat) → Prop
  | init : Reach (some .init) fun _ => none
  | call {ep : Epoll} {deadline : Nat → Option Nat} {c : Call} (hr : Reach (some ep) deadline)
      (hf : Fresh ep c) : Reach (call ep c) (lastSet deadline c)

/-- The trees hold the same timers, each once, and by the deadlines last set. -/
structure Agree (ep : Epoll) (deadline : Nat → Option Nat) : Prop where
  same : (values ep.t).Perm (values ep.i)
  once : (values ep.i).Nodup
  ids : ∀ entry ∈ ep.i, entry.1 = entry.2
  keys : ∀ key cbs, (key, cbs) ∈ ep.t ↔ deadline cbs = some key

structure Inv (ep : Epoll) (deadline : Nat → Option Nat) : Prop where
  agree : Agree ep deadline
  sorted : Sorted ep.t
  mem : ∀ cbs, cbs ∈ values ep.i ↔ (ep.mem cbs).isSome = true

section
variable {ep : Epoll} {deadline : Nat → Option Nat}

theorem once_t (h : Agree ep deadline) : (values ep.t).Nodup := h.same.nodup_iff.mpr h.once

theorem mem_t (h : Agree ep deadline) {cbs : Nat} : cbs ∈ values ep.t ↔ (deadline cbs).isSome = true := by
  rw [Option.isSome_iff_exists]
  constructor
  · intro hm
    obtain ⟨⟨key, cbs⟩, hmem, rfl⟩ := List.mem_map.mp hm
    exact ⟨key, (h.keys key cbs).mp hmem⟩
  · rintro ⟨key, hkey⟩
    exact List.mem_map.mpr ⟨(key, cbs), (h.keys _ _).mpr hkey, rfl⟩

/-- The tree of identities finds the timer with the address, if there is one. -/
theorem search_i (h : Agree ep deadline) (id : Nat) :
    searchKey id ep.i = none ∧ deadline id = none ∨
      searchKey id ep.i = some id ∧ id ∈ values ep.i ∧ id ∈ values ep.t := by
  cases hs : searchKey id ep.i with
  | none =>
    refine .inl ⟨rfl, ?_⟩
    have hout : id ∉ values ep.i := by
      intro hm
      obtain ⟨entry, hm, heq⟩ := List.mem_map.mp hm
      exact search_none hs entry hm ((h.ids entry hm).trans heq)
    have hout' : id ∉ values ep.t := fun hm => hout (h.same.mem_iff.mp hm)
    simpa [mem_t h] using hout'
  | some cbs =>
    have hm := search_some hs
    obtain rfl : id = cbs := h.ids _ hm
    have hi : id ∈ values ep.i := List.mem_map_of_mem hm
    exact .inr ⟨rfl, hi, h.same.mem_iff.mpr hi⟩

theorem add_inv (h : Inv ep deadline) {delay cbs curt : Nat} {cb : Cb} (hfresh : ep.mem cbs = none) :
    Inv
      { i := insertKey cbs cbs ep.i
        t := insertKey (u64 (curt + delay)) cbs ep.t
        mem := Function.update ep.mem cbs (some cb) }
      (Function.update deadline cbs (some (u64 (curt + delay)))) := by
  have hout : cbs ∉ values ep.i := by
    rw [h.mem, hfresh]
    exact Bool.false_ne_true
  have hi : (values (insertKey cbs cbs ep.i)).Perm (cbs :: values ep.i) := insert_perm.map Prod.snd
  have ht : (values (insertKey (u64 (curt + delay)) cbs ep.t)).Perm (cbs :: values ep.t) :=
    insert_perm.map Prod.snd
  refine ⟨⟨?_, ?_, ?_, ?_⟩, insert_sorted h.sorted, ?_⟩
  · exact ht.trans ((h.agree.same.cons cbs).trans hi.symm)
  · exact hi.nodup_iff.mpr (List.nodup_cons.mpr ⟨hout, h.agree.once⟩)
  · intro entry hm
    rcases mem_insert.mp hm with rfl | hm
    · rfl
    · exact h.agree.ids entry hm
  · intro key other
    rw [mem_insert]
    by_cases hne : other = cbs
    · have hgone : (key, other) ∉ ep.t := fun hm =>
        hout (h.agree.same.mem_iff.mp (hne ▸ List.mem_map_of_mem hm))
      rw [hne] at hgone ⊢
      simp [hgone, eq_comm]
    · rw [Function.update_of_ne hne, ← h.agree.keys]
      simp [hne]
  · intro other
    rw [hi.mem_iff, List.mem_cons]
    by_cases hne : other = cbs
    · simp [hne]
    · dsimp only
      rw [Function.update_of_ne hne, ← h.mem]
      simp [hne]

theorem delete_inv (h : Inv ep deadline) {id : Nat} (hi : id ∈ values ep.i) (ht : id ∈ values ep.t) :
    ∃ i t, deleteValue id ep.i = some i ∧ deleteValue id ep.t = some t ∧
      Inv { i := i, t := t, mem := Function.update ep.mem id none }
        (Function.update deadline id none) := by
  obtain ⟨i, hdi, hpi, hmi⟩ := delete_perm hi h.agree.once
  obtain ⟨t, hdt, hpt, hmt⟩ := delete_perm ht (once_t h.agree)
  have hcons := hpi.nodup_iff.mp h.agree.once
  have hout := (List.nodup_cons.mp hcons).1
  refine ⟨i, t, hdi, hdt, ⟨?_, (List.nodup_cons.mp hcons).2, ?_, ?_⟩, delete_sorted h.sorted hdt, ?_⟩
  · exact ((hpt.symm.trans h.agree.same).trans hpi).cons_inv
  · exact fun entry hm => h.agree.ids entry ((hmi entry).mp hm).1
  · intro key cbs
    rw [hmt]
    by_cases hne : cbs = id
    · simp [hne]
    · rw [Function.update_of_ne hne, ← h.agree.keys]
      simp [hne]
  · intro cbs
    dsimp only
    by_cases hne : cbs = id
    · simp [hne, hout]
    · rw [Function.update_of_ne hne, ← h.mem, hpi.mem_iff, List.mem_cons]
      simp [hne]

theorem delay_inv (h : Inv ep deadline) {id : Nat} (ht : id ∈ values ep.t) (key : Nat) :
    ∃ t, deleteValue id ep.t = some t ∧
      Inv { ep with t := insertKey key id t } (Function.update deadline id (some key)) := by
  obtain ⟨t, hdt, hpt, hmt⟩ := delete_perm ht (once_t h.agree)
  refine ⟨t, hdt, ⟨?_, h.agree.once, h.agree.ids, ?_⟩, insert_sorted (delete_sorted h.sorted hdt), h.mem⟩
  · have hins : (values (insertKey key id t)).Perm (id :: values t) := insert_perm.map Prod.snd
    exact (hins.trans hpt.symm).trans h.agree.same
  · intro key' cbs
    rw [mem_insert, hmt]
    by_cases hne : cbs = id
    · simp [hne, eq_comm]
    · rw [Function.update_of_ne hne, ← h.agree.keys]
      simp [hne]

/-- Every call comes back, with the trees as they should be. -/
theorem call_inv (h : Inv ep deadline) {c : Call} (hf : Fresh ep c) :
    ∃ ep', call ep c = some ep' ∧ Inv ep' (lastSet deadline c) := by
  cases c with
  | add delay cb cbs curt =>
    cases cb with
    | none => exact ⟨ep, rfl, h⟩
    | some cb =>
      cases cbs with
      | none => exact ⟨ep, rfl, h⟩
      | some cbs =>
        simp only [call, rnsTimerAdd, lastSet]
        by_cases hd : delay = 0
        · rw [if_pos hd, if_pos hd]
          exact ⟨ep, rfl, h⟩
        · rw [if_neg hd, if_neg hd]
          exact ⟨_, rfl, add_inv h hf⟩
  | delay id delay curt =>
    simp only [call, rnsTimerDelay, lastSet]
    by_cases hd : delay = 0
    · rw [if_pos hd, if_pos (.inl hd)]
      exact ⟨ep, rfl, h⟩
    · rw [if_neg hd]
      rcases search_i h.agree id with ⟨hs, hnone⟩ | ⟨hs, -, ht⟩
      · rw [hs, if_pos (.inr hnone)]
        exact ⟨ep, rfl, h⟩
      · have hsome := (mem_t h.agree).mp ht
        rw [hs, if_neg (by simpa [hd, ← Option.isSome_iff_ne_none] using hsome)]
        obtain ⟨t, hdt, hinv⟩ := delay_inv h ht (u64 (curt + delay))
        exact ⟨_, by simp only [hdt, Option.map_some], hinv⟩
  | delete id =>
    simp only [call, rnsTimerDelete, lastSet]
    rcases search_i h.agree id with ⟨hs, hnone⟩ | ⟨hs, hi, ht⟩
    · have hsame : Function.update deadline id none = deadline := by
        rw [← hnone, Function.update_eq_self]
      rw [hs, hsame]
      exact ⟨ep, rfl, h⟩
    · obtain ⟨i, t, hdi, hdt, hinv⟩ := delete_inv h hi ht
      rw [hs]
      exact ⟨_, by simp only [hdi, hdt, Option.bind_some, Option.map_some], hinv⟩

end

theorem init_inv : Inv .init fun _ => none := by
  refine ⟨⟨.refl _, List.nodup_nil, ?_, ?_⟩, List.Pairwise.nil, ?_⟩
  · intro entry hm
    cases hm
  · simp [Epoll.init]
  · simp [Epoll.init, values]

theorem reach_inv {result : Option Epoll} {deadline : Nat → Option Nat} (hr : Reach result deadline) :
    ∃ ep, result = some ep ∧ Inv ep deadline := by
  induction hr with
  | init => exact ⟨_, rfl, init_inv⟩
  | call _ hf ih =>
    obtain ⟨ep, heq, hinv⟩ := ih
    cases heq
    exact call_inv hinv hf

/-- Whatever calls are made, the two trees agree after them. -/
theorem timers_agree {result : Option Epoll} {deadline : Nat → Option Nat}
    (hr : Reach result deadline) : ∃ ep, result = some ep ∧ Agree ep deadline := by
  obtain ⟨ep, heq, hinv⟩ := reach_inv hr
  exact ⟨ep, heq, hinv.agree⟩

/-- Two timers with one deadline, and one of them goes. -/
theorem timers_agree_two : ∃ ep, calls .init [.add 5 (some ⟨some 1, 0⟩) (some 64) 10,
    .add 10 (some ⟨some 2, 0⟩) (some 128) 5, .delete 64] = some ep ∧
      ∃ deadline, Agree ep deadline := by
  have hone : Reach _ _ := .call (c := .add 5 (some ⟨some 1, 0⟩) (some 64) 10) .init rfl
  have htwo : Reach _ _ := .call (c := .add 10 (some ⟨some 2, 0⟩) (some 128) 5) hone rfl
  obtain ⟨ep, heq, hagree⟩ := timers_agree (.call (c := .delete 64) htwo trivial)
  exact ⟨ep, heq, _, hagree⟩

/-! The pass over the timers that are due. -/

/-- The first timer, if it is due at `t`. -/
def due (ep : Epoll) (t : Nat) : Option (Nat × Nat) := ep.t.head?.filter fun entry => entry.1 ≤ t

/-- The callback of a timer, which makes the calls if there is a function. -/
def invoke (ep : Epoll) (cbs : Nat) (cs : List Call) : Option Epoll :=
  (ep.mem cbs).bind fun cb => if cb.func.isSome then calls ep cs else some ep

/-- At most so many rounds of the loop of `rns_epoll_wait` over the timers due at `t`, with
the calls that the callbacks make one after the other and the timers invoked. -/
def expire (t : Nat) : Nat → (Nat → List Call) → Epoll → Option (Epoll × List (Nat × Nat))
  | 0, _, ep => some (ep, [])
  | n + 1, outcome, ep =>
    match due ep t with
    | none => some (ep, [])
    | some timer =>
      (invoke ep timer.2 (outcome 0)).bind fun ep =>
        (expire t n (fun k => outcome (k + 1)) ep).map fun result => (result.1, timer :: result.2)

/-- The pass comes to an end, its timers are in the order of their deadlines, and no
deadline is ahead. -/
def Ends (t : Nat) (outcome : Nat → List Call) (ep : Epoll) : Prop :=
  ∃ n ep' log, expire t n outcome ep = some (ep', log) ∧ due ep' t = none ∧
    log.Pairwise (·.1 ≤ ·.1) ∧ ∀ timer ∈ log, timer.1 ≤ t

/-- The calls can be made, one after the other: memory is allocated that is free. -/
def Made (ep : Epoll) : List Call → Prop
  | [] => True
  | c :: cs => Fresh ep c ∧ ∀ ep', call ep c = some ep' → Made ep' cs

/-- The clock has not gone back behind `t`, and the deadline does not wrap around. -/
def Later (t : Nat) : Call → Prop
  | .add delay _ _ curt => t ≤ curt ∧ curt + delay < 2 ^ 64
  | .delay _ delay curt => t ≤ curt ∧ curt + delay < 2 ^ 64
  | .delete _ => True

/-- The call takes the timer away or moves it. -/
def Moves (cbs : Nat) : Call → Prop
  | .add _ _ _ _ => False
  | .delay id delay _ => id = cbs ∧ delay ≠ 0
  | .delete id => id = cbs

/-- The timer has a function, which makes its calls no earlier than `t` and takes the timer
away or moves it. -/
def Settled (t : Nat) (ep : Epoll) (cbs : Nat) (cs : List Call) : Prop :=
  (∀ cb, ep.mem cbs = some cb → cb.func ≠ none) ∧ (∀ c ∈ cs, Later t c) ∧ ∃ c ∈ cs, Moves cbs c

/-- What holds in each round of the pass, of the timer and the calls of its callback. -/
def Rounds (P : Epoll → Nat → List Call → Prop) (t : Nat) (outcome : Nat → List Call)
    (ep : Epoll) : Prop :=
  ∀ n ep' log timer, expire t n outcome ep = some (ep', log) → due ep' t = some timer →
    P ep' timer.2 (outcome n)

def dueList (ep : Epoll) (t : Nat) : List (Nat × Nat) := ep.t.filter fun entry => entry.1 ≤ t

section
variable {ep ep' : Epoll} {deadline : Nat → Option Nat} {t : Nat}

theorem due_eq (h : Sorted ep.t) : due ep t = (dueList ep t).head? := by
  unfold due dueList
  cases ht : ep.t with
  | nil => rfl
  | cons entry rest =>
    by_cases he : entry.1 ≤ t
    · rw [List.filter_cons_of_pos (by simpa using he)]
      simp [he]
    · rw [ht] at h
      have hrest : (entry :: rest).filter (fun e => decide (e.1 ≤ t)) = [] := by
        rw [List.filter_eq_nil_iff]
        intro other hm
        have hle : entry.1 ≤ other.1 := by
          rcases List.mem_cons.mp hm with rfl | hm
          · exact le_refl _
          · exact (List.pairwise_cons.mp h).1 _ (List.mem_map_of_mem hm)
        rw [decide_eq_true_iff]
        omega
      rw [hrest]
      simpa using he

theorem later_key {curt delay : Nat} (hd : delay ≠ 0) (h : t ≤ curt ∧ curt + delay < 2 ^ 64) (cbs : Nat) :
    (fun entry : Nat × Nat => decide (entry.1 ≤ t)) (u64 (curt + delay), cbs) = false := by
  rw [u64_of_lt h.2]
  exact decide_eq_false (by omega)

/-- A call makes no timer due, and a timer that it moves is not due any more. -/
theorem call_due (h : Inv ep deadline) {c : Call} (hl : Later t c) (hc : call ep c = some ep') :
    (dueList ep' t).Sublist (dueList ep t) ∧
      ∀ cbs, Moves cbs c → cbs ∉ values (dueList ep' t) := by
  cases c with
  | add delay cb cbs curt =>
    refine ⟨?_, fun _ hm => hm.elim⟩
    simp only [call, Option.some.injEq] at hc
    subst hc
    cases cb with
    | none => exact .refl _
    | some cb =>
      cases cbs with
      | none => exact .refl _
      | some cbs =>
        by_cases hd : delay = 0
        · simp only [rnsTimerAdd, hd, if_true]
          exact .refl _
        · simp only [rnsTimerAdd, hd, if_false, dueList]
          rw [insert_filter (later_key hd hl cbs)]
  | delay id delay curt =>
    simp only [call, rnsTimerDelay] at hc
    by_cases hd : delay = 0
    · rw [if_pos hd] at hc
      cases hc
      exact ⟨.refl _, fun _ hm => absurd hd hm.2⟩
    · rw [if_neg hd] at hc
      rcases search_i h.agree id with ⟨hs, hnone⟩ | ⟨hs, -, ht⟩
      · rw [hs] at hc
        cases hc
        refine ⟨.refl _, ?_⟩
        rintro cbs ⟨rfl, -⟩ hm
        have := (mem_t h.agree).mp ((List.filter_sublist.map Prod.snd).subset hm)
        rw [hnone] at this
        cases this
      · obtain ⟨entries, hdt, hpt, hmt⟩ := delete_perm ht (once_t h.agree)
        rw [hs] at hc
        simp only [hdt, Option.map_some, Option.some.injEq] at hc
        subst hc
        simp only [dueList]
        rw [insert_filter (later_key hd hl id)]
        refine ⟨(delete_sublist hdt).filter _, ?_⟩
        rintro cbs ⟨rfl, -⟩ hm
        obtain ⟨entry, hm, heq⟩ := List.mem_map.mp hm
        exact ((hmt entry).mp (List.mem_filter.mp hm).1).2 heq
  | delete id =>
    simp only [call, rnsTimerDelete] at hc
    rcases search_i h.agree id with ⟨hs, hnone⟩ | ⟨hs, hi, ht⟩
    · rw [hs] at hc
      cases hc
      refine ⟨.refl _, ?_⟩
      rintro cbs rfl hm
      have := (mem_t h.agree).mp ((List.filter_sublist.map Prod.snd).subset hm)
      rw [hnone] at this
      cases this
    · obtain ⟨entries, hdt, hpt, hmt⟩ := delete_perm ht (once_t h.agree)
      obtain ⟨i, hdi, -⟩ := delete_perm hi h.agree.once
      rw [hs] at hc
      simp only [hdi, hdt, Option.bind_some, Option.map_some, Option.some.injEq] at hc
      subst hc
      refine ⟨(delete_sublist hdt).filter _, ?_⟩
      rintro cbs rfl hm
      obtain ⟨entry, hm, heq⟩ := List.mem_map.mp hm
      exact ((hmt entry).mp (List.mem_filter.mp hm).1).2 heq

theorem calls_due (h : Inv ep deadline) {cs : List Call} (hm : Made ep cs) (hl : ∀ c ∈ cs, Later t c) :
    ∃ ep' deadline', calls ep cs = some ep' ∧ Inv ep' deadline' ∧
      (dueList ep' t).Sublist (dueList ep t) ∧
      ∀ cbs, (∃ c ∈ cs, Moves cbs c) → cbs ∉ values (dueList ep' t) := by
  induction cs generalizing ep deadline with
  | nil =>
    refine ⟨ep, deadline, rfl, h, .refl _, ?_⟩
    rintro cbs ⟨c, hc, -⟩
    cases hc
  | cons c cs ih =>
    obtain ⟨ep₁, hcall, hinv⟩ := call_inv h hm.1
    obtain ⟨hsub, hgone⟩ := call_due h (hl c (by simp)) hcall
    obtain ⟨ep₂, deadline₂, hcalls, hinv', hsub', hgone'⟩ := ih hinv (hm.2 ep₁ hcall)
      (fun c' hc => hl c' (List.mem_cons_of_mem _ hc))
    refine ⟨ep₂, deadline₂, by simp only [calls, hcall, Option.bind_some, hcalls], hinv',
      hsub'.trans hsub, ?_⟩
    rintro cbs ⟨c', hc, hmoves⟩
    rcases List.mem_cons.mp hc with rfl | hc
    · exact fun hin => hgone cbs hmoves ((hsub'.map Prod.snd).subset hin)
    · exact hgone' cbs ⟨c', hc, hmoves⟩

/-- The callback of the first timer that is due leaves fewer of them. -/
theorem invoke_due (h : Inv ep deadline) {timer : Nat × Nat} {rest : List (Nat × Nat)}
    (hdue : dueList ep t = timer :: rest) {cs : List Call} (hm : Made ep cs)
    (hs : Settled t ep timer.2 cs) : ∃ ep' deadline', invoke ep timer.2 cs = some ep' ∧
      Inv ep' deadline' ∧ (dueList ep' t).Sublist rest := by
  have hin : timer ∈ ep.t := (List.mem_filter.mp (hdue ▸ List.mem_cons_self : timer ∈ dueList ep t)).1
  obtain ⟨cb, hcb⟩ := Option.isSome_iff_exists.mp
    ((h.mem timer.2).mp (h.agree.same.mem_iff.mp (List.mem_map_of_mem hin)))
  have hfunc := Option.isSome_iff_ne_none.mpr (hs.1 cb hcb)
  obtain ⟨ep', deadline', hcalls, hinv, hsub, hgone⟩ := calls_due h hm hs.2.1
  refine ⟨ep', deadline', by simp only [invoke, hcb, Option.bind_some, hfunc, if_true, hcalls], hinv, ?_⟩
  rw [hdue] at hsub
  rcases List.sublist_cons_iff.mp hsub with hsub | ⟨r, heq, -⟩
  · exact hsub
  · exact absurd (heq ▸ List.mem_cons_self : timer.2 ∈ values (dueList ep' t)) (hgone timer.2 hs.2.2)

/-- The number of due timers bounds the rounds. -/
theorem expire_log {outcome : Nat → List Call} (h : Inv ep deadline)
    (hmade : Rounds (fun ep _ cs => Made ep cs) t outcome ep)
    (hsettled : Rounds (Settled t) t outcome ep) {n : Nat} (hn : (dueList ep t).length ≤ n) :
    ∃ ep' log, expire t n outcome ep = some (ep', log) ∧ due ep' t = none ∧
      log.Sublist (dueList ep t) := by
  induction n generalizing ep deadline outcome with
  | zero =>
    have hnil : dueList ep t = [] := List.eq_nil_of_length_eq_zero (by omega)
    exact ⟨ep, [], rfl, by rw [due_eq h.sorted, hnil]; rfl, List.nil_sublist _⟩
  | succ n ih =>
    cases hdue : dueList ep t with
    | nil =>
      have hnone : due ep t = none := by rw [due_eq h.sorted, hdue]; rfl
      exact ⟨ep, [], by simp only [expire, hnone], hnone, .refl _⟩
    | cons timer rest =>
      have hfirst : due ep t = some timer := by rw [due_eq h.sorted, hdue]; rfl
      obtain ⟨ep₁, deadline₁, hinvoke, hinv, hsub⟩ := invoke_due h hdue
        (hmade 0 ep [] timer rfl hfirst) (hsettled 0 ep [] timer rfl hfirst)
      have hround : ∀ k ep' log, expire t k (fun k => outcome (k + 1)) ep₁ = some (ep', log) →
          expire t (k + 1) outcome ep = some (ep', timer :: log) := by
        intro k ep' log hexp
        simp only [expire, hfirst, hinvoke, Option.bind_some, hexp, Option.map_some]
      have hlen := hsub.length_le
      rw [hdue, List.length_cons] at hn
      obtain ⟨ep', log, hexp, hend, hlog⟩ := ih hinv
        (fun k ep' log timer hexp => hmade (k + 1) ep' _ timer (hround k ep' log hexp))
        (fun k ep' log timer hexp => hsettled (k + 1) ep' _ timer (hround k ep' log hexp)) (by omega)
      exact ⟨ep', timer :: log, hround n ep' log hexp, hend, (hlog.trans hsub).cons_cons _⟩

end

/-- If every callback deletes or delays its own timer, the pass ends, in the order of the
deadlines and with none that is ahead. -/
theorem expire_ends {ep : Epoll} {deadline : Nat → Option Nat} {t : Nat} {outcome : Nat → List Call}
    (hr : Reach (some ep) deadline) (hmade : Rounds (fun ep _ cs => Made ep cs) t outcome ep)
    (hsettled : Rounds (Settled t) t outcome ep) : Ends t outcome ep := by
  obtain ⟨ep', heq, hinv⟩ := reach_inv hr
  cases heq
  obtain ⟨ep', log, hexp, hend, hsub⟩ := expire_log hinv hmade hsettled (le_refl _)
  refine ⟨_, ep', log, hexp, hend, ?_, ?_⟩
  · exact (List.pairwise_map.mp hinv.sorted).sublist (hsub.trans List.filter_sublist)
  · exact fun timer hm => by simpa using (List.mem_filter.mp (hsub.subset hm)).2

/-- One timer, added with a delay of 4000 at the time 1000. -/
def login : Epoll := rnsTimerAdd .init 4000 (some ⟨some 0, 0⟩) (some 64) 1000

theorem login_reach : Reach (some login) (lastSet (fun _ => none) (.add 4000 (some ⟨some 0, 0⟩) (some 64) 1000)) :=
  @Reach.call _ _ (.add 4000 (some ⟨some 0, 0⟩) (some 64) 1000) .init rfl

theorem login_due : due login 5000 = some (5000, 64) := by decide

theorem login_invoke : invoke login 64 [.delay 64 30000 5001] =
    some { login with t := [(35001, 64)] } := rfl

/-- The callback that sends a request puts the timer off. -/
theorem expire_ends_login : Ends 5000 (fun _ => [.delay 64 30000 5001]) login := by
  have hrounds : ∀ n ep' log timer,
      expire 5000 n (fun _ => [.delay 64 30000 5001]) login = some (ep', log) →
        due ep' 5000 = some timer → n = 0 := by
    intro n ep' log timer hexp hdue
    cases n with
    | zero => rfl
    | succ n =>
      have hnone : ∀ n, (expire 5000 n (fun _ => [.delay 64 30000 5001])
          { login with t := [(35001, 64)] }).map (fun result => due result.1 5000) = some none := by
        intro n
        cases n with
        | zero => decide
        | succ n => rfl
      have hnext : (expire 5000 (n + 1) (fun _ => [.delay 64 30000 5001]) login).map
          (fun result => due result.1 5000) = some none := by
        rw [← hnone n]
        simp only [expire, login_due, login_invoke, Option.bind_some, Option.map_map, Function.comp_def]
      rw [hexp, Option.map_some, hdue] at hnext
      cases hnext
  refine expire_ends login_reach ?_ ?_
  · intro n ep' log timer hexp hdue
    exact ⟨trivial, fun _ _ => trivial⟩
  · intro n ep' log timer hexp hdue
    obtain rfl := hrounds n ep' log timer hexp hdue
    cases hexp
    rw [login_due] at hdue
    cases hdue
    refine ⟨?_, ?_, .delay 64 30000 5001, by simp, rfl, by decide⟩
    · rintro cb hcb
      cases hcb
      exact fun hc => by cases hc
    · intro c hc
      obtain rfl := List.mem_singleton.mp hc
      exact ⟨by decide, by decide⟩

/-- A callback that fails and returns is called again without end. -/
theorem failed_callback_loops : ¬ ∀ (ep : Epoll) (deadline : Nat → Option Nat) (t : Nat)
    (outcome : Nat → List Call), Reach (some ep) deadline →
    Rounds (fun ep _ cs => Made ep cs) t outcome ep → Ends t outcome ep := by
  intro hall
  have hrounds : ∀ n, ∃ log, expire 5000 n (fun _ => []) login = some (login, log) := by
    intro n
    induction n with
    | zero => exact ⟨[], rfl⟩
    | succ n ih =>
      obtain ⟨log, hlog⟩ := ih
      have hinvoke : invoke login 64 [] = some login := rfl
      exact ⟨(5000, 64) :: log, by
        simp only [expire, login_due, hinvoke, Option.bind_some, hlog, Option.map_some]⟩
  obtain ⟨n, ep', log, hexp, hend, -, -⟩ := hall login _ 5000 (fun _ => []) login_reach
    (fun _ _ _ _ _ _ => trivial)
  obtain ⟨log', hlog⟩ := hrounds n
  rw [hlog] at hexp
  cases hexp
  rw [login_due] at hend
  cases hend

end Yclib.Timers
