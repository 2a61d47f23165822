import Mathlib.Order.WellFounded

namespace Yclib.Loop

/-! Loops whose body goes on with another state or leaves with a result. -/

universe u v

/-- What one round of a loop comes to. -/
inductive Round (σ : Type u) (ρ : Type v)
  | go (s : σ)
  | exit (r : ρ)

section
variable {σ : Type u} {ρ : Type v} (round : σ → Round σ ρ)

/-- The loop that begins with `s` ends with `r`. -/
inductive Ends : σ → ρ → Prop
  | exit {s : σ} {r : ρ} (h : round s = .exit r) : Ends s r
  | go {s s' : σ} {r : ρ} (h : round s = .go s') (he : Ends s' r) : Ends s r

/-- From a state to another one over rounds that do not leave the loop. -/
inductive Reaches : σ → σ → Prop
  | here (s : σ) : Reaches s s
  | go {s s' s'' : σ} (h : round s = .go s') (hr : Reaches s' s'') : Reaches s s''

end

section
variable {σ : Type u} {ρ : Type v} {round : σ → Round σ ρ} {s s' : σ} {r r' : ρ}

/-- What every round keeps holds in every state that is reached. -/
theorem reaches_keeps {Inv : σ → Prop} (hround : ∀ s s', Inv s → round s = .go s' → Inv s')
    (hr : Reaches round s s') (hs : Inv s) : Inv s' := by
  induction hr with
  | here s => exact hs
  | go h _ ih => exact ih (hround _ _ hs h)

theorem ends_go (h : round s = .go s') : Ends round s r ↔ Ends round s' r := by
  constructor
  · intro he
    cases he with
    | exit hexit =>
      rw [h] at hexit
      cases hexit
    | go hgo he =>
      rw [h] at hgo
      cases hgo
      exact he
  · intro he
    exact .go h he

theorem ends_exit (h : round s = .exit r') : Ends round s r ↔ r = r' := by
  constructor
  · intro he
    cases he with
    | exit hexit =>
      rw [h] at hexit
      cases hexit
      rfl
    | go hgo =>
      rw [h] at hgo
      cases hgo
  · intro he
    subst he
    exact .exit h

/-- A loop ends when every round that does not leave it lowers the rank. -/
theorem ends_of_rank {Inv : σ → Prop} (rank : σ → Nat)
    (hround : ∀ s, Inv s → (∃ r, round s = .exit r) ∨
      ∃ s', round s = .go s' ∧ Inv s' ∧ rank s' < rank s)
    (hs : Inv s) : ∃ r, Ends round s r := by
  induction hn : rank s using Nat.strong_induction_on generalizing s with
  | _ n ih =>
    subst hn
    rcases hround s hs with ⟨r, hexit⟩ | ⟨s', hgo, hinv, hless⟩
    · exact ⟨r, .exit hexit⟩
    · obtain ⟨r, he⟩ := ih _ hless hinv rfl
      exact ⟨r, .go hgo he⟩

/-- A loop does not end when no round can leave it. -/
theorem never_ends {Inv : σ → Prop} (hround : ∀ s, Inv s → ∃ s', round s = .go s' ∧ Inv s')
    (hs : Inv s) : ¬ Ends round s r := by
  intro he
  induction he with
  | exit h =>
    obtain ⟨s', hgo, -⟩ := hround _ hs
    rw [h] at hgo
    cases hgo
  | go h _ ih =>
    obtain ⟨s', hgo, hinv⟩ := hround _ hs
    rw [h] at hgo
    cases hgo
    exact ih hinv

end

section
variable {σ : Type u} {ρ : Type v} {run : Nat → σ → Option ρ} {Inv : σ → Prop} {s : σ}

/-- A loop that counts its rounds down has no result when every round keeps it going. -/
theorem fuel_never (hzero : ∀ s, run 0 s = none)
    (hround : ∀ s, Inv s → ∃ s', Inv s' ∧ ∀ rounds, run (rounds + 1) s = run rounds s')
    (hs : Inv s) (rounds : Nat) : run rounds s = none := by
  induction rounds generalizing s with
  | zero => exact hzero s
  | succ rounds ih =>
    obtain ⟨s', hs', hstep⟩ := hround s hs
    rw [hstep]
    exact ih hs'

/-- It has a good one when every round comes to one or lowers the rank. -/
theorem fuel_ends {Good : ρ → Prop} (rank : σ → Nat)
    (hround : ∀ s, Inv s → (∃ rounds r, run rounds s = some r ∧ Good r) ∨
      ∃ s', Inv s' ∧ rank s' < rank s ∧ ∀ rounds, run (rounds + 1) s = run rounds s')
    (hs : Inv s) : ∃ rounds r, run rounds s = some r ∧ Good r := by
  induction hn : rank s using Nat.strong_induction_on generalizing s with
  | _ n ih =>
    subst hn
    rcases hround s hs with hend | ⟨s', hs', hless, hstep⟩
    · exact hend
    · obtain ⟨rounds, r, hrun, hgood⟩ := ih _ hless hs' rfl
      refine ⟨rounds + 1, r, ?_, hgood⟩
      rw [hstep]
      exact hrun

end

end Yclib.Loop
