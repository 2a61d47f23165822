import Yclib.Feed.Cut

namespace Yclib.Feed

/-! When does feeding a piece come to an end? -/

universe u v w

section
variable {ι : Type w} {σ : Type u} {α : Type v} (step : ι → σ → List α → Verdict σ)

/-- Every step that feeding the piece takes comes back. -/
def Returns (i : ι) (s : σ) (xs : List α) : Prop :=
  ∀ t ys, Passes step i s xs t ys → ys ≠ [] → step i t ys ≠ .stuck

/-- The step leaves the piece, takes items or lowers the rank. -/
def Advances (rank : σ → Nat) (s : σ) : Verdict σ → Prop
  | .next s' n => 0 < n ∨ rank s' < rank s
  | .leave => True
  | .stuck => True

/-- Every step that feeding the piece takes advances. -/
def Progresses (rank : σ → Nat) (i : ι) (s : σ) (xs : List α) : Prop :=
  ∀ t ys, Passes step i s xs t ys → ys ≠ [] → Advances rank t (step i t ys)

end

section
variable {ι : Type w} {σ : Type u} {α : Type v} {step : ι → σ → List α → Verdict σ}
variable {rank : σ → Nat} {i : ι}

/-- Items are used up or the rank goes down. -/
theorem progress_fed {s : σ} {xs : List α} (hret : Returns step i s xs)
    (hp : Progresses step rank i s xs) : ∃ t, Fed step i s xs t := by
  -- the length of what is left, then the rank
  induction hm : (toLex (xs.length, rank s) : ℕ ×ₗ ℕ) using WellFoundedLT.induction
    generalizing s xs with
  | ind m ih =>
    subst hm
    by_cases hne : xs = []
    · subst hne
      exact ⟨s, .done⟩
    cases hstep : step i s xs with
    | stuck => exact absurd hstep (hret s xs .here hne)
    | leave => exact ⟨s, .leave hne hstep⟩
    | next s' n =>
      have hpos := List.length_pos_iff.mpr hne
      have hadv := hp s xs .here hne
      rw [hstep] at hadv
      have hless : (toLex ((xs.drop n).length, rank s') : ℕ ×ₗ ℕ) < toLex (xs.length, rank s) := by
        rw [Prod.Lex.toLex_lt_toLex, List.length_drop]
        rcases hadv with hn | hdown
        · exact .inl (by omega)
        · rcases Nat.eq_zero_or_pos n with rfl | hn
          · exact .inr ⟨rfl, hdown⟩
          · exact .inl (by omega)
      obtain ⟨t, hf⟩ := ih _ hless
        (fun t ys hpass => hret t ys (.next hne hstep hpass))
        (fun t ys hpass => hp t ys (.next hne hstep hpass)) rfl
      exact ⟨t, .next hne hstep hf⟩

/-- What no step changes and always leads to a next step does not come to an end. -/
theorem fed_ends {Hangs : σ → List α → Prop}
    (hkeep : ∀ s xs s' n, xs ≠ [] → step i s xs = .next s' n → (Hangs s' (xs.drop n) ↔ Hangs s xs))
    (hnext : ∀ s xs, Hangs s xs → xs ≠ [] ∧ ∃ s' n, step i s xs = .next s' n)
    {s t : σ} {xs : List α} (hf : Fed step i s xs t) : ¬ Hangs s xs := by
  induction hf with
  | done =>
    intro hh
    exact (hnext _ _ hh).1 rfl
  | leave _ hstep =>
    intro hh
    obtain ⟨_, s', n, hstep'⟩ := hnext _ _ hh
    rw [hstep] at hstep'
    cases hstep'
  | next hne hstep _ ih => rwa [← hkeep _ _ _ _ hne hstep]

/-- If moreover every other step advances, it is all that does not come to an end. -/
theorem fed_iff {Hangs : σ → List α → Prop}
    (hkeep : ∀ s xs s' n, xs ≠ [] → step i s xs = .next s' n → (Hangs s' (xs.drop n) ↔ Hangs s xs))
    (hnext : ∀ s xs, Hangs s xs → xs ≠ [] ∧ ∃ s' n, step i s xs = .next s' n)
    (hadv : ∀ s xs, xs ≠ [] → ¬ Hangs s xs → Advances rank s (step i s xs))
    {s : σ} {xs : List α} (hret : Returns step i s xs) :
    ((∃ t, Fed step i s xs t) ↔ ¬ Hangs s xs) ∧ (Progresses step rank i s xs ↔ ¬ Hangs s xs) := by
  have hgo : ¬ Hangs s xs → Progresses step rank i s xs := by
    intro hh t ys hpass hne
    apply hadv t ys hne
    induction hpass with
    | here => exact hh
    | next hne' hstep hpass ih =>
      apply ih ?_ ?_ hne
      · intro t ys hp
        exact hret t ys (.next hne' hstep hp)
      · rwa [hkeep _ _ _ _ hne' hstep]
  refine ⟨⟨fun ⟨t, hf⟩ => fed_ends hkeep hnext hf, fun hh => progress_fed hret (hgo hh)⟩, fun hp => ?_, hgo⟩
  obtain ⟨t, hf⟩ := progress_fed hret hp
  exact fed_ends hkeep hnext hf

end

end Yclib.Feed
