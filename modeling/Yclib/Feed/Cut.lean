import Mathlib

namespace Yclib.Feed

/-! Machines that are fed a stream in pieces and keep nothing but their state from
one piece to the next: when does it not matter how the stream was cut? -/

universe u v w

/-- What a machine does with the items before it. -/
inductive Verdict (σ : Type u)
  /-- It goes on behind the first `used` of them. -/
  | next (s : σ) (used : Nat)
  /-- It leaves the piece as it is: what is left of it is lost. -/
  | leave
  /-- It does not come back. -/
  | stuck

section
variable {ι : Type w} {σ : Type u} {α : Type v}

-- The index of a step stands for what the machine may see besides its state and the
-- items before it, such as memory behind the piece.
variable (step : ι → σ → List α → Verdict σ)

/-- Feeding one piece to the end. -/
inductive Fed (i : ι) : σ → List α → σ → Prop
  | done {s : σ} : Fed i s [] s
  | leave {s : σ} {xs : List α} (hne : xs ≠ []) (h : step i s xs = .leave) : Fed i s xs s
  | next {s s' t : σ} {xs : List α} {n : Nat} (hne : xs ≠ []) (h : step i s xs = .next s' n)
      (hf : Fed i s' (xs.drop n) t) : Fed i s xs t

/-- The configurations that feeding a piece goes through. -/
inductive Passes (i : ι) : σ → List α → σ → List α → Prop
  | here {s : σ} {xs : List α} : Passes i s xs s xs
  | next {s s' t : σ} {xs ys : List α} {n : Nat} (hne : xs ≠ []) (h : step i s xs = .next s' n)
      (hp : Passes i s' (xs.drop n) t ys) : Passes i s xs t ys

/-- Feeding one piece after another. -/
inductive Runs : σ → List (ι × List α) → σ → Prop
  | nil {s : σ} : Runs s [] s
  | cons {s t u : σ} {i : ι} {xs : List α} {ps : List (ι × List α)} (h : Fed step i s xs t)
      (hr : Runs t ps u) : Runs s ((i, xs) :: ps) u

/-- The configurations that feeding the pieces goes through. -/
inductive Visits : σ → List (ι × List α) → σ → List α → Prop
  | here {s t : σ} {i : ι} {xs ys : List α} {ps : List (ι × List α)} (h : Passes step i s xs t ys) :
      Visits s ((i, xs) :: ps) t ys
  | later {s t u : σ} {i : ι} {xs ys : List α} {ps : List (ι × List α)} (h : Fed step i s xs t)
      (hv : Visits t ps u ys) : Visits s ((i, xs) :: ps) u ys

/-- Every step of the run is taken where `Ready` holds. -/
def Meets (Ready : σ → List α → Prop) (s : σ) (ps : List (ι × List α)) : Prop :=
  ∀ t ys, Visits step s ps t ys → ys ≠ [] → Ready t ys

/-- The stream that was cut into the pieces. -/
def stream (ps : List (ι × List α)) : List α := (ps.map Prod.snd).flatten

/-- What follows the piece makes no difference to the step, which takes items or lowers
the rank. -/
def Settles (Ready : σ → List α → Prop) (rank : σ → Nat) (s : σ) (xs : List α) : Prop :=
  ∃ s' n, n ≤ xs.length ∧ (0 < n ∨ rank s' < rank s) ∧
    ∀ i ys, Ready s (xs ++ ys) ∧ step i s (xs ++ ys) = .next s' n

/-- The step takes the whole piece, and the next one goes on as if the piece had not
ended there. -/
def Continues (Ready : σ → List α → Prop) (s : σ) (xs : List α) : Prop :=
  ∃ s', (∀ i, step i s xs = .next s' xs.length) ∧
    ∀ i ys t n, ys ≠ [] → Ready s' ys → step i s' ys = .next t n →
      Ready s (xs ++ ys) ∧ step i s (xs ++ ys) = .next t (xs.length + n)

/-- Where `Ready` holds, no step depends on where its piece ends. -/
def Resumable (Ready : σ → List α → Prop) (rank : σ → Nat) : Prop :=
  ∀ s xs, Ready s xs → xs ≠ [] → Settles step Ready rank s xs ∨ Continues step Ready s xs

theorem fed_unique {i : ι} {s t u : σ} {xs : List α} (h : Fed step i s xs t)
    (h' : Fed step i s xs u) : t = u := by
  induction h with
  | done =>
    cases h' with
    | done => rfl
    | leave hne => exact absurd rfl hne
    | next hne => exact absurd rfl hne
  | leave hne h =>
    cases h' with
    | done => exact absurd rfl hne
    | leave => rfl
    | next _ h2 => rw [h] at h2; cases h2
  | next hne h _ ih =>
    cases h' with
    | done => exact absurd rfl hne
    | leave _ h2 => rw [h] at h2; cases h2
    | next _ h2 hf2 =>
      rw [h] at h2
      cases h2
      exact ih hf2

theorem runs_unique {s t u : σ} {ps : List (ι × List α)} (h : Runs step s ps t)
    (h' : Runs step s ps u) : t = u := by
  induction h with
  | nil =>
    cases h'
    rfl
  | cons hf _ ih =>
    cases h' with
    | cons hf2 hr2 =>
      obtain rfl := fed_unique step hf hf2
      exact ih hr2

theorem passes_trans {i : ι} {s t u : σ} {xs ys zs : List α} (h : Passes step i s xs t ys)
    (h' : Passes step i t ys u zs) : Passes step i s xs u zs := by
  induction h with
  | here => exact h'
  | next hne hstep _ ih => exact .next hne hstep (ih h')

/-- Of two configurations that feeding a piece goes through, one comes first. -/
theorem passes_linear {i : ι} {s t u : σ} {xs ys zs : List α} (h : Passes step i s xs t ys)
    (h' : Passes step i s xs u zs) : Passes step i t ys u zs ∨ Passes step i u zs t ys := by
  induction h with
  | here => exact .inl h'
  | next hne hstep hp ih =>
    cases h' with
    | here => exact .inr (.next hne hstep hp)
    | next _ hstep' hp' =>
      rw [hstep] at hstep'
      cases hstep'
      exact ih hp'

theorem passes_length {i : ι} {s t : σ} {xs ys : List α} (h : Passes step i s xs t ys) :
    ys.length ≤ xs.length := by
  induction h with
  | here => exact Nat.le_refl _
  | next _ _ _ ih =>
    rw [List.length_drop] at ih
    omega

theorem passes_fed {i : ι} {s t u : σ} {xs ys : List α} (h : Passes step i s xs t ys)
    (h' : Fed step i t ys u) : Fed step i s xs u := by
  induction h with
  | here => exact h'
  | next hne hstep _ ih => exact .next hne hstep (ih h')

theorem meets_cons {Ready : σ → List α → Prop} {s : σ} {i : ι} {xs : List α}
    {ps : List (ι × List α)} : Meets step Ready s ((i, xs) :: ps) ↔
      (∀ t ys, Passes step i s xs t ys → ys ≠ [] → Ready t ys) ∧
        ∀ t, Fed step i s xs t → Meets step Ready t ps := by
  constructor
  · exact fun h => ⟨fun t ys hp => h t ys (.here hp), fun t hf u ys hv => h u ys (.later hf hv)⟩
  · rintro ⟨hpasses, hlater⟩ t ys hv
    cases hv with
    | here hp => exact hpasses t ys hp
    | later hf hv => exact hlater _ hf t ys hv

theorem meets_nil (Ready : σ → List α → Prop) (s : σ) :
    Meets step Ready s ([] : List (ι × List α)) := by
  intro t ys hv
  cases hv

theorem meets_done {Ready : σ → List α → Prop} {s : σ} {i : ι} {ps : List (ι × List α)}
    (h : Meets step Ready s ps) : Meets step Ready s ((i, []) :: ps) := by
  refine (meets_cons step).mpr ⟨fun t ys hp hne => ?_, fun t hf => ?_⟩
  · cases hp with
    | here => exact absurd rfl hne
    | next hne' => exact absurd rfl hne'
  · cases hf with
    | done => exact h
    | leave hne => exact absurd rfl hne
    | next hne => exact absurd rfl hne

theorem meets_next {Ready : σ → List α → Prop} {s s' : σ} {i : ι} {xs : List α} {n : Nat}
    {ps : List (ι × List α)} (hne : xs ≠ []) (hr : Ready s xs) (hstep : step i s xs = .next s' n)
    (h : Meets step Ready s' ((i, xs.drop n) :: ps)) : Meets step Ready s ((i, xs) :: ps) := by
  obtain ⟨hpasses, hlater⟩ := (meets_cons step).mp h
  refine (meets_cons step).mpr ⟨fun t ys hp hys => ?_, fun t hf => ?_⟩
  · cases hp with
    | here => exact hr
    | next _ h' hp =>
      rw [hstep] at h'
      cases h'
      exact hpasses t ys hp hys
  · cases hf with
    | done => exact absurd rfl hne
    | leave _ h' =>
      rw [hstep] at h'
      cases h'
    | next _ h' hf =>
      rw [hstep] at h'
      cases h'
      exact hlater t hf

/-- Feeding one piece with `Ready` at every step. -/
inductive Smooth (Ready : σ → List α → Prop) (i : ι) : σ → List α → σ → Prop
  | done {s : σ} : Smooth Ready i s [] s
  | next {s s' t : σ} {xs : List α} {n : Nat} (hne : xs ≠ []) (hr : Ready s xs)
      (h : step i s xs = .next s' n) (hf : Smooth Ready i s' (xs.drop n) t) : Smooth Ready i s xs t

variable {step} {Ready : σ → List α → Prop} {rank : σ → Nat}

theorem passes_invariant {Inv : σ → Prop}
    (hstep : ∀ i s xs s' n, Inv s → Ready s xs → step i s xs = .next s' n → Inv s') {i : ι} {s : σ}
    {xs : List α} (h : ∀ t ys, Passes step i s xs t ys → ys ≠ [] → Ready t ys) (hs : Inv s) {t : σ}
    {ys : List α} (hp : Passes step i s xs t ys) : Inv t := by
  induction hp with
  | here => exact hs
  | next hne hn _ ih =>
    exact ih (fun t ys hp => h t ys (.next hne hn hp)) (hstep _ _ _ _ _ hs (h _ _ .here hne) hn)

theorem fed_passes {i : ι} {s t : σ} {xs : List α} (h : Fed step i s xs t) :
    ∃ ys, Passes step i s xs t ys := by
  induction h with
  | done => exact ⟨_, .here⟩
  | leave hne h => exact ⟨_, .here⟩
  | next hne h _ ih =>
    obtain ⟨ys, hp⟩ := ih
    exact ⟨ys, .next hne h hp⟩

/-- What holds at first and is kept by every step holds wherever the run comes. -/
theorem visits_invariant {Inv : σ → Prop}
    (hstep : ∀ i s xs s' n, Inv s → Ready s xs → step i s xs = .next s' n → Inv s') {s : σ}
    {ps : List (ι × List α)} (h : Meets step Ready s ps) (hs : Inv s) {t : σ} {ys : List α}
    (hv : Visits step s ps t ys) : Inv t := by
  induction hv with
  | here hp => exact passes_invariant hstep ((meets_cons step).mp h).1 hs hp
  | later hf _ ih =>
    obtain ⟨hpasses, hlater⟩ := (meets_cons step).mp h
    obtain ⟨zs, hp⟩ := fed_passes hf
    exact ih (hlater _ hf) (passes_invariant hstep hpasses hs hp)

theorem smooth_fed {i : ι} {s t : σ} {xs : List α} (h : Smooth step Ready i s xs t) :
    Fed step i s xs t := by
  induction h with
  | done => exact .done
  | next hne _ h _ ih => exact .next hne h ih

theorem resumable_moves (hs : Resumable step Ready rank) (i : ι) {s : σ} {xs : List α}
    (hr : Ready s xs) (hne : xs ≠ []) :
    ∃ s' n, step i s xs = .next s' n ∧ (0 < n ∨ rank s' < rank s) := by
  rcases hs s xs hr hne with ⟨s', n, _, hdown, hall⟩ | ⟨s', hall, _⟩
  · have hstep := (hall i []).2
    rw [List.append_nil] at hstep
    exact ⟨s', n, hstep, hdown⟩
  · exact ⟨s', xs.length, hall i, Or.inl (List.length_pos_iff.mpr hne)⟩

/-- A piece whose steps are all taken where `Ready` holds is fed to its end. -/
theorem smooth_ends (hs : Resumable step Ready rank) {i : ι} {s : σ} {xs : List α}
    (h : ∀ t ys, Passes step i s xs t ys → ys ≠ [] → Ready t ys) :
    ∃ t, Smooth step Ready i s xs t := by
  -- a step takes items or lowers the rank
  induction hlen : xs.length using Nat.strong_induction_on generalizing s xs with
  | _ len ihlen =>
    induction hrank : rank s using Nat.strong_induction_on generalizing s with
    | _ r ihrank =>
      by_cases hne : xs = []
      · subst hne
        exact ⟨s, .done⟩
      · have hready := h s xs .here hne
        obtain ⟨s', n, hstep, hdown⟩ := resumable_moves hs i hready hne
        have hlater : ∀ t ys, Passes step i s' (xs.drop n) t ys → ys ≠ [] → Ready t ys :=
          fun t ys hp => h t ys (.next hne hstep hp)
        obtain ⟨t, ht⟩ : ∃ t, Smooth step Ready i s' (xs.drop n) t := by
          by_cases hn : 0 < n
          · have hpos := List.length_pos_iff.mpr hne
            exact ihlen _ (by rw [List.length_drop]; omega) hlater rfl
          · obtain rfl : n = 0 := by omega
            exact ihrank _ (by omega) hlater rfl
        exact ⟨t, .next hne hready hstep ht⟩

/-- Two pieces fed one after the other are one piece. -/
theorem smooth_append (hs : Resumable step Ready rank) {i j : ι} {s t u : σ} {xs ys : List α}
    (hx : Smooth step Ready i s xs t) (hy : Smooth step Ready j t ys u) :
    Smooth step Ready j s (xs ++ ys) u := by
  induction hx with
  | done => exact hy
  | @next s s' t xs n hne hr h hf ih =>
    rcases hs _ _ hr hne with ⟨s₁, k, hk, _, hall⟩ | ⟨s₁, hall, hgo⟩
    · have hi := (hall i []).2
      rw [List.append_nil, h] at hi
      cases hi
      obtain ⟨hready, hstep⟩ := hall j ys
      refine .next (by simp [hne]) hready hstep ?_
      rw [List.drop_append_of_le_length hk]
      exact ih hy
    · -- the first piece ends in the middle of what the next step completes
      have hi := hall i
      rw [h] at hi
      cases hi
      rw [List.drop_length] at hf
      cases hf with
      | next hne' => exact absurd rfl hne'
      | done =>
        cases hy with
        | done =>
          rw [List.append_nil]
          exact .next hne hr (hall j) (by rw [List.drop_length]; exact .done)
        | next hne' hr' h' hf' =>
          obtain ⟨hready, hstep⟩ := hgo j _ _ _ hne' hr' h'
          refine .next (by simp [hne]) hready hstep ?_
          rw [List.drop_append, List.drop_eq_nil_of_le (Nat.le_add_right _ _), List.nil_append,
            Nat.add_sub_cancel_left]
          exact hf'

/-- A run whose steps are all taken where `Ready` holds ends, and ends as if its
stream had come in one piece. -/
theorem meets_runs (hs : Resumable step Ready rank) {s : σ} {ps : List (ι × List α)}
    (h : Meets step Ready s ps) :
    ∃ t, Runs step s ps t ∧ ∀ j, Smooth step Ready j s (stream ps) t := by
  induction ps generalizing s with
  | nil => exact ⟨s, .nil, fun _ => .done⟩
  | cons p ps ih =>
    obtain ⟨i, xs⟩ := p
    obtain ⟨hpasses, hlater⟩ := (meets_cons step).mp h
    obtain ⟨t, ht⟩ := smooth_ends hs hpasses
    obtain ⟨u, hruns, hsmooth⟩ := ih (hlater t (smooth_fed ht))
    exact ⟨u, .cons (smooth_fed ht) hruns, fun j => smooth_append hs ht (hsmooth j)⟩

/-- Two ways of cutting one stream end in one state, if `Ready` holds at every step. -/
theorem cut_invariant (hs : Resumable step Ready rank) {s : σ} {ps qs : List (ι × List α)}
    (hcut : stream ps = stream qs) (hp : Meets step Ready s ps) (hq : Meets step Ready s qs) :
    ∃ t, Runs step s ps t ∧ Runs step s qs t := by
  obtain ⟨t, hpt, hsmooth⟩ := meets_runs hs hp
  obtain ⟨u, hqu, hsmooth'⟩ := meets_runs hs hq
  cases ps with
  | nil =>
    cases hpt
    rw [← hcut] at hsmooth'
    cases qs with
    | nil => cases hqu; exact ⟨_, .nil, .nil⟩
    | cons q qs => exact ⟨u, by cases hsmooth' q.1 with
      | done => exact .nil
      | next hne => exact absurd rfl hne, hqu⟩
  | cons p ps =>
    have hsame := fed_unique step (smooth_fed (hsmooth p.1)) (by
      rw [hcut]
      exact smooth_fed (hsmooth' p.1))
    subst hsame
    exact ⟨t, hpt, hqu⟩

/-! A machine that agrees with another wherever `Ready` holds. -/

section
variable {step' : ι → σ → List α → Verdict σ} {Ready' : σ → List α → Prop}

theorem passes_agree {i : ι} {s t : σ} {xs ys : List α}
    (hsame : ∀ i s xs, Ready s xs → xs ≠ [] → step' i s xs = step i s xs)
    (hr : ∀ t ys, Passes step i s xs t ys → ys ≠ [] → Ready t ys)
    (h : Passes step' i s xs t ys) : Passes step i s xs t ys := by
  induction h with
  | here => exact .here
  | next hne h _ ih =>
    rw [hsame _ _ _ (hr _ _ .here hne) hne] at h
    exact .next hne h (ih (fun t ys hp => hr t ys (.next hne h hp)))

theorem fed_agree {i : ι} {s t : σ} {xs : List α}
    (hsame : ∀ i s xs, Ready s xs → xs ≠ [] → step' i s xs = step i s xs)
    (hr : ∀ t ys, Passes step i s xs t ys → ys ≠ [] → Ready t ys)
    (h : Fed step' i s xs t) : Fed step i s xs t := by
  induction h with
  | done => exact .done
  | leave hne h =>
    rw [hsame _ _ _ (hr _ _ .here hne) hne] at h
    exact .leave hne h
  | next hne h _ ih =>
    rw [hsame _ _ _ (hr _ _ .here hne) hne] at h
    exact .next hne h (ih (fun t ys hp => hr t ys (.next hne h hp)))

theorem meets_agree {s : σ} {ps : List (ι × List α)}
    (hsame : ∀ i s xs, Ready s xs → xs ≠ [] → step' i s xs = step i s xs)
    (himp : ∀ s xs, Ready s xs → Ready' s xs) (h : Meets step Ready s ps) :
    Meets step' Ready' s ps ∧ ∀ t, Runs step' s ps t → Runs step s ps t := by
  induction ps generalizing s with
  | nil => exact ⟨fun t ys hv => (nomatch hv), fun t ht => by cases ht; exact .nil⟩
  | cons p ps ih =>
    obtain ⟨i, xs⟩ := p
    obtain ⟨hpasses, hlater⟩ := (meets_cons step).mp h
    refine ⟨(meets_cons step').mpr ⟨fun t ys hp hne => himp _ _ (hpasses t ys (passes_agree hsame hpasses hp) hne),
      fun t ht => (ih (hlater t (fed_agree hsame hpasses ht))).1⟩, ?_⟩
    intro t ht
    cases ht with
    | cons hf hr =>
      have hfed := fed_agree hsame hpasses hf
      exact .cons hfed ((ih (hlater _ hfed)).2 _ hr)

end

end

end Yclib.Feed
