import Yclib.Feed.Cut

namespace Yclib.Feed

/-! Pieces that are made up of whole items, each of which a machine takes. -/

universe u v w x y

section
variable {ι : Type w} {σ : Type u} {α : Type v} {τ : Type x} {κ : Type y}

-- The items are followed by `τ`, which says what has come of those before.
variable (add : τ → κ → τ)

/-- What holds of every item, as those before it leave it. -/
def Along (P : τ → κ → Prop) : τ → List κ → Prop
  | _, [] => True
  | t, item :: items => P t item ∧ Along P (add t item) items

theorem along_append {P : τ → κ → Prop} {t : τ} {xs ys : List κ} :
    Along add P t (xs ++ ys) ↔ Along add P t xs ∧ Along add P (xs.foldl add t) ys := by
  induction xs generalizing t with
  | nil => simp [Along]
  | cons item xs ih => simp only [List.cons_append, Along, ih, and_assoc, List.foldl_cons]

theorem along_mono {P Q : τ → κ → Prop} {t : τ} {items : List κ} (hpq : ∀ t item, P t item → Q t item)
    (h : Along add P t items) : Along add Q t items := by
  induction items generalizing t with
  | nil => trivial
  | cons item items ih => exact ⟨hpq _ _ h.1, ih h.2⟩

variable (step : ι → σ → List α → Verdict σ) (wire : κ → List α)

/-- Wherever the invariant holds, an item that may come is taken, and the invariant holds again. -/
def Takes (P : τ → κ → Prop) (Inv : σ → τ → Prop) : Prop :=
  ∀ i s t item ys, Inv s t → P t item →
    ∃ s', Passes step i s (wire item ++ ys) s' ys ∧ Inv s' (add t item)

variable {add step wire} {P : τ → κ → Prop} {Inv : σ → τ → Prop}

theorem items_pass (htakes : Takes add step wire P Inv) (i : ι) {s : σ} {t : τ} {items : List κ}
    (hinv : Inv s t) (hp : Along add P t items) (ys : List α) :
    ∃ s', Passes step i s (items.flatMap wire ++ ys) s' ys ∧ Inv s' (items.foldl add t) := by
  induction items generalizing s t with
  | nil => exact ⟨s, .here, hinv⟩
  | cons item items ih =>
    obtain ⟨s', hpass, hinv'⟩ := htakes i s t item (items.flatMap wire ++ ys) hinv hp.1
    obtain ⟨s'', hpass', hinv''⟩ := ih hinv' hp.2
    refine ⟨s'', ?_, hinv''⟩
    rw [List.flatMap_cons, List.append_assoc]
    exact passes_trans _ hpass hpass'

/-- However the items are grouped into pieces. -/
theorem items_run (htakes : Takes add step wire P Inv) {s : σ} {t : τ} {reads : List (ι × List κ)}
    (hinv : Inv s t) (hp : Along add P t (reads.flatMap Prod.snd)) :
    ∃ s', Runs step s (reads.map fun read => (read.1, read.2.flatMap wire)) s' ∧
      Inv s' ((reads.flatMap Prod.snd).foldl add t) := by
  induction reads generalizing s t with
  | nil => exact ⟨s, .nil, hinv⟩
  | cons read reads ih =>
    rw [List.flatMap_cons] at hp ⊢
    obtain ⟨hfirst, hlater⟩ := (along_append add).mp hp
    obtain ⟨s', hpass, hinv'⟩ := items_pass htakes read.1 hinv hfirst []
    obtain ⟨s'', hruns, hinv''⟩ := ih hinv' hlater
    rw [List.append_nil] at hpass
    refine ⟨s'', .cons (passes_fed _ hpass .done) hruns, ?_⟩
    rw [List.foldl_append]
    exact hinv''

end

end Yclib.Feed
