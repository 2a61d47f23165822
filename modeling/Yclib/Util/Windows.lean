import Mathlib.Data.List.Basic
import Mathlib.Order.Lattice

namespace Yclib.Windows

/-! Following items that are shown through a sliding window, where only the last one that was taken is remembered. -/

variable {ι α : Type*} [LinearOrder α]

/-- The item that is remembered, and what was taken. -/
structure Seen (ι : Type*) where
  last : ι
  taken : List ι

/-- An item is taken if it is above the one that is remembered. -/
def look (key : ι → α) (seen : Seen ι) (item : ι) : Seen ι :=
  if key item ≤ key seen.last then seen else ⟨item, seen.taken ++ [item]⟩

def poll (key : ι → α) (seen : Seen ι) (window : List ι) : Seen ι := window.foldl (look key) seen

/-- What comes into the window is above all that was in it, and what has left it is below all that is. -/
structure Slides (less : ι → ι → Prop) (window window' : List ι) : Prop where
  enter : ∀ item ∈ window', item ∈ window ∨ ∀ x ∈ window, less x item
  leave : ∀ item ∈ window, item ∈ window' ∨ ∀ x ∈ window', less item x

/-- After all that was shown, of which the window came last. -/
structure Following (key : ι → α) (first : ι) (shown window : List ι) (seen : Seen ι) : Prop where
  increasing : seen.taken.Pairwise fun a b => key a < key b
  complete : ∀ item, item ∈ seen.taken ↔ item ∈ shown ∧ key first < key item
  last : seen.last = seen.taken.getLast?.getD first
  inside : seen.last ∈ window
  within : ∀ item ∈ window, item ∈ shown
  bottom : ∀ item ∈ shown, key first ≤ key item
  top : ∀ item ∈ shown, key item ≤ key seen.last

section
variable {key : ι → α} {first : ι} {shown window window' : List ι} {seen : Seen ι}

/-- Of an increasing window all that is above the remembered item is taken. -/
theorem poll_increasing (h : window.Pairwise fun a b => key a < key b) (seen : Seen ι) :
    poll key seen window = ⟨(window.filter (key seen.last < key ·)).getLast?.getD seen.last,
      seen.taken ++ window.filter (key seen.last < key ·)⟩ := by
  induction window generalizing seen with
  | nil => simp [poll]
  | cons item items ih =>
    rw [List.pairwise_cons] at h
    have hstep : poll key seen (item :: items) = poll key (look key seen item) items := rfl
    rw [hstep, ih h.2, look]
    by_cases hle : key item ≤ key seen.last
    · rw [if_pos hle, List.filter_cons_of_neg (by simpa using hle)]
    · have habove : ∀ x ∈ items, key item < key x := h.1
      have hlast : ∀ x ∈ items, key seen.last < key x := fun x hx => (not_le.mp hle).trans (habove x hx)
      rw [if_neg hle, List.filter_cons_of_pos (by simpa using not_le.mp hle)]
      rw [List.filter_eq_self.mpr fun x hx => by simpa using habove x hx]
      rw [List.filter_eq_self.mpr fun x hx => by simpa using hlast x hx]
      rw [List.getLast?_cons, Option.getD_some, List.append_assoc, List.singleton_append]

/-- What is remembered of increasing items is above all of them. -/
theorem last_top {items : List ι} {last : ι} (hsorted : items.Pairwise fun a b => key a < key b)
    (habove : ∀ item ∈ items, key last < key item) : key last ≤ key (items.getLast?.getD last) ∧
      ∀ item ∈ items, key item ≤ key (items.getLast?.getD last) := by
  rcases List.eq_nil_or_concat items with rfl | ⟨front, newest, hsplit⟩
  · simp
  · rw [List.concat_eq_append] at hsplit
    subst hsplit
    rw [List.getLast?_concat, Option.getD_some]
    refine ⟨(habove newest (by simp)).le, ?_⟩
    intro item hm
    rcases List.mem_append.mp hm with hm | hm
    · exact ((List.pairwise_append.mp hsorted).2.2 item hm newest (List.mem_singleton_self newest)).le
    · rw [List.mem_singleton.mp hm]

/-- One more window. -/
theorem Following.poll (h : Following key first shown window seen)
    (hslides : Slides (fun a b => key a < key b) window window') (hne : window' ≠ [])
    (hincreasing : window'.Pairwise fun a b => key a < key b) :
    Following key first (shown ++ window') window' (poll key seen window') := by
  obtain ⟨news, hnews⟩ : ∃ news, news = window'.filter (key seen.last < key ·) := ⟨_, rfl⟩
  have hmem : ∀ item, item ∈ news ↔ item ∈ window' ∧ key seen.last < key item := by
    intro item
    rw [hnews, List.mem_filter, decide_eq_true_iff]
  -- what is not above the remembered item has been shown before
  have hold : ∀ item ∈ window', ¬ key seen.last < key item → item ∈ shown := by
    intro item hm hle
    rcases hslides.enter item hm with hm | habove
    · exact h.within item hm
    · exact absurd (habove seen.last h.inside) hle
  have hfirst : key first ≤ key seen.last := h.bottom seen.last (h.within seen.last h.inside)
  rw [poll_increasing hincreasing, ← hnews]
  obtain ⟨last, hlast⟩ : ∃ last, last = news.getLast?.getD seen.last := ⟨_, rfl⟩
  rw [← hlast]
  have hsorted : news.Pairwise fun a b => key a < key b := hnews ▸ hincreasing.filter _
  obtain ⟨hlower, htop⟩ := last_top hsorted fun item hm => ((hmem item).mp hm).2
  rw [← hlast] at hlower htop
  constructor
  · apply List.pairwise_append.mpr
    refine ⟨h.increasing, hsorted, ?_⟩
    intro a ha b hb
    exact (h.top a ((h.complete a).mp ha).1).trans_lt ((hmem b).mp hb).2
  · intro item
    simp only [List.mem_append]
    rw [h.complete, hmem]
    constructor
    · rintro (⟨hm, hlt⟩ | ⟨hm, hlt⟩)
      · exact ⟨.inl hm, hlt⟩
      · exact ⟨.inr hm, hfirst.trans_lt hlt⟩
    · rintro ⟨hm | hm, hlt⟩
      · exact .inl ⟨hm, hlt⟩
      · by_cases habove : key seen.last < key item
        · exact .inr ⟨hm, habove⟩
        · exact .inl ⟨hold item hm habove, hlt⟩
  · rw [hlast, List.getLast?_append]
    cases news.getLast? with
    | none => exact h.last
    | some item => rfl
  · rw [hlast]
    cases hnew : news.getLast? with
    | some item => exact ((hmem item).mp (List.mem_of_getLast? hnew)).1
    | none =>
      -- nothing is above it, so it is still in the window
      rw [List.getLast?_eq_none_iff] at hnew
      rcases hslides.leave seen.last h.inside with hm | hbelow
      · exact hm
      · obtain ⟨item, hm⟩ := List.exists_mem_of_ne_nil window' hne
        have hitem := (hmem item).mpr ⟨hm, hbelow item hm⟩
        rw [hnew] at hitem
        cases hitem
  · intro item hm
    exact List.mem_append_right _ hm
  · intro item hm
    rcases List.mem_append.mp hm with hm | hm
    · exact h.bottom item hm
    · by_cases habove : key seen.last < key item
      · exact hfirst.trans habove.le
      · exact h.bottom item (hold item hm habove)
  · intro item hm
    rcases List.mem_append.mp hm with hm | hm
    · exact (h.top item hm).trans hlower
    · by_cases habove : key seen.last < key item
      · exact htop item ((hmem item).mpr ⟨hm, habove⟩)
      · exact (h.top item (hold item hm habove)).trans hlower

/-- The first item, with nothing taken. -/
theorem following_first (first : ι) : Following key first [first] [first] ⟨first, []⟩ where
  increasing := List.Pairwise.nil
  complete := by
    intro item
    simp only [List.not_mem_nil, List.mem_singleton, false_iff, not_and]
    rintro rfl
    exact lt_irrefl _
  last := rfl
  inside := List.mem_singleton_self first
  within := fun _ hm => hm
  bottom := by
    intro item hm
    rw [List.mem_singleton.mp hm]
  top := by
    intro item hm
    rw [List.mem_singleton.mp hm]

/-- The first window is reached from its first item. -/
theorem slides_first (h : (first :: window).Pairwise fun a b => key a < key b) :
    Slides (fun a b => key a < key b) [first] (first :: window) where
  enter := by
    intro item hm
    rcases List.mem_cons.mp hm with rfl | hm
    · exact .inl (List.mem_singleton_self item)
    · refine .inr fun x hx => ?_
      rw [List.mem_singleton.mp hx]
      exact (List.pairwise_cons.mp h).1 item hm
  leave := by
    intro item hm
    rw [List.mem_singleton.mp hm]
    exact .inl List.mem_cons_self

end

end Yclib.Windows
