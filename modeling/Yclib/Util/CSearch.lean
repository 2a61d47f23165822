import Mathlib.Data.List.Infix
import Mathlib.Data.List.TakeWhile
import Yclib.Util.CString

namespace Yclib

/-! Searches in strings, with offsets for the pointers that they return. -/

/-- `rns_strchr`, which stops at the NUL. -/
def rnsStrchr (delim : UInt8) : List UInt8 → Option Nat
  | [] => none
  | b :: bs => if b = delim then some 0 else if b = 0 then none else (rnsStrchr delim bs).map (· + 1)

/-- `rns_strrchr`. -/
def rnsStrrchr (delim : UInt8) : List UInt8 → Option Nat
  | [] => none
  | b :: bs =>
    match rnsStrrchr delim bs with
    | some i => some (i + 1)
    | none => if b = delim then some 0 else none

/-- `rns_strstr`. -/
def rnsStrstr (sub : List UInt8) : List UInt8 → Option Nat
  | [] => if sub = [] then some 0 else none
  | b :: bs => if sub <+: b :: bs then some 0 else (rnsStrstr sub bs).map (· + 1)

section
variable {delim : UInt8} {sub xs ys : List UInt8}

theorem c_string_plain (h : 0 ∉ xs) : cString xs = xs := by
  rw [cString, List.takeWhile_eq_self_iff]
  intro b hb
  have hne : b ≠ 0 := fun hzero => h (hzero ▸ hb)
  simpa using hne

/-- What the functions see in front of the NUL. -/
theorem c_string_nul (h : 0 ∉ xs) : cString (xs ++ 0 :: ys) = xs := by
  rw [cString, List.takeWhile_append_of_pos]
  · simp
  · intro b hb
    have hne : b ≠ 0 := fun he => h (he ▸ hb)
    simpa using hne

theorem strchr_none (h : delim ∉ xs) (hnul : delim ≠ 0) : rnsStrchr delim (xs ++ [0]) = none := by
  induction xs with
  | nil => rw [List.nil_append, rnsStrchr, if_neg (Ne.symm hnul), if_pos rfl]
  | cons b bs ih =>
    simp only [List.mem_cons, not_or] at h
    rw [List.cons_append, rnsStrchr, if_neg (Ne.symm h.1), ih h.2]
    split <;> rfl

/-- The first delimiter is the one with none in front of it. -/
theorem strchr_first (h : delim ∉ xs) (hnul : 0 ∉ xs) : rnsStrchr delim (xs ++ delim :: ys) = some xs.length := by
  induction xs with
  | nil => rw [List.nil_append, rnsStrchr, if_pos rfl, List.length_nil]
  | cons b bs ih =>
    simp only [List.mem_cons, not_or] at h hnul
    rw [List.cons_append, rnsStrchr, if_neg (Ne.symm h.1), if_neg (Ne.symm hnul.1), ih h.2 hnul.2]
    rfl

/-- What is in a string is in it for a last time. -/
theorem last_split (h : delim ∈ xs) : ∃ front back, xs = front ++ delim :: back ∧ delim ∉ back := by
  obtain ⟨back, front, hsplit, hnot⟩ := List.eq_append_cons_of_mem (List.mem_reverse.mpr h)
  refine ⟨front.reverse, back.reverse, ?_, fun hm => hnot (List.mem_reverse.mp hm)⟩
  rw [← List.reverse_reverse xs, hsplit]
  simp

theorem strrchr_none (h : delim ∉ xs) : rnsStrrchr delim xs = none := by
  induction xs with
  | nil => rfl
  | cons b bs ih =>
    simp only [List.mem_cons, not_or] at h
    rw [rnsStrrchr, ih h.2]
    exact if_neg (Ne.symm h.1)

/-- The last delimiter is the one with none behind it. -/
theorem strrchr_last (h : delim ∉ ys) : rnsStrrchr delim (xs ++ delim :: ys) = some xs.length := by
  induction xs with
  | nil =>
    rw [List.nil_append, rnsStrrchr, strrchr_none h]
    exact if_pos rfl
  | cons b bs ih =>
    rw [List.cons_append, rnsStrrchr, ih]
    rfl

/-- What `strrchr` has found is there. -/
theorem strrchr_lt {i : Nat} (h : rnsStrrchr delim xs = some i) : i < xs.length := by
  by_cases hm : delim ∈ xs
  · obtain ⟨front, back, rfl, hback⟩ := last_split hm
    rw [strrchr_last hback] at h
    cases h
    rw [List.length_append, List.length_cons]
    omega
  · rw [strrchr_none hm] at h
    cases h

theorem strstr_none (h : ¬ sub <:+: xs) : rnsStrstr sub xs = none := by
  induction xs with
  | nil =>
    rw [rnsStrstr, if_neg]
    rintro rfl
    exact h List.infix_rfl
  | cons b bs ih =>
    rw [rnsStrstr, if_neg fun hpre => h hpre.isInfix, ih fun hin => h (hin.trans (List.infix_cons List.infix_rfl))]
    rfl

/-- What is there is found, and nothing behind it. -/
theorem strstr_le (xs sub ys : List UInt8) : ∃ i ≤ xs.length, rnsStrstr sub (xs ++ sub ++ ys) = some i := by
  induction xs with
  | nil =>
    refine ⟨0, Nat.le_refl 0, ?_⟩
    cases hsub : sub ++ ys with
    | nil =>
      rw [List.nil_append, hsub]
      exact if_pos (List.append_eq_nil_iff.mp hsub).1
    | cons b bs =>
      rw [List.nil_append, hsub]
      exact if_pos (hsub ▸ List.prefix_append sub ys)
  | cons b bs ih =>
    obtain ⟨i, hi, hfound⟩ := ih
    by_cases hpre : sub <+: b :: (bs ++ sub ++ ys)
    · exact ⟨0, Nat.zero_le _, if_pos hpre⟩
    · refine ⟨i + 1, Nat.succ_le_succ hi, ?_⟩
      rw [List.cons_append, List.cons_append, rnsStrstr, if_neg hpre, hfound]
      rfl

/-- What `strstr` has found is there. -/
theorem strstr_split {i : Nat} (h : rnsStrstr sub xs = some i) : ∃ front back, xs = front ++ sub ++ back ∧ front.length = i := by
  induction xs generalizing i with
  | nil =>
    rw [rnsStrstr] at h
    split at h
    · rename_i hsub
      cases h
      exact ⟨[], [], by rw [hsub]; rfl, rfl⟩
    · cases h
  | cons b bs ih =>
    rw [rnsStrstr] at h
    split at h
    · rename_i hpre
      cases h
      obtain ⟨back, hback⟩ := hpre
      exact ⟨[], back, hback.symm, rfl⟩
    · obtain ⟨j, hj, rfl⟩ := Option.map_eq_some_iff.mp h
      obtain ⟨front, back, rfl, rfl⟩ := ih hj
      exact ⟨b :: front, back, rfl, rfl⟩

theorem strstr_end {i : Nat} (h : rnsStrstr sub xs = some i) : i + sub.length ≤ xs.length := by
  obtain ⟨front, back, rfl, rfl⟩ := strstr_split h
  rw [List.length_append, List.length_append]
  exact Nat.le_add_right _ _

/-- A string that begins with another byte is not found at once. -/
theorem strstr_behind {b c : UInt8} {cs : List UInt8} (h : c ≠ b) : rnsStrstr (c :: cs) (b :: xs) ≠ some 0 := by
  rw [rnsStrstr, if_neg fun hpre => h (List.cons_prefix_cons.mp hpre).1]
  intro hzero
  obtain ⟨i, -, hi⟩ := Option.map_eq_some_iff.mp hzero
  exact absurd hi (Nat.succ_ne_zero i)

/-- A string whose first byte does not come again in it cannot be found across its own beginning. -/
theorem not_prefix_across {b c : UInt8} {cs : List UInt8} (ys : List UInt8) (hc : c ∉ cs) (h : ¬ c :: cs <:+: b :: xs) :
    ¬ c :: cs <+: b :: xs ++ c :: cs ++ ys := by
  intro hpre
  rw [List.append_assoc] at hpre
  rcases List.prefix_or_prefix_of_prefix hpre (List.prefix_append (b :: xs) _) with hin | ⟨rest, hrest⟩
  · exact h hin.isInfix
  · have hrear : rest <+: c :: cs ++ ys := by
      rw [← List.prefix_append_right_inj (b :: xs), hrest]
      exact hpre
    cases rest with
    | nil =>
      rw [List.append_nil] at hrest
      exact h (hrest ▸ List.infix_rfl)
    | cons d ds =>
      obtain ⟨rfl, -⟩ := List.cons_prefix_cons.mp hrear
      obtain ⟨-, htail⟩ := List.cons.inj hrest
      apply hc
      rw [← htail]
      simp

theorem strstr_first {c : UInt8} {cs : List UInt8} (hc : c ∉ cs) (h : ¬ c :: cs <:+: xs) :
    rnsStrstr (c :: cs) (xs ++ c :: cs ++ ys) = some xs.length := by
  induction xs with
  | nil => exact if_pos (List.prefix_append (c :: cs) ys)
  | cons b bs ih =>
    have hnot := not_prefix_across ys hc h
    rw [List.cons_append, List.cons_append] at hnot ⊢
    rw [rnsStrstr, if_neg hnot, ih fun hin => h (hin.trans (List.infix_cons List.infix_rfl))]
    rfl

/-- A string without the delimiter lies on one side of it. -/
theorem infix_around (hd : delim ∉ sub) (h : sub <:+: xs ++ delim :: ys) : sub <:+: xs ∨ sub <:+: ys := by
  obtain ⟨s, t, h⟩ := h
  rcases List.append_eq_append_iff.mp h with ⟨a, rfl, -⟩ | ⟨a, hs, ha⟩
  · left
    exact ⟨s, a, rfl⟩
  · cases a with
    | nil =>
      left
      rw [List.append_nil] at hs
      exact ⟨s, [], by rw [List.append_nil, hs]⟩
    | cons b a =>
      obtain ⟨rfl, rfl⟩ := List.cons.inj ha
      rcases List.append_eq_append_iff.mp hs with ⟨b, -, hsub⟩ | ⟨b, -, hb⟩
      · exact absurd (hsub ▸ by simp) hd
      · cases b with
        | nil => exact absurd (show delim ∈ sub by rw [← List.nil_append sub, ← hb]; simp) hd
        | cons c b =>
          right
          obtain ⟨-, rfl⟩ := List.cons.inj hb
          exact ⟨b, t, rfl⟩

/-- Behind a delimiter that the string does not have, the search goes on. -/
theorem strstr_skip (hd : delim ∉ sub) (h : ¬ sub <:+: xs) :
    rnsStrstr sub (xs ++ delim :: ys) = (rnsStrstr sub ys).map (· + (xs.length + 1)) := by
  have hpre : ∀ zs, ¬ sub <:+: zs → ¬ sub <+: zs ++ delim :: ys := by
    intro zs hnot hpre
    rcases List.prefix_or_prefix_of_prefix hpre (List.prefix_append zs _) with hin | ⟨rest, rfl⟩
    · exact hnot hin.isInfix
    · rw [List.prefix_append_right_inj] at hpre
      cases rest with
      | nil => exact hnot (by simp)
      | cons c rest =>
        obtain ⟨rfl, -⟩ := List.cons_prefix_cons.mp hpre
        simp at hd
  induction xs with
  | nil =>
    have hnil := hpre [] h
    rw [List.nil_append] at hnil ⊢
    rw [rnsStrstr, if_neg hnil]
    rfl
  | cons b bs ih =>
    have hbs : ¬ sub <:+: bs := fun hin => h (hin.trans (List.infix_cons List.infix_rfl))
    have hcons := hpre (b :: bs) h
    rw [List.cons_append] at hcons ⊢
    rw [rnsStrstr, if_neg hcons, ih hbs, Option.map_map]
    rfl

end

end Yclib
