import Mathlib.Data.List.Infix
import Mathlib.Data.List.TakeWhile

namespace Yclib.Looks

/-! How many bytes the string functions look at, up to the one where they stop. -/

/-- A search for `sub`: up to the end of the first one, or to the NUL. Where the memory ends
it looks at the byte behind. -/
def searched (sub : List UInt8) : List UInt8 → Nat
  | [] => 1
  | b :: bs => if sub <+: b :: bs then sub.length else if b = 0 then 1 else searched sub bs + 1

/-- A loop over bytes with a property. -/
def spanned (p : UInt8 → Bool) : List UInt8 → Nat
  | [] => 1
  | b :: bs => if p b then spanned p bs + 1 else 1

/-- A comparison of at most `n` bytes. -/
def compared : List UInt8 → List UInt8 → Nat → Nat
  | _, _, 0 => 0
  | str, lit, n + 1 =>
    let a := str.headD 0
    if a = lit.headD 0 ∧ a ≠ 0 then compared str.tail lit.tail n + 1 else 1

/-- A search comes to its end in these bytes. -/
def Ends (sub bs : List UInt8) : Prop := sub <:+: bs ∨ 0 ∈ bs

section
variable {sub bs behind : List UInt8} {p : UInt8 → Bool}

theorem compared_le (str lit : List UInt8) (n : Nat) : compared str lit n ≤ n := by
  induction n generalizing str lit with
  | zero => exact le_refl 0
  | succ n ih =>
    rw [compared]
    split
    · exact Nat.succ_le_succ (ih str.tail lit.tail)
    · exact Nat.succ_le_succ (Nat.zero_le n)

/-- A search stays in the bytes where it comes to its end in them, whatever is behind. -/
theorem searched_le (hsub : sub ≠ []) (hnul : 0 ∉ sub) :
    searched sub (bs ++ behind) ≤ bs.length ↔ Ends sub bs := by
  induction bs with
  | nil =>
    have hpos : 0 < searched sub behind := by
      cases behind with
      | nil => exact Nat.one_pos
      | cons b behind =>
        rw [searched]
        split
        · exact List.length_pos_of_ne_nil hsub
        · split
          · exact Nat.one_pos
          · exact Nat.succ_pos _
    simp only [List.nil_append, List.length_nil, Ends, List.not_mem_nil, or_false, List.infix_nil]
    exact iff_of_false (Nat.not_le_of_gt hpos) hsub
  | cons b bs ih =>
    rw [List.cons_append, searched]
    by_cases hfull : sub <+: b :: bs
    · have hpre : sub <+: b :: (bs ++ behind) := hfull.trans (List.prefix_append (b :: bs) behind)
      rw [if_pos hpre]
      exact iff_of_true hfull.length_le (.inl hfull.isInfix)
    by_cases hpre : sub <+: b :: (bs ++ behind)
    · -- the string goes on behind the bytes, so all of them are in it
      rw [if_pos hpre]
      have hin : b :: bs <+: sub := by
        rcases List.prefix_or_prefix_of_prefix hpre (List.prefix_append (b :: bs) behind) with h | h
        · exact absurd h hfull
        · exact h
      have hlonger : (b :: bs).length < sub.length := by
        by_contra hle
        exact hfull ((hin.eq_of_length_le (not_lt.mp hle)) ▸ List.prefix_rfl)
      apply iff_of_false (Nat.not_le_of_gt hlonger)
      intro hends
      rcases hends with hends | hends
      · exact Nat.not_le_of_gt hlonger hends.length_le
      · exact hnul (hin.subset hends)
    rw [if_neg hpre]
    by_cases hzero : b = 0
    · rw [if_pos hzero]
      exact iff_of_true (by simp) (.inr (hzero ▸ List.mem_cons_self))
    · have hiff : Ends sub (b :: bs) ↔ Ends sub bs := by
        simp only [Ends, List.infix_cons_iff, List.mem_cons, hfull, false_or, Ne.symm hzero]
      rw [if_neg hzero, List.length_cons, Nat.succ_le_succ_iff, hiff, ih]

/-- A loop stays in the bytes where one of them ends it. -/
theorem spanned_le : spanned p (bs ++ behind) ≤ bs.length ↔ ∃ b ∈ bs, p b = false := by
  induction bs with
  | nil =>
    have hpos : 0 < spanned p behind := by
      cases behind with
      | nil => exact Nat.one_pos
      | cons b behind =>
        rw [spanned]
        split
        · exact Nat.succ_pos _
        · exact Nat.one_pos
    apply iff_of_false (Nat.not_le_of_gt hpos)
    rintro ⟨b, hb, -⟩
    cases hb
  | cons b bs ih =>
    rw [List.cons_append, spanned]
    by_cases hb : p b
    · rw [if_pos hb, List.length_cons, Nat.succ_le_succ_iff, ih]
      simp [hb]
    · rw [if_neg hb]
      exact iff_of_true (by simp) ⟨b, List.mem_cons_self, by simpa using hb⟩

end

end Yclib.Looks
