import Mathlib
import Yclib.Util.CString

namespace Yclib

/-! Numbers as `snprintf` prints them. -/

/-- `%u`. -/
def decimal (n : Nat) : List UInt8 := (Nat.toDigits 10 n).map fun c => UInt8.ofNat c.toNat

/-- `%d` of a `uint32_t`: from 2^31 on it is printed as a negative number. -/
def signedDecimal (n : Nat) : List UInt8 :=
  if n < 2 ^ 31 then decimal n else 45 :: decimal (2 ^ 32 - n)

theorem decimal_ne_nil (n : Nat) : decimal n ≠ [] := by
  intro h
  exact Nat.toDigits_ne_nil (List.map_eq_nil_iff.mp h)

theorem digit_byte {c : Char} (h : c.isDigit) : (UInt8.ofNat c.toNat).toNat = c.toNat := by
  have hle := (Char.isDigit_iff_toNat.mp h).2
  rw [UInt8.toNat_ofNat']
  apply Nat.mod_eq_of_lt
  exact Nat.lt_of_le_of_lt hle (by decide)

/-- Only digits are printed. -/
theorem decimal_digits {n : Nat} {b : UInt8} (h : b ∈ decimal n) : 48 ≤ b.toNat ∧ b.toNat ≤ 57 := by
  obtain ⟨c, hc, rfl⟩ := List.mem_map.mp h
  have hdigit := Nat.isDigit_of_mem_toDigits (by decide) (by decide) hc
  rw [digit_byte hdigit]
  exact Char.isDigit_iff_toNat.mp hdigit

theorem decimal_foldl (n : Nat) :
    (decimal n).foldl (fun value b => value * 10 + (b.toNat - 48)) 0 = n := by
  have hdigits : ∀ c ∈ Nat.toDigits 10 n, c.isDigit := by
    intro c hc
    exact Nat.isDigit_of_mem_toDigits (by decide) (by decide) hc
  have hfold : ∀ (cs : List Char) (value : Nat), (∀ c ∈ cs, c.isDigit) →
      (cs.map fun c => UInt8.ofNat c.toNat).foldl (fun value b => value * 10 + (b.toNat - 48)) value =
        Nat.ofDigitChars 10 cs value := by
    intro cs
    induction cs with
    | nil => simp
    | cons c cs ih =>
      intro value h
      rw [List.map_cons, List.foldl_cons, Nat.ofDigitChars_cons, digit_byte (h c (by simp)),
        Nat.mul_comm value]
      exact ih _ fun d hd => h d (List.mem_cons_of_mem _ hd)
  rw [decimal, hfold _ 0 hdigits]
  exact Nat.ofDigitChars_ten_toDigits

theorem decimal_inj {m n : Nat} (h : decimal m = decimal n) : m = n := by
  rw [← decimal_foldl m, h, decimal_foldl]

/-- A number but zero has no zero in front. -/
theorem decimal_front {n : Nat} (h : 0 < n) : ∃ b ds, decimal n = b :: ds ∧ 49 ≤ b.toNat ∧ b.toNat ≤ 57 := by
  induction n using Nat.strong_induction_on with
  | _ n ih =>
    by_cases hlt : n < 10
    · refine ⟨UInt8.ofNat (48 + n), [], ?_, ?_⟩
      · interval_cases n <;> rfl
      · rw [UInt8.toNat_ofNat']
        omega
    · obtain ⟨b, ds, hds, hrange⟩ := ih (n / 10) (by omega) (by omega)
      refine ⟨b, ds ++ [UInt8.ofNat (Nat.digitChar (n % 10)).toNat], ?_, hrange⟩
      rw [decimal] at hds ⊢
      rw [Nat.toDigits_of_base_le (by decide) (Nat.not_lt.mp hlt), List.map_append, hds]
      rfl

/-- As many digits as the number needs. -/
theorem decimal_length {n k : Nat} (hk : 0 < k) (h : n < 10 ^ k) : (decimal n).length ≤ k := by
  rw [decimal, List.length_map]
  exact (Nat.length_toDigits_le_iff (by decide) hk).mpr h

theorem decimal_snoc {n : Nat} (h : 10 ≤ n) : decimal n = decimal (n / 10) ++ decimal (n % 10) := by
  rw [decimal, Nat.toDigits_of_base_le (by decide) h, List.map_append]
  congr 1
  rw [decimal, Nat.toDigits_of_lt_base (Nat.mod_lt _ (by decide))]

theorem decimal_digit {n : Nat} (h : n < 10) : (decimal n).map UInt8.toNat = [48 + n] := by
  interval_cases n <;> rfl

theorem lt_append {xs ys xs' ys' : List Nat} (hlen : xs.length = ys.length) (h : xs < ys) : xs ++ xs' < ys ++ ys' := by
  induction xs generalizing ys with
  | nil =>
    obtain rfl := List.length_eq_zero_iff.mp hlen.symm
    exact absurd h (lt_irrefl _)
  | cons x xs ih =>
    obtain ⟨y, ys, rfl⟩ := List.exists_cons_of_length_eq_add_one hlen.symm
    rw [List.cons_append, List.cons_append, List.cons_lt_cons_iff]
    rcases List.cons_lt_cons_iff.mp h with hlt | ⟨heq, hlt⟩
    · exact .inl hlt
    · exact .inr ⟨heq, ih (Nat.succ.inj hlen) hlt⟩

/-- A number that is less has fewer digits, or digits that are less. -/
theorem decimal_lt {m n : Nat} (h : m < n) : (decimal m).length < (decimal n).length ∨
    (decimal m).length = (decimal n).length ∧ (decimal m).map UInt8.toNat < (decimal n).map UInt8.toNat := by
  induction n using Nat.strong_induction_on generalizing m with
  | _ n ih =>
    have hone : ∀ {k}, k < 10 → (decimal k).length = 1 := by
      intro k hk
      rw [← List.length_map UInt8.toNat, decimal_digit hk, List.length_singleton]
    by_cases hn : n < 10
    · refine .inr ⟨(hone (h.trans hn)).trans (hone hn).symm, ?_⟩
      rw [decimal_digit hn, decimal_digit (h.trans hn), List.cons_lt_cons_iff]
      exact .inl (Nat.add_lt_add_left h 48)
    · rw [decimal_snoc (Nat.not_lt.mp hn), List.length_append, List.map_append, hone (Nat.mod_lt _ (by decide))]
      by_cases hm : m < 10
      · rw [hone hm]
        have hpos := List.length_pos_iff.mpr (decimal_ne_nil (n / 10))
        exact .inl (by omega)
      · rw [decimal_snoc (Nat.not_lt.mp hm), List.length_append, List.map_append, hone (Nat.mod_lt _ (by decide))]
        rcases Nat.lt_or_eq_of_le (Nat.div_le_div_right (c := 10) h.le) with hlt | heq
        · rcases ih (n / 10) (by omega) hlt with hlen | ⟨hlen, hcodes⟩
          · exact .inl (by omega)
          · exact .inr ⟨by omega, lt_append (by simpa using hlen) hcodes⟩
        · -- the last digits differ
          rw [heq, decimal_digit (Nat.mod_lt _ (by decide)), decimal_digit (Nat.mod_lt _ (by decide))]
          refine .inr ⟨rfl, List.append_left_lt (List.cons_lt_cons_iff.mpr (.inl ?_))⟩
          omega

example : decimal 4070 = ascii "4070" := by decide

end Yclib
