import Yclib.Json.Parse
import Yclib.Http.Scan

namespace Yclib.Json

/-- Behind every backslash of a text there is a byte, and behind every `\u` there are four digits. -/
inductive Escaped : List UInt8 → Prop
  | nil : Escaped []
  | plain {b rest} (hback : b ≠ backslash) (h : Escaped rest) : Escaped (b :: rest)
  | short {c rest} (hc : c ≠ 117) (h : Escaped rest) : Escaped (backslash :: c :: rest)
  | unicode {u rest} (hlen : u.length = 4) (hdigits : ∀ b ∈ u, (hexValue b).isSome) (h : Escaped rest) :
      Escaped (backslash :: 117 :: (u ++ rest))

section
variable {b : UInt8} {rest : List UInt8}

theorem Escaped.tail (h : Escaped (b :: rest)) (hback : b ≠ backslash) : Escaped rest := by
  cases h with
  | plain _ h => exact h
  | short _ _ => exact absurd rfl hback
  | unicode _ _ _ => exact absurd rfl hback

/-- Bytes that begin no escape can be dropped. -/
theorem Escaped.drop {ws : List UInt8} (h : Escaped (ws ++ rest)) (hws : ∀ b ∈ ws, b ≠ backslash) : Escaped rest := by
  induction ws with
  | nil => exact h
  | cons b ws ih =>
    exact ih (h.tail (hws b (by simp))) fun c hc => hws c (by simp [hc])

theorem hex_plain (h : (hexValue b).isSome) : b ≠ quote ∧ b ≠ backslash := by
  constructor
  · rintro rfl
    exact absurd h (by decide)
  · rintro rfl
    exact absurd h (by decide)

theorem scan_digits {u : List UInt8} (hdigits : ∀ b ∈ u, (hexValue b).isSome) :
    scanString (u ++ rest) = (scanString rest).map (· + u.length) := by
  induction u with
  | nil => simp
  | cons b u ih =>
    obtain ⟨hquote, hback⟩ := hex_plain (hdigits b (by simp))
    rw [List.cons_append, scan_plain hquote hback, ih fun c hc => hdigits c (by simp [hc]), Option.map_map,
      List.length_cons]
    congr 1

end

theorem utf8_length (uc : Nat) : (utf8Bytes uc).length ≤ 4 ∧ (uc < 0x10000 → (utf8Bytes uc).length ≤ 3) := by
  rw [utf8Bytes]
  split
  · simp
  · split
    · simp
    · split
      · simp
      · rename_i h
        simp [h]

theorem hex4_lt (str : List UInt8) : parseHex4 str < 0x10000 := by
  have hdigit : ∀ b d, hexValue b = some d → d < 16 := by
    intro b d h
    rw [hexValue] at h
    simp only [UInt8.le_iff_toNat_le] at h
    have h57 : (57 : UInt8).toNat = 57 := rfl
    have h70 : (70 : UInt8).toNat = 70 := rfl
    have h102 : (102 : UInt8).toNat = 102 := rfl
    split_ifs at h <;> (cases h; omega)
  rw [parseHex4]
  split
  · rename_i a b c d ha hb hc hd
    have := hdigit _ _ ha
    have := hdigit _ _ hb
    have := hdigit _ _ hc
    have := hdigit _ _ hd
    omega
  · decide

/-- A parser has gone on in a text, and what is left of an escaped text is escaped. -/
structure Passes (value rest : List UInt8) : Prop where
  suffix : rest <:+ value
  escaped : Escaped value → Escaped rest

section
variable {b : UInt8} {value rest r : List UInt8}

theorem Passes.refl : Passes value value := ⟨List.suffix_rfl, id⟩

theorem Passes.trans (h : Passes value rest) (h' : Passes rest r) : Passes value r :=
  ⟨h'.suffix.trans h.suffix, h'.escaped ∘ h.escaped⟩

theorem Passes.length (h : Passes value rest) : rest.length ≤ value.length := h.suffix.length_le

end

/-- How a parser leaves a text: it has passed a byte where it returns, and stays inside an escaped text. -/
def Parsed.Within {α : Type} (value : List UInt8) : Parsed α → Prop
  | .item _ rest => Passes value rest ∧ rest.length < value.length
  | .null => True
  | .outside => ¬ Escaped value

section
variable {D : Type} {arith : Doubles D}

end

-- A backslash in front of the NUL is not checked.
example : rnsJsonRead rationals [quote, backslash, 0] = some .outside := rfl

end Yclib.Json
