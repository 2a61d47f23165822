import Yclib.Json.Bounds

namespace Yclib.Json

/-- Four digits to the base of 16, the letters of which are small or capital ones. -/
def Hex4 (n : Nat) (u : List UInt8) : Prop :=
  ∃ a b c d x y z w, u = [a, b, c, d] ∧ hexValue a = some x ∧ hexValue b = some y ∧ hexValue c = some z ∧
    hexValue d = some w ∧ n = ((x * 16 + y) * 16 + z) * 16 + w

/-- The characters that have short escapes, with these. -/
def shorts : List (Char × UInt8) :=
  [('"', quote), ('\\', backslash), ('/', 47), ('\x08', 98), ('\x0c', 102), ('\n', 110), ('\r', 114), ('\t', 116)]

/-- How a text may spell the characters of a string: as they are, by a short escape, by their number, or
by the two numbers of a surrogate pair. -/
inductive Spelled : List Char → List UInt8 → Prop
  | nil : Spelled [] []
  | plain {c cs body} (hnul : c ≠ '\x00') (hquote : c ≠ '"') (hback : c ≠ '\\') (h : Spelled cs body) :
      Spelled (c :: cs) (String.utf8EncodeChar c ++ body)
  | short {c b cs body} (hshort : (c, b) ∈ shorts) (h : Spelled cs body) : Spelled (c :: cs) (backslash :: b :: body)
  | code {c u cs body} (hnul : c ≠ '\x00') (hu : Hex4 c.toNat u) (h : Spelled cs body) :
      Spelled (c :: cs) (backslash :: 117 :: (u ++ body))
  | pair {c u v cs body} (hc : 0x10000 ≤ c.toNat) (hu : Hex4 (0xD800 + (c.toNat - 0x10000) / 0x400) u)
      (hv : Hex4 (0xDC00 + (c.toNat - 0x10000) % 0x400) v) (h : Spelled cs body) :
      Spelled (c :: cs) (backslash :: 117 :: (u ++ backslash :: 117 :: (v ++ body)))

section
variable {n : Nat} {u rest : List UInt8}

theorem Hex4.length (h : Hex4 n u) : u.length = 4 := by
  obtain ⟨a, b, c, d, x, y, z, w, rfl, -⟩ := h
  rfl

theorem Hex4.digits (h : Hex4 n u) : ∀ b ∈ u, (hexValue b).isSome := by
  obtain ⟨a, b, c, d, x, y, z, w, rfl, ha, hb, hc, hd, -⟩ := h
  simp [ha, hb, hc, hd]

theorem Hex4.parses (h : Hex4 n u) : parseHex4 (u ++ rest) = n := by
  obtain ⟨a, b, c, d, x, y, z, w, rfl, ha, hb, hc, hd, rfl⟩ := h
  simp [parseHex4, ha, hb, hc, hd]

end

/-- The mark of a later byte replaces what is above its six bits. -/
theorem later_byte (n : Nat) : UInt8.ofNat ((n ||| 0x80) &&& 0xBF) = UInt8.ofNat (n % 64 + 128) := by
  have hlow : (n ||| 0x80) &&& 0xBF = ((n % 2 ^ 8) ||| 0x80) &&& 0xBF := by
    refine Nat.eq_of_testBit_eq fun i => ?_
    simp only [Nat.testBit_and, Nat.testBit_or, Nat.testBit_mod_two_pow]
    by_cases hi : i < 8
    · simp [hi]
    · have hhigh : Nat.testBit 0xBF i = false :=
        Nat.testBit_lt_two_pow (Nat.lt_of_lt_of_le (by decide) (Nat.pow_le_pow_right (by decide) (Nat.not_lt.mp hi)))
      simp [hhigh]
  have hall : ∀ n < 2 ^ 8, UInt8.ofNat ((n ||| 0x80) &&& 0xBF) = UInt8.ofNat (n % 64 + 128) := by decide +kernel
  have hmod : n % 64 = n % 2 ^ 8 % 64 := by omega
  rw [hlow, hmod]
  exact hall _ (Nat.mod_lt _ (by decide))

/-- A mark above the bits of a number is added to it. -/
theorem first_byte {k n : Nat} (m : Nat) (h : n < 2 ^ k) : n ||| 2 ^ k * m = n + 2 ^ k * m := by
  rw [Nat.or_comm, ← Nat.two_pow_add_eq_or_of_lt h, Nat.add_comm]

theorem char_valid (c : Char) : c.toNat < 0xD800 ∨ 0xDFFF < c.toNat ∧ c.toNat < 0x110000 := c.valid

/-- What is stored for a character is its UTF-8. -/
theorem utf8_char (c : Char) : utf8Bytes c.toNat = String.utf8EncodeChar c := by
  have hvalid := char_valid c
  have hval : c.val.toNat = c.toNat := rfl
  rw [utf8Bytes, String.utf8EncodeChar]
  simp only [hval, later_byte, Nat.shiftRight_eq_div_pow]
  have hle : ∀ n, c.toNat < n + 1 ↔ c.toNat ≤ n := fun n => Nat.lt_succ_iff
  simp only [← hle]
  split
  · rfl
  split
  · rename_i h
    have hfirst : c.toNat / 2 ^ 6 ||| 192 = c.toNat / 2 ^ 6 + 192 := first_byte (k := 5) 6 (by omega)
    rw [hfirst, Nat.mod_eq_of_lt (a := c.toNat / 64) (by omega)]
    rfl
  split
  · rename_i h
    have hfirst : c.toNat / 2 ^ 12 ||| 224 = c.toNat / 2 ^ 12 + 224 := first_byte (k := 4) 14 (by omega)
    rw [hfirst, Nat.mod_eq_of_lt (a := c.toNat / 4096) (by omega)]
    rfl
  · have hfirst : c.toNat / 2 ^ 18 ||| 240 = c.toNat / 2 ^ 18 + 240 := first_byte (k := 3) 30 (by omega)
    rw [hfirst, Nat.mod_eq_of_lt (a := c.toNat / 262144) (by omega)]
    rfl

section
variable {c : Char} {u v rest : List UInt8}

/-- The number of a character that is below 2^16. -/
theorem transcode_code (hnul : c ≠ '\x00') (hu : Hex4 c.toNat u) :
    transcode (u ++ rest) = (String.utf8EncodeChar c, 4) := by
  have hvalid := char_valid c
  have hpos : c.toNat ≠ 0 := fun he => hnul (Char.toNat_inj.mp he)
  rw [transcode]
  simp only [hu.parses]
  rw [if_neg (by omega), if_neg (by omega), utf8_char]

/-- The two numbers of a character that is above. -/
theorem transcode_pair (hc : 0x10000 ≤ c.toNat) (hu : Hex4 (0xD800 + (c.toNat - 0x10000) / 0x400) u)
    (hv : Hex4 (0xDC00 + (c.toNat - 0x10000) % 0x400) v) :
    transcode (u ++ backslash :: 117 :: (v ++ rest)) = (String.utf8EncodeChar c, 10) := by
  have hvalid := char_valid c
  obtain ⟨n, hn⟩ := Nat.exists_eq_add_of_le hc
  have hsub : c.toNat - 0x10000 = n := by omega
  rw [hsub] at hu hv
  have hback : (u ++ backslash :: 117 :: (v ++ rest)).getD 4 0 = backslash := by
    rw [List.getD_append_right _ _ _ _ hu.length.le, hu.length]
    rfl
  have hmark : (u ++ backslash :: 117 :: (v ++ rest)).getD 5 0 = 117 := by
    rw [List.getD_append_right _ _ _ _ (by rw [hu.length]; decide), hu.length]
    rfl
  have hdrop : (u ++ backslash :: 117 :: (v ++ rest)).drop 6 = v ++ rest := by
    have hlen : (u ++ [backslash, 117]).length = 6 := by simp [hu.length]
    have hsplit : u ++ backslash :: 117 :: (v ++ rest) = (u ++ [backslash, 117]) ++ (v ++ rest) := by simp
    rw [hsplit, List.drop_left' hlen]
  have hhigh : (0xD800 + n / 0x400) &&& 0x3FF = n / 0x400 := by
    rw [show 0x3FF = 2 ^ 10 - 1 from rfl, Nat.and_two_pow_sub_one_eq_mod]
    omega
  have hlow : (0xDC00 + n % 0x400) &&& 0x3FF = n % 0x400 := by
    rw [show 0x3FF = 2 ^ 10 - 1 from rfl, Nat.and_two_pow_sub_one_eq_mod]
    omega
  have hjoin : (n / 0x400) <<< 10 ||| n % 0x400 = n := by
    have hmod : n % 2 ^ 10 < 2 ^ 10 := Nat.mod_lt _ (by decide)
    rw [Nat.or_comm, Nat.shiftLeft_eq, Nat.mul_comm, show n % 0x400 = n % 2 ^ 10 from rfl, first_byte _ hmod]
    omega
  rw [transcode]
  simp only [hu.parses, hback, hmark, hdrop, hv.parses, hhigh, hlow, hjoin]
  rw [if_neg (by omega), if_pos (by omega), if_neg (by simp), if_neg (by omega), ← hn, utf8_char]

end

/-- What no byte of is a quote or a backslash is copied. -/
theorem copy_bytes {bs r : List UInt8} (h : ∀ b ∈ bs, b ≠ quote ∧ b ≠ backslash) :
    scanString (bs ++ r) = (scanString r).map (· + bs.length) ∧
      copyString (bs ++ r) = (copyString r).map fun copied => (bs ++ copied.1, copied.2) := by
  induction bs with
  | nil => simp
  | cons b bs ih =>
    obtain ⟨hquote, hback⟩ := h b (by simp)
    obtain ⟨hscan, hcopy⟩ := ih fun c hc => h c (by simp [hc])
    rw [List.cons_append, scan_plain hquote hback, copy_plain hquote hback, hscan, hcopy]
    simp only [Option.map_map, List.length_cons]
    exact ⟨rfl, rfl⟩

/-- The bytes of a character that is none of ASCII are above it. -/
theorem utf8_bytes {c : Char} (hquote : c ≠ '"') (hback : c ≠ '\\') :
    ∀ b ∈ String.utf8EncodeChar c, b ≠ quote ∧ b ≠ backslash := by
  have hvalid := char_valid c
  have hval : c.val.toNat = c.toNat := rfl
  have hhigh : ∀ n < 256, 128 ≤ n → UInt8.ofNat n ≠ quote ∧ UInt8.ofNat n ≠ backslash := by
    decide +kernel
  intro b hb
  rw [String.utf8EncodeChar] at hb
  simp only [hval] at hb
  split at hb
  · rename_i hle
    have hb := List.mem_singleton.mp hb
    have hlow : ∀ n ≤ 127, n ≠ 34 → n ≠ 92 → UInt8.ofNat n ≠ quote ∧ UInt8.ofNat n ≠ backslash := by
      decide +kernel
    rw [hb]
    exact hlow _ hle (fun he => hquote (Char.toNat_inj.mp he)) fun he => hback (Char.toNat_inj.mp he)
  split at hb
  · simp only [List.mem_cons, List.not_mem_nil, or_false] at hb
    rcases hb with rfl | rfl <;> exact hhigh _ (by omega) (by omega)
  split at hb
  · simp only [List.mem_cons, List.not_mem_nil, or_false] at hb
    rcases hb with rfl | rfl | rfl <;> exact hhigh _ (by omega) (by omega)
  · simp only [List.mem_cons, List.not_mem_nil, or_false] at hb
    rcases hb with rfl | rfl | rfl | rfl <;> exact hhigh _ (by omega) (by omega)

theorem shorts_ascii : ∀ p ∈ shorts, p.2 ≠ 117 ∧ String.utf8EncodeChar p.1 = [unescape p.2] := by
  decide +kernel

/-- Both loops of `parse_string` over a spelling that has its quote behind it. -/
theorem spelled_copied {cs : List Char} {body : List UInt8} (h : Spelled cs body) (r : List UInt8) :
    copyString (body ++ quote :: r) = some (cs.flatMap String.utf8EncodeChar, quote :: r) ∧
      ∃ len, scanString (body ++ quote :: r) = some len ∧ (cs.flatMap String.utf8EncodeChar).length ≤ len := by
  induction h with
  | nil => exact ⟨copy_quote, 0, scan_quote, Nat.le_refl _⟩
  | @plain c cs body hnul hquote hback h ih =>
    obtain ⟨hcopy, len, hscan, hle⟩ := ih
    obtain ⟨hscan', hcopy'⟩ := copy_bytes (r := body ++ quote :: r) (utf8_bytes hquote hback)
    rw [List.append_assoc, hscan', hcopy', hscan, hcopy]
    refine ⟨rfl, _, rfl, ?_⟩
    rw [List.flatMap_cons, List.length_append, Nat.add_comm]
    exact Nat.add_le_add_right hle _
  | @short c b cs body hshort h ih =>
    obtain ⟨hcopy, len, hscan, hle⟩ := ih
    obtain ⟨hb, hutf8⟩ := shorts_ascii _ hshort
    simp only [List.cons_append]
    rw [copy_short hb, scan_back, hcopy, hscan, List.flatMap_cons, hutf8]
    exact ⟨rfl, _, rfl, Nat.succ_le_succ hle⟩
  | @code c u cs body hnul hu h ih =>
    obtain ⟨hcopy, len, hscan, hle⟩ := ih
    obtain ⟨-, hbytes⟩ := utf8_length c.toNat
    have hlen := hu.length
    have hsmall : c.toNat < 0x10000 := by
      have := hex4_lt (u ++ [])
      rwa [hu.parses] at this
    have hthree := hbytes hsmall
    rw [utf8_char] at hthree
    simp only [List.cons_append, List.append_assoc]
    rw [copy_unicode, scan_back, scan_digits hu.digits, transcode_code hnul hu, hlen, hscan, List.flatMap_cons]
    simp only
    rw [if_neg (by simp [hlen]), List.drop_left' hlen, hcopy]
    refine ⟨rfl, len + 4 + 1, rfl, ?_⟩
    rw [List.length_append]
    omega
  | @pair c u v cs body hc hu hv h ih =>
    obtain ⟨hcopy, len, hscan, hle⟩ := ih
    obtain ⟨hfour, -⟩ := utf8_length c.toNat
    have hlen := hu.length
    have hlen' := hv.length
    have hsplit : u ++ backslash :: 117 :: (v ++ (body ++ quote :: r)) =
        (u ++ backslash :: 117 :: v) ++ (body ++ quote :: r) := by simp
    rw [utf8_char] at hfour
    simp only [List.cons_append, List.append_assoc]
    rw [copy_unicode, scan_back, scan_digits hu.digits, scan_back, scan_digits hv.digits, transcode_pair hc hu hv,
      hlen, hlen', hscan, List.flatMap_cons]
    simp only
    rw [if_neg (by simp [hlen, hlen']; omega), hsplit, List.drop_left' (by simp [hlen, hlen']), hcopy]
    refine ⟨rfl, len + 4 + 1 + 4 + 1, rfl, ?_⟩
    rw [List.length_append]
    omega

/-- Every spelling of a string is read as the UTF-8 of its characters. -/
theorem spelled_parses {D : Type} (arith : Doubles D) {cs : List Char} {body : List UInt8} (h : Spelled cs body)
    (r : List UInt8) : cJSONParse arith (quote :: (body ++ quote :: r)) =
      some (.item (.string (cs.flatMap String.utf8EncodeChar)) r) := by
  obtain ⟨hcopy, len, hscan, hle⟩ := spelled_copied h r
  have hskip : skip (quote :: (body ++ quote :: r)) = quote :: (body ++ quote :: r) := by
    rw [skip, List.dropWhile_cons_of_neg (by decide)]
  rw [cJSONParse, hskip, parse_string_value, parseString, if_neg (by simp)]
  simp only [hscan, hcopy]
  rw [if_neg (Nat.not_lt.mpr hle)]
  rfl

/-- A clef, which is above 2^16, and an accent, which is not. -/
theorem spelled_parses_clef : cJSONParse rationals (quote :: (ascii "\\ud834\\uDD1E\\u00e9" ++ quote :: [])) =
    some (.item (.string ([Char.ofNat 0x1D11E, 'é'].flatMap String.utf8EncodeChar)) []) := by
  have hhigh : Hex4 (0xD800 + ((Char.ofNat 0x1D11E).toNat - 0x10000) / 0x400) (ascii "d834") :=
    ⟨100, 56, 51, 52, 13, 8, 3, 4, rfl, rfl, rfl, rfl, rfl, rfl⟩
  have hlow : Hex4 (0xDC00 + ((Char.ofNat 0x1D11E).toNat - 0x10000) % 0x400) (ascii "DD1E") :=
    ⟨68, 68, 49, 69, 13, 13, 1, 14, rfl, rfl, rfl, rfl, rfl, rfl⟩
  have hcode : Hex4 'é'.toNat (ascii "00e9") := ⟨48, 48, 101, 57, 0, 0, 14, 9, rfl, rfl, rfl, rfl, rfl, rfl⟩
  have hspelled : Spelled [Char.ofNat 0x1D11E, 'é'] (ascii "\\ud834\\uDD1E\\u00e9") :=
    .pair (by decide) hhigh hlow (.code (by decide) hcode .nil)
  exact spelled_parses rationals hspelled []

end Yclib.Json
