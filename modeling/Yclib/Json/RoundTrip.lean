import Yclib.Json.Parse
import Yclib.Util.CSearch

namespace Yclib.Json

section
variable {b : UInt8} {r : List UInt8}

/-- Space in front of a text is passed. -/
theorem skip_space {ws : List UInt8} (h : ∀ b ∈ ws, b ≠ 0 ∧ b ≤ 32) : skip (ws ++ r) = skip r := by
  rw [skip, List.dropWhile_append_of_pos]
  · rfl
  · intro b hb
    simpa using h b hb

theorem skip_head (h : 32 < b) : skip (b :: r) = b :: r := by
  rw [skip, List.dropWhile_cons_of_neg]
  simpa using fun _ => h

theorem skip_skip : skip (skip r) = skip r := by
  rw [skip, skip, List.dropWhile_idempotent]

theorem no_space : ∀ b ∈ ([] : List UInt8), b ≠ 0 ∧ b ≤ 32 := by simp

theorem tabs_space (fmt : Bool) (depth : Nat) : ∀ b ∈ tabs fmt depth, b ≠ 0 ∧ b ≤ 32 := by
  intro b hb
  rw [tabs] at hb
  split at hb
  · rw [List.eq_of_mem_replicate hb]
    decide
  · cases hb

theorem format_space (fmt : Bool) {b : UInt8} (hb : b = blank ∨ b = tab ∨ b = newline) :
    ∀ c ∈ (if fmt then [b] else []), c ≠ 0 ∧ c ≤ 32 := by
  intro c hc
  split at hc
  · rw [List.mem_singleton.mp hc]
    rcases hb with rfl | rfl | rfl <;> decide
  · cases hc

end

section
variable {b : UInt8} {s r : List UInt8}

/-- A control character comes back from its escape. -/
theorem transcode_escape (h : b < 32) (hnul : b ≠ 0) :
    transcode ([48, 48, hexDigit (b.toNat / 16), hexDigit (b.toNat % 16)] ++ r) = ([b], 4) := by
  have hall : ∀ n < 32, n ≠ 0 →
      hexValue (hexDigit (n / 16)) = some (n / 16) ∧ hexValue (hexDigit (n % 16)) = some (n % 16) := by
    decide
  have hlt : b.toNat < 32 := by simpa [UInt8.lt_iff_toNat_lt] using h
  have hpos : b.toNat ≠ 0 := fun he => hnul (UInt8.toNat_inj.mp he)
  obtain ⟨hhigh, hlow⟩ := hall b.toNat hlt hpos
  have hzero : hexValue 48 = some 0 := by decide
  have hhex : parseHex4 ([48, 48, hexDigit (b.toNat / 16), hexDigit (b.toNat % 16)] ++ r) = b.toNat := by
    simp only [parseHex4, List.cons_append, List.getD_cons_zero, List.getD_cons_succ, hzero, hhigh, hlow]
    omega
  rw [transcode]
  simp only [hhex]
  rw [if_neg (by omega), if_neg (by omega), utf8Bytes]
  simp only
  rw [if_pos (by omega), UInt8.ofNat_toNat]

/-- A byte is stored as it is, by a short escape, or by its number. -/
theorem escape_cases (b : UInt8) : (escape b = [b] ∧ b ≠ quote ∧ b ≠ backslash) ∨
    (∃ c, c ≠ 117 ∧ escape b = [backslash, c] ∧ unescape c = b) ∨
    (b < 32 ∧ escape b = [backslash, 117, 48, 48, hexDigit (b.toNat / 16), hexDigit (b.toNat % 16)]) := by
  by_cases hplain : 31 < b ∧ b ≠ quote ∧ b ≠ backslash
  · exact .inl ⟨by rw [escape, if_pos hplain], hplain.2⟩
  by_cases hshort : b ∈ [quote, backslash, 8, 12, newline, 13, tab]
  · refine .inr (.inl ?_)
    simp only [List.mem_cons, List.not_mem_nil, or_false] at hshort
    rcases hshort with rfl | rfl | rfl | rfl | rfl | rfl | rfl
    · exact ⟨quote, by decide⟩
    · exact ⟨backslash, by decide⟩
    · exact ⟨98, by decide⟩
    · exact ⟨102, by decide⟩
    · exact ⟨110, by decide⟩
    · exact ⟨114, by decide⟩
    · exact ⟨116, by decide⟩
  · refine .inr (.inr ?_)
    simp only [List.mem_cons, List.not_mem_nil, or_false, not_or] at hshort
    obtain ⟨hquote, hback, h8, h12, hnewline, h13, htab⟩ := hshort
    constructor
    · have hle : ¬ 31 < b := fun hlt => hplain ⟨hlt, hquote, hback⟩
      simp only [UInt8.lt_iff_toNat_lt] at hle ⊢
      have h31 : (31 : UInt8).toNat = 31 := rfl
      have h32 : (32 : UInt8).toNat = 32 := rfl
      omega
    · rw [escape, if_neg hplain, if_neg hback, if_neg hquote, if_neg h8, if_neg h12, if_neg hnewline,
        if_neg h13, if_neg htab]

/-- What is stored for a byte is copied as the byte. -/
theorem copy_escape (h : b ≠ 0) :
    copyString (escape b ++ r) = (copyString r).map fun copied => (b :: copied.1, copied.2) := by
  obtain ⟨hplain, hquote, hback⟩ | ⟨c, hc, hshort, hb⟩ | ⟨hlow, hcode⟩ := escape_cases b
  · rw [hplain, List.singleton_append, copy_plain hquote hback]
  · rw [hshort]
    simp only [List.cons_append, List.nil_append]
    rw [copy_short hc, hb]
  · rw [hcode]
    have htranscode := transcode_escape (r := r) hlow h
    simp only [List.cons_append, List.nil_append] at htranscode ⊢
    rw [copy_unicode, htranscode]
    simp only [List.length_cons]
    rw [if_neg (by omega)]
    rfl

/-- What is stored for a byte counts for one at least. -/
theorem scan_escape : ∃ k, 0 < k ∧ scanString (escape b ++ r) = (scanString r).map (· + k) := by
  obtain ⟨hplain, hquote, hback⟩ | ⟨c, -, hshort, -⟩ | ⟨-, hcode⟩ := escape_cases b
  · exact ⟨1, by decide, by rw [hplain, List.singleton_append, scan_plain hquote hback]⟩
  · exact ⟨1, by decide, by rw [hshort]; exact scan_back⟩
  · have hdigit : ∀ n, n < 16 → hexDigit n ≠ quote ∧ hexDigit n ≠ backslash := by decide
    have hb := b.toNat_lt
    obtain ⟨hhigh, hhigh'⟩ := hdigit (b.toNat / 16) (by omega)
    obtain ⟨hlow, hlow'⟩ := hdigit (b.toNat % 16) (by omega)
    refine ⟨5, by decide, ?_⟩
    rw [hcode]
    simp only [List.cons_append, List.nil_append, scan_back]
    rw [scan_plain (by decide) (by decide), scan_plain (by decide) (by decide), scan_plain hhigh hhigh',
      scan_plain hlow hlow']
    simp only [Option.map_map]
    rfl

theorem copy_string (h : 0 ∉ s) : copyString (s.flatMap escape ++ quote :: r) = some (s, quote :: r) := by
  induction s with
  | nil =>
    rw [List.flatMap_nil, List.nil_append, copy_quote]
  | cons b s ih =>
    simp only [List.mem_cons, not_or] at h
    rw [List.flatMap_cons, List.append_assoc, copy_escape (Ne.symm h.1), ih h.2]
    rfl

theorem scan_string (s r : List UInt8) :
    ∃ len, scanString (s.flatMap escape ++ quote :: r) = some len ∧ s.length ≤ len := by
  induction s with
  | nil => exact ⟨0, by rw [List.flatMap_nil, List.nil_append, scan_quote], Nat.le_refl _⟩
  | cons b s ih =>
    obtain ⟨len, hscan, hle⟩ := ih
    obtain ⟨k, hpos, hk⟩ := @scan_escape b (s.flatMap escape ++ quote :: r)
    refine ⟨len + k, ?_, ?_⟩
    · rw [List.flatMap_cons, List.append_assoc, hk, hscan]
      rfl
    · rw [List.length_cons]
      omega

theorem escape_plain (h : flagged b = false) : escape b = [b] := by
  simp only [flagged, decide_eq_false_iff_not, not_or] at h
  obtain ⟨hlow, hquote, hback⟩ := h
  rw [escape, if_pos]
  refine ⟨?_, hquote, hback⟩
  rw [UInt8.lt_iff_toNat_lt] at hlow ⊢
  have h31 : (31 : UInt8).toNat = 31 := rfl
  have h32 : (32 : UInt8).toNat = 32 := rfl
  omega

/-- Escaped or not, the text of a string is that of its escapes. -/
theorem string_text (s : List UInt8) :
    (printStringPtr s).text = quote :: (s.flatMap escape ++ [quote]) := by
  rw [printStringPtr]
  split
  · rfl
  · rename_i hflag
    simp only [List.any_eq_true, not_exists, not_and, Bool.not_eq_true] at hflag
    have hself : s.flatMap escape = s := by
      induction s with
      | nil => rfl
      | cons b s ih =>
        rw [List.flatMap_cons, escape_plain (hflag b (by simp)), ih fun c hc => hflag c (by simp [hc])]
        rfl
    rw [hself]
    rfl

/-- A string is read as it was printed. -/
theorem string_parses (h : 0 ∉ s) : parseString ((printStringPtr s).text ++ r) = .item s r := by
  obtain ⟨len, hscan, hle⟩ := scan_string s r
  have htext : (printStringPtr s).text ++ r = quote :: (s.flatMap escape ++ quote :: r) := by
    rw [string_text]
    simp
  rw [htext, parseString, if_neg (by simp)]
  simp only [hscan, copy_string h]
  rw [if_neg (Nat.not_lt.mpr hle)]
  rfl

end

/-- No byte of the text goes on with a number that is in front of it. -/
def Follows (r : List UInt8) : Prop :=
  ∀ b ∈ r.head?, isDigit b = false ∧ b ≠ 46 ∧ b ≠ 101 ∧ b ≠ 69

section
variable {D : Type} {arith : Doubles D} {r : List UInt8} {n : Nat}

theorem decimal_is_digit {b : UInt8} (h : b ∈ decimal n) : isDigit b = true := by
  simpa [isDigit, UInt8.le_iff_toNat_le] using decimal_digits h

/-- Digits are read exactly, as long as what they come to is below 2^53. -/
theorem digits_exact (hexact : arith.Exact) {ds : List UInt8} {k : Nat}
    (hds : ∀ b ∈ ds, isDigit b = true)
    (hlt : ds.foldl (fun value b => value * 10 + (b.toNat - 48)) k < 2 ^ 53) :
    ds.foldl (fun n b => arith.digit n (b.toNat - 48)) (arith.ofInt k) =
      arith.ofInt (ds.foldl (fun value b => value * 10 + (b.toNat - 48)) k : Nat) := by
  have hgrow : ∀ (ds : List UInt8) (k : Nat),
      k ≤ ds.foldl (fun value b => value * 10 + (b.toNat - 48)) k := by
    intro ds
    induction ds with
    | nil => exact fun k => Nat.le_refl k
    | cons b ds ih =>
      intro k
      have := ih (k * 10 + (b.toNat - 48))
      rw [List.foldl_cons]
      omega
  induction ds generalizing k with
  | nil => rfl
  | cons b ds ih =>
    rw [List.foldl_cons] at hlt ⊢
    have hb := hds b (by simp)
    simp only [isDigit, decide_eq_true_eq, UInt8.le_iff_toNat_le] at hb
    have h57 : (57 : UInt8).toNat = 57 := rfl
    rw [hexact.digit k _ (by omega) (Nat.lt_of_le_of_lt (hgrow ds _) hlt)]
    exact ih (fun c hc => hds c (by simp [hc])) hlt

theorem take_digits {ds : List UInt8} (hds : ∀ b ∈ ds, isDigit b = true) (hr : Follows r) :
    (ds ++ r).takeWhile isDigit = ds ∧ (ds ++ r).dropWhile isDigit = r := by
  rw [List.takeWhile_append_of_pos hds, List.dropWhile_append_of_pos hds]
  cases r with
  | nil => simp
  | cons b r =>
    have hb := (hr b rfl).1
    simp [hb]

theorem decimal_zero : decimal 0 = [48] := by decide

theorem integer_parses (hexact : arith.Exact) (hn : n < 2 ^ 53) (hr : Follows r) :
    parseInteger arith (decimal n ++ r) = (arith.ofInt n, r) := by
  rcases Nat.eq_zero_or_pos n with rfl | hpos
  · rw [decimal_zero, parseInteger]
    simp only [List.cons_append, List.nil_append, List.head?_cons, if_true, List.tail_cons]
    rw [if_neg]
    · rfl
    · cases r with
      | nil => simp
      | cons b r =>
        have hb := (hr b rfl).1
        simp only [isDigit, decide_eq_false_iff_not, UInt8.le_iff_toNat_le] at hb
        simp only [List.head?_cons, Option.any_some, decide_eq_true_eq, UInt8.le_iff_toNat_le]
        have h48 : (48 : UInt8).toNat = 48 := rfl
        have h49 : (49 : UInt8).toNat = 49 := rfl
        omega
  · obtain ⟨b, ds, hds, hlow, hhigh⟩ := decimal_front hpos
    have hdigits : ∀ b ∈ decimal n, isDigit b = true := fun b hb => decimal_is_digit hb
    have hfold := digits_exact hexact (k := 0) hdigits (by rw [decimal_foldl]; exact hn)
    obtain ⟨htake, hdrop⟩ := take_digits hdigits hr
    have hne : b ≠ 48 := by
      rintro rfl
      exact absurd hlow (by decide)
    have hrange : 49 ≤ b ∧ b ≤ 57 := by
      rw [UInt8.le_iff_toNat_le, UInt8.le_iff_toNat_le]
      exact ⟨hlow, hhigh⟩
    rw [parseInteger]
    have hhead : (decimal n ++ r).head? = some b := by
      rw [hds]
      rfl
    simp only [hhead, Option.some.injEq, if_neg hne, Option.any_some, hrange, and_self, decide_true, if_true]
    rw [parseDigits, htake, hdrop]
    rw [decimal_foldl] at hfold
    exact congrArg (·, r) hfold

/-- An `int` is read as it was printed. -/
theorem number_parses (hexact : arith.Exact) {i : Int} (h0 : -2 ^ 31 ≤ i) (h1 : i < 2 ^ 31) (hr : Follows r) :
    parseNumber arith (signed i ++ r) = (.number i (arith.ofInt i), r) := by
  have hfraction : ∀ n, parseFraction arith n r = (n, 0, r) := by
    intro n
    rw [parseFraction, if_neg fun h => (hr _ h.1).2.1 rfl]
  have hexponent : parseExponent r = (0, r) := by
    rw [parseExponent, if_neg]
    rintro (hhead | hhead)
    · exact (hr _ hhead).2.2.1 rfl
    · exact (hr _ hhead).2.2.2 rfl
  have hint := integer_parses hexact (n := i.natAbs) (by omega) hr
  rw [parseNumber, signed]
  by_cases hneg : i < 0
  · have habs : -(i.natAbs : Int) = i := by omega
    simp only [hneg, if_true, List.cons_append, List.head?_cons, List.tail_cons, hint, hfraction, hexponent]
    rw [add_zero, decide_true, hexact.minus _ (by omega) (by omega), habs, hexact.toInt i h0 h1]
  · have habs : (i.natAbs : Int) = i := by omega
    have hhead : (decimal i.natAbs ++ r).head? ≠ some 45 := by
      cases hd : decimal i.natAbs with
      | nil => exact absurd hd (decimal_ne_nil _)
      | cons b ds =>
        have hb := (decimal_digits (n := i.natAbs) (b := b) (by simp [hd])).1
        rw [List.cons_append, List.head?_cons]
        intro he
        rw [Option.some.inj he] at hb
        exact absurd hb (by decide)
    simp only [hneg, if_false, hhead, hint, hfraction, hexponent]
    rw [add_zero, decide_false, hexact.plus _ (by omega), habs, hexact.toInt i h0 h1]

theorem signed_front (i : Int) : ∃ b ds, signed i = b :: ds ∧ (b = 45 ∨ isDigit b = true) := by
  rw [signed]
  split
  · exact ⟨45, _, rfl, .inl rfl⟩
  · cases hd : decimal i.natAbs with
    | nil => exact absurd hd (decimal_ne_nil _)
    | cons b ds => exact ⟨b, ds, rfl, .inr (decimal_is_digit (n := i.natAbs) (by simp [hd]))⟩

theorem number_text (hexact : arith.Exact) {i : Int} (h0 : -2 ^ 31 ≤ i) (h1 : i < 2 ^ 31) :
    (printNumber arith i (arith.ofInt i)).text = signed i := by
  rw [printNumber]
  split
  · rename_i hzero
    rw [(hexact.isZero i h0 h1).mp hzero]
    decide
  · rw [if_pos (hexact.isInt i h0 h1)]
    rfl

/-- What is behind a value in an array, in an object or at the end of a text. -/
theorem follows_cons {b : UInt8} (h : isDigit b = false ∧ b ≠ 46 ∧ b ≠ 101 ∧ b ≠ 69) : Follows (b :: r) := by
  intro c hc
  rw [List.head?_cons, Option.mem_def] at hc
  rw [← Option.some.inj hc]
  exact h

theorem follows_space {ws : List UInt8} (hws : ∀ b ∈ ws, b ≠ 0 ∧ b ≤ 32) (hr : Follows r) : Follows (ws ++ r) := by
  cases ws with
  | nil => exact hr
  | cons b ws =>
    refine follows_cons ?_
    have hb := (hws b (by simp)).2
    refine ⟨?_, ?_, ?_, ?_⟩
    · simp only [isDigit, decide_eq_false_iff_not, not_and, UInt8.le_iff_toNat_le] at hb ⊢
      have h32 : (32 : UInt8).toNat = 32 := rfl
      have h48 : (48 : UInt8).toNat = 48 := rfl
      omega
    · rintro rfl
      exact absurd hb (by decide)
    · rintro rfl
      exact absurd hb (by decide)
    · rintro rfl
      exact absurd hb (by decide)

theorem follows_nil : Follows [] := by
  intro b hb
  cases hb

end

section
variable {D : Type} {arith : Doubles D} {fmt : Bool} {depth : Nat}

/-- The first byte of a value is no space, and does not close an array. -/
theorem value_front (fmt : Bool) (depth : Nat) (hexact : arith.Exact) {item : CJson D} (h : item.Whole arith) :
    ∃ b bs, (printValue arith fmt depth item).text = b :: bs ∧ 32 < b ∧ b ≠ 93 := by
  cases item with
  | null => exact ⟨110, _, rfl, by decide, by decide⟩
  | bool value => cases value with
    | false => exact ⟨102, _, rfl, by decide, by decide⟩
    | true => exact ⟨116, _, rfl, by decide, by decide⟩
  | number i d =>
    obtain ⟨h0, h1, rfl⟩ := h
    obtain ⟨b, ds, hds, hb⟩ := signed_front i
    refine ⟨b, ds, by rw [printValue, number_text hexact h0 h1, hds], ?_⟩
    rcases hb with rfl | hb
    · decide
    · simp only [isDigit, decide_eq_true_eq, UInt8.le_iff_toNat_le] at hb
      have h48 : (48 : UInt8).toNat = 48 := rfl
      have h57 : (57 : UInt8).toNat = 57 := rfl
      constructor
      · rw [UInt8.lt_iff_toNat_lt]
        have h32 : (32 : UInt8).toNat = 32 := rfl
        omega
      · rintro rfl
        exact absurd hb.2 (by decide)
  | string s => exact ⟨quote, _, by rw [printValue, string_text], by decide, by decide⟩
  | array child =>
    rw [printValue, printArray]
    split
    · exact ⟨91, _, rfl, by decide, by decide⟩
    · exact ⟨91, _, rfl, by decide, by decide⟩
  | object child =>
    rw [printValue, printObject]
    split
    · exact ⟨123, _, rfl, by decide, by decide⟩
    · exact ⟨123, _, rfl, by decide, by decide⟩

/-- The texts of an array's items, one behind the other. -/
def itemsText (arith : Doubles D) (fmt : Bool) (depth : Nat) (items : Items D) : List UInt8 :=
  joinItems fmt ((printItems arith fmt depth items).map Printed.text)

def membersText (arith : Doubles D) (fmt : Bool) (depth : Nat) (members : Members D) : List UInt8 :=
  joinMembers fmt depth ((printMembers arith fmt depth members).map fun entry => (entry.1.text, entry.2.text))

variable {item item' : CJson D} {next : Items D} {string string' : List UInt8} {more : Members D}

theorem array_text (arith : Doubles D) (fmt : Bool) (depth : Nat) (item : CJson D) (next : Items D) :
    (printValue arith fmt depth (.array (.cons item next))).text =
      91 :: (itemsText arith fmt (depth + 1) (.cons item next) ++ [93]) := by
  rw [printValue, printArray, if_neg (by simp [printItems])]
  rfl

theorem object_text (arith : Doubles D) (fmt : Bool) (depth : Nat) (string : List UInt8) (item : CJson D)
    (more : Members D) : (printValue arith fmt depth (.object (.cons string item more))).text =
    123 :: ((if fmt then [newline] else []) ++ membersText arith fmt (depth + 1) (.cons string item more) ++
      tabs fmt depth ++ [125]) := by
  rw [printValue, printObject, if_neg (by simp [printMembers])]
  rfl

theorem items_text_one : itemsText arith fmt depth (.cons item .nil) = (printValue arith fmt depth item).text := rfl

theorem items_text_more : itemsText arith fmt depth (.cons item (.cons item' next)) =
    (printValue arith fmt depth item).text ++ (comma :: if fmt then [blank] else []) ++
      itemsText arith fmt depth (.cons item' next) := rfl

theorem members_text_one : membersText arith fmt depth (.cons string item .nil) =
    tabs fmt depth ++ (printStringPtr string).text ++ (colon :: if fmt then [tab] else []) ++
      (printValue arith fmt depth item).text ++ [] ++ (if fmt then [newline] else []) ++ [] := rfl

theorem members_text_more : membersText arith fmt depth (.cons string item (.cons string' item' more)) =
    tabs fmt depth ++ (printStringPtr string).text ++ (colon :: if fmt then [tab] else []) ++
      (printValue arith fmt depth item).text ++ [comma] ++ (if fmt then [newline] else []) ++
      membersText arith fmt depth (.cons string' item' more) := rfl

theorem items_front (fmt : Bool) (depth : Nat) (next : Items D) (hexact : arith.Exact) (h : item.Whole arith) :
    ∃ b bs, itemsText arith fmt depth (.cons item next) = b :: bs ∧ 32 < b ∧ b ≠ 93 := by
  obtain ⟨b, bs, hfront, hb⟩ := value_front fmt depth hexact h
  cases next with
  | nil => exact ⟨b, bs, by rw [items_text_one, hfront], hb⟩
  | cons item' next => exact ⟨b, _, by rw [items_text_more, hfront]; rfl, hb⟩

theorem members_front (arith : Doubles D) (fmt : Bool) (depth : Nat) (string : List UInt8) (item : CJson D)
    (more : Members D) : ∃ bs, membersText arith fmt depth (.cons string item more) =
    tabs fmt depth ++ quote :: bs := by
  cases more with
  | nil =>
    rw [members_text_one, string_text]
    simp only [List.append_assoc, List.cons_append]
    exact ⟨_, rfl⟩
  | cons string' item' more =>
    rw [members_text_more, string_text]
    simp only [List.append_assoc, List.cons_append]
    exact ⟨_, rfl⟩

theorem members_skip {rounds : Nat} {rest : List UInt8} :
    parseMembers arith rounds (skip rest) = parseMembers arith rounds rest := by
  cases rounds with
  | zero => rfl
  | succ rounds => rw [parseMembers, parseMembers, skip_skip]

/-- Space in front of a value is passed, and nothing else. -/
theorem skip_value (fmt : Bool) (depth : Nat) (hexact : arith.Exact) (h : item.Whole arith) {ws r : List UInt8}
    (hws : ∀ b ∈ ws, b ≠ 0 ∧ b ≤ 32) : skip (ws ++ ((printValue arith fmt depth item).text ++ r)) =
      (printValue arith fmt depth item).text ++ r := by
  obtain ⟨b, bs, hfront, hb, -⟩ := value_front fmt depth hexact h
  rw [skip_space hws, hfront, List.cons_append, skip_head hb]

theorem skip_name {s ws r : List UInt8} (hws : ∀ b ∈ ws, b ≠ 0 ∧ b ≤ 32) :
    skip (ws ++ (tabs fmt depth ++ ((printStringPtr s).text ++ r))) = (printStringPtr s).text ++ r := by
  rw [skip_space hws, skip_space (tabs_space _ _), string_text, List.cons_append, skip_head (by decide)]

end

section
variable {D : Type} {arith : Doubles D} {fmt : Bool}

mutual

/-- What has been printed is read as it was, with what is behind it left. -/
theorem value_parses (hexact : arith.Exact) (item : CJson D) (depth rounds : Nat) {r : List UInt8}
    (h : item.Whole arith) (hr : Follows r) (hrounds : (printValue arith fmt depth item).text.length < rounds) :
    parseValue arith rounds ((printValue arith fmt depth item).text ++ r) = some (.item item r) := by
  obtain ⟨rounds, rfl⟩ := Nat.exists_eq_succ_of_ne_zero (Nat.ne_zero_of_lt hrounds)
  match item with
  | .null => rfl
  | .bool false => rfl
  | .bool true => rfl
  | .number i d =>
    obtain ⟨h0, h1, rfl⟩ := h
    obtain ⟨b, ds, hds, hb⟩ := signed_front i
    have hparse := number_parses hexact h0 h1 hr
    rw [printValue, number_text hexact h0 h1]
    rw [hds] at hparse ⊢
    rw [List.cons_append] at hparse ⊢
    rw [parse_number_value hb, hparse]
  | .string s =>
    have hparse := string_parses (r := r) h
    rw [printValue]
    rw [string_text] at hparse ⊢
    rw [List.cons_append] at hparse ⊢
    rw [parse_string_value, hparse]
    rfl
  | .array .nil => rfl
  | .array (.cons item next) =>
    obtain ⟨b, bs, hfront, hb, hclose⟩ := items_front fmt (depth + 1) next hexact h.1
    have hlen := congrArg List.length (array_text arith fmt depth item next)
    simp only [List.length_cons, List.length_append, List.length_nil] at hlen
    have hitems := items_parse hexact item next (depth + 1) rounds (r := r) no_space h (by omega)
    rw [List.nil_append] at hitems
    rw [array_text, List.cons_append, parse_array_value, List.append_assoc, List.singleton_append]
    rw [hfront, List.cons_append] at hitems ⊢
    rw [skip_head hb, List.head?_cons, if_neg (fun he => hclose (Option.some.inj he)), hitems]
    rfl
  | .object .nil =>
    have hskip : skip ((if fmt then [newline] else []) ++ (tabs fmt (depth - 1) ++ 125 :: r)) = 125 :: r := by
      rw [skip_space (format_space fmt (by simp)), skip_space (tabs_space _ _), skip_head (by decide)]
    have htext : (printValue arith fmt depth (.object .nil)).text ++ r =
        123 :: ((if fmt then [newline] else []) ++ (tabs fmt (depth - 1) ++ 125 :: r)) := by
      rw [printValue, printMembers, printObject, if_pos rfl]
      simp [stored]
    rw [htext, parse_object_value, hskip]
    rfl
  | .object (.cons string item next) =>
    have hlen := congrArg List.length (object_text arith fmt depth string item next)
    simp only [List.length_cons, List.length_append, List.length_nil] at hlen
    have hmembers := members_parse hexact string item next (depth + 1) rounds
      (r := r) (format_space fmt (b := newline) (by simp)) (tabs_space fmt depth) h (by omega)
    obtain ⟨bs, hfront⟩ := members_front arith fmt (depth + 1) string item next
    have hskip : skip ((if fmt then [newline] else []) ++ (membersText arith fmt (depth + 1)
        (.cons string item next) ++ (tabs fmt depth ++ 125 :: r))) =
          quote :: (bs ++ (tabs fmt depth ++ 125 :: r)) := by
      rw [skip_space (format_space fmt (by simp)), hfront, List.append_assoc, skip_space (tabs_space _ _),
        List.cons_append, skip_head (by decide)]
    rw [object_text]
    simp only [List.cons_append, List.append_assoc, List.nil_append]
    rw [parse_object_value, members_skip, hmembers, hskip, List.head?_cons, if_neg (by decide)]
    rfl
termination_by rounds

/-- The items of an array are read up to its end. -/
theorem items_parse (hexact : arith.Exact) (item : CJson D) (next : Items D) (depth rounds : Nat)
    {ws r : List UInt8} (hws : ∀ b ∈ ws, b ≠ 0 ∧ b ≤ 32) (h : (Items.cons item next).Whole arith)
    (hrounds : (itemsText arith fmt depth (.cons item next)).length + 1 < rounds) :
    parseItems arith rounds (ws ++ (itemsText arith fmt depth (.cons item next) ++ 93 :: r)) =
      some (.item (.cons item next) r) := by
  obtain ⟨rounds, rfl⟩ := Nat.exists_eq_succ_of_ne_zero (Nat.ne_zero_of_lt hrounds)
  match next with
  | .nil =>
    rw [items_text_one] at hrounds ⊢
    rw [parseItems, skip_value fmt _ hexact h.1 hws,
      value_parses hexact item depth rounds h.1 (follows_cons (by decide)) (by omega)]
    rfl
  | .cons item' next =>
    have hcomma : Follows (comma :: ((if fmt then [blank] else []) ++
        (itemsText arith fmt depth (.cons item' next) ++ 93 :: r))) := follows_cons (by decide)
    rw [items_text_more] at hrounds ⊢
    simp only [List.length_append, List.length_cons] at hrounds
    simp only [List.append_assoc, List.cons_append]
    rw [parseItems, skip_value fmt _ hexact h.1 hws, value_parses hexact item depth rounds h.1 hcomma (by omega),
      Parsed.next]
    simp only
    rw [skip_head (by decide), List.head?_cons, if_pos rfl, List.tail_cons,
      items_parse hexact item' next depth rounds (format_space fmt (by simp)) h.2 (by omega)]
    rfl
termination_by rounds

/-- The items of an object are read up to its end, which may have space in front of it. -/
theorem members_parse (hexact : arith.Exact) (string : List UInt8) (item : CJson D) (next : Members D)
    (depth rounds : Nat) {ws ws' r : List UInt8} (hws : ∀ b ∈ ws, b ≠ 0 ∧ b ≤ 32)
    (hws' : ∀ b ∈ ws', b ≠ 0 ∧ b ≤ 32) (h : (Members.cons string item next).Whole arith)
    (hrounds : (membersText arith fmt depth (.cons string item next)).length + 1 < rounds) :
    parseMembers arith rounds (ws ++ (membersText arith fmt depth (.cons string item next) ++ (ws' ++ 125 :: r))) =
      some (.item (.cons string item next) r) := by
  obtain ⟨rounds, rfl⟩ := Nat.exists_eq_succ_of_ne_zero (Nat.ne_zero_of_lt hrounds)
  obtain ⟨hstring, hitem, hnext⟩ := h
  match next with
  | .nil =>
    have hclose : skip ((if fmt then [newline] else []) ++ (ws' ++ 125 :: r)) = 125 :: r := by
      rw [skip_space (format_space fmt (by simp)), skip_space hws', skip_head (by decide)]
    have hfollows : Follows ((if fmt then [newline] else []) ++ (ws' ++ 125 :: r)) := by
      refine follows_space (format_space fmt (by simp)) (follows_space hws' (follows_cons (by decide)))
    rw [members_text_one] at hrounds ⊢
    simp only [List.length_append, List.length_cons] at hrounds
    simp only [List.append_nil, List.append_assoc, List.cons_append]
    rw [parseMembers, skip_name hws, string_parses hstring, Parsed.next, skip_head (by decide)]
    dsimp only
    rw [List.head?_cons, if_neg (by simp), List.tail_cons, skip_value fmt _ hexact hitem (format_space fmt (by simp)),
      value_parses hexact item depth rounds hitem hfollows (by omega), Parsed.next]
    rw [hclose]
    rfl
  | .cons string' item' next =>
    have hfollows : Follows (comma :: ((if fmt then [newline] else []) ++
        (membersText arith fmt depth (.cons string' item' next) ++ (ws' ++ 125 :: r)))) :=
      follows_cons (by decide)
    rw [members_text_more] at hrounds ⊢
    simp only [List.length_append, List.length_cons] at hrounds
    simp only [List.append_assoc, List.cons_append, List.nil_append]
    rw [parseMembers, skip_name hws, string_parses hstring, Parsed.next, skip_head (by decide)]
    dsimp only
    rw [List.head?_cons, if_neg (by simp), List.tail_cons, skip_value fmt _ hexact hitem (format_space fmt (by simp)),
      value_parses hexact item depth rounds hitem hfollows (by omega), Parsed.next]
    rw [skip_head (by decide), List.head?_cons, if_pos rfl, List.tail_cons,
      members_parse hexact string' item' next depth rounds (format_space fmt (by simp)) hws' hnext (by omega)]
    rfl
termination_by rounds

end

end

section
variable {D : Type} {arith : Doubles D} {fmt : Bool} {depth : Nat}

theorem string_plain {s : List UInt8} (h : 0 ∉ s) : 0 ∉ (printStringPtr s).text := by
  have hescape : ∀ b, b ≠ 0 → 0 ∉ escape b := by
    intro b hb
    obtain ⟨hplain, -⟩ | ⟨c, -, hshort, hc⟩ | ⟨-, hcode⟩ := escape_cases b
    · rw [hplain]
      simpa using hb.symm
    · have hne : c ≠ 0 := by
        rintro rfl
        exact hb hc.symm
      rw [hshort]
      simp [backslash, hne.symm]
    · have hdigit : ∀ n < 16, hexDigit n ≠ 0 := by decide
      have hlt := b.toNat_lt
      have hhigh := hdigit (b.toNat / 16) (by omega)
      have hlow := hdigit (b.toNat % 16) (by omega)
      rw [hcode]
      simp [backslash, hhigh.symm, hlow.symm]
  rw [string_text]
  simp only [List.mem_cons, List.mem_append, List.mem_flatMap, List.not_mem_nil, or_false, not_or, not_exists,
    not_and]
  refine ⟨by decide, fun b hb hzero => ?_, by decide⟩
  exact hescape b (fun hb0 => h (hb0 ▸ hb)) hzero

theorem signed_plain (i : Int) : 0 ∉ signed i := by
  have hdecimal : ∀ n, 0 ∉ decimal n := fun n h => absurd (decimal_digits h).1 (by decide)
  rw [signed]
  split
  · simp [hdecimal]
  · exact hdecimal _

theorem join_items_plain {entries : List (List UInt8)} (h : ∀ entry ∈ entries, 0 ∉ entry) :
    0 ∉ joinItems fmt entries := by
  fun_induction joinItems fmt entries with
  | case1 => simp
  | case2 entry => exact h entry (by simp)
  | case3 entry entries hne ih =>
    have hentry := h entry (by simp)
    have hrest := ih fun entry hm => h entry (by simp [hm])
    cases fmt <;> simp [comma, blank, hentry, hrest]

theorem join_members_plain {entries : List (List UInt8 × List UInt8)}
    (h : ∀ entry ∈ entries, 0 ∉ entry.1 ∧ 0 ∉ entry.2) : 0 ∉ joinMembers fmt depth entries := by
  induction entries with
  | nil => simp [joinMembers]
  | cons entry entries ih =>
    obtain ⟨hname, hentry⟩ := h entry (by simp)
    have hrest := ih fun entry hm => h entry (by simp [hm])
    have htabs : 0 ∉ tabs fmt depth := fun hm => (tabs_space fmt depth 0 hm).1 rfl
    rw [joinMembers]
    by_cases hlast : entries = [] <;> cases fmt <;>
      simp_all [joinMembers, colon, comma, tab, newline]

mutual

/-- A printed text has no NUL. -/
theorem value_plain (hexact : arith.Exact) (item : CJson D) (depth : Nat) (h : item.Whole arith) :
    0 ∉ (printValue arith fmt depth item).text := by
  match item with
  | .null => exact (by decide : 0 ∉ ascii "null")
  | .bool false => exact (by decide : 0 ∉ ascii "false")
  | .bool true => exact (by decide : 0 ∉ ascii "true")
  | .number i d =>
    obtain ⟨h0, h1, rfl⟩ := h
    rw [printValue, number_text hexact h0 h1]
    exact signed_plain i
  | .string s => exact string_plain h
  | .array child =>
    have hitems := items_plain hexact child (depth + 1) h
    rw [printValue, printArray]
    split
    · simp [stored]
    · have hjoin : 0 ∉ joinItems fmt ((printItems arith fmt (depth + 1) child).map Printed.text) :=
        join_items_plain (by simpa using hitems)
      simp [stored, hjoin]
  | .object child =>
    have hmembers := members_plain hexact child (depth + 1) h
    have htabs : ∀ depth, 0 ∉ tabs fmt depth := fun depth hm => (tabs_space fmt depth 0 hm).1 rfl
    have hline : 0 ∉ if fmt then [newline] else [] := fun hm => (format_space fmt (by simp) 0 hm).1 rfl
    rw [printValue, printObject]
    split
    · simp [stored, htabs, hline]
    · have hjoin : 0 ∉ joinMembers fmt (depth + 1)
          ((printMembers arith fmt (depth + 1) child).map fun entry => (entry.1.text, entry.2.text)) := by
        refine join_members_plain fun entry hm => ?_
        obtain ⟨printed, hprinted, rfl⟩ := List.mem_map.mp hm
        exact hmembers printed hprinted
      simp [stored, htabs, hline, hjoin]

theorem items_plain (hexact : arith.Exact) (items : Items D) (depth : Nat) (h : items.Whole arith) :
    ∀ entry ∈ printItems arith fmt depth items, 0 ∉ entry.text := by
  match items with
  | .nil => simp [printItems]
  | .cons item next =>
    intro entry hm
    rcases List.mem_cons.mp hm with rfl | hm
    · exact value_plain hexact item depth h.1
    · exact items_plain hexact next depth h.2 entry hm

theorem members_plain (hexact : arith.Exact) (members : Members D) (depth : Nat) (h : members.Whole arith) :
    ∀ entry ∈ printMembers arith fmt depth members, 0 ∉ entry.1.text ∧ 0 ∉ entry.2.text := by
  match members with
  | .nil => simp [printMembers]
  | .cons string item next =>
    intro entry hm
    rcases List.mem_cons.mp hm with rfl | hm
    · exact ⟨string_plain h.1, value_plain hexact item depth h.2.1⟩
    · exact members_plain hexact next depth h.2.2 entry hm

end

end

section
variable {D : Type} {arith : Doubles D} {item : CJson D}

theorem print_parses (hexact : arith.Exact) (h : item.Whole arith) (fmt : Bool) {r : List UInt8} (hr : Follows r) :
    cJSONParse arith (cJSONPrint arith fmt item ++ r) = some (.item item r) := by
  have hskip := skip_value fmt 0 hexact h (r := r) no_space
  rw [List.nil_append] at hskip
  rw [cJSONParse, cJSONPrint, hskip]
  refine value_parses hexact item 0 _ h hr ?_
  rw [List.length_append]
  omega

/-- A message is read as it was written, from a buffer that has anything behind it. -/
theorem write_read (hexact : arith.Exact) (h : item.Whole arith) (behind : List UInt8) :
    rnsJsonRead arith (rnsJsonWrite arith item ++ 0 :: behind) = some (.item item []) := by
  have hread := print_parses hexact h false follows_nil
  rw [List.append_nil] at hread
  have hplain : 0 ∉ rnsJsonWrite arith item := value_plain hexact item 0 h
  rw [rnsJsonRead, c_string_nul hplain]
  exact hread

/-- Every tree that the program makes is read as it was printed, formatted or not, with what is behind
it left, and `rns_json_read` reads what `rns_json_write` wrote. -/
theorem json_round_trip (hexact : arith.Exact) (h : item.Whole arith) :
    (∀ fmt r, Follows r → cJSONParse arith (cJSONPrint arith fmt item ++ r) = some (.item item r)) ∧
      ∀ behind, rnsJsonRead arith (rnsJsonWrite arith item ++ 0 :: behind) = some (.item item []) :=
  ⟨fun fmt _ hr => print_parses hexact h fmt hr, write_read hexact h⟩

/-- What `resp_server` answers. -/
def serverMessage : CJson ℚ :=
  .object (.cons (ascii "ip") (.string (ascii "10.0.0.1"))
    (.cons (ascii "port") (.number 80 (rationals.ofInt 80))
      (.cons (ascii "isbind") (.number 1 (rationals.ofInt 1)) .nil)))

theorem server_whole : serverMessage.Whole rationals :=
  ⟨by decide, (by decide : 0 ∉ ascii "10.0.0.1"), by decide, ⟨by decide, by decide, rfl⟩, by decide,
    ⟨by decide, by decide, rfl⟩, trivial⟩

theorem json_round_trip_server :
    (∀ fmt r, Follows r → cJSONParse rationals (cJSONPrint rationals fmt serverMessage ++ r) =
      some (.item serverMessage r)) ∧
      ∀ behind, rnsJsonRead rationals (rnsJsonWrite rationals serverMessage ++ 0 :: behind) =
        some (.item serverMessage []) :=
  json_round_trip rationals_exact server_whole

end

end Yclib.Json
