import Yclib.Http.Message
import Yclib.Util.Decimal

namespace Yclib.Http.Reading

/-! What the searches of the parser find in the lines of a message. -/

section
variable {b : UInt8} {line rest more walker : List UInt8}

theorem find_line (h : Text line) : findCrlf (line ++ 13 :: 10 :: rest) = some (line, rest) := by
  induction line with
  | nil => simp [findCrlf]
  | cons b line ih =>
    have hb := h b (by simp)
    have hline : Text line := fun c hc => h c (by simp [hc])
    rw [List.cons_append, findCrlf, if_neg hb.1, if_neg (fun hc => hb.2.1 hc.1), ih hline]
    rfl

/-- A line is not found before its end is there. -/
theorem find_short (h : Text line) (happ : walker ++ rest = line ++ crlf ++ more)
    (hlen : walker.length < line.length + 2) : findCrlf walker = none := by
  induction line generalizing walker with
  | nil =>
    cases walker with
    | nil => rfl
    | cons b walker =>
      have hnil : walker = [] := by simpa using hlen
      subst hnil
      have hb : b = 13 := by simpa [crlf] using congrArg List.head? happ
      simp [findCrlf, hb]
  | cons c line ih =>
    cases walker with
    | nil => rfl
    | cons b walker =>
      have hc := h c (by simp)
      have hline : Text line := fun c hc => h c (by simp [hc])
      obtain ⟨rfl, happ'⟩ : b = c ∧ walker ++ rest = line ++ crlf ++ more := by simpa using happ
      rw [findCrlf, if_neg hc.1, if_neg (fun h => hc.2.1 h.1),
        ih hline happ' (by simpa using hlen)]
      rfl

theorem cut_append (h : b ∉ line) : cut b (line ++ b :: rest) = some (line, rest) := by
  induction line with
  | nil => simp [cut]
  | cons c line ih =>
    have hc : c ≠ b := fun hc => h (by simp [hc])
    rw [List.cons_append, cut, if_neg hc, ih (fun hb => h (by simp [hb]))]
    rfl

theorem cut_none (h : b ∉ line) : cut b line = none := by
  induction line with
  | nil => rfl
  | cons c line ih =>
    have hc : c ≠ b := fun hc => h (by simp [hc])
    rw [cut, if_neg hc, ih (fun hb => h (by simp [hb]))]
    rfl

theorem skip_first (h : walker.head? = some b) (hb : b ≠ 32) : skipSpaces walker = walker := by
  cases walker with
  | nil => rfl
  | cons c walker =>
    obtain rfl : c = b := by simpa using h
    simp [skipSpaces, hb]

theorem skip_replicate (n : Nat) (h : ∀ b, walker.head? = some b → b ≠ 32) :
    skipSpaces (List.replicate n 32 ++ walker) = walker := by
  induction n with
  | zero =>
    cases walker with
    | nil => rfl
    | cons c walker => exact skip_first rfl (h c rfl)
  | succ n ih => simpa [List.replicate_succ, skipSpaces] using ih

end

/-! The version at the end of a request. -/

theorem strncmp_starts {str lit : List UInt8} {n : Nat} (hlit : ∀ b ∈ lit, b ≠ 0) (hn : n ≤ lit.length) :
    strncmpEq str lit n = true ↔ lit.take n <+: str := by
  induction n generalizing str lit with
  | zero => simp [strncmpEq]
  | succ n ih =>
    cases lit with
    | nil => simp at hn
    | cons b lit =>
      obtain ⟨hb, hlit⟩ := List.forall_mem_cons.mp hlit
      have hn : n ≤ lit.length := by simpa using hn
      cases str with
      | nil => simp [strncmpEq, Ne.symm hb]
      | cons c str =>
        simp only [strncmpEq, List.headD_cons, List.tail_cons, List.take_succ_cons,
          List.cons_prefix_cons, Bool.and_eq_true, Bool.or_eq_true, beq_iff_eq, ih hlit hn]
        constructor
        · rintro ⟨rfl, h | h⟩
          · exact absurd h hb
          · exact ⟨rfl, h⟩
        · rintro ⟨rfl, h⟩
          exact ⟨rfl, .inr h⟩

theorem ascii_http : ascii "HTTP" = [72, 84, 84, 80] := by decide

theorem http_starts (walker : List UInt8) :
    strncmpEq walker (ascii "HTTP") 4 = true ↔ ascii "HTTP" <+: walker := by
  rw [ascii_http]
  exact strncmp_starts (by simp) (by decide)

/-- `HTTP` does not go on behind a word that a space ends. -/
theorem prefix_word {word rest : List UInt8} (h : ascii "HTTP" <+: word ++ 32 :: rest) :
    ascii "HTTP" <+: word := by
  rcases List.prefix_or_prefix_of_prefix h (List.prefix_append word _) with h' | ⟨tail, htail⟩
  · exact h'
  · rw [← htail, List.prefix_append_right_inj] at h
    cases tail with
    | nil => exact ⟨[], by simpa using htail.symm⟩
    | cons b tail =>
      have hb : b = 32 := (List.cons_prefix_cons.mp h).1
      have hmem : 32 ∈ ascii "HTTP" := by rw [← htail, hb]; simp
      exact absurd hmem (by rw [ascii_http]; decide)

theorem word_prefix {word rest : List UInt8} (h : ¬ ascii "HTTP" <:+: word) :
    ¬ ascii "HTTP" <+: word ++ 32 :: rest := fun hp => h (prefix_word hp).isInfix

theorem before_http {word rest : List UInt8} (h : ¬ ascii "HTTP" <:+: word)
    (hrest : ascii "HTTP" <+: rest) : beforeHttp (word ++ 32 :: rest) = word ++ [32] := by
  induction word with
  | nil =>
    have hspace : ¬ strncmpEq (32 :: rest) (ascii "HTTP") 4 = true := by
      rw [http_starts]
      exact word_prefix h
    obtain ⟨tail, rfl⟩ := hrest
    have hstart : strncmpEq (ascii "HTTP" ++ tail) (ascii "HTTP") 4 = true :=
      (http_starts _).mpr (List.prefix_append _ _)
    rw [List.nil_append, beforeHttp, if_neg hspace]
    have hcons : ascii "HTTP" ++ tail = 72 :: (ascii "TTP" ++ tail) := rfl
    rw [hcons] at hstart ⊢
    rw [beforeHttp, if_pos hstart]
    rfl
  | cons b word ih =>
    have hword : ¬ ascii "HTTP" <:+: word := fun hi => h (hi.trans (List.suffix_cons b word).isInfix)
    have hstart : ¬ strncmpEq (b :: (word ++ 32 :: rest)) (ascii "HTTP") 4 = true := by
      rw [http_starts]
      exact word_prefix h
    rw [List.cons_append, beforeHttp, if_neg hstart, ih hword]
    rfl

theorem version_bytes (version : Version) :
    ∃ minor : UInt8, version.text = [72, 84, 84, 80, 47, 49, 46, minor] ∧ (minor = 48 ∨ minor = 49) := by
  cases version with
  | http10 => exact ⟨48, by decide, .inl rfl⟩
  | http11 => exact ⟨49, by decide, .inr rfl⟩

theorem version_http (version : Version) : ascii "HTTP" <+: version.text := by
  obtain ⟨minor, heq, -⟩ := version_bytes version
  rw [heq, ascii_http]
  exact ⟨[47, 49, 46, minor], rfl⟩

/-- The version has no space, no mark and no ampersand. -/
theorem version_free (version : Version) : 32 ∉ version.text ∧ 63 ∉ version.text ∧ 38 ∉ version.text := by
  obtain ⟨minor, heq, rfl | rfl⟩ := version_bytes version <;> rw [heq] <;> decide

/-- A word without `HTTP` goes up to the version. -/
theorem until_word {word version : List UInt8} (hspace : 32 ∉ word) (h : ¬ ascii "HTTP" <:+: word)
    (hversion : ascii "HTTP" <+: version) : untilVersion (word ++ 32 :: version) = word := by
  rw [untilVersion, before_http h hversion, List.rdropWhile_concat_pos _ _ _ (by decide)]
  rcases List.eq_nil_or_concat word with rfl | ⟨init, last, rfl⟩
  · rfl
  · have hlast : last ≠ 32 := fun he => hspace (by simp [he])
    rw [List.concat_eq_append, List.rdropWhile_concat_neg _ _ _ (by simpa using hlast)]

theorem until_version {word : List UInt8} (h : Word word) (version : Version) :
    untilVersion (word ++ 32 :: version.text) = word := until_word h.2.1 h.2.2 (version_http version)

theorem read_args (args : List (Rbt.Str × List UInt8)) (items : List (List UInt8)) (last : List UInt8) :
    readArgs args (items ++ [last]) =
      insertSplit (untilVersion last) 61 (items.foldl (fun args item => insertSplit item 61 args) args) := by
  induction items generalizing args with
  | nil => rfl
  | cons item items ih =>
    cases items with
    | nil => rfl
    | cons item' items => exact ih _

/-! The first line. -/

theorem split_query {items : List (List UInt8)} {last : List UInt8} (version : Version)
    (hitems : ∀ item ∈ items, 38 ∉ item) (hlast : 38 ∉ last) :
    (List.intercalate [38] (items ++ [last ++ 32 :: version.text])).splitOn 38 =
      items ++ [last ++ 32 :: version.text] := by
  apply List.splitOn_intercalate
  · intro item hitem
    rcases List.mem_append.mp hitem with hitem | hitem
    · exact hitems item hitem
    · obtain rfl := List.mem_singleton.mp hitem
      simp [hlast, (version_free version).2.2]
  · simp

/-- The URI and the arguments are those of the request. -/
theorem uri_turn {tunes : Tunes} {path rest : List UInt8}
    {query : Option (List (List UInt8) × List UInt8)} {version : Version} (hargs : tunes.info.args = [])
    (hne : path ≠ []) (hpath : Word path) (hmark : 63 ∉ path)
    (hquery : ∀ items ∈ query, Word items.2 ∧ 38 ∉ items.2 ∧ ∀ item ∈ items.1, Text item ∧ 38 ∉ item) :
    uriTurn tunes (path ++ Start.target query version) rest =
      .go (tunes.setInfo { tunes.info with
        uri := path, args := Start.args query, state := .header }) rest := by
  obtain ⟨b, path', rfl⟩ := List.exists_cons_of_ne_nil hne
  have hb : b ≠ 32 := fun he => hpath.2.1 (by simp [he])
  have hskip : skipSpaces (b :: path' ++ Start.target query version) =
      b :: path' ++ Start.target query version := skip_first rfl hb
  rw [uriTurn, hskip]
  simp only [List.cons_append, reduceCtorEq, if_false]
  rw [← List.cons_append]
  cases query with
  | none =>
    have hversion : 63 ∉ 32 :: version.text := by
      simpa using (version_free version).2.1
    have hcut : cut 63 (b :: path' ++ 32 :: version.text) = none :=
      cut_none (by simp only [List.mem_append, not_or]; exact ⟨hmark, hversion⟩)
    have hstart : ¬ strncmpEq (b :: path' ++ 32 :: version.text) (ascii "HTTP") 4 = true := by
      rw [http_starts]
      exact word_prefix hpath.2.2
    simp only [Start.target, hcut, if_neg hstart, until_version hpath version, Start.args, hargs]
  | some items =>
    obtain ⟨hlast, hamp, hitems⟩ := hquery items rfl
    simp only [Start.target, cut_append hmark,
      split_query version (fun item hi => (hitems item hi).2) hamp, read_args, until_version hlast version,
      Start.args, hargs, List.foldl_append, List.foldl_cons, List.foldl_nil]

theorem method_turn {tunes : Tunes} {walker rest : List UInt8} (post : Bool) :
    startTurn tunes ((if post then ascii "POST" else ascii "GET") ++ 32 :: walker) rest =
      uriTurn (({ tunes with readType := false } : Tunes).setInfo { tunes.request with method := .post })
        walker rest := by
  have hpost : ascii "POST" = [80, 79, 83, 84] := by decide
  have hget : ascii "GET" = [71, 69, 84] := by decide
  cases post <;>
    simp [startTurn, methodTurn, hpost, hget, ascii_http, skipSpaces, cut, strncmpEq, Tunes.info]

theorem code_turn {tunes : Tunes} {version : Version} {code reason rest : List UInt8} (hne : code ≠ [])
    (hcode : ∀ b ∈ code, isDigit b) :
    startTurn tunes (version.text ++ 32 :: (code ++ 32 :: reason)) rest =
      .go (({ tunes with readType := true } : Tunes).setInfo { tunes.response with
        code := ofInt (rnsAtoi (code ++ 32 :: reason)), state := .header }) rest := by
  obtain ⟨b, code', rfl⟩ := List.exists_cons_of_ne_nil hne
  have hspace : 32 ∉ b :: code' := fun hm => absurd (hcode 32 hm) (by decide)
  have hb : b ≠ 32 := fun he => hspace (by simp [he])
  have hfirst : version.text.head? = some 72 := by
    obtain ⟨minor, heq, -⟩ := version_bytes version
    rw [heq]
    rfl
  have hskip : skipSpaces (version.text ++ 32 :: (b :: code' ++ 32 :: reason)) =
      version.text ++ 32 :: (b :: code' ++ 32 :: reason) :=
    skip_first (b := 72) (by rw [List.head?_append, hfirst]; rfl) (by decide)
  have hhttp : strncmpEq (version.text ++ 32 :: (b :: code' ++ 32 :: reason)) (ascii "HTTP") 4 = true :=
    (http_starts _).mpr ((version_http version).trans (List.prefix_append _ _))
  have hskip' : skipSpaces (b :: code' ++ 32 :: reason) = b :: code' ++ 32 :: reason := skip_first rfl hb
  simp only [startTurn, hskip, cut_append (version_free version).1, if_pos hhttp, codeTurn, hskip', cut_append hspace]
  rfl

/-- The first line of a message is read by a connection that is ready for it. -/
theorem start_turn {tunes : Tunes} {start : Start} (hfresh : tunes.Fresh) (h : start.WellFormed)
    (rest : List UInt8) : startTurn tunes start.line rest = .go (start.tunes tunes) rest := by
  obtain ⟨readType, request, response⟩ := tunes
  obtain ⟨info, rfl⟩ : ∃ info, request = rnsHttpInfoInit info := ⟨_, hfresh.1⟩
  obtain ⟨info', rfl⟩ : ∃ info, response = rnsHttpInfoInit info := ⟨_, hfresh.2⟩
  cases start with
  | request post path query version =>
    obtain ⟨hne, hpath, hmark, hquery⟩ := h
    rw [Start.line, method_turn, uri_turn (by rw [Tunes.info_set]; rfl) hne hpath hmark hquery]
    rfl
  | response version code reason =>
    obtain ⟨hne, hcode, hreason⟩ := h
    rw [Start.line, code_turn hne hcode]
    rfl

theorem text_nil : Text [] := fun _ h => absurd h List.not_mem_nil

theorem text_append {xs ys : List UInt8} : Text (xs ++ ys) ↔ Text xs ∧ Text ys := by
  exact List.forall_mem_append

theorem text_cons {b : UInt8} {xs : List UInt8} :
    Text (b :: xs) ↔ (b ≠ 0 ∧ b ≠ 13 ∧ b ≠ 10) ∧ Text xs := by
  exact List.forall_mem_cons

theorem version_text (version : Version) : Text version.text := by
  unfold Text
  obtain ⟨minor, heq, rfl | rfl⟩ := version_bytes version <;> simp [heq]

theorem intercalate_text {b : UInt8} {items : List (List UInt8)} (hb : b ≠ 0 ∧ b ≠ 13 ∧ b ≠ 10)
    (h : ∀ item ∈ items, Text item) : Text (List.intercalate [b] items) := by
  induction items with
  | nil => exact fun c hc => absurd hc List.not_mem_nil
  | cons item items ih =>
    obtain ⟨hitem, hitems⟩ := List.forall_mem_cons.mp h
    cases items with
    | nil => simpa using hitem
    | cons item' items =>
      rw [List.intercalate_cons_cons]
      exact text_append.mpr ⟨text_append.mpr ⟨hitem, text_cons.mpr ⟨hb, fun _ hc => absurd hc List.not_mem_nil⟩⟩, ih hitems⟩

theorem target_text {query : Option (List (List UInt8) × List UInt8)} {version : Version}
    (h : ∀ items ∈ query, Word items.2 ∧ 38 ∉ items.2 ∧ ∀ item ∈ items.1, Text item ∧ 38 ∉ item) :
    Text (Start.target query version) := by
  cases query with
  | none => exact text_cons.mpr ⟨by decide, version_text version⟩
  | some items =>
    obtain ⟨hlast, -, hitems⟩ := h items rfl
    refine text_cons.mpr ⟨by decide, intercalate_text (by decide) ?_⟩
    intro item hitem
    rcases List.mem_append.mp hitem with hitem | hitem
    · exact (hitems item hitem).1
    · obtain rfl := List.mem_singleton.mp hitem
      exact text_append.mpr ⟨hlast.1, text_cons.mpr ⟨by decide, version_text version⟩⟩

theorem digits_text {digits : List UInt8} (h : ∀ b ∈ digits, isDigit b) : Text digits := by
  intro b hb
  have hdigit := h b hb
  refine ⟨?_, ?_, ?_⟩ <;> rintro rfl <;> exact absurd hdigit (by decide)

/-- The first line of a message ends where its line break is. -/
theorem line_text {start : Start} (h : start.WellFormed) : Text start.line := by
  cases start with
  | request post path query version =>
    obtain ⟨-, hpath, -, hquery⟩ := h
    have hmethod : Text (if post then ascii "POST" else ascii "GET") := by
      unfold Text
      cases post <;> simp [ascii]
    exact text_append.mpr ⟨hmethod, text_cons.mpr ⟨by decide,
      text_append.mpr ⟨hpath.1, target_text hquery⟩⟩⟩
  | response version code reason =>
    obtain ⟨-, hcode, hreason⟩ := h
    exact text_append.mpr ⟨version_text version, text_cons.mpr ⟨by decide,
      text_append.mpr ⟨digits_text hcode, text_cons.mpr ⟨by decide, hreason⟩⟩⟩⟩

/-! The lines of the header. -/

/-- The bytes that are found are around the first delimiter. -/
theorem cut_some {b : UInt8} {str : List UInt8} {found : List UInt8 × List UInt8}
    (h : cut b str = some found) : str = found.1 ++ b :: found.2 := by
  induction str generalizing found with
  | nil => cases h
  | cons c str ih =>
    rw [cut] at h
    split at h
    · rename_i hc
      cases h
      rw [hc]
      rfl
    · obtain ⟨found', hfound, rfl⟩ := Option.map_eq_some_iff.mp h
      rw [ih hfound]
      rfl

theorem read_other {header : List UInt8} (h : Other header) (info : Info) :
    (info.readHeader header).totalSize = info.totalSize ∧
      (info.readHeader header).chunk = info.chunk := by
  obtain ⟨-, -, hlength, hcoding⟩ := h
  rw [Info.readHeader]
  cases hsplit : rnsSplitKeyValue header 58 with
  | none => exact ⟨rfl, rfl⟩
  | some entry =>
    obtain ⟨found, hcut, rfl⟩ := Option.map_eq_some_iff.mp hsplit
    have hkey : found.1 <+: header := ⟨_, (cut_some hcut).symm⟩
    have hlength' : ¬ strncmpEq found.1 (ascii "Content-Length") 14 = true := by
      rw [strncmp_starts (by simp [ascii]) (by decide)]
      exact fun hp => hlength (hp.trans hkey)
    have hcoding' : strncmpEq found.1 (ascii "Transfer-Encoding") 14 = false := by
      rw [← Bool.not_eq_true, strncmp_starts (by simp [ascii]) (by decide)]
      exact fun hp => hcoding (hp.trans hkey)
    simp only [if_neg hlength', hcoding', Bool.false_or, and_self]

theorem read_others {headers : List (List UInt8)} (h : ∀ header ∈ headers, Other header) (info : Info) :
    (headers.foldl Info.readHeader info).totalSize = info.totalSize ∧
      (headers.foldl Info.readHeader info).chunk = info.chunk := by
  induction headers generalizing info with
  | nil => exact ⟨rfl, rfl⟩
  | cons header headers ih =>
    obtain ⟨hheader, hheaders⟩ := List.forall_mem_cons.mp h
    obtain ⟨htotal, hchunk⟩ := read_other hheader info
    rw [List.foldl_cons, (ih hheaders _).1, (ih hheaders _).2]
    exact ⟨htotal, hchunk⟩

/-- Nothing else of the record changes with the lines of the header. -/
theorem read_headers (headers : List (List UInt8)) (info : Info) :
    headers.foldl Info.readHeader info = { info with
      totalSize := (headers.foldl Info.readHeader info).totalSize
      chunk := (headers.foldl Info.readHeader info).chunk
      headers := (headers.foldl Info.readHeader info).headers } := by
  induction headers generalizing info with
  | nil => rfl
  | cons header headers ih =>
    rw [List.foldl_cons, ih]
    rw [Info.readHeader]
    split <;> rfl

/-- Behind a first digit `rns_atoi` reads the other ones. -/
theorem atoi_first {b : UInt8} (h : isDigit b) (rest : List UInt8) :
    rnsAtoi (b :: rest) = readDigits 0 (b :: rest) := by
  have hb : 48 ≤ b.toNat ∧ b.toNat ≤ 57 := by
    simpa [isDigit, UInt8.le_iff_toNat_le] using h
  have hspace : isSpace b = false := by
    have h13 : ¬ b ≤ 13 := by
      rw [UInt8.le_iff_toNat_le]
      exact fun hle => absurd (hb.1.trans hle) (by decide)
    have h32 : b ≠ 32 := by
      rintro rfl
      exact absurd hb.1 (by decide)
    simp [isSpace, h13, h32]
  have h45 : b ≠ 45 := by
    rintro rfl
    exact absurd hb.1 (by decide)
  have h43 : b ≠ 43 := by
    rintro rfl
    exact absurd hb.1 (by decide)
  simp [rnsAtoi, hspace, h45, h43]

theorem atoi_digits {digits : List UInt8} (hne : digits ≠ []) (h : ∀ b ∈ digits, isDigit b) :
    rnsAtoi digits = readDigits 0 digits := by
  obtain ⟨b, digits, rfl⟩ := List.exists_cons_of_ne_nil hne
  exact atoi_first (h b (List.mem_cons_self ..)) digits

theorem read_digits_fold {digits : List UInt8} (h : ∀ b ∈ digits, isDigit b = true) (value : Nat) :
    readDigits value digits = digits.foldl (fun value b => value * 10 + (b.toNat - 48)) value := by
  induction digits generalizing value with
  | nil => rfl
  | cons b digits ih =>
    rw [readDigits, if_pos (h b (by simp))]
    exact ih (fun c hc => h c (List.mem_cons_of_mem _ hc)) _

theorem decimal_is_digit {n : Nat} : ∀ b ∈ decimal n, isDigit b = true := by
  intro b hb
  simpa [isDigit, UInt8.le_iff_toNat_le] using decimal_digits hb

theorem read_decimal (n : Nat) : readDigits 0 (decimal n) = n := by
  rw [read_digits_fold decimal_is_digit, decimal_foldl]

theorem atoi_decimal (n : Nat) : rnsAtoi (decimal n) = n := by
  rw [atoi_digits (decimal_ne_nil n) decimal_is_digit, read_decimal]

theorem read_length (spaces : Nat) {digits : List UInt8} (hne : digits ≠ [])
    (h : ∀ b ∈ digits, isDigit b) (hlt : readDigits 0 digits < 2 ^ 31) (info : Info) :
    (info.readHeader (ascii "Content-Length" ++ 58 :: (List.replicate spaces 32 ++ digits))).totalSize =
        readDigits 0 digits ∧
      (info.readHeader (ascii "Content-Length" ++ 58 :: (List.replicate spaces 32 ++ digits))).chunk =
        info.chunk := by
  have hskip : skipSpaces (List.replicate spaces 32 ++ digits) = digits := by
    apply skip_replicate
    rintro b hb rfl
    exact absurd (h 32 (List.mem_of_head? hb)) (by decide)
  have hsplit : rnsSplitKeyValue (ascii "Content-Length" ++ 58 :: (List.replicate spaces 32 ++ digits)) 58 =
      some (ascii "Content-Length", digits) := by
    rw [rnsSplitKeyValue, cut_append (by decide), Option.map_some, hskip]
  have hlength : strncmpEq (ascii "Content-Length") (ascii "Content-Length") 14 = true := by decide
  have hcoding : strncmpEq (ascii "Content-Length") (ascii "Transfer-Encoding") 14 = false := by decide
  simp only [Info.readHeader, hsplit, if_pos hlength, hcoding, Bool.false_or, atoi_digits hne h, and_true]
  unfold ofInt
  omega

theorem read_coding (coding : List UInt8) (info : Info) :
    (info.readHeader (ascii "Transfer-Encoding" ++ 58 :: coding)).totalSize = info.totalSize ∧
      (info.readHeader (ascii "Transfer-Encoding" ++ 58 :: coding)).chunk = true := by
  have hlength : ¬ strncmpEq (ascii "Transfer-Encoding") (ascii "Content-Length") 14 = true := by decide
  have hcoding : strncmpEq (ascii "Transfer-Encoding") (ascii "Transfer-Encoding") 14 = true := by decide
  have hcut : cut 58 (ascii "Transfer-Encoding" ++ 58 :: coding) =
      some (ascii "Transfer-Encoding", coding) := cut_append (by decide)
  simp only [Info.readHeader, rnsSplitKeyValue, hcut, Option.map_some, if_neg hlength, hcoding,
    Bool.true_or, and_self]

end Yclib.Http.Reading
