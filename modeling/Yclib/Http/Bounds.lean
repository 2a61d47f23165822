import Yclib.Http.Rounds
import Yclib.Util.Looks

namespace Yclib.Http.Bounds
open Reading Looks

/-! What `rns_http_info_read` looks at, and what it computes from its cursors. -/

/-- It looks at `n` bytes from a place with `left` received bytes, or it subtracts two cursors
where the line has `room` bytes left. -/
inductive Note
  | look (n left : Nat)
  | length (n : Int) (room : Nat)
deriving DecidableEq

def Note.Safe : Note → Prop
  | .look n left => n ≤ left
  | .length n room => 0 ≤ n ∧ n ≤ room

def signed (walker : List UInt8) : List UInt8 :=
  if walker.head? = some 45 ∨ walker.head? = some 43 then walker.tail else walker

section
variable (behind : List UInt8)

/-- `rns_strstr`, from received bytes with `behind` in the memory behind them. -/
def strstr (sub walker : List UInt8) : Note := .look (searched sub (walker ++ behind)) walker.length

/-- `while(*walker == ' ')++walker`. -/
def spaces (walker : List UInt8) : Note :=
  .look (spanned (fun b => b == 32) (walker ++ behind)) walker.length

/-- `printf` of the walker. -/
def printed (walker : List UInt8) : Note :=
  .look (spanned (fun b => b != 0) (walker ++ behind)) walker.length

def strncmp (walker lit : List UInt8) (n : Nat) : Note :=
  .look (compared (walker ++ behind) lit n) walker.length

/-- `rns_atoi`: over the spaces and a sign, and over the digits. -/
def atoi (walker : List UInt8) : List Note :=
  let number := signed (walker.dropWhile isSpace)
  [.look (spanned isSpace (walker ++ behind)) walker.length,
    .look (spanned isDigit (number ++ behind)) number.length]

/-- `ptr - walker` behind `while(*(ptr - 1) == ' ')--ptr`, where `ptr` was behind `part` and the
line has `before` in front of the walker. -/
def backed (before part : List UInt8) (room : Nat) : Note :=
  .length (((before ++ part).rdropWhile (· = 32)).length - before.length) room

-- The line ends in front of `after`, which has its CRLF.
variable (after : List UInt8)

/-- `RNS_HTTP_INFO_STATE_ARGS`, once for each part. -/
def argsNotes (before : List UInt8) : List (List UInt8) → List Note
  | [] => []
  | [item] =>
    [strstr behind [38] (item ++ after), strstr behind (ascii "HTTP") (item ++ after),
      backed before (beforeHttp item) item.length]
  | item :: items =>
    let walker := [38].intercalate (item :: items)
    strstr behind [38] (walker ++ after) :: .length item.length walker.length ::
      argsNotes (before ++ item ++ [38]) items

/-- `RNS_HTTP_INFO_STATE_URI`. -/
def uriNotes (before walker : List UInt8) : List Note :=
  spaces behind (walker ++ after) ::
    let before := before ++ walker.takeWhile (· = 32)
    let walker := skipSpaces walker
    if walker = [] then [printed behind after]
    else strstr behind [63] (walker ++ after) ::
      match cut 63 walker with
      | some found =>
        .length found.1.length walker.length ::
          argsNotes behind after (before ++ found.1 ++ [63]) (found.2.splitOn 38)
      | none =>
        [strstr behind (ascii "HTTP") (walker ++ after), backed before (beforeHttp walker) walker.length]

/-- `RNS_HTTP_INFO_STATE_METHOD`. -/
def methodNotes (before walker : List UInt8) : List Note :=
  spaces behind (walker ++ after) ::
    let before := before ++ walker.takeWhile (· = 32)
    let walker := skipSpaces walker
    strstr behind [32] (walker ++ after) ::
      match cut 32 walker with
      | none => [printed behind (walker ++ after)]
      | some found =>
        let n := found.1.length
        .length n walker.length :: strncmp behind (walker ++ after) (ascii "POST") n ::
          if strncmpEq walker (ascii "POST") n then
            uriNotes behind after (before ++ found.1 ++ [32]) found.2
          else .length n walker.length :: strncmp behind (walker ++ after) (ascii "GET") n ::
            if strncmpEq walker (ascii "GET") n then
              uriNotes behind after (before ++ found.1 ++ [32]) found.2
            else [printed behind (walker ++ after)]

/-- `RNS_HTTP_INFO_STATE_CODE`. -/
def codeNotes (walker : List UInt8) : List Note :=
  spaces behind (walker ++ after) ::
    let walker := skipSpaces walker
    strstr behind [32] (walker ++ after) ::
      match cut 32 walker with
      | none => [printed behind (walker ++ after)]
      | some _ => atoi behind (walker ++ after)

/-- `RNS_HTTP_INFO_STATE_INIT`, once the first line is there. -/
def startNotes (line : List UInt8) : List Note :=
  spaces behind (line ++ after) ::
    let walker := skipSpaces line
    strstr behind [32] (walker ++ after) ::
      match cut 32 walker with
      | none => []
      | some found =>
        strncmp behind (walker ++ after) (ascii "HTTP") 4 ::
          if strncmpEq walker (ascii "HTTP") 4 then codeNotes behind after found.2
          else methodNotes behind after (line.takeWhile (· = 32)) walker

end

/-- What one round of the loop looks at and computes, up to where it looks for a line that the
received bytes do not have. -/
def notes (behind : List UInt8) : InfoState → List UInt8 → List Note
  | .init, walker =>
    strstr behind crlf walker ::
      match findCrlf walker with
      | none => []
      | some found => startNotes behind (crlf ++ found.2) found.1
  | .header, walker =>
    strstr behind crlf walker ::
      match findCrlf walker with
      | none => []
      | some found =>
        .length found.1.length found.1.length :: spaces behind found.2 ::
          match skipSpaces found.2 with
          | 13 :: more => [.look 2 (more.length + 1)]
          | _ => []
  | .chunk, walker =>
    spaces behind walker :: strstr behind crlf (skipSpaces walker) ::
      match findCrlf (skipSpaces walker) with
      | some ([], rest) => [strstr behind crlf rest]
      | _ => []
  | _, _ => []

/-- The loop of `rns_http_info_read`, in so many rounds. -/
def loopNotes (full : Bool) (behind : List UInt8) : Nat → Tunes → List UInt8 → List Note
  | 0, _, _ => []
  | fuel + 1, tunes, walker =>
    if walker = [] then []
    else notes behind tunes.info.state walker ++
      match turn full tunes walker with
      | .go tunes walker => loopNotes full behind fuel tunes walker
      | _ => []

/-- All that `rns_http_info_read` looks at and computes. -/
def readNotes (full : Bool) (behind : List UInt8) (tunes : Tunes) (walker : List UInt8) : List Note :=
  loopNotes full behind (walker.length + 1) tunes walker

/-- The loop comes to a round. -/
inductive Comes (full : Bool) : Tunes → List UInt8 → Tunes → List UInt8 → Prop
  | here {tunes : Tunes} {walker : List UInt8} (hne : walker ≠ []) : Comes full tunes walker tunes walker
  | round {tunes tunes' last : Tunes} {walker walker' rest : List UInt8} (hne : walker ≠ [])
      (hgo : turn full tunes walker = .go tunes' walker') (h : Comes full tunes' walker' last rest) :
      Comes full tunes walker last rest

/-! Where the bytes of a round are enough for it. -/

section
variable (after : List UInt8)

/-- A `?` or a NUL is there; the last part of the arguments has `&` and `HTTP` behind it, or a NUL;
a URI without arguments has `HTTP` behind it and does not begin so. -/
def UriFits (walker : List UInt8) : Prop :=
  let walker := skipSpaces walker
  if walker = [] then 0 ∈ after
  else
    match cut 63 walker with
    | some found =>
      ∀ item ∈ (found.2.splitOn 38).getLast?, Ends [38] (item ++ after) ∧ Ends (ascii "HTTP") (item ++ after)
    | none =>
      Ends [63] (walker ++ after) ∧ Ends (ascii "HTTP") (walker ++ after) ∧ ¬ ascii "HTTP" <+: walker

def MethodFits (walker : List UInt8) : Prop :=
  let walker := skipSpaces walker
  match cut 32 walker with
  | none => 0 ∈ walker ++ after
  | some found =>
    if strncmpEq walker (ascii "POST") found.1.length ∨ strncmpEq walker (ascii "GET") found.1.length then
      UriFits after found.2
    else 0 ∈ walker ++ after

/-- The number comes to its end. -/
def CodeFits (walker : List UInt8) : Prop :=
  let walker := skipSpaces walker
  match cut 32 walker with
  | none => 0 ∈ walker ++ after
  | some _ =>
    (∃ b ∈ walker ++ after, isSpace b = false) ∧
      ∃ b ∈ signed ((walker ++ after).dropWhile isSpace), isDigit b = false

def StartFits (line : List UInt8) : Prop :=
  let walker := skipSpaces line
  match cut 32 walker with
  | none => Ends [32] (walker ++ after)
  | some found =>
    if strncmpEq walker (ascii "HTTP") 4 then CodeFits after found.2 else MethodFits after walker

end

/-- The bytes that a header needs behind it: one that is no space, and one more behind a CR. -/
def HeaderFits (rest : List UInt8) : Prop := skipSpaces rest ≠ [] ∧ skipSpaces rest ≠ [13]

def Fits : InfoState → List UInt8 → Prop
  | .init, walker =>
    Ends crlf walker ∧ ∀ found, findCrlf walker = some found → StartFits (crlf ++ found.2) found.1
  | .header, walker => Ends crlf walker ∧ ∀ found, findCrlf walker = some found → HeaderFits found.2
  | .chunk, walker =>
    skipSpaces walker ≠ [] ∧ Ends crlf (skipSpaces walker) ∧
      ∀ rest, findCrlf (skipSpaces walker) = some ([], rest) → Ends crlf rest
  | _, _ => True

section
variable {behind rest before part walker : List UInt8} {c : UInt8} {room : Nat}

theorem strstr_safe {sub : List UInt8} (hsub : sub ≠ []) (hnul : 0 ∉ sub) :
    (strstr behind sub walker).Safe ↔ Ends sub walker := searched_le hsub hnul

theorem strstr_byte (hc : c ≠ 0) : (strstr behind [c] walker).Safe ↔ Ends [c] walker :=
  strstr_safe (by simp) (by simpa using hc.symm)

theorem strstr_crlf : (strstr behind crlf walker).Safe ↔ Ends crlf walker :=
  strstr_safe (by decide) (by decide)

theorem strstr_http : (strstr behind (ascii "HTTP") walker).Safe ↔ Ends (ascii "HTTP") walker :=
  strstr_safe (by decide) (by decide)

/-- A byte of the line is found in it. -/
theorem byte_found {after : List UInt8} (hc : c ≠ 0) (h : c ∈ walker) :
    (strstr behind [c] (walker ++ after)).Safe := by
  apply (strstr_byte hc).mpr
  left
  obtain ⟨s, t, rfl⟩ := List.append_of_mem h
  exact ⟨s, t ++ after, by simp⟩

theorem spaces_safe : (spaces behind walker).Safe ↔ skipSpaces walker ≠ [] := by
  rw [skipSpaces, Ne, List.dropWhile_eq_nil_iff]
  refine spanned_le.trans ?_
  simp

/-- A line ends the spaces in it. -/
theorem spaces_line {line : List UInt8} : (spaces behind (line ++ (crlf ++ rest))).Safe := by
  apply spanned_le.mpr
  exact ⟨13, by simp [crlf], by decide⟩

theorem printed_safe : (printed behind walker).Safe ↔ 0 ∈ walker := by
  refine spanned_le.trans ?_
  simp

theorem length_safe {n : Nat} (h : n ≤ room) : (Note.length n room).Safe :=
  ⟨Int.natCast_nonneg n, Int.ofNat_le.mpr h⟩

theorem strncmp_safe {lit : List UInt8} {n : Nat} (h : n ≤ walker.length) :
    (strncmp behind walker lit n).Safe := (compared_le _ _ n).trans h

theorem atoi_safe : (∀ note ∈ atoi behind walker, note.Safe) ↔
    (∃ b ∈ walker, isSpace b = false) ∧
      ∃ b ∈ signed (walker.dropWhile isSpace), isDigit b = false := by
  simp only [atoi, List.forall_mem_cons, List.not_mem_nil, false_implies, implies_true, and_true]
  exact and_congr spanned_le spanned_le

/-- Going back over spaces stops in the part, or goes on in front of it. -/
theorem rdrop_append (p : UInt8 → Bool) : (before ++ part).rdropWhile p =
    if part.rdropWhile p = [] then before.rdropWhile p else before ++ part.rdropWhile p := by
  simp only [List.rdropWhile, List.reverse_append, List.dropWhile_append, List.isEmpty_iff,
    List.reverse_eq_nil_iff]
  split
  · rfl
  · rw [List.reverse_append, List.reverse_reverse]

theorem http_front (walker : List UInt8) : beforeHttp walker <+: walker := by
  induction walker with
  | nil => exact List.prefix_rfl
  | cons b walker ih =>
    rw [beforeHttp]
    split
    · exact List.nil_prefix
    · exact List.cons_prefix_cons.mpr ⟨rfl, ih⟩

theorem rdrop_le (p : UInt8 → Bool) (hpart : part.length ≤ room) :
    ((before ++ part.rdropWhile p).length : Int) - before.length ≤ room := by
  have hle := (List.rdropWhile_prefix p part).length_le
  rw [List.length_append]
  omega

/-- Behind another byte than a space, going back stops in time. -/
theorem backed_safe (hbefore : before.getLast? ≠ some 32) (hpart : part.length ≤ room) :
    (backed before part room).Safe := by
  have hstays : before.rdropWhile (· = 32) = before := by
    rw [List.rdropWhile_eq_self_iff]
    intro hne hlast
    exact hbefore (by rw [List.getLast?_eq_getLast_of_ne_nil hne]; simpa using hlast)
  rw [backed, rdrop_append]
  split
  · rw [hstays, Int.sub_self]
    exact ⟨le_refl 0, Int.natCast_nonneg room⟩
  · refine ⟨?_, rdrop_le _ hpart⟩
    rw [List.length_append]
    omega

/-- Behind a space it stops in time where there is anything but spaces. -/
theorem backed_space (hbefore : before.getLast? = some 32) (hpart : part.length ≤ room) :
    (backed before part room).Safe ↔ part.rdropWhile (· = 32) ≠ [] := by
  rw [backed, rdrop_append]
  split
  · rename_i hnil
    obtain ⟨init, rfl⟩ := List.getLast?_eq_some_iff.mp hbefore
    have hle := (List.rdropWhile_prefix (· = 32) init).length_le
    rw [List.rdropWhile_concat_pos _ _ _ (by decide)]
    refine iff_of_false ?_ (not_not.mpr hnil)
    intro hsafe
    have hpos := hsafe.1
    rw [List.length_append, List.length_singleton] at hpos
    omega
  · rename_i hsome
    refine iff_of_true ⟨?_, rdrop_le _ hpart⟩ hsome
    rw [List.length_append]
    omega

/-- The parts of the arguments are in the line, and the end of the last one is looked for. -/
theorem args_safe {items : List (List UInt8)} (hbefore : before.getLast? ≠ some 32) :
    (∀ note ∈ argsNotes behind rest before items, note.Safe) ↔
      ∀ item ∈ items.getLast?, Ends [38] (item ++ rest) ∧ Ends (ascii "HTTP") (item ++ rest) := by
  induction items generalizing before with
  | nil => simp [argsNotes]
  | cons item items ih =>
    cases items with
    | nil =>
      have hback : (backed before (beforeHttp item) item.length).Safe :=
        backed_safe hbefore (http_front item).length_le
      simp [argsNotes, hback, strstr_byte (show (38 : UInt8) ≠ 0 by decide), strstr_http]
    | cons next items =>
      have hmem : (38 : UInt8) ∈ [38].intercalate (item :: next :: items) := by simp [List.intercalate]
      have hfound : (strstr behind [38] ([38].intercalate (item :: next :: items) ++ rest)).Safe :=
        byte_found (by decide) hmem
      have hlength : (Note.length item.length ([38].intercalate (item :: next :: items)).length).Safe :=
        length_safe (by simp [List.intercalate])
      have hlast : (before ++ item ++ [38]).getLast? ≠ some 32 := by simp
      rw [argsNotes, List.forall_mem_cons, List.forall_mem_cons, ih hlast, List.getLast?_cons_cons]
      · exact ⟨fun h => h.2.2, fun h => ⟨hfound, hlength, h⟩⟩
      · simp

theorem http_begins : beforeHttp walker = [] ↔ walker = [] ∨ ascii "HTTP" <+: walker := by
  cases walker with
  | nil => simp [beforeHttp]
  | cons b walker =>
    rw [beforeHttp]
    split
    · rename_i h
      exact iff_of_true rfl (.inr ((http_starts _).mp h))
    · rename_i h
      apply iff_of_false (List.cons_ne_nil _ _)
      rintro (hnil | hpre)
      · cases hnil
      · exact h ((http_starts _).mpr hpre)

/-- Nothing but spaces, of what begins with another byte. -/
theorem rdrop_nil (hskip : skipSpaces walker = walker) (hpart : part <+: walker) :
    part.rdropWhile (· = 32) = [] ↔ part = [] := by
  constructor
  · intro hnil
    cases part with
    | nil => rfl
    | cons b part =>
      obtain ⟨walker', rfl⟩ := hpart
      have hb := List.rdropWhile_eq_nil_iff.mp hnil b List.mem_cons_self
      have hskip' : skipSpaces (part ++ walker') = b :: (part ++ walker') := by
        rw [skipSpaces, List.cons_append] at hskip
        exact (List.dropWhile_cons_of_pos (p := fun b => decide (b = 32)) hb).symm.trans hskip
      have hle := skip_length (part ++ walker')
      rw [hskip', List.length_cons] at hle
      omega
  · intro hnil
    rw [hnil]
    rfl

/-- A URI without arguments has a length where it does not begin with `HTTP`. -/
theorem uri_length (hbefore : before.getLast? = some 32) (hne : walker ≠ [])
    (hskip : skipSpaces walker = walker) :
    (backed before (beforeHttp walker) walker.length).Safe ↔ ¬ ascii "HTTP" <+: walker := by
  rw [backed_space hbefore (http_front walker).length_le, Ne, rdrop_nil hskip (http_front walker),
    http_begins, or_iff_right hne]

theorem skip_skip : skipSpaces (skipSpaces walker) = skipSpaces walker := List.dropWhile_idempotent _ _

/-- Spaces behind a space end in one. -/
theorem spaces_last (hbefore : before.getLast? = some 32) :
    (before ++ walker.takeWhile (· = 32)).getLast? = some 32 := by
  rw [List.getLast?_append]
  cases hlast : (walker.takeWhile (· = 32)).getLast? with
  | none => exact hbefore
  | some b =>
    have hb := List.mem_takeWhile_imp (List.mem_of_getLast? hlast)
    simpa using hb

theorem uri_safe (hbefore : before.getLast? = some 32) :
    (∀ note ∈ uriNotes behind (crlf ++ rest) before walker, note.Safe) ↔ UriFits (crlf ++ rest) walker := by
  rw [uriNotes, UriFits, List.forall_mem_cons, and_iff_right spaces_line]
  simp only
  split
  · rw [List.forall_mem_singleton, printed_safe]
  · rename_i hne
    rw [List.forall_mem_cons]
    cases hcut : cut 63 (skipSpaces walker) with
    | some found =>
      have hwalker := cut_some hcut
      have hfound : (strstr behind [63] (skipSpaces walker ++ (crlf ++ rest))).Safe :=
        byte_found (by decide) (by simp [hwalker])
      have hlength : (Note.length found.1.length (skipSpaces walker).length).Safe :=
        length_safe (by simp [hwalker])
      rw [and_iff_right hfound, List.forall_mem_cons, and_iff_right hlength]
      exact args_safe (by simp)
    | none =>
      have hlength := uri_length (@spaces_last before walker hbefore) hne skip_skip
      simp only [List.forall_mem_cons, List.not_mem_nil, false_implies, implies_true, and_true]
      exact and_congr (strstr_byte (by decide)) (and_congr strstr_http hlength)

theorem method_safe :
    (∀ note ∈ methodNotes behind (crlf ++ rest) before walker, note.Safe) ↔
      MethodFits (crlf ++ rest) walker := by
  rw [methodNotes, MethodFits, List.forall_mem_cons, and_iff_right spaces_line]
  simp only
  rw [List.forall_mem_cons]
  cases hcut : cut 32 (skipSpaces walker) with
  | none =>
    simp only
    rw [List.forall_mem_singleton, printed_safe]
    exact and_iff_right_of_imp fun hnul => (strstr_byte (by decide)).mpr (.inr hnul)
  | some found =>
    have hwalker := cut_some hcut
    have hfound : (strstr behind [32] (skipSpaces walker ++ (crlf ++ rest))).Safe :=
      byte_found (by decide) (by simp [hwalker])
    have hlength : found.1.length ≤ (skipSpaces walker).length := by simp [hwalker]
    have hlook : found.1.length ≤ (skipSpaces walker ++ (crlf ++ rest)).length := by
      rw [List.length_append]
      omega
    have huri := @uri_safe behind rest (before ++ walker.takeWhile (· = 32) ++ found.1 ++ [32]) found.2
      (by simp)
    rw [and_iff_right hfound]
    simp only
    rw [List.forall_mem_cons, List.forall_mem_cons, and_iff_right (length_safe hlength),
      and_iff_right (strncmp_safe hlook)]
    by_cases hpost : strncmpEq (skipSpaces walker) (ascii "POST") found.1.length = true
    · rw [if_pos hpost, if_pos (.inl hpost), huri]
    · rw [if_neg hpost, List.forall_mem_cons, List.forall_mem_cons, and_iff_right (length_safe hlength),
        and_iff_right (strncmp_safe hlook)]
      by_cases hget : strncmpEq (skipSpaces walker) (ascii "GET") found.1.length = true
      · rw [if_pos hget, if_pos (.inr hget), huri]
      · rw [if_neg hget, if_neg (not_or.mpr ⟨hpost, hget⟩), List.forall_mem_singleton, printed_safe]

theorem code_safe :
    (∀ note ∈ codeNotes behind (crlf ++ rest) walker, note.Safe) ↔ CodeFits (crlf ++ rest) walker := by
  rw [codeNotes, CodeFits, List.forall_mem_cons, and_iff_right spaces_line]
  simp only
  rw [List.forall_mem_cons]
  cases hcut : cut 32 (skipSpaces walker) with
  | none =>
    simp only
    rw [List.forall_mem_singleton, printed_safe]
    exact and_iff_right_of_imp fun hnul => (strstr_byte (by decide)).mpr (.inr hnul)
  | some found =>
    have hfound : (strstr behind [32] (skipSpaces walker ++ (crlf ++ rest))).Safe :=
      byte_found (by decide) (by simp [cut_some hcut])
    rw [and_iff_right hfound]
    exact atoi_safe

/-- A first word and the space behind it, with the end of the line, are four bytes. -/
theorem word_length {found : List UInt8 × List UInt8} (h : cut 32 (skipSpaces walker) = some found) :
    4 ≤ (skipSpaces walker ++ (crlf ++ rest)).length := by
  have hwalker := cut_some h
  have hword : found.1 ≠ [] := by
    intro hnil
    rw [hnil, List.nil_append] at hwalker
    have hskip : skipSpaces (skipSpaces walker) = skipSpaces found.2 := by
      rw [hwalker]
      exact List.dropWhile_cons_of_pos (by decide)
    have hle := skip_length found.2
    rw [← hskip, skip_skip, hwalker, List.length_cons] at hle
    omega
  have hpos := List.length_pos_of_ne_nil hword
  simp only [hwalker, crlf, List.length_append, List.length_cons, List.length_nil]
  omega

theorem start_safe {line : List UInt8} :
    (∀ note ∈ startNotes behind (crlf ++ rest) line, note.Safe) ↔ StartFits (crlf ++ rest) line := by
  rw [startNotes, StartFits, List.forall_mem_cons, and_iff_right spaces_line]
  simp only
  rw [List.forall_mem_cons]
  cases hcut : cut 32 (skipSpaces line) with
  | none =>
    simp only [List.not_mem_nil, false_implies, implies_true, and_true]
    exact strstr_byte (by decide)
  | some found =>
    have hfound : (strstr behind [32] (skipSpaces line ++ (crlf ++ rest))).Safe :=
      byte_found (by decide) (by simp [cut_some hcut])
    rw [and_iff_right hfound]
    simp only
    rw [List.forall_mem_cons, and_iff_right (strncmp_safe (word_length hcut))]
    split
    · exact code_safe
    · exact method_safe

theorem header_safe : (∀ note ∈ notes behind .header walker, note.Safe) ↔ Fits .header walker := by
  rw [notes, Fits, List.forall_mem_cons]
  apply and_congr strstr_crlf
  cases findCrlf walker with
  | none => simp
  | some found =>
    simp only [Option.some.injEq, forall_eq', HeaderFits]
    rw [List.forall_mem_cons, List.forall_mem_cons, and_iff_right (length_safe (le_refl _))]
    apply and_congr spaces_safe
    split
    · rename_i more hskip
      rw [List.forall_mem_singleton, hskip]
      cases more <;> simp [Note.Safe]
    · rename_i hother
      refine iff_of_true (fun _ h => nomatch h) ?_
      exact hother []

theorem chunk_safe : (∀ note ∈ notes behind .chunk walker, note.Safe) ↔ Fits .chunk walker := by
  rw [notes, Fits, List.forall_mem_cons, List.forall_mem_cons]
  refine and_congr spaces_safe (and_congr strstr_crlf ?_)
  split
  · rename_i rest hfound
    rw [List.forall_mem_singleton, hfound]
    simp [strstr_crlf]
  · rename_i hother
    refine iff_of_true (fun _ h => nomatch h) ?_
    intro rest hfound
    exact (hother rest hfound).elim

/-- A round is in bounds where the received bytes are enough for it, whatever is behind them. -/
theorem notes_safe {state : InfoState} : (∀ note ∈ notes behind state walker, note.Safe) ↔ Fits state walker := by
  cases state with
  | init =>
    rw [notes, Fits, List.forall_mem_cons]
    apply and_congr strstr_crlf
    cases findCrlf walker with
    | none => simp
    | some found =>
      simp only [Option.some.injEq, forall_eq']
      exact start_safe
  | header => exact header_safe
  | chunk => exact chunk_safe
  | body => exact iff_of_true (fun _ h => nomatch h) trivial
  | done => exact iff_of_true (fun _ h => nomatch h) trivial
  | error => exact iff_of_true (fun _ h => nomatch h) trivial

end

section
variable {full : Bool} {behind : List UInt8} {tunes : Tunes} {walker : List UInt8}

/-- Where the loop does not go on, the round is the only one. -/
theorem rounds_end (hne : walker ≠ [])
    (hstop : ∀ tunes' walker', turn full tunes walker ≠ .go tunes' walker') :
    (Fits tunes.info.state walker ∧ ∀ note ∈ ([] : List Note), note.Safe) ↔
      ∀ last rest, Comes full tunes walker last rest → Fits last.info.state rest := by
  constructor
  · intro h last rest hcomes
    cases hcomes with
    | here => exact h.1
    | round _ hgo => exact absurd hgo (hstop _ _)
  · intro h
    exact ⟨h _ _ (.here hne), fun _ hn => nomatch hn⟩

theorem loop_safe {fuel : Nat} (hfuel : walker.length < fuel) :
    (∀ note ∈ loopNotes full behind fuel tunes walker, note.Safe) ↔
      ∀ last rest, Comes full tunes walker last rest → Fits last.info.state rest := by
  induction fuel generalizing tunes walker with
  | zero => omega
  | succ fuel ih =>
    rw [loopNotes]
    split
    · rename_i hnil
      refine iff_of_true (fun _ h => nomatch h) ?_
      intro last rest h
      cases h with
      | here hne => exact absurd hnil hne
      | round hne => exact absurd hnil hne
    · rename_i hne
      rw [List.forall_mem_append, notes_safe]
      cases hturn : turn full tunes walker with
      | stop tunes' walker' => exact rounds_end hne (by simp [hturn])
      | outside => exact rounds_end hne (by simp [hturn])
      | go tunes' walker' =>
        have hlt := turn_go hturn
        rw [ih (by omega)]
        constructor
        · intro h last rest hcomes
          cases hcomes with
          | here => exact h.1
          | round _ hgo hcomes =>
            obtain ⟨rfl, rfl⟩ := Turn.go.inj (hturn.symm.trans hgo)
            exact h.2 last rest hcomes
        · intro h
          exact ⟨h _ _ (.here hne), fun last rest hcomes => h last rest (.round hne hturn hcomes)⟩

end

/-- All lengths are in their lines and all bytes that are looked at are received exactly where
each round that the loop comes to has bytes enough. -/
theorem bounds_iff (full : Bool) (behind : List UInt8) (tunes : Tunes) (walker : List UInt8) :
    (∀ note ∈ readNotes full behind tunes walker, note.Safe) ↔
      ∀ last rest, Comes full tunes walker last rest → Fits last.info.state rest :=
  loop_safe (Nat.lt_succ_self _)

/-- A request for `HTTP`, which the spaces in front of it make a length below zero. -/
def bare : List UInt8 := ascii "GET HTTP/1.1" ++ crlf ++ ascii "A: ?" ++ crlf ++ crlf

theorem length_below_zero : ¬ ∀ (full : Bool) (behind : List UInt8) (tunes : Tunes) (walker : List UInt8),
    ∀ note ∈ readNotes full behind tunes walker, note.Safe := by
  intro hall
  have hsafe := hall false [0] ⟨false, .zero, .zero⟩ bare (.length (-1) 8) (by decide)
  exact absurd hsafe.1 (by decide)

end Yclib.Http.Bounds
