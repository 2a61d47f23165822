import Yclib.Live.Naming

namespace Yclib.Live
open Http.Reading

/-! The lengths that `yms_req_dispatch` and `req_parse` obtain from the positions of delimiters in a uri. -/

/-- So many bytes from a position on. -/
structure Span where
  start : Int
  length : Int
deriving DecidableEq

/-- The bytes are bytes of the uri. -/
def Span.Within (uri : List UInt8) (span : Span) : Prop :=
  0 ≤ span.start ∧ 0 ≤ span.length ∧ span.start + span.length ≤ uri.length

/-- What `yms_req_dispatch` computes: the size of a buffer, with room for a NUL, and what is copied into it.
There is no memory for a negative size. -/
def dispatchSpans (uri : List UInt8) : List Span :=
  match rnsStrrchr slash uri, rnsStrrchr dot uri with
  | some p, some q =>
    match rnsStrstr (ascii "-frag") (uri.drop p) with
    | none => if q < p then [⟨p, q - p⟩] else [⟨p, q - p⟩, ⟨p + 1, q - p - 1⟩]
    | some o => [⟨p, o⟩, ⟨p + 1, o - 1⟩]
  | _, _ => []

/-- The bytes that are compared with `.m3u8`; the position is a `uint32_t`. -/
def suffixSpan (uri : List UInt8) : Span :=
  ⟨if uri.length < 5 then uri.length - 5 + 2 ^ 32 else uri.length - 5, 5⟩

/-- Whether the uri is one of a playlist. -/
def IsM3u8 (uri : List UInt8) : Prop := strncmpEq (uri.drop (uri.length - 5)) (ascii ".m3u8") 5 = true

instance (uri : List UInt8) : Decidable (IsM3u8 uri) := inferInstanceAs (Decidable (_ = true))

/-- What `req_parse` copies into the `content_id` of the request, where it comes so far. -/
def contentSpan (uri : List UInt8) : Option Span :=
  if uri.length < 5 then none
  else if IsM3u8 uri then
    match rnsStrrchr dot uri, rnsStrrchr slash uri with
    | some p, some q => some ⟨q + 1, p - q - 1⟩
    | _, _ => none
  else
    match rnsStrrchr dash uri, rnsStrrchr slash uri, rnsStrrchr dot uri with
    | some p, some q, some _ => some ⟨q + 1, p - q - 1⟩
    | _, _, _ => none

/-- The size of the buffer for the number of a fragment, and what is copied into it. -/
def numberSpans (uri : List UInt8) : List Span :=
  if uri.length < 5 ∨ IsM3u8 uri then []
  else
    match rnsStrrchr dash uri, rnsStrrchr slash uri, rnsStrrchr dot uri with
    | some p, some q, some o =>
      if p < q then []
      else if o + 1 < p + 5 then [⟨p + 4, o - p - 5 + 1⟩]
      else [⟨p + 4, o - p - 5 + 1⟩, ⟨p + 5, o - p - 5⟩]
    | _, _, _ => []

/-- All that `req_parse` computes. -/
def reqSpans (uri : List UInt8) : List Span := suffixSpan uri :: ((contentSpan uri).toList ++ numberSpans uri)

/-- No length is negative, nothing outside the uri is looked at, and the `content_id` of a request takes what is
copied into it, with a NUL behind. `req_parse` is called for the channels that `yms_req_dispatch` finds. -/
structure UriSafe (uri : List UInt8) : Prop where
  dispatch : ∀ span ∈ dispatchSpans uri, span.Within uri
  parse : dispatchId uri ≠ none → ∀ span ∈ reqSpans uri, span.Within uri
  fits : dispatchId uri ≠ none → ∀ span ∈ contentSpan uri, span.length < 64

/-- The last segments of a path that are taken apart without harm: a playlist; a fragment, with four bytes or
more between its last dash and its last dot; and a name with a dot, of a uri without a dash. -/
inductive Takes (uri : List UInt8) : List UInt8 → Prop
  | playlist (contentId : List UInt8) (fits : contentId.length < 64) : Takes uri (contentId ++ ascii ".m3u8")
  | fragment (contentId number ext : List UInt8) (fits : contentId.length < 64) (room : 4 ≤ number.length)
      (last : dash ∉ number ++ dot :: ext) (plain : dot ∉ ext) (other : ¬ IsM3u8 uri) :
      Takes uri (contentId ++ dash :: (number ++ dot :: ext))
  | plain (name : List UInt8) (long : 5 ≤ uri.length) (dashes : dash ∉ uri) (dots : dot ∈ name)
      (other : ¬ IsM3u8 uri) : Takes uri name

/-- A uri without a slash or without a dot is not taken apart at all. -/
def UriPlain (uri : List UInt8) : Prop :=
  slash ∉ uri ∨ dot ∉ uri ∨ ∃ dir name, uri = dir ++ slash :: name ∧ slash ∉ name ∧ Takes uri name

section
variable {uri dir name xs ys : List UInt8} {delim : UInt8}

/-- A delimiter is found in the last segment if it is there, and in front of it otherwise. -/
theorem delim_place (hne : delim ≠ slash) (h : delim ∈ dir ++ slash :: name) :
    ∃ q, rnsStrrchr delim (dir ++ slash :: name) = some q ∧
      ((∃ front back, name = front ++ delim :: back ∧ delim ∉ back ∧ q = dir.length + 1 + front.length) ∨
        delim ∉ name ∧ q < dir.length) := by
  by_cases hname : delim ∈ name
  · obtain ⟨front, back, rfl, hback⟩ := last_split hname
    exact ⟨_, uri_last hback, .inl ⟨front, back, rfl, hback, rfl⟩⟩
  · have hdir : delim ∈ dir := by
      rcases List.mem_append.mp h with hm | hm
      · exact hm
      · rcases List.mem_cons.mp hm with hm | hm
        · exact absurd hm hne
        · exact absurd hm hname
    obtain ⟨front, back, rfl, hback⟩ := last_split hdir
    have hrest : delim ∉ back ++ slash :: name := by
      rw [List.mem_append, List.mem_cons]
      rintro (hm | hm | hm)
      · exact hback hm
      · exact hne hm
      · exact hname hm
    have hlast : rnsStrrchr delim (front ++ delim :: (back ++ slash :: name)) = some front.length :=
      strrchr_last hrest
    refine ⟨front.length, ?_, .inr ⟨hname, ?_⟩⟩
    · rw [List.append_assoc, List.cons_append, hlast]
    · rw [List.length_append, List.length_cons]
      omega

/-- The five bytes are compared as a whole. -/
theorem is_m3u8_iff (h : 5 ≤ uri.length) : IsM3u8 uri ↔ ascii ".m3u8" <:+ uri := by
  have hlength : (uri.drop (uri.length - 5)).length = (ascii ".m3u8").length := by
    rw [List.length_drop]
    exact Nat.sub_sub_self h
  rw [IsM3u8, strncmp_starts (by simp [ascii]) (Nat.le_refl 5)]
  constructor
  · intro hpre
    have hsame : ascii ".m3u8" = uri.drop (uri.length - 5) := hpre.eq_of_length hlength.symm
    rw [hsame]
    exact List.drop_suffix _ _
  · intro hsuffix
    have hsame := List.suffix_iff_eq_drop.mp hsuffix
    exact hsame ▸ List.prefix_rfl

theorem no_dispatch (h : slash ∉ uri ∨ dot ∉ uri) : dispatchSpans uri = [] ∧ dispatchId uri = none := by
  rcases h with h | h
  · simp only [dispatchSpans, dispatchId, strrchr_none h, and_self]
  · rw [dispatchSpans, dispatchId, strrchr_none h]
    cases rnsStrrchr slash uri <;> exact ⟨rfl, rfl⟩

/-- `yms_req_dispatch` does no harm, and comes to an end, where a delimiter follows the last slash. -/
theorem dispatch_safe (hslash : slash ∉ name) (hdot : dot ∈ dir ++ slash :: name) :
    ((∀ span ∈ dispatchSpans (dir ++ slash :: name), span.Within (dir ++ slash :: name)) ↔
      dot ∈ name ∨ ascii "-frag" <:+: name) ∧
    (dot ∈ name ∨ ascii "-frag" <:+: name → dispatchId (dir ++ slash :: name) ≠ none) := by
  obtain ⟨q, hq, hplace⟩ := delim_place (show dot ≠ slash by decide) hdot
  have hdots : dot ∈ name ↔ dir.length < q := by
    rcases hplace with ⟨front, back, rfl, -, rfl⟩ | ⟨hnot, hlt⟩
    · exact iff_of_true (by simp) (by omega)
    · exact iff_of_false hnot (by omega)
  have hqlt := strrchr_lt hq
  simp only [dispatchSpans, dispatchId, uri_slash hslash, hq, List.drop_left]
  cases hfrag : rnsStrstr (ascii "-frag") (slash :: name) with
  | none =>
    have hnot : ¬ ascii "-frag" <:+: name := by
      rintro ⟨front, back, rfl⟩
      obtain ⟨o, -, hfound⟩ := strstr_le (slash :: front) (ascii "-frag") back
      rw [← List.cons_append, ← List.cons_append, hfound] at hfrag
      cases hfrag
    simp only [hnot, or_false, hdots]
    by_cases hlt : q < dir.length
    · simp only [if_pos hlt, List.mem_singleton, forall_eq, Span.Within]
      refine ⟨?_, fun h => absurd h (by omega)⟩
      constructor <;> intro h <;> omega
    · have hne : q ≠ dir.length := by
        rcases hplace with ⟨front, back, -, -, rfl⟩ | ⟨-, hlt'⟩ <;> omega
      rw [if_neg hlt, if_neg hlt]
      refine ⟨iff_of_true ?_ (by omega), fun _ => Option.some_ne_none _⟩
      simp only [List.mem_cons, List.not_mem_nil, or_false, forall_eq_or_imp, forall_eq, Span.Within]
      omega
  | some o =>
    have hin : ascii "-frag" <:+: name := by
      by_contra hnot
      rw [strstr_none fun h => hnot (infix_slash h)] at hfrag
      cases hfrag
    have hend := strstr_end hfrag
    have hpos : o ≠ 0 := by
      rintro rfl
      exact strstr_behind (by decide) hfrag
    refine ⟨iff_of_true ?_ (.inr hin), fun _ => Option.some_ne_none _⟩
    have hlen : (ascii "-frag").length = 5 := rfl
    rw [List.length_cons] at hend
    simp only [List.mem_cons, List.not_mem_nil, or_false, forall_eq_or_imp, forall_eq, Span.Within,
      List.length_append, List.length_cons]
    omega

/-- The comparison stays in a uri of five bytes or more. -/
theorem suffix_within : (suffixSpan uri).Within uri ↔ 5 ≤ uri.length := by
  rw [suffixSpan, Span.Within]
  split
  · simp only
    omega
  · simp only
    omega

theorem content_playlist (hslash : slash ∉ xs) (hm3u8 : IsM3u8 (dir ++ slash :: (xs ++ ascii ".m3u8"))) :
    contentSpan (dir ++ slash :: (xs ++ ascii ".m3u8")) = some ⟨dir.length + 1, xs.length⟩ ∧
      numberSpans (dir ++ slash :: (xs ++ ascii ".m3u8")) = [] := by
  have hlen : (ascii ".m3u8").length = 5 := rfl
  have hlong : ¬ (dir ++ slash :: (xs ++ ascii ".m3u8")).length < 5 := by
    simp only [List.length_append, List.length_cons]
    omega
  have hname : slash ∉ xs ++ ascii ".m3u8" := by
    rw [List.mem_append, not_or]
    exact ⟨hslash, by decide⟩
  have hlast : rnsStrrchr dot (dir ++ slash :: (xs ++ ascii ".m3u8")) = some (dir.length + 1 + xs.length) :=
    uri_last (show dot ∉ ascii "m3u8" by decide)
  rw [contentSpan, numberSpans, if_neg hlong, if_pos hm3u8, if_pos (.inr hm3u8)]
  simp only [hlast, uri_slash hname, and_true, true_and, Option.some.injEq, Span.mk.injEq]
  omega

theorem content_plain (hother : ¬ IsM3u8 uri) (hdash : dash ∉ uri) :
    contentSpan uri = none ∧ numberSpans uri = [] := by
  rw [contentSpan, numberSpans, strrchr_none hdash]
  constructor
  · rw [if_neg hother]
    exact ite_self none
  · exact ite_self []

/-- A fragment's last dash, and its last dot wherever that is. -/
theorem content_fragment {q : Nat} (hlong : 5 ≤ (dir ++ slash :: (xs ++ dash :: ys)).length)
    (hother : ¬ IsM3u8 (dir ++ slash :: (xs ++ dash :: ys))) (hslash : slash ∉ xs ++ dash :: ys) (hdash : dash ∉ ys)
    (hq : rnsStrrchr dot (dir ++ slash :: (xs ++ dash :: ys)) = some q) :
    contentSpan (dir ++ slash :: (xs ++ dash :: ys)) = some ⟨dir.length + 1, xs.length⟩ ∧
      ((∀ span ∈ numberSpans (dir ++ slash :: (xs ++ dash :: ys)), span.Within (dir ++ slash :: (xs ++ dash :: ys))) ↔
        dir.length + 1 + xs.length + 5 ≤ q) := by
  have hlast : rnsStrrchr dash (dir ++ slash :: (xs ++ dash :: ys)) = some (dir.length + 1 + xs.length) := uri_last hdash
  have hqlt := strrchr_lt hq
  rw [contentSpan, numberSpans, if_neg (by omega), if_neg hother, if_neg (by simp only [hother, or_false]; omega)]
  simp only [hlast, uri_slash hslash, hq]
  rw [if_neg (by omega)]
  constructor
  · simp only [Option.some.injEq, Span.mk.injEq, true_and]
    omega
  · by_cases hroom : q + 1 < dir.length + 1 + xs.length + 5
    · rw [if_pos hroom]
      simp only [List.mem_singleton, forall_eq, Span.Within]
      constructor <;> intro h <;> omega
    · rw [if_neg hroom]
      simp only [List.mem_cons, List.not_mem_nil, or_false, forall_eq_or_imp, forall_eq, Span.Within]
      constructor <;> intro h <;> omega

/-- A dash in front of the last slash makes the length of the content id negative. -/
theorem content_before {p : Nat} (hlong : 5 ≤ (dir ++ slash :: name).length) (hother : ¬ IsM3u8 (dir ++ slash :: name))
    (hslash : slash ∉ name) (hp : rnsStrrchr dash (dir ++ slash :: name) = some p) (hlt : p < dir.length)
    (hdot : dot ∈ dir ++ slash :: name) : ∃ span ∈ contentSpan (dir ++ slash :: name), span.length < 0 := by
  obtain ⟨q, hq, -⟩ := delim_place (show dot ≠ slash by decide) hdot
  rw [contentSpan, if_neg (by omega), if_neg hother]
  simp only [hp, uri_slash hslash, hq, Option.mem_some_iff, exists_eq_left']
  omega

/-- A playlist's suffix is in the last segment. -/
theorem playlist_suffix (h : ascii ".m3u8" <:+ dir ++ slash :: name) :
    ∃ xs, name = xs ++ ascii ".m3u8" := by
  rcases List.suffix_or_suffix_of_suffix h (List.suffix_append dir (slash :: name)) with hin | hin
  · rcases List.suffix_cons_iff.mp hin with heq | ⟨xs, hxs⟩
    · have hmem : slash ∈ ascii ".m3u8" := heq ▸ List.mem_cons_self
      exact absurd hmem (by decide)
    · exact ⟨xs, hxs.symm⟩
  · have hmem : slash ∈ ascii ".m3u8" := hin.subset List.mem_cons_self
    exact absurd hmem (by decide)

/-- A last dot behind the last dash, with room for `frag` between the two. -/
theorem number_split {q : Nat} (hplace : (∃ front back, xs ++ dash :: ys = front ++ dot :: back ∧ dot ∉ back ∧
      q = dir.length + 1 + front.length) ∨ dot ∉ xs ++ dash :: ys ∧ q < dir.length)
    (hle : dir.length + 1 + xs.length + 5 ≤ q) :
    ∃ number ext, ys = number ++ dot :: ext ∧ dot ∉ ext ∧ 4 ≤ number.length := by
  rcases hplace with ⟨front, ext, hname, hext, hq⟩ | ⟨-, hlt⟩
  · rcases List.append_eq_append_iff.mp hname with ⟨rest, rfl, hrest⟩ | ⟨rest, rfl, -⟩
    · cases rest with
      | nil =>
        rw [List.append_nil] at hq
        omega
      | cons b number =>
        obtain ⟨-, rfl⟩ := List.cons.inj hrest
        refine ⟨number, ext, rfl, hext, ?_⟩
        rw [List.length_append, List.length_cons] at hq
        omega
    · rw [List.length_append] at hle
      omega
  · omega

/-- What `req_parse` computes for a segment that it takes. -/
structure Parsing (uri : List UInt8) : Prop where
  long : 5 ≤ uri.length
  content : ∀ span ∈ contentSpan uri, span.Within uri ∧ span.length < 64
  number : ∀ span ∈ numberSpans uri, span.Within uri

theorem takes_parsing (hslash : slash ∉ name) (hdot : dot ∈ dir ++ slash :: name)
    (h : Takes (dir ++ slash :: name) name) : Parsing (dir ++ slash :: name) ∧ dot ∈ name := by
  obtain ⟨q, hq, hplace⟩ := delim_place (show dot ≠ slash by decide) hdot
  cases h with
  | playlist contentId fits =>
    have hlen : (ascii ".m3u8").length = 5 := rfl
    have hlong : 5 ≤ (dir ++ slash :: (contentId ++ ascii ".m3u8")).length := by
      simp only [List.length_append, List.length_cons]
      omega
    have hsuffix : ascii ".m3u8" <:+ dir ++ slash :: (contentId ++ ascii ".m3u8") :=
      ⟨dir ++ slash :: contentId, by simp⟩
    have hplain : slash ∉ contentId := fun hm => hslash (List.mem_append_left _ hm)
    obtain ⟨hcontent, hnumber⟩ := content_playlist hplain ((is_m3u8_iff hlong).mpr hsuffix)
    refine ⟨⟨hlong, ?_, ?_⟩, List.mem_append_right _ (by decide)⟩
    · rw [hcontent]
      simp only [Option.mem_some_iff, forall_eq', Span.Within, List.length_append, List.length_cons]
      omega
    · rw [hnumber]
      simp
  | fragment contentId number ext fits room last plain other =>
    have hlong : 5 ≤ (dir ++ slash :: (contentId ++ dash :: (number ++ dot :: ext))).length := by
      simp only [List.length_append, List.length_cons]
      omega
    have hq' : rnsStrrchr dot (dir ++ slash :: (contentId ++ dash :: (number ++ dot :: ext))) =
        some (dir.length + 1 + (contentId ++ dash :: number).length) := by
      have hlast : rnsStrrchr dot (dir ++ slash :: (contentId ++ dash :: number ++ dot :: ext)) = some _ :=
        uri_last plain
      rwa [List.append_assoc, List.cons_append] at hlast
    obtain ⟨hcontent, hnumber⟩ := content_fragment hlong other hslash last hq'
    refine ⟨⟨hlong, ?_, ?_⟩, by simp⟩
    · rw [hcontent]
      simp only [Option.mem_some_iff, forall_eq', Span.Within, List.length_append, List.length_cons]
      omega
    · rw [hnumber, List.length_append, List.length_cons]
      omega
  | plain _ long dashes dots other =>
    obtain ⟨hcontent, hnumber⟩ := content_plain other dashes
    refine ⟨⟨long, ?_, ?_⟩, dots⟩
    · rw [hcontent]
      simp
    · rw [hnumber]
      simp

/-- What becomes of the last segment decides on the whole uri. -/
theorem safe_takes (hslash : slash ∉ name) (hdot : dot ∈ dir ++ slash :: name) :
    UriSafe (dir ++ slash :: name) ↔ Takes (dir ++ slash :: name) name := by
  obtain ⟨hspans, hfound⟩ := dispatch_safe hslash hdot
  obtain ⟨q, hq, hplace⟩ := delim_place (show dot ≠ slash by decide) hdot
  constructor
  · intro h
    have hreach := hspans.mp h.dispatch
    have hparse := h.parse (hfound hreach)
    have hfits := h.fits (hfound hreach)
    have hlong := suffix_within.mp (hparse _ List.mem_cons_self)
    have hcontent : ∀ span ∈ contentSpan (dir ++ slash :: name), span.Within (dir ++ slash :: name) := by
      intro span hspan
      exact hparse span (List.mem_cons_of_mem _ (List.mem_append_left _ (Option.mem_toList.mpr hspan)))
    have hnumber : ∀ span ∈ numberSpans (dir ++ slash :: name), span.Within (dir ++ slash :: name) := by
      intro span hspan
      exact hparse span (List.mem_cons_of_mem _ (List.mem_append_right _ hspan))
    by_cases hm3u8 : IsM3u8 (dir ++ slash :: name)
    · obtain ⟨xs, rfl⟩ := playlist_suffix ((is_m3u8_iff hlong).mp hm3u8)
      have hplain : slash ∉ xs := fun hm => hslash (List.mem_append_left _ hm)
      rw [(content_playlist hplain hm3u8).1] at hfits
      have hlt := hfits _ rfl
      exact .playlist xs (by simpa using hlt)
    by_cases hdash : dash ∈ dir ++ slash :: name
    · obtain ⟨p, hp, hplace'⟩ := delim_place (show dash ≠ slash by decide) hdash
      rcases hplace' with ⟨xs, ys, rfl, hlast, -⟩ | ⟨-, hlt⟩
      · obtain ⟨hid, hroom⟩ := content_fragment hlong hm3u8 hslash hlast hq
        rw [hid] at hfits
        have hlt := hfits _ rfl
        have hle := hroom.mp hnumber
        obtain ⟨number, ext, rfl, hext, hnumber'⟩ := number_split hplace hle
        exact .fragment xs number ext (by simpa using hlt) hnumber' hlast hext hm3u8
      · obtain ⟨span, hspan, hneg⟩ := content_before hlong hm3u8 hslash hp hlt hdot
        have hwithin := (hcontent span hspan).2.1
        omega
    · have hdots : dot ∈ name := by
        rcases hreach with hdots | ⟨front, back, hname⟩
        · exact hdots
        · exact absurd (by rw [← hname]; simp [ascii, dash]) hdash
      exact .plain name hlong hdash hdots hm3u8
  · intro htakes
    obtain ⟨hparsing, hdots⟩ := takes_parsing hslash hdot htakes
    refine ⟨hspans.mpr (.inl hdots), fun _ span hspan => ?_, fun _ span hspan => (hparsing.content span hspan).2⟩
    rcases List.mem_cons.mp hspan with rfl | hspan
    · exact suffix_within.mpr hparsing.long
    · rcases List.mem_append.mp hspan with hspan | hspan
      · exact (hparsing.content span (Option.mem_toList.mp hspan)).1
      · exact hparsing.number span hspan

end

/-- The uris that are taken apart without harm. -/
theorem uri_safe_iff (uri : List UInt8) : UriSafe uri ↔ UriPlain uri := by
  by_cases hsome : slash ∈ uri ∧ dot ∈ uri
  · obtain ⟨hin, hdot⟩ := hsome
    obtain ⟨dir, name, rfl, hslash⟩ := last_split hin
    rw [safe_takes hslash hdot, UriPlain]
    constructor
    · intro htakes
      exact .inr (.inr ⟨dir, name, rfl, hslash, htakes⟩)
    · rintro (hnot | hnot | ⟨dir', name', heq, hslash', htakes⟩)
      · exact absurd hin hnot
      · exact absurd hdot hnot
      · have hlast : rnsStrrchr slash (dir ++ slash :: name) = some dir.length := uri_slash hslash
        rw [heq, uri_slash hslash'] at hlast
        obtain ⟨-, hname⟩ := List.append_inj heq (Option.some.inj hlast).symm
        obtain rfl := (List.cons.inj hname).2
        exact htakes
  · have hnone : slash ∉ uri ∨ dot ∉ uri := not_and_or.mp hsome
    obtain ⟨hspans, hid⟩ := no_dispatch hnone
    refine iff_of_true ⟨?_, fun h => absurd hid h, fun h => absurd hid h⟩ ?_
    · rw [hspans]
      simp
    · rcases hnone with hnot | hnot
      · exact .inl hnot
      · exact .inr (.inl hnot)

/-- Of a uri that is safe `req_parse` leaves nothing undefined. -/
theorem safe_parsed {uri : List UInt8} (h : UriSafe uri) (hid : dispatchId uri ≠ none)
    (playseek : Option (List UInt8)) : reqParse uri playseek ≠ .undefined := by
  have hlong := suffix_within.mp (h.parse hid _ List.mem_cons_self)
  have hcontent : ∀ p q : Nat, contentSpan uri = some ⟨q + 1, p - q - 1⟩ → (reqContentId uri p q).isSome := by
    intro p q hspan
    have hmem : ⟨q + 1, p - q - 1⟩ ∈ reqSpans uri :=
      List.mem_cons_of_mem _ (List.mem_append_left _ (Option.mem_toList.mpr hspan))
    have hpos := (h.parse hid _ hmem).2.1
    have hlt := h.fits hid _ hspan
    simp only at hpos hlt
    rw [reqContentId, if_neg (by omega)]
    rfl
  have hnumber : ∀ span ∈ numberSpans uri, 0 ≤ span.length := by
    intro span hspan
    exact (h.parse hid span (List.mem_cons_of_mem _ (List.mem_append_right _ hspan))).2.1
  rw [reqParse, if_neg (Nat.not_lt.mpr hlong)]
  rw [contentSpan, if_neg (Nat.not_lt.mpr hlong)] at hcontent
  by_cases hm3u8 : IsM3u8 uri
  · rw [if_pos hm3u8] at hcontent
    rw [IsM3u8] at hm3u8
    rw [if_pos hm3u8]
    cases hp : rnsStrrchr dot uri with
    | none => simp
    | some p =>
      cases hq : rnsStrrchr slash uri with
      | none => simp
      | some q =>
        obtain ⟨contentId, hsome⟩ := Option.isSome_iff_exists.mp (hcontent p q (by simp only [hp, hq]))
        simp [hsome]
  · rw [if_neg hm3u8] at hcontent
    rw [numberSpans, if_neg (by simp only [hm3u8, or_false]; omega)] at hnumber
    rw [IsM3u8] at hm3u8
    rw [if_neg hm3u8]
    cases hp : rnsStrrchr dash uri with
    | none => simp
    | some p =>
      cases hq : rnsStrrchr slash uri with
      | none => simp
      | some q =>
        cases ho : rnsStrrchr dot uri with
        | none => simp
        | some o =>
          obtain ⟨contentId, hsome⟩ := Option.isSome_iff_exists.mp (hcontent p q (by simp only [hp, hq, ho]))
          simp only [hp, hq, ho, hsome] at hnumber ⊢
          split
          · exact Parsed.noConfusion
          · rename_i hsize
            have hle : ¬ p < q := by
              intro hlt
              rw [reqContentId, if_pos (.inl hlt)] at hsome
              cases hsome
            rw [if_neg hle, if_neg hsize] at hnumber
            have hroom := hnumber ⟨p + 5, o - p - 5⟩ (by simp)
            simp only at hroom
            rw [if_neg (by omega)]
            exact Parsed.noConfusion

/-- A dash in the directory of a uri makes a length of -3. -/
theorem dashed_dir_unsafe : ¬ UriSafe (ascii "/a-b/c.ts") := by
  intro h
  have hid : dispatchId (ascii "/a-b/c.ts") ≠ none := by decide
  have hspan := h.parse hid ⟨5, 2 - 4 - 1⟩ (by decide)
  exact absurd hspan.2.1 (by decide)

end Yclib.Live
