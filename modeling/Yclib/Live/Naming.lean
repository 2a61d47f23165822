import Yclib.Http.Scan
import Yclib.Util.CSearch

namespace Yclib.Live
open Http.Reading

/-! The names of playlists and fragments, and how requests are taken apart again. -/

def dash : UInt8 := 45
def dot : UInt8 := 46
def slash : UInt8 := 47

/-- The uri of a fragment, as `channel_m3u8_create` prints it into its 128 bytes. -/
def fragmentName (contentId : List UInt8) (fragId : Nat) : List UInt8 :=
  (contentId ++ ascii "-frag" ++ signedDecimal fragId ++ ascii ".ts").take 127

def playlistName (contentId : List UInt8) : List UInt8 := contentId ++ ascii ".m3u8"

/-- The content id that `yms_req_dispatch` looks for, where it gets so far. -/
def dispatchId (uri : List UInt8) : Option (List UInt8) :=
  match rnsStrrchr slash uri, rnsStrrchr dot uri with
  | some p, some q =>
    match rnsStrstr (ascii "-frag") (uri.drop p) with
    | none => if q < p then none else some ((uri.drop (p + 1)).take (q - p - 1))
    | some o => some ((uri.drop (p + 1)).take (o - 1))
  | _, _ => none

/-- What `req_parse` makes of a uri. It is undefined where it leaves the bytes of the uri or those of
a buffer. -/
inductive Parsed
  | undefined
  | error
  | m3u8 (contentId : List UInt8) (playseek : Nat)
  | fragment (contentId : List UInt8) (fragId : Nat)
deriving DecidableEq

/-- The `content_id` of a request is given 64 bytes, with a NUL at the end of them. -/
def reqContentId (uri : List UInt8) (p q : Nat) : Option (List UInt8) :=
  if p < q ∨ 64 < p - q then none else some ((uri.drop (q + 1)).take (p - q - 1))

/-- `req_parse`; `playseek` is the data of the argument with that name, if `rbt_search_str` finds one. -/
def reqParse (uri : List UInt8) (playseek : Option (List UInt8)) : Parsed :=
  if uri.length < 5 then .undefined
  else if strncmpEq (uri.drop (uri.length - 5)) (ascii ".m3u8") 5 then
    match rnsStrrchr dot uri, rnsStrrchr slash uri with
    | some p, some q =>
      match reqContentId uri p q with
      | none => .undefined
      | some contentId =>
        .m3u8 contentId (playseek.elim 0 fun data => ofInt (rnsAtoi data))
    | _, _ => .error
  else
    match rnsStrrchr dash uri, rnsStrrchr slash uri, rnsStrrchr dot uri with
    | some p, some q, some o =>
      match reqContentId uri p q with
      | none => .undefined
      | some contentId =>
        -- no memory is given for a negative size, and a size of 0 is no room for the digits
        if o + 1 < p + 5 then .error
        else if o < p + 5 then .undefined
        else .fragment contentId (ofInt (rnsAtoi ((uri.drop (p + 5)).take (o - p - 5))))
    | _, _, _ => .error

/-- A content id: its bytes are those of one segment of a path, and it fits the `content_id` of a
request. -/
structure ContentId (contentId : List UInt8) : Prop where
  some : contentId ≠ []
  plain : ∀ b ∈ contentId, b ∉ [0, 32, 38, 47, 63]
  fits : contentId.length < 64

/-- Under every directory, the name of a fragment is requested as that fragment. -/
def FragmentBack (contentId : List UInt8) (fragId : Nat) : Prop :=
  ∀ dir playseek, (∀ b ∈ dir, b ≠ 0) →
    dispatchId (dir ++ slash :: fragmentName contentId fragId) = some contentId ∧
      reqParse (dir ++ slash :: fragmentName contentId fragId) playseek = .fragment contentId fragId

/-- Under every directory, the name of a playlist is requested as the playlist of that content id. -/
def PlaylistBack (contentId : List UInt8) : Prop :=
  ∀ dir playseek, (∀ b ∈ dir, b ≠ 0) →
    dispatchId (dir ++ slash :: playlistName contentId) = some contentId ∧
      ∃ time, reqParse (dir ++ slash :: playlistName contentId) playseek = .m3u8 contentId time

section
variable {contentId dir name xs ys : List UInt8} {fragId : Nat}

theorem plain_slash (h : ContentId contentId) : slash ∉ contentId :=
  fun hm => h.plain _ hm (by decide)

theorem uri_slash (h : slash ∉ name) : rnsStrrchr slash (dir ++ slash :: name) = some dir.length :=
  strrchr_last h

/-- The last delimiter of a name is the last one of its uri. -/
theorem uri_last {delim : UInt8} (h : delim ∉ ys) :
    rnsStrrchr delim (dir ++ slash :: (xs ++ delim :: ys)) = some (dir.length + 1 + xs.length) := by
  have hlast : rnsStrrchr delim ((dir ++ slash :: xs) ++ delim :: ys) = some (dir ++ slash :: xs).length :=
    strrchr_last h
  rw [List.append_assoc, List.cons_append] at hlast
  rw [hlast, List.length_append, List.length_cons, Nat.add_assoc, Nat.add_comm 1]

/-- From the slash on, a uri is its name. -/
theorem uri_name (size : Nat) :
    ((dir ++ slash :: name).drop (dir.length + 1)).take size = name.take size := by
  rw [List.drop_append, List.drop_of_length_le (Nat.le_succ _)]
  simp

theorem req_content_id (h : ContentId contentId) (rest : List UInt8) :
    reqContentId (dir ++ slash :: (contentId ++ rest)) (dir.length + 1 + contentId.length) dir.length =
      some contentId := by
  have hfits := h.fits
  rw [reqContentId, if_neg (by omega), uri_name]
  have hsize : dir.length + 1 + contentId.length - dir.length - 1 = contentId.length := by omega
  rw [hsize, List.take_left]

/-- `yms_req_dispatch` takes a name apart at the first `-frag` of it. -/
theorem dispatch_first {q o : Nat} (hslash : slash ∉ name)
    (hdot : rnsStrrchr dot (dir ++ slash :: name) = some q)
    (hfrag : rnsStrstr (ascii "-frag") (slash :: name) = some (o + 1)) :
    dispatchId (dir ++ slash :: name) = some (name.take o) := by
  simp only [dispatchId, uri_slash hslash, hdot, List.drop_left, hfrag, uri_name]
  rfl

/-- A name without `-frag` is taken apart at its last dot. -/
theorem dispatch_dot (hslash : slash ∉ xs ++ dot :: ys) (hdot : dot ∉ ys)
    (hfrag : rnsStrstr (ascii "-frag") (slash :: (xs ++ dot :: ys)) = none) :
    dispatchId (dir ++ slash :: (xs ++ dot :: ys)) = some xs := by
  have hsize : dir.length + 1 + xs.length - dir.length - 1 = xs.length := by omega
  simp only [dispatchId, uri_slash hslash, uri_last hdot, List.drop_left, hfrag, uri_name, hsize, List.take_left]
  exact if_neg (by omega)

/-- A byte that is neither in the content id nor printed by the format. -/
theorem not_mem_signed {b : UInt8} (h : b.toNat < 48 ∨ 57 < b.toNat) (hb : b ≠ dash) :
    b ∉ signedDecimal fragId := by
  have hdigits : ∀ n, b ∉ decimal n := by
    intro n hm
    have := decimal_digits hm
    omega
  rw [signedDecimal]
  split
  · exact hdigits _
  · rintro (_ | ⟨_, hm⟩)
    · exact hb rfl
    · exact hdigits _ hm

/-- The buffer takes the whole name. -/
theorem fragment_name (h : ContentId contentId) (hn : fragId < 2 ^ 32) :
    fragmentName contentId fragId = contentId ++ ascii "-frag" ++ signedDecimal fragId ++ ascii ".ts" := by
  have hfits := h.fits
  have hsigned : (signedDecimal fragId).length ≤ 11 := by
    rw [signedDecimal]
    split
    · exact (decimal_length (k := 10) (by decide) (by omega)).trans (by decide)
    · exact Nat.succ_le_succ (decimal_length (by decide) (by omega))
  apply List.take_of_length_le
  simp only [List.length_append]
  have hfrag : (ascii "-frag").length = 5 := rfl
  have hts : (ascii ".ts").length = 3 := rfl
  omega

theorem not_m3u8 (h : 2 ≤ xs.length) :
    strncmpEq ((xs ++ ascii ".ts").drop ((xs ++ ascii ".ts").length - 5)) (ascii ".m3u8") 5 = false := by
  have hts : (ascii ".ts").length = 3 := rfl
  have hsize : (xs ++ ascii ".ts").length - 5 = xs.length - 2 := by
    rw [List.length_append, hts]
    omega
  rw [hsize, List.drop_append_of_le_length (Nat.sub_le _ _)]
  have hlength : (xs.drop (xs.length - 2)).length = 2 := by
    rw [List.length_drop]
    omega
  obtain ⟨a, b, hlast⟩ := List.length_eq_two.mp hlength
  have htwo : a = 46 → a ≠ 0 ∧ (b = 109 → b ≠ 0) := by
    rintro rfl
    refine ⟨by decide, ?_⟩
    rintro rfl
    decide
  rw [hlast]
  simpa [strncmpEq, ascii] using htwo

/-- `req_parse` takes the name of a fragment apart at its last dash, which is the one of `-frag` as long
as the number is printed without a sign. -/
theorem parse_fragment (h : ContentId contentId) (hn : fragId < 2 ^ 31) (playseek : Option (List UInt8)) :
    reqParse (dir ++ slash :: (contentId ++ ascii "-frag" ++ decimal fragId ++ ascii ".ts")) playseek =
      .fragment contentId fragId := by
  have hbyte : ∀ b : UInt8, b.toNat < 48 ∨ 57 < b.toNat → b ∉ decimal fragId := by
    intro b hb hm
    have := decimal_digits hm
    omega
  have hfrag : (ascii "-frag").length = 5 := rfl
  obtain ⟨name, hname⟩ : ∃ name, name = contentId ++ ascii "-frag" ++ decimal fragId ++ ascii ".ts" := ⟨_, rfl⟩
  have hslash : slash ∉ name := by
    rw [hname]
    simp only [List.mem_append, not_or]
    exact ⟨⟨⟨plain_slash h, by decide⟩, hbyte _ (by decide)⟩, by decide⟩
  have hdash : rnsStrrchr dash (dir ++ slash :: name) = some (dir.length + 1 + contentId.length) := by
    have hrest : dash ∉ ascii "frag" ++ decimal fragId ++ ascii ".ts" := by
      simp only [List.mem_append, not_or]
      exact ⟨⟨by decide, hbyte _ (by decide)⟩, by decide⟩
    have hsplit : name = contentId ++ dash :: (ascii "frag" ++ decimal fragId ++ ascii ".ts") := by
      simp [hname, ascii, dash]
    rw [hsplit, uri_last hrest]
  have hdot : rnsStrrchr dot (dir ++ slash :: name) =
      some (dir.length + 1 + (contentId.length + 5 + (decimal fragId).length)) := by
    have hsplit : name = contentId ++ ascii "-frag" ++ decimal fragId ++ dot :: ascii "ts" := by
      simp [hname, ascii, dot]
    rw [hsplit, uri_last (by decide), List.length_append, List.length_append, hfrag]
  have hid : reqContentId (dir ++ slash :: name) (dir.length + 1 + contentId.length) dir.length = some contentId := by
    have hsplit : name = contentId ++ (ascii "-frag" ++ decimal fragId ++ ascii ".ts") := by
      simp [hname]
    rw [hsplit, req_content_id h]
  have hdigits : ((dir ++ slash :: name).drop (dir.length + 1 + contentId.length + 5)).take
      (decimal fragId).length = decimal fragId := by
    have hsplit : dir ++ slash :: name =
        (dir ++ slash :: contentId ++ ascii "-frag") ++ (decimal fragId ++ ascii ".ts") := by
      simp [hname]
    have hfront : dir.length + 1 + contentId.length + 5 = (dir ++ slash :: contentId ++ ascii "-frag").length := by
      simp only [List.length_append, List.length_cons, hfrag]
      omega
    rw [hsplit, hfront, List.drop_left, List.take_left]
  have hsuffix : strncmpEq ((dir ++ slash :: name).drop ((dir ++ slash :: name).length - 5)) (ascii ".m3u8") 5 =
      false := by
    have hsplit : dir ++ slash :: name =
        (dir ++ slash :: contentId ++ ascii "-frag" ++ decimal fragId) ++ ascii ".ts" := by
      simp [hname]
    rw [hsplit]
    apply not_m3u8
    simp only [List.length_append, List.length_cons, hfrag]
    omega
  have hlen : 5 ≤ (dir ++ slash :: name).length := by
    simp only [hname, List.length_append, List.length_cons, hfrag]
    omega
  have hsize : dir.length + 1 + (contentId.length + 5 + (decimal fragId).length) -
      (dir.length + 1 + contentId.length) - 5 = (decimal fragId).length := by omega
  rw [← hname, reqParse, if_neg (by omega), hsuffix]
  simp only [Bool.false_eq_true, if_false, hdash, uri_slash hslash, hdot, hid, hsize, hdigits, atoi_decimal]
  rw [if_neg (by omega), if_neg (by omega)]
  congr 1
  unfold ofInt
  omega

/-- The content id of a fragment ends at the last dash. -/
theorem parsed_length {uri : List UInt8} {playseek : Option (List UInt8)} {p q : Nat}
    (hparse : reqParse uri playseek = .fragment contentId fragId)
    (hdash : rnsStrrchr dash uri = some p) (hslash : rnsStrrchr slash uri = some q) :
    contentId = (uri.drop (q + 1)).take (p - q - 1) := by
  unfold reqParse at hparse
  split at hparse
  · cases hparse
  · split at hparse
    · split at hparse
      · split at hparse <;> cases hparse
      · cases hparse
    · simp only [hdash, hslash] at hparse
      split at hparse
      · rename_i o hp hq hdot
        cases hp
        cases hq
        split at hparse
        · cases hparse
        · rename_i hid
          split at hparse
          · cases hparse
          · split at hparse
            · cases hparse
            · obtain ⟨rfl, -⟩ := Parsed.fragment.inj hparse
              rw [reqContentId] at hid
              split at hid
              · cases hid
              · exact (Option.some.inj hid).symm
      · cases hparse

/-- From 2^31 on the last dash of the name is the sign of the number. -/
theorem parse_negative (h : ContentId contentId) (hn : 2 ^ 31 ≤ fragId) (playseek : Option (List UInt8)) :
    reqParse (dir ++ slash :: (contentId ++ ascii "-frag" ++ signedDecimal fragId ++ ascii ".ts")) playseek ≠
      .fragment contentId fragId := by
  intro hparse
  have hrest : dash ∉ decimal (2 ^ 32 - fragId) ++ ascii ".ts" := by
    rw [List.mem_append, not_or]
    refine ⟨fun hm => ?_, by decide⟩
    exact absurd (decimal_digits hm).1 (by decide)
  have hfrag : (ascii "-frag").length = 5 := rfl
  obtain ⟨name, hname⟩ :
      ∃ name, name = contentId ++ ascii "-frag" ++ dash :: (decimal (2 ^ 32 - fragId) ++ ascii ".ts") := ⟨_, rfl⟩
  have hsigned : contentId ++ ascii "-frag" ++ signedDecimal fragId ++ ascii ".ts" = name := by
    rw [hname, signedDecimal, if_neg (by omega), List.append_assoc _ (45 :: _)]
    rfl
  have hslash : slash ∉ name := by
    rw [hname, List.mem_append, List.mem_append, List.mem_cons, List.mem_append]
    rintro ((hm | hm) | hm | hm | hm)
    · exact plain_slash h hm
    · revert hm
      decide
    · revert hm
      decide
    · exact absurd (decimal_digits hm).1 (by decide)
    · revert hm
      decide
  have hdash : rnsStrrchr dash (dir ++ slash :: name) =
      some (dir.length + 1 + (contentId ++ ascii "-frag").length) := by
    rw [hname, uri_last hrest]
  rw [hsigned] at hparse
  have hid := congrArg List.length (parsed_length hparse hdash (uri_slash hslash))
  rw [uri_name, List.length_take, hname] at hid
  simp only [List.length_append, List.length_cons, hfrag] at hid
  omega

/-- What `-frag` in a content id makes of every name of it. -/
theorem dispatch_infix {rest : List UInt8} {q : Nat} (hin : ascii "-frag" <:+: contentId)
    (hslash : slash ∉ contentId ++ rest) (hdot : rnsStrrchr dot (dir ++ slash :: (contentId ++ rest)) = some q) :
    dispatchId (dir ++ slash :: (contentId ++ rest)) ≠ some contentId := by
  obtain ⟨front, back, hid⟩ := hin
  obtain ⟨i, hi, hfound⟩ := strstr_le (slash :: front) (ascii "-frag") (back ++ rest)
  have hname : slash :: front ++ ascii "-frag" ++ (back ++ rest) = slash :: (contentId ++ rest) := by
    simp [← hid]
  rw [hname] at hfound
  cases i with
  | zero => exact absurd hfound (strstr_behind (by decide))
  | succ o =>
    rw [dispatch_first hslash hdot hfound]
    intro heq
    have hlength := congrArg List.length (Option.some.inj heq)
    rw [List.length_take, ← hid] at hlength
    have hfrag : (ascii "-frag").length = 5 := rfl
    simp only [List.length_append, List.length_cons, hfrag] at hlength hi
    omega

theorem infix_slash {bs : List UInt8} (h : ascii "-frag" <:+: slash :: bs) : ascii "-frag" <:+: bs := by
  rcases infix_around (by decide) (show ascii "-frag" <:+: [] ++ slash :: bs from h) with hnil | hbs
  · exact absurd (List.infix_nil.mp hnil) (by decide)
  · exact hbs

theorem dispatch_fragment {rest : List UInt8} {q : Nat} (hin : ¬ ascii "-frag" <:+: contentId)
    (hslash : slash ∉ contentId ++ (ascii "-frag" ++ rest))
    (hdot : rnsStrrchr dot (dir ++ slash :: (contentId ++ (ascii "-frag" ++ rest))) = some q) :
    dispatchId (dir ++ slash :: (contentId ++ (ascii "-frag" ++ rest))) = some contentId := by
  have hfirst : rnsStrstr (ascii "-frag") (slash :: contentId ++ ascii "-frag" ++ rest) =
      some (slash :: contentId).length :=
    strstr_first (by decide) fun h => hin (infix_slash h)
  rw [List.append_assoc] at hfirst
  rw [dispatch_first hslash hdot hfirst, List.take_left]

theorem playlist_slash (h : ContentId contentId) : slash ∉ contentId ++ ascii ".m3u8" := by
  rw [List.mem_append, not_or]
  exact ⟨plain_slash h, by decide⟩

theorem dispatch_playlist (h : ContentId contentId) (hin : ¬ ascii "-frag" <:+: contentId) :
    dispatchId (dir ++ slash :: playlistName contentId) = some contentId := by
  have hname : playlistName contentId = contentId ++ dot :: ascii "m3u8" := rfl
  rw [hname]
  refine dispatch_dot (playlist_slash h) (by decide) (strstr_none fun hfrag => ?_)
  rcases infix_around (by decide) (infix_slash hfrag) with hid | hrest
  · exact hin hid
  · revert hrest
    decide

theorem parse_playlist (h : ContentId contentId) (playseek : Option (List UInt8)) :
    ∃ time, reqParse (dir ++ slash :: playlistName contentId) playseek = .m3u8 contentId time := by
  have hm3u8 : (ascii ".m3u8").length = 5 := rfl
  have hdot : rnsStrrchr dot (dir ++ slash :: (contentId ++ ascii ".m3u8")) =
      some (dir.length + 1 + contentId.length) := uri_last (show dot ∉ ascii "m3u8" by decide)
  have hsuffix : (dir ++ slash :: playlistName contentId).drop ((dir ++ slash :: playlistName contentId).length - 5) =
      ascii ".m3u8" := by
    have hsplit : dir ++ slash :: playlistName contentId = (dir ++ slash :: contentId) ++ ascii ".m3u8" := by
      simp [playlistName]
    rw [hsplit, List.length_append, hm3u8, Nat.add_sub_cancel, List.drop_left]
  have hlen : 5 ≤ (dir ++ slash :: playlistName contentId).length := by
    simp only [playlistName, List.length_append, List.length_cons, hm3u8]
    omega
  rw [reqParse, if_neg (by omega), hsuffix, if_pos (by decide)]
  simp only [playlistName, hdot, uri_slash (playlist_slash h), req_content_id h]
  exact ⟨_, rfl⟩

theorem fragment_slash (h : ContentId contentId) :
    slash ∉ contentId ++ (ascii "-frag" ++ (signedDecimal fragId ++ ascii ".ts")) := by
  simp only [List.mem_append, not_or]
  exact ⟨plain_slash h, by decide, not_mem_signed (by decide) (by decide), by decide⟩

theorem fragment_dot (dir contentId : List UInt8) (fragId : Nat) : ∃ q, rnsStrrchr dot
    (dir ++ slash :: (contentId ++ (ascii "-frag" ++ (signedDecimal fragId ++ ascii ".ts")))) = some q := by
  have hlast : rnsStrrchr dot (dir ++ slash :: (contentId ++ ascii "-frag" ++ signedDecimal fragId ++
      dot :: ascii "ts")) = some _ := uri_last (by decide)
  simp only [List.append_assoc] at hlast
  exact ⟨_, hlast⟩

/-- The two parsers agree with the formatter on every content id without `-frag`, and on numbers that
are printed without a sign. -/
theorem names_lead_back (h : ContentId contentId) (hn : fragId < 2 ^ 32) :
    (FragmentBack contentId fragId ↔ ¬ ascii "-frag" <:+: contentId ∧ fragId < 2 ^ 31) ∧
      (PlaylistBack contentId ↔ ¬ ascii "-frag" <:+: contentId) := by
  constructor
  · constructor
    · intro hback
      obtain ⟨hdispatch, hparse⟩ := hback [] none (by simp)
      rw [fragment_name h hn] at hdispatch hparse
      constructor
      · intro hin
        obtain ⟨q, hdot⟩ := fragment_dot [] contentId fragId
        simp only [List.append_assoc] at hdispatch
        exact dispatch_infix hin (fragment_slash h) hdot hdispatch
      · by_contra hlt
        exact parse_negative h (by omega) none hparse
    · rintro ⟨hin, hlt⟩ dir playseek -
      rw [fragment_name h hn]
      constructor
      · obtain ⟨q, hdot⟩ := fragment_dot dir contentId fragId
        simp only [List.append_assoc]
        exact dispatch_fragment hin (fragment_slash h) hdot
      · rw [signedDecimal, if_pos hlt]
        exact parse_fragment h hlt playseek
  · constructor
    · intro hback hin
      obtain ⟨hdispatch, -⟩ := hback [] none (by simp)
      exact dispatch_infix hin (playlist_slash h) (uri_last (show dot ∉ ascii "m3u8" by decide)) hdispatch
    · intro hin dir playseek _
      exact ⟨dispatch_playlist h hin, parse_playlist h playseek⟩

theorem names_lead_back_c1 :
    (FragmentBack (ascii "c-1.a") 7 ↔ ¬ ascii "-frag" <:+: ascii "c-1.a" ∧ 7 < 2 ^ 31) ∧
      (PlaylistBack (ascii "c-1.a") ↔ ¬ ascii "-frag" <:+: ascii "c-1.a") :=
  names_lead_back ⟨by decide, by simp [ascii], by decide⟩ (by decide)

/-- The content id `a-frag` is taken for `a`, whatever is requested of it. -/
theorem frag_misnamed :
    ContentId (ascii "a-frag") ∧
      dispatchId (ascii "/live/" ++ fragmentName (ascii "a-frag") 7) = some (ascii "a") ∧
      dispatchId (ascii "/live/" ++ playlistName (ascii "a-frag")) = some (ascii "a") := by
  refine ⟨⟨by decide, by simp [ascii], by decide⟩, ?_, ?_⟩
  · decide
  · decide

end

end Yclib.Live
