import Yclib.Http.Scan
import Yclib.Util.CSearch

namespace Yclib.Media.Hls
open Http.Reading

/-! Playlists, as `m3u8_write` prints them and `m3u8_read` scans them. -/

def newline : UInt8 := 10
def space : UInt8 := 32

/-- What `%f` makes of a double: its whole part and six digits behind the point, or a word. -/
inductive Fixed
  | number (negative : Bool) (whole micros : Nat)
  | inf (negative : Bool)
  | nan (negative : Bool)
deriving DecidableEq

namespace Fixed

def sign (negative : Bool) : List UInt8 := if negative then ascii "-" else []

/-- Six digits, with zeros in front. -/
def fraction (micros : Nat) : List UInt8 := (decimal (10 ^ 6 + micros % 10 ^ 6)).drop 1

def text : Fixed → List UInt8
  | number negative whole micros => sign negative ++ decimal whole ++ ascii "." ++ fraction micros
  | inf negative => sign negative ++ ascii "inf"
  | nan negative => sign negative ++ ascii "nan"

end Fixed

/-- A `media_seg_t`, with its duration as it is printed. -/
structure MediaSeg where
  timeLen : Fixed
  uri : List UInt8
deriving DecidableEq

/-- A `media_m3u8_t`. `max_duration` is a `float`, which has 39 digits in front of the point at most. -/
structure MediaM3u8 where
  maxDuration : Fixed
  mediaSequence : Nat
  seg : List MediaSeg
  ending : Bool
  narrow : maxDuration.text.length ≤ 47
  sequence : mediaSequence < 2 ^ 32

/-- `M3U8_VERSION`. -/
def m3u8Version : Nat := 3

/-- `snprintf(buf + count, size - count - 1, ..)`, where the buffer has the string `buf` in it. -/
def append (size : Nat) (buf line : List UInt8) : List UInt8 :=
  buf ++ line.take (u32 (size + 2 ^ 32 - (buf.length + 1)) - 1)

def extinf (timeLen : Fixed) : List UInt8 := ascii "#EXTINF:" ++ timeLen.text ++ ascii ","

/-- The lines of a segment. -/
def MediaSeg.lines (seg : MediaSeg) : List (List UInt8) := [extinf seg.timeLen, seg.uri]

/-- The lines that `m3u8_write` prints. -/
def MediaM3u8.lines (m3u8 : MediaM3u8) : List (List UInt8) :=
  [ascii "#EXTM3U", ascii "#EXT-X-VERSION:" ++ decimal m3u8Version,
    ascii "#EXT-X-MEDIA-SEQUENCE:" ++ decimal m3u8.mediaSequence,
    ascii "#EXT-X-TARGETDURATION:" ++ m3u8.maxDuration.text] ++
    m3u8.seg.flatMap MediaSeg.lines ++ (if m3u8.ending then [ascii "#EXT-X-ENDLIST"] else [])

/-- `m3u8_write`, with the string that is in the buffer in the end. -/
def m3u8Write (m3u8 : MediaM3u8) (size : Nat) : List UInt8 :=
  m3u8.lines.foldl (fun buf line => append size buf (line ++ [newline])) []

/-- What `get_line` does: there is a line, there is none, or it does not fit `t_buf`. -/
inductive Line
  | none
  | overrun
  | line (bytes rest : List UInt8)
deriving DecidableEq

/-- `get_line`, with the 256 bytes of `t_buf`. -/
def getLine (walker : List UInt8) : Line :=
  let start := walker.dropWhile fun b => b = newline || b = space
  let bytes := start.takeWhile (· ≠ newline)
  if bytes = [] then .none
  else if 256 ≤ bytes.length then .overrun
  else .line bytes (start.drop bytes.length)

/-- `line_substr`. -/
def lineSubstr (line sub : List UInt8) : Option (List UInt8) :=
  (rnsStrstr sub line).map fun start => line.drop (start + sub.length)

/-- What `m3u8_read` has read: of the durations there are the texts that `atol` and `atof` are given. -/
structure Read where
  maxDuration : List UInt8
  discontinuity : Bool
  version : Nat
  mediaSequence : Nat
  seg : List (List UInt8 × List UInt8)
  ending : Bool
deriving DecidableEq

/-- The first loop of `m3u8_read`, which counts the segments. -/
def countSegs : Nat → List UInt8 → Nat
  | 0, _ => 0
  | rounds + 1, walker =>
    match rnsStrstr (ascii "#EXTINF:") walker with
    | none => 0
    | some start => countSegs rounds (walker.drop (start + (ascii "#EXTINF:").length)) + 1

/-- What `m3u8_read` takes from a line that begins no segment. -/
def Read.readTag (read : Read) (line : List UInt8) : Read :=
  match lineSubstr line (ascii "#EXT-X-TARGETDURATION:") with
  | some value => { read with maxDuration := value }
  | none => match lineSubstr line (ascii "#EXT-X-DISCONTINUITY:") with
    | some _ => { read with discontinuity := true }
    | none => match lineSubstr line (ascii "#EXT-X-VERSION:") with
      | some value => { read with version := ofInt (rnsAtoi value) }
      | none => match lineSubstr line (ascii "#EXT-X-MEDIA-SEQUENCE:") with
        | some value => { read with mediaSequence := ofInt (rnsAtoi value) }
        | none => match lineSubstr line (ascii "#EXT-X-ENDLIST") with
          | some _ => { read with ending := true }
          | none => read

/-- The second loop, which leaves its buffers where the result is `none`: with a line that `t_buf` does not
take, with a segment that has no line behind it, and with more segments than were counted. -/
def readLines (segSize : Nat) : Nat → List UInt8 → Read → Option Read
  | 0, _, read => some read
  | rounds + 1, walker, read =>
    match getLine walker with
    | .overrun => none
    | .none => some read
    | .line line rest =>
      match lineSubstr line (ascii "#EXTINF:") with
      | none => readLines segSize rounds rest (read.readTag line)
      | some value =>
        match getLine rest with
        | .overrun => none
        | .none => none
        | .line uri rest =>
          if read.seg.length < segSize then
            readLines segSize rounds rest { read with seg := read.seg ++ [(value, uri)] }
          else none

/-- `m3u8_read` of a string and its length; segments that were counted and not read are left zero. -/
def m3u8Read (buf : List UInt8) : Option Read :=
  let segSize := countSegs (buf.length + 1) buf
  (readLines segSize (buf.length + 1) buf ⟨[], false, 0, 0, [], false⟩).map fun read =>
    { read with seg := read.seg ++ List.replicate (segSize - read.seg.length) ([], []) }

/-- The uris that the claims of the format are about. -/
structure Plain (uri : List UInt8) : Prop where
  nonempty : uri ≠ []
  short : uri.length < 256
  bytes : ∀ b ∈ uri, b ∉ [0, newline, space]
  untagged : ¬ ascii "#EXTINF:" <:+: uri

/-- The buffer takes the playlist and its NUL. -/
def MediaM3u8.Fits (m3u8 : MediaM3u8) (size : Nat) : Prop :=
  (m3u8.lines.flatMap (· ++ [newline])).length < size ∧ size < 2 ^ 32

/-- What was written is read again, the durations apart. -/
def RoundTrips (m3u8 : MediaM3u8) (size : Nat) : Prop :=
  ∃ read, m3u8Read (m3u8Write m3u8 size) = some read ∧ read.seg.map Prod.snd = m3u8.seg.map MediaSeg.uri ∧
    read.mediaSequence = m3u8.mediaSequence ∧ read.ending = m3u8.ending

/-- What is read of a segment. -/
def MediaSeg.read (seg : MediaSeg) : List UInt8 × List UInt8 := (seg.timeLen.text ++ ascii ",", seg.uri)

/-- What is behind a line: the other lines, and the newline at the end unless it was cut off. -/
def following (lines : List (List UInt8)) (ends : List UInt8) : List UInt8 :=
  lines.flatMap (newline :: ·) ++ ends

section Write
variable {size : Nat} {buf line : List UInt8}

theorem append_take (h : 2 ≤ size) (hs : size < 2 ^ 32) (line : List UInt8) :
    append size (buf.take (size - 2)) line = (buf ++ line).take (size - 2) := by
  have hroom : u32 (size + 2 ^ 32 - ((buf.take (size - 2)).length + 1)) - 1 = size - 2 - buf.length := by
    rw [List.length_take, u32]
    omega
  rw [append, hroom, List.take_append]

/-- What does not fit is cut off at the end. -/
theorem append_all (h : 2 ≤ size) (hs : size < 2 ^ 32) (lines : List (List UInt8)) (buf : List UInt8) :
    lines.foldl (fun buf line => append size buf (line ++ [newline])) (buf.take (size - 2)) =
      (buf ++ lines.flatMap (· ++ [newline])).take (size - 2) := by
  induction lines generalizing buf with
  | nil => simp
  | cons line lines ih =>
    rw [List.foldl_cons, append_take h hs, ih, List.flatMap_cons, List.append_assoc]

theorem lines_following (line : List UInt8) (lines : List (List UInt8)) :
    (line :: lines).flatMap (· ++ [newline]) = line ++ following lines [newline] := by
  induction lines generalizing line with
  | nil => simp [following]
  | cons next lines ih =>
    rw [List.flatMap_cons, ih]
    simp [following]

/-- The buffer has all that was printed, but perhaps for the last newline. -/
theorem write_following {m3u8 : MediaM3u8} (h : m3u8.Fits size) :
    ∃ ends, (ends = [] ∨ ends = [newline]) ∧ newline :: m3u8Write m3u8 size = following m3u8.lines ends := by
  obtain ⟨line, lines, hlines⟩ : ∃ line lines, m3u8.lines = line :: lines := ⟨_, _, rfl⟩
  obtain ⟨hfits, hs⟩ := h
  have htext := lines_following line lines
  obtain ⟨all, hall⟩ : ∃ all, all = m3u8.lines.flatMap (· ++ [newline]) := ⟨_, rfl⟩
  have hsplit : all = (line ++ following lines []) ++ [newline] := by
    rw [hall, hlines, htext]
    simp [following]
  have hlen := congrArg List.length hsplit
  rw [List.length_append, List.length_singleton] at hlen
  rw [← hall] at hfits
  have hpos : 0 < line.length := by
    obtain rfl : line = ascii "#EXTM3U" := (List.cons.inj hlines).1.symm
    decide
  rw [List.length_append] at hlen
  have hwrite : m3u8Write m3u8 size = all.take (size - 2) := by
    have := append_all (by omega) hs m3u8.lines []
    rw [List.take_nil, List.nil_append, ← hall] at this
    exact this
  by_cases hcut : all.length ≤ size - 2
  · refine ⟨[newline], .inr rfl, ?_⟩
    rw [hwrite, List.take_of_length_le hcut, hall, hlines, htext]
    simp [following]
  · refine ⟨[], .inl rfl, ?_⟩
    have hsize : size - 2 = (line ++ following lines []).length := by
      rw [List.length_append]
      omega
    rw [hwrite, hsplit, hsize, List.take_left, hlines]
    simp [following]

end Write

/-- A line that `get_line` takes for one. -/
structure Clear (line : List UInt8) : Prop where
  nonempty : line ≠ []
  whole : newline ∉ line
  start : line.head? ≠ some space

section Read
variable {segSize rounds : Nat} {line ends : List UInt8} {lines : List (List UInt8)} {read : Read}

theorem following_cons : following (line :: lines) ends = newline :: (line ++ following lines ends) := by
  simp [following]

theorem following_head (lines : List (List UInt8)) (he : ends = [] ∨ ends = [newline]) :
    following lines ends = [] ∨ ∃ rest, following lines ends = newline :: rest := by
  cases lines with
  | nil => rcases he with rfl | rfl <;> simp [following]
  | cons line lines => exact .inr ⟨_, following_cons⟩

theorem get_newline (walker : List UInt8) : getLine (newline :: walker) = getLine walker := by
  simp [getLine]

theorem get_following (he : ends = [] ∨ ends = [newline]) (h : Clear line) :
    getLine (following (line :: lines) ends) =
      if 256 ≤ line.length then .overrun else .line line (following lines ends) := by
  have hstart : (line ++ following lines ends).dropWhile (fun b => b = newline || b = space) =
      line ++ following lines ends := by
    obtain ⟨b, line, rfl⟩ := List.exists_cons_of_ne_nil h.nonempty
    have hb : ¬ (b = newline ∨ b = space) := by
      rintro (rfl | rfl)
      · exact h.whole (by simp)
      · exact h.start rfl
    rw [List.cons_append, List.dropWhile_cons, if_neg (by simpa using hb)]
  have hbytes : (line ++ following lines ends).takeWhile (· ≠ newline) = line := by
    rw [List.takeWhile_append_of_pos fun b hb => by simpa using fun heq : b = newline => h.whole (heq ▸ hb)]
    rcases following_head lines he with hrest | ⟨rest, hrest⟩
    · rw [hrest]
      simp
    · rw [hrest]
      simp
  rw [following_cons, get_newline, getLine, hstart]
  simp only [hbytes]
  rw [if_neg h.nonempty, List.drop_left]

theorem get_ends (he : ends = [] ∨ ends = [newline]) : getLine (following [] ends) = .none := by
  rcases he with rfl | rfl <;> rfl

theorem read_newline (walker : List UInt8) :
    readLines segSize (rounds + 1) (newline :: walker) read = readLines segSize (rounds + 1) walker read := by
  rw [readLines, get_newline, readLines]

/-- A tag is found in a line that begins with the only `#` of it if it is the beginning of the line. -/
theorem line_substr_tag {sub : List UInt8} (h : 35 ∉ line) :
    lineSubstr (35 :: line) (35 :: sub) =
      if sub <+: line then some (line.drop sub.length) else none := by
  rw [lineSubstr, rnsStrstr]
  by_cases hsub : sub <+: line
  · rw [if_pos (List.cons_prefix_cons.mpr ⟨rfl, hsub⟩), if_pos hsub]
    simp
  · have hrest : ¬ 35 :: sub <:+: line := fun hin => h (hin.subset (by simp))
    rw [if_neg fun hpre => hsub (List.cons_prefix_cons.mp hpre).2, if_neg hsub, strstr_none hrest]
    rfl

/-- A line that begins no segment. -/
theorem read_tag (he : ends = [] ∨ ends = [newline]) (h : Clear line) (hlen : line.length < 256)
    (htag : lineSubstr line (ascii "#EXTINF:") = none) :
    readLines segSize (rounds + 1) (following (line :: lines) ends) read =
      readLines segSize rounds (following lines ends) (read.readTag line) := by
  simp only [readLines, get_following he h, if_neg (Nat.not_le.mpr hlen), htag]

theorem fixed_plain {x : Fixed} {b : UInt8} (h : b ∈ x.text) : b ∉ [newline, space, 35] := by
  have hsign : ∀ negative, b ∈ Fixed.sign negative → b ∉ [newline, space, 35] := by
    intro negative hb
    cases negative with
    | false => simp [Fixed.sign] at hb
    | true =>
      obtain rfl : b = 45 := by simpa [Fixed.sign, ascii] using hb
      decide
  have hdecimal : ∀ n, b ∈ decimal n → b ∉ [newline, space, 35] := by
    intro n hb hm
    have hge := (decimal_digits hb).1
    simp only [List.mem_cons, List.not_mem_nil, or_false] at hm
    rcases hm with rfl | rfl | rfl <;> exact absurd hge (by decide)
  have hword : ∀ word ∈ [ascii ".", ascii "inf", ascii "nan"], b ∈ word → b ∉ [newline, space, 35] := by
    intro word hword hb
    have hall : ∀ c ∈ [ascii ".", ascii "inf", ascii "nan"].flatten, c ∉ [newline, space, 35] := by
      simp [ascii, newline, space]
    exact hall b (List.mem_flatten_of_mem hword hb)
  cases x with
  | number negative whole micros =>
    simp only [Fixed.text, List.mem_append] at h
    rcases h with ((h | h) | h) | h
    · exact hsign _ h
    · exact hdecimal _ h
    · exact hword _ (by simp) h
    · exact hdecimal _ (List.mem_of_mem_drop h)
  | inf negative => exact (List.mem_append.mp h).elim (hsign _) (hword _ (by simp))
  | nan negative => exact (List.mem_append.mp h).elim (hsign _) (hword _ (by simp))

theorem plain_clear {uri : List UInt8} (h : Plain uri) : Clear uri where
  nonempty := h.nonempty
  whole := fun hm => h.bytes _ hm (by decide)
  start := fun hm => h.bytes _ (List.mem_of_head? hm) (by decide)

theorem extinf_clear (x : Fixed) : Clear (extinf x) where
  nonempty := by simp [extinf, ascii]
  whole := by
    rw [extinf, List.mem_append, List.mem_append]
    rintro ((hm | hm) | hm)
    · revert hm
      decide
    · exact fixed_plain hm (by decide)
    · revert hm
      decide
  start := by simp [extinf, ascii, space]

/-- The two lines of a segment: `t_buf` takes the first one if the duration has no more than 246 bytes. -/
theorem read_seg {seg : MediaSeg} (he : ends = [] ∨ ends = [newline]) (h : Plain seg.uri) :
    readLines segSize (rounds + 1) (following (seg.lines ++ lines) ends) read =
      if seg.timeLen.text.length ≤ 246 ∧ read.seg.length < segSize then
        readLines segSize rounds (following lines ends)
          { read with seg := read.seg ++ [(seg.timeLen.text ++ ascii ",", seg.uri)] }
      else none := by
  have hextinf : (extinf seg.timeLen).length = seg.timeLen.text.length + 9 := by
    simp [extinf, ascii]
  have hvalue : lineSubstr (extinf seg.timeLen) (ascii "#EXTINF:") = some (seg.timeLen.text ++ ascii ",") := by
    have hhash : 35 ∉ ascii "EXTINF:" ++ (seg.timeLen.text ++ ascii ",") := by
      rw [List.mem_append, List.mem_append]
      rintro (hm | hm | hm)
      · revert hm
        decide
      · exact fixed_plain hm (by decide)
      · revert hm
        decide
    have hsplit : extinf seg.timeLen = 35 :: (ascii "EXTINF:" ++ (seg.timeLen.text ++ ascii ",")) := by
      simp [extinf, ascii]
    have hfound : lineSubstr (35 :: (ascii "EXTINF:" ++ (seg.timeLen.text ++ ascii ","))) (35 :: ascii "EXTINF:") =
        if ascii "EXTINF:" <+: _ then _ else _ := line_substr_tag hhash
    rwa [if_pos (List.prefix_append _ _), List.drop_left, ← hsplit] at hfound
  by_cases hlong : seg.timeLen.text.length ≤ 246
  · simp only [readLines, MediaSeg.lines, List.cons_append, List.nil_append, get_following he (extinf_clear _),
      if_neg (Nat.not_le.mpr (show (extinf seg.timeLen).length < 256 by omega)), hvalue,
      get_following he (plain_clear h), if_neg (Nat.not_le.mpr h.short), hlong, true_and]
  · simp only [readLines, MediaSeg.lines, List.cons_append, List.nil_append, get_following he (extinf_clear _),
      if_pos (show 256 ≤ (extinf seg.timeLen).length by omega), hlong, false_and, if_false]

/-- All segments are read, if `t_buf` takes their durations and they were counted. -/
theorem read_segs {segs : List MediaSeg} (he : ends = [] ∨ ends = [newline]) (h : ∀ seg ∈ segs, Plain seg.uri)
    (hfit : ∀ seg ∈ segs, seg.timeLen.text.length ≤ 246) (hcount : read.seg.length + segs.length ≤ segSize) :
    readLines segSize (segs.length + rounds) (following (segs.flatMap MediaSeg.lines ++ lines) ends) read =
      readLines segSize rounds (following lines ends) { read with seg := read.seg ++ segs.map MediaSeg.read } := by
  induction segs generalizing read with
  | nil => simp
  | cons seg segs ih =>
    rw [List.length_cons] at hcount
    rw [List.length_cons, List.flatMap_cons, List.append_assoc, Nat.add_right_comm, read_seg he (h seg (by simp)),
      if_pos ⟨hfit seg (by simp), by omega⟩]
    rw [ih (fun seg hm => h seg (List.mem_cons_of_mem _ hm)) (fun seg hm => hfit seg (List.mem_cons_of_mem _ hm))]
    · simp [MediaSeg.read]
    · simp only [List.length_append, List.length_singleton]
      omega

/-- With a duration that `t_buf` does not take, it is left. -/
theorem read_segs_overrun {segs : List MediaSeg} (he : ends = [] ∨ ends = [newline])
    (h : ∀ seg ∈ segs, Plain seg.uri) (hlong : ∃ seg ∈ segs, 246 < seg.timeLen.text.length) :
    readLines segSize (segs.length + rounds) (following (segs.flatMap MediaSeg.lines ++ lines) ends) read = none := by
  induction segs generalizing read with
  | nil => simp at hlong
  | cons seg segs ih =>
    rw [List.length_cons, List.flatMap_cons, List.append_assoc, Nat.add_right_comm, read_seg he (h seg (by simp))]
    split
    · rename_i hfit
      apply ih fun seg hm => h seg (List.mem_cons_of_mem _ hm)
      obtain ⟨long, hm, hlong⟩ := hlong
      rcases List.mem_cons.mp hm with rfl | hm
      · exact absurd hfit.1 (Nat.not_le.mpr hlong)
      · exact ⟨long, hm, hlong⟩
    · rfl

theorem count_newline (walker : List UInt8) :
    countSegs rounds (newline :: walker) = countSegs rounds walker := by
  cases rounds with
  | zero => rfl
  | succ rounds =>
    have hskip : rnsStrstr (ascii "#EXTINF:") ([] ++ newline :: walker) =
        (rnsStrstr (ascii "#EXTINF:") walker).map (· + 1) := strstr_skip (by decide) (by decide)
    rw [List.nil_append] at hskip
    rw [countSegs, countSegs, hskip]
    cases rnsStrstr (ascii "#EXTINF:") walker with
    | none => rfl
    | some start =>
      simp only [Option.map_some]
      rw [Nat.add_right_comm, List.drop_succ_cons]

/-- A line without the tag counts for nothing. -/
theorem count_line (he : ends = [] ∨ ends = [newline]) (h : ¬ ascii "#EXTINF:" <:+: line) :
    countSegs rounds (line ++ following lines ends) = countSegs rounds (following lines ends) := by
  cases rounds with
  | zero => rfl
  | succ rounds =>
    rcases following_head lines he with hrest | ⟨rest, hrest⟩
    · rw [hrest, List.append_nil, countSegs, strstr_none h]
      rfl
    · rw [hrest, count_newline, countSegs, countSegs, strstr_skip (by decide) h]
      cases rnsStrstr (ascii "#EXTINF:") rest with
      | none => rfl
      | some start =>
        have hdrop : (line ++ newline :: rest).drop (start + (line.length + 1) + (ascii "#EXTINF:").length) =
            rest.drop (start + (ascii "#EXTINF:").length) := by
          rw [List.drop_append, List.drop_of_length_le (by omega), List.nil_append,
            show start + (line.length + 1) + (ascii "#EXTINF:").length - line.length =
              start + (ascii "#EXTINF:").length + 1 by omega, List.drop_succ_cons]
        simp only [Option.map_some, hdrop]

theorem no_tag {bs : List UInt8} (h : 35 ∉ bs) : ¬ ascii "#EXTINF:" <:+: bs :=
  fun hin => h (hin.subset (by decide))

theorem count_segs {segs : List MediaSeg} (he : ends = [] ∨ ends = [newline]) (h : ∀ seg ∈ segs, Plain seg.uri) :
    countSegs (segs.length + rounds) (following (segs.flatMap MediaSeg.lines ++ lines) ends) =
      segs.length + countSegs rounds (following lines ends) := by
  induction segs with
  | nil => simp
  | cons seg segs ih =>
    obtain ⟨behind, hbehind⟩ : ∃ behind, behind = segs.flatMap MediaSeg.lines ++ lines := ⟨_, rfl⟩
    have hcomma : 35 ∉ seg.timeLen.text ++ ascii "," := by
      rw [List.mem_append]
      rintro (hm | hm)
      · exact fixed_plain hm (by decide)
      · revert hm
        decide
    have hsplit : extinf seg.timeLen ++ following (seg.uri :: behind) ends =
        ascii "#EXTINF:" ++ ((seg.timeLen.text ++ ascii ",") ++ following (seg.uri :: behind) ends) := by
      simp [extinf]
    have hfound : rnsStrstr (ascii "#EXTINF:") (ascii "#EXTINF:" ++
        ((seg.timeLen.text ++ ascii ",") ++ following (seg.uri :: behind) ends)) = some 0 :=
      if_pos (List.prefix_append _ _)
    rw [List.length_cons, List.flatMap_cons, List.append_assoc, ← hbehind, MediaSeg.lines, List.cons_append,
      following_cons, count_newline, List.cons_append, List.nil_append, hsplit, Nat.add_right_comm, countSegs, hfound]
    simp only [Nat.zero_add, List.drop_left]
    rw [count_line he (no_tag hcomma), following_cons, count_newline,
      count_line he (h seg (by simp)).untagged, hbehind, ih fun seg hm => h seg (List.mem_cons_of_mem _ hm)]
    omega

theorem not_prefix_lit {sub lit rest : List UInt8} (h : ¬ sub <+: lit) (h' : ¬ lit <+: sub) : ¬ sub <+: lit ++ rest := by
  intro hpre
  rcases List.prefix_or_prefix_of_prefix hpre (List.prefix_append lit rest) with hin | hin
  · exact h hin
  · exact h' hin

theorem no_tag_behind {sub : List UInt8} (h : 35 ∉ line) (hsub : ¬ sub <+: line) : ¬ 35 :: sub <:+: 35 :: line := by
  rw [List.infix_cons_iff]
  rintro (hpre | hin)
  · exact hsub (List.cons_prefix_cons.mp hpre).2
  · exact h (hin.subset (by simp))

theorem substr_not {sub : List UInt8} (h : 35 ∉ line) (hsub : ¬ sub <+: line) :
    lineSubstr (35 :: line) (35 :: sub) = none := by
  rw [line_substr_tag h, if_neg hsub]

theorem substr_first {sub rest : List UInt8} (h : 35 ∉ sub ++ rest) :
    lineSubstr (35 :: (sub ++ rest)) (35 :: sub) = some rest := by
  rw [line_substr_tag h, if_pos (List.prefix_append _ _), List.drop_left]

theorem decimal_plain {n : Nat} {b : UInt8} (h : b ∈ decimal n) : b ∉ [newline, space, 35] := by
  intro hm
  have hge := (decimal_digits h).1
  simp only [List.mem_cons, List.not_mem_nil, or_false] at hm
  rcases hm with rfl | rfl | rfl <;> exact absurd hge (by decide)

/-- A tag and a value behind it: nothing of the value is taken for a line or a tag. -/
structure Tagged (tag value line : List UInt8) : Prop where
  clear : Clear line
  single : 35 ∉ tag ++ value
  split : line = 35 :: (tag ++ value)

theorem tagged {tag value : List UInt8} (ht : ∀ b ∈ tag, b ∉ [newline, space, 35])
    (hv : ∀ b ∈ value, b ∉ [newline, space, 35]) : Tagged tag value (35 :: (tag ++ value)) := by
  have hboth : ∀ b ∈ tag ++ value, b ∉ [newline, space, 35] := by
    intro b hb
    exact (List.mem_append.mp hb).elim (ht b) (hv b)
  refine ⟨⟨by simp, ?_, by simp [space]⟩, fun hm => hboth _ hm (by decide), rfl⟩
  rintro (_ | ⟨_, hm⟩)
  exact hboth _ hm (by decide)

theorem tagged_sequence (n : Nat) : Tagged (ascii "EXT-X-MEDIA-SEQUENCE:") (decimal n)
    (ascii "#EXT-X-MEDIA-SEQUENCE:" ++ decimal n) :=
  tagged (by simp [ascii, newline, space]) fun _ => decimal_plain

theorem tagged_target (x : Fixed) : Tagged (ascii "EXT-X-TARGETDURATION:") x.text
    (ascii "#EXT-X-TARGETDURATION:" ++ x.text) :=
  tagged (by simp [ascii, newline, space]) fun _ => fixed_plain

theorem tag_sequence {n : Nat} (hn : n < 2 ^ 32) (read : Read) :
    read.readTag (ascii "#EXT-X-MEDIA-SEQUENCE:" ++ decimal n) = { read with mediaSequence := n } := by
  have hsingle := (tagged_sequence n).single
  have hnot : ∀ sub, ¬ sub <+: ascii "EXT-X-MEDIA-SEQUENCE:" → ¬ ascii "EXT-X-MEDIA-SEQUENCE:" <+: sub →
      lineSubstr (ascii "#EXT-X-MEDIA-SEQUENCE:" ++ decimal n) (35 :: sub) = none :=
    fun sub h h' => substr_not hsingle (not_prefix_lit h h')
  have hvalue : lineSubstr (ascii "#EXT-X-MEDIA-SEQUENCE:" ++ decimal n) (ascii "#EXT-X-MEDIA-SEQUENCE:") =
      some (decimal n) := substr_first hsingle
  have hof : ofInt (rnsAtoi (decimal n)) = n := by
    rw [atoi_decimal, ofInt]
    omega
  have hnone : ∀ tag ∈ [ascii "#EXT-X-TARGETDURATION:", ascii "#EXT-X-DISCONTINUITY:", ascii "#EXT-X-VERSION:"],
      lineSubstr (ascii "#EXT-X-MEDIA-SEQUENCE:" ++ decimal n) tag = none := by
    intro tag hm
    simp only [List.mem_cons, List.not_mem_nil, or_false] at hm
    rcases hm with rfl | rfl | rfl
    · exact hnot (ascii "EXT-X-TARGETDURATION:") (by decide) (by decide)
    · exact hnot (ascii "EXT-X-DISCONTINUITY:") (by decide) (by decide)
    · exact hnot (ascii "EXT-X-VERSION:") (by decide) (by decide)
  simp only [Read.readTag, hnone, List.mem_cons, true_or, or_true, hvalue, hof]

theorem tag_target (x : Fixed) (read : Read) :
    read.readTag (ascii "#EXT-X-TARGETDURATION:" ++ x.text) = { read with maxDuration := x.text } := by
  have hvalue : lineSubstr (ascii "#EXT-X-TARGETDURATION:" ++ x.text) (ascii "#EXT-X-TARGETDURATION:") =
      some x.text := substr_first (tagged_target x).single
  rw [Read.readTag, hvalue]

theorem tag_endlist (read : Read) : read.readTag (ascii "#EXT-X-ENDLIST") = { read with ending := true } := by
  have hnone : ∀ tag ∈ [ascii "#EXT-X-TARGETDURATION:", ascii "#EXT-X-DISCONTINUITY:", ascii "#EXT-X-VERSION:",
      ascii "#EXT-X-MEDIA-SEQUENCE:"], lineSubstr (ascii "#EXT-X-ENDLIST") tag = none := by
    intro tag hm
    simp only [List.mem_cons, List.not_mem_nil, or_false] at hm
    rcases hm with rfl | rfl | rfl | rfl <;> decide
  have hvalue : lineSubstr (ascii "#EXT-X-ENDLIST") (ascii "#EXT-X-ENDLIST") = some [] := by decide
  simp only [Read.readTag, hnone, List.mem_cons, true_or, or_true, hvalue]

/-- What the lines in front of the segments leave. -/
def MediaM3u8.head (m3u8 : MediaM3u8) : Read := ⟨m3u8.maxDuration.text, false, 3, m3u8.mediaSequence, [], false⟩

theorem read_head (he : ends = [] ∨ ends = [newline]) (m3u8 : MediaM3u8) :
    readLines segSize (rounds + 4) (following m3u8.lines ends) ⟨[], false, 0, 0, [], false⟩ =
      readLines segSize rounds (following (m3u8.seg.flatMap MediaSeg.lines ++
        (if m3u8.ending then [ascii "#EXT-X-ENDLIST"] else [])) ends) m3u8.head := by
  have hclear : ∀ line ∈ [ascii "#EXTM3U", ascii "#EXT-X-VERSION:3"], Clear line := by
    intro line hm
    simp only [List.mem_cons, List.not_mem_nil, or_false] at hm
    rcases hm with rfl | rfl <;> exact ⟨by decide, by decide, by decide⟩
  have hversion : ascii "#EXT-X-VERSION:" ++ decimal m3u8Version = ascii "#EXT-X-VERSION:3" := by decide
  have hsequence := tagged_sequence m3u8.mediaSequence
  have htarget := tagged_target m3u8.maxDuration
  have hdigits : (decimal m3u8.mediaSequence).length ≤ 10 :=
    decimal_length (by decide) (m3u8.sequence.trans (by decide))
  have hnarrow := m3u8.narrow
  have hnot : ∀ {tag value line}, Tagged tag value line → ¬ ascii "EXTINF:" <+: tag → ¬ tag <+: ascii "EXTINF:" →
      lineSubstr line (ascii "#EXTINF:") = none := by
    rintro tag value line h hsub hsub'
    rw [h.split]
    exact substr_not h.single (not_prefix_lit hsub hsub')
  have hread : Read.readTag ⟨[], false, 0, 0, [], false⟩ (ascii "#EXTM3U") = ⟨[], false, 0, 0, [], false⟩ := by decide
  have hread3 : Read.readTag ⟨[], false, 0, 0, [], false⟩ (ascii "#EXT-X-VERSION:3") =
      ⟨[], false, 3, 0, [], false⟩ := by decide
  simp only [MediaM3u8.lines, List.cons_append, List.nil_append, hversion]
  rw [read_tag he (hclear _ (by simp)) (by decide) (by decide), hread,
    read_tag he (hclear _ (by simp)) (by decide) (by decide), hread3,
    read_tag he hsequence.clear ?_ (hnot hsequence (by decide) (by decide)), tag_sequence m3u8.sequence,
    read_tag he htarget.clear ?_ (hnot htarget (by decide) (by decide)), tag_target]
  · rfl
  · simp [ascii]
    omega
  · simp [ascii]
    omega

/-- The reader comes to the end with what was written, unless a duration does not fit. -/
theorem read_lines (he : ends = [] ∨ ends = [newline]) {m3u8 : MediaM3u8} (h : ∀ seg ∈ m3u8.seg, Plain seg.uri)
    (hcount : m3u8.seg.length ≤ segSize) :
    readLines segSize (m3u8.seg.length + (rounds + 2) + 4) (following m3u8.lines ends)
        ⟨[], false, 0, 0, [], false⟩ =
      if ∀ seg ∈ m3u8.seg, seg.timeLen.text.length ≤ 246 then
        some { m3u8.head with seg := m3u8.seg.map MediaSeg.read, ending := m3u8.ending }
      else none := by
  rw [read_head he]
  by_cases hfit : ∀ seg ∈ m3u8.seg, seg.timeLen.text.length ≤ 246
  · rw [if_pos hfit, read_segs he h hfit (by simpa [MediaM3u8.head] using hcount)]
    cases hending : m3u8.ending with
    | false =>
      simp only [readLines, Bool.false_eq_true, if_false, get_ends he]
      rfl
    | true =>
      have hclear : Clear (ascii "#EXT-X-ENDLIST") := ⟨by decide, by decide, by decide⟩
      rw [if_pos rfl, read_tag he hclear (by decide) (by decide)]
      simp only [readLines, get_ends he, tag_endlist]
      rfl
  · rw [if_neg hfit]
    apply read_segs_overrun he h
    simpa using hfit

theorem count_lines (he : ends = [] ∨ ends = [newline]) {m3u8 : MediaM3u8} (h : ∀ seg ∈ m3u8.seg, Plain seg.uri) :
    countSegs (m3u8.seg.length + rounds) (following m3u8.lines ends) = m3u8.seg.length := by
  have hcount : ∀ {rounds line lines}, ¬ ascii "#EXTINF:" <:+: line →
      countSegs rounds (following (line :: lines) ends) = countSegs rounds (following lines ends) := by
    intro rounds line lines hnot
    rw [following_cons, count_newline, count_line he hnot]
  have hnot : ∀ {tag value line}, Tagged tag value line → ¬ ascii "EXTINF:" <+: tag → ¬ tag <+: ascii "EXTINF:" →
      ¬ ascii "#EXTINF:" <:+: line := by
    rintro tag value line h hsub hsub'
    rw [h.split]
    exact no_tag_behind h.single (not_prefix_lit hsub hsub')
  have hnil : ∀ rounds, countSegs rounds (following [] ends) = 0 := by
    intro rounds
    rcases he with rfl | rfl <;> cases rounds <;> rfl
  simp only [MediaM3u8.lines, List.cons_append, List.nil_append]
  rw [hcount (by decide), hcount (by decide), hcount (hnot (tagged_sequence _) (by decide) (by decide)),
    hcount (hnot (tagged_target _) (by decide) (by decide)), count_segs he h]
  cases m3u8.ending with
  | false => simp only [Bool.false_eq_true, if_false, hnil, Nat.add_zero]
  | true => rw [if_pos rfl, hcount (by decide), hnil, Nat.add_zero]

theorem following_length (ends : List UInt8) {n : Nat} (h : ∀ line ∈ lines, line ≠ []) (hn : lines.length = n) :
    2 * n ≤ (following lines ends).length := by
  subst hn
  induction lines with
  | nil => simp
  | cons line lines ih =>
    have hline := List.length_pos_iff.mpr (h line (by simp))
    have hlines := ih fun line hm => h line (List.mem_cons_of_mem _ hm)
    rw [following_cons, List.length_cons, List.length_cons, List.length_append]
    omega

theorem lines_nonempty {m3u8 : MediaM3u8} (h : ∀ seg ∈ m3u8.seg, Plain seg.uri) :
    ∀ line ∈ m3u8.lines, line ≠ [] := by
  intro line hm
  simp only [MediaM3u8.lines, List.mem_append, List.mem_cons, List.not_mem_nil, or_false, List.mem_flatMap] at hm
  rcases hm with (hm | ⟨seg, hseg, hm⟩) | hm
  · rcases hm with rfl | rfl | rfl | rfl <;> simp [ascii]
  · simp only [MediaSeg.lines, List.mem_cons, List.not_mem_nil, or_false] at hm
    rcases hm with rfl | rfl
    · exact (extinf_clear _).nonempty
    · exact (h seg hseg).nonempty
  · split at hm
    · obtain rfl : line = _ := List.mem_singleton.mp hm
      decide
    · simp at hm

theorem lines_length (m3u8 : MediaM3u8) : m3u8.seg.length + 4 ≤ m3u8.lines.length := by
  have hsegs : ∀ segs : List MediaSeg, (segs.flatMap MediaSeg.lines).length = 2 * segs.length := by
    intro segs
    induction segs with
    | nil => rfl
    | cons seg segs ih =>
      rw [List.flatMap_cons, List.length_append, ih, List.length_cons, MediaSeg.lines]
      simp only [List.length_cons, List.length_nil]
      omega
  simp only [MediaM3u8.lines, List.length_append, hsegs, List.length_cons, List.length_nil]
  omega

end Read

/-- The reader finds everything but the durations as it was, or leaves the buffer of a line. -/
theorem read_written {m3u8 : MediaM3u8} {size : Nat} (h : ∀ seg ∈ m3u8.seg, Plain seg.uri) (hfits : m3u8.Fits size) :
    m3u8Read (m3u8Write m3u8 size) =
      if ∀ seg ∈ m3u8.seg, seg.timeLen.text.length ≤ 246 then
        some { m3u8.head with seg := m3u8.seg.map MediaSeg.read, ending := m3u8.ending }
      else none := by
  obtain ⟨ends, he, hwrite⟩ := write_following hfits
  have hlength := following_length ends (lines_nonempty h) rfl
  have hlines := lines_length m3u8
  rw [← hwrite, List.length_cons] at hlength
  obtain ⟨rounds, hrounds⟩ : ∃ rounds, (m3u8Write m3u8 size).length + 1 = m3u8.seg.length + (rounds + 2) + 4 :=
    ⟨(m3u8Write m3u8 size).length - m3u8.seg.length - 5, by omega⟩
  have hcount : countSegs ((m3u8Write m3u8 size).length + 1) (m3u8Write m3u8 size) = m3u8.seg.length := by
    rw [← count_newline, hwrite, hrounds, Nat.add_assoc, count_lines he h]
  rw [m3u8Read, hcount, ← read_newline, hwrite, hrounds]
  simp only [read_lines he h (Nat.le_refl _)]
  split
  · simp
  · rfl

/-- A playlist of one segment that lasts for so many seconds. -/
def oneSeg (seconds : Nat) : MediaM3u8 :=
  ⟨.number false 10 0, 7, [⟨.number false seconds 0, ascii "a-frag7.ts"⟩], true, by decide, by decide⟩

end Yclib.Media.Hls
