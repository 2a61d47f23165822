import Yclib.Media.Hls
import Yclib.Util.Looks

namespace Yclib.Media.Hls
open Http.Reading Looks

/-! What `m3u8_read` touches: the bytes that it looks at, the lines that it copies into `t_buf` and the segments
that it stores. -/

inductive Touch
  | look (start count : Nat)
  | line (len : Nat)
  | segment (i : Nat)
deriving DecidableEq

/-- How it ends; undefined behind a copy or a store that leaves its array, and where a NULL pointer is followed. -/
inductive Ending
  | read
  | undefined
deriving DecidableEq

def blank (b : UInt8) : Bool := b = newline || b = space

/-- The length of the line that `get_line` comes to. -/
def lineLen (walker : List UInt8) : Nat := ((walker.dropWhile blank).takeWhile (· ≠ newline)).length

/-- `get_line` looks at a byte before it asks whether it is at the end, so it looks at the one behind the line
too. The walker is the rest of the buffer. -/
def lineLook (size : Nat) (walker : List UInt8) : Touch :=
  .look (size - walker.length) ((walker.takeWhile blank).length + lineLen walker + 1)

/-- The first loop, of a buffer and the memory behind it: what is looked at, and the number of segments. -/
def countTouches (size : Nat) (behind walker : List UInt8) : List Touch × Nat :=
  if walker = [] then ([], 0)
  else
    let look := Touch.look (size - walker.length) (searched (ascii "#EXTINF:") (walker ++ behind))
    match rnsStrstr (ascii "#EXTINF:") (cString (walker ++ behind)) with
    | none => ([look], 0)
    | some start =>
      let rest := countTouches size behind (walker.drop (start + 8))
      (look :: rest.1, rest.2 + 1)
termination_by walker.length
decreasing_by
  have hpos := List.length_pos_iff.mpr ‹walker ≠ []›
  rw [List.length_drop]
  omega

theorem get_line_shorter {walker line rest : List UInt8} (h : getLine walker = .line line rest) :
    rest.length < walker.length := by
  simp only [getLine] at h
  split at h
  · cases h
  · split at h
    · cases h
    · rename_i hne _
      obtain ⟨rfl, rfl⟩ := Line.line.inj h
      have hpos := List.length_pos_iff.mpr hne
      have hstart := (List.dropWhile_suffix (fun b => b = newline || b = space) (l := walker)).length_le
      have hbytes := (List.takeWhile_prefix (· ≠ newline)
        (l := walker.dropWhile fun b => b = newline || b = space)).length_le
      rw [List.length_drop]
      omega

/-- A line that `get_line` finds is looked at and copied. -/
def lineTouches (size : Nat) (walker : List UInt8) : List Touch := [lineLook size walker, .line (lineLen walker)]

/-- The second loop, from the walker on, with the number of segments that have been stored. -/
def readTouches (size segSize : Nat) (walker : List UInt8) (count : Nat) : List Touch × Ending :=
  if walker = [] then ([], .read)
  else
    match _ : getLine walker with
    | .none => ([lineLook size walker], .read)
    | .overrun => (lineTouches size walker, .undefined)
    | .line line rest =>
      if (lineSubstr (cString line) (ascii "#EXTINF:")).isSome then
        let stored := lineTouches size walker ++ [.segment count]
        if segSize ≤ count then (stored, .undefined)
        else
          match _ : getLine rest with
          | .none => (stored ++ [lineLook size rest], .undefined)
          | .overrun => (stored ++ lineTouches size rest, .undefined)
          | .line _ rest' =>
            let behind := readTouches size segSize rest' (count + 1)
            (stored ++ lineTouches size rest ++ behind.1, behind.2)
      else
        let behind := readTouches size segSize rest count
        (lineTouches size walker ++ behind.1, behind.2)
termination_by walker.length
decreasing_by
  · exact (get_line_shorter ‹_›).trans (get_line_shorter ‹_›)
  · exact get_line_shorter ‹_›

/-- What `m3u8_read` touches of a buffer with some memory behind it, how it ends, and the number of segments that
there is room for. -/
structure Reading where
  touches : List Touch
  ending : Ending
  segSize : Nat

def m3u8Reading (buf behind : List UInt8) : Reading :=
  let counted := countTouches buf.length behind buf
  let read := readTouches buf.length counted.2 buf 0
  ⟨counted.1 ++ read.1, read.2, counted.2⟩

/-- The reader comes to its end, looks at bytes of the buffer only, copies no line that `t_buf` does not take with
a NUL, and stores no segment behind the array. -/
structure ReadSafe (buf behind : List UInt8) : Prop where
  ends : (m3u8Reading buf behind).ending = .read
  looks : ∀ start count, .look start count ∈ (m3u8Reading buf behind).touches → start + count ≤ buf.length
  lines : ∀ len, .line len ∈ (m3u8Reading buf behind).touches → len < 256
  segments : ∀ i, .segment i ∈ (m3u8Reading buf behind).touches → i < (m3u8Reading buf behind).segSize

section
variable {size segSize : Nat} {walker line rest : List UInt8}

theorem get_line_split (h : getLine walker = .line line rest) : walker = walker.takeWhile blank ++ (line ++ rest) := by
  simp only [getLine] at h
  split at h
  · cases h
  · split at h
    · cases h
    · obtain ⟨rfl, rfl⟩ := Line.line.inj h
      have hblank := List.takeWhile_append_dropWhile (p := blank) (l := walker)
      have hline := List.prefix_iff_eq_append.mp (List.takeWhile_prefix (· ≠ newline) (l := walker.dropWhile blank))
      exact hblank.symm.trans (congrArg _ hline.symm)

/-- A line that is found has the length that is copied, and the walker is behind it. -/
theorem get_line_rest (h : getLine walker = .line line rest) : line.length = lineLen walker ∧ line.length < 256 ∧
    (walker.takeWhile blank).length + lineLen walker + rest.length = walker.length := by
  have hsplit := congrArg List.length (get_line_split h)
  rw [List.length_append, List.length_append] at hsplit
  simp only [getLine] at h
  split at h
  · cases h
  · split at h
    · cases h
    · rename_i hshort
      obtain ⟨rfl, rfl⟩ := Line.line.inj h
      refine ⟨rfl, Nat.not_le.mp hshort, ?_⟩
      unfold lineLen blank at *
      omega

/-- Without a line all of the rest is blank. -/
theorem get_line_none (h : getLine walker = .none) : (walker.takeWhile blank).length = walker.length := by
  simp only [getLine] at h
  split at h
  · rename_i hnil
    have hdrop : walker.dropWhile blank = [] := by
      by_contra hne
      obtain ⟨b, bs, hcons⟩ := List.exists_cons_of_ne_nil hne
      have hhead := List.head?_dropWhile_not blank walker
      have hb : b ≠ newline := by
        rw [hcons] at hhead
        rintro rfl
        simp [blank] at hhead
      unfold blank at hcons
      rw [hcons, List.takeWhile_cons_of_pos (by simpa using hb)] at hnil
      cases hnil
    have hsplit := congrArg List.length (List.takeWhile_append_dropWhile (p := blank) (l := walker))
    rwa [hdrop, List.append_nil] at hsplit
  · split at h <;> cases h

/-- A run that comes to its end has looked at the byte behind the buffer. -/
theorem read_looks_behind (hne : walker ≠ []) (hle : walker.length ≤ size) (count : Nat)
    (hends : (readTouches size segSize walker count).2 = .read) :
    ∃ start n, .look start n ∈ (readTouches size segSize walker count).1 ∧ size < start + n := by
  induction hn : walker.length using Nat.strong_induction_on generalizing walker count with
  | _ n ih =>
    subst hn
    have hlast : ∀ {rest : List UInt8}, rest.length ≤ size →
        (rest.takeWhile blank).length + lineLen rest = rest.length →
        ∃ start n, lineLook size rest = .look start n ∧ size < start + n := by
      intro rest hle hall
      exact ⟨_, _, rfl, by omega⟩
    revert hends
    rw [readTouches, if_neg hne]
    split
    · rename_i hline
      intro _
      have hall := get_line_none hline
      exact ⟨_, _, List.mem_cons_self, by omega⟩
    · intro hends
      cases hends
    · rename_i line rest hline
      obtain ⟨-, -, hrest⟩ := get_line_rest hline
      have hshort := get_line_shorter hline
      split
      · dsimp only
        split
        · intro hends
          cases hends
        · split
          · intro hends
            cases hends
          · intro hends
            cases hends
          · rename_i uri rest' huri
            obtain ⟨-, -, hrest'⟩ := get_line_rest huri
            have hshort' := get_line_shorter huri
            intro hends
            by_cases hnil : rest' = []
            · rw [hnil, List.length_nil] at hrest'
              obtain ⟨start, n, hlook, hlt⟩ := hlast (by omega) hrest'
              exact ⟨start, n, by simp [lineTouches, hlook], hlt⟩
            · obtain ⟨start, n, hlook, hlt⟩ := ih rest'.length (by omega) hnil (by omega) _ hends rfl
              exact ⟨start, n, List.mem_append_right _ hlook, hlt⟩
      · dsimp only
        intro hends
        by_cases hnil : rest = []
        · rw [hnil, List.length_nil] at hrest
          obtain ⟨start, n, hlook, hlt⟩ := hlast hle hrest
          exact ⟨start, n, by simp [lineTouches, hlook], hlt⟩
        · obtain ⟨start, n, hlook, hlt⟩ := ih rest.length (by omega) hnil (by omega) _ hends rfl
          exact ⟨start, n, List.mem_append_right _ hlook, hlt⟩

theorem tag_seg (read : Read) (line : List UInt8) : (read.readTag line).seg = read.seg := by
  rw [Read.readTag]
  repeat' split
  all_goals rfl

/-- Of a string the run ends well where `m3u8_read` has a result. -/
theorem read_ends_iff {rounds : Nat} {read : Read} (hnul : 0 ∉ walker) (hrounds : walker.length < rounds) :
    (readTouches size segSize walker read.seg.length).2 = .read ↔ (readLines segSize rounds walker read).isSome := by
  induction rounds generalizing walker read with
  | zero => omega
  | succ rounds ih =>
    by_cases hne : walker = []
    · subst hne
      simp [readTouches, readLines, getLine]
    rw [readTouches, if_neg hne, readLines]
    split
    · rename_i hline
      rw [hline]
      simp
    · rename_i hline
      rw [hline]
      simp
    · rename_i line rest hline
      have hshort := get_line_shorter hline
      have hsplit := get_line_split hline
      have hrest : 0 ∉ rest := fun hm => hnul (hsplit ▸ by simp [hm])
      have hplain : cString line = line := c_string_plain fun hm => hnul (hsplit ▸ by simp [hm])
      rw [hline, hplain]
      dsimp only
      cases hvalue : lineSubstr line (ascii "#EXTINF:") with
      | none =>
        have hnext := @ih rest (read.readTag line) hrest (by omega)
        rw [tag_seg] at hnext
        simpa using hnext
      | some value =>
        simp only [Option.isSome_some, if_true]
        by_cases hroom : segSize ≤ read.seg.length
        · rw [if_pos hroom]
          refine iff_of_false Ending.noConfusion ?_
          split
          · simp
          · simp
          · rw [if_neg (Nat.not_lt.mpr hroom)]
            simp
        · rw [if_neg hroom]
          split
          · rename_i huri
            rw [huri]
            simp
          · rename_i huri
            rw [huri]
            simp
          · rename_i uri rest' huri
            have hshort' := get_line_shorter huri
            have hrest' : 0 ∉ rest' := fun hm => hrest (get_line_split huri ▸ by simp [hm])
            have hnext := @ih rest' { read with seg := read.seg ++ [(value, uri)] } hrest' (by omega)
            rw [huri]
            simp only [if_pos (Nat.not_le.mp hroom)]
            rw [← hnext, List.length_append, List.length_singleton]

/-- Of a string the first loop counts the segments that `m3u8_read` counts. -/
theorem count_touches {rounds : Nat} (behind : List UInt8) (hnul : 0 ∉ walker) (hrounds : walker.length < rounds) :
    (countTouches size (0 :: behind) walker).2 = countSegs rounds walker := by
  induction rounds generalizing walker with
  | zero => omega
  | succ rounds ih =>
    rw [countTouches, countSegs, c_string_nul hnul]
    by_cases hne : walker = []
    · subst hne
      rfl
    · rw [if_neg hne]
      cases hfound : rnsStrstr (ascii "#EXTINF:") walker with
      | none => rfl
      | some start =>
        have hpos := List.length_pos_iff.mpr hne
        have hlen : (ascii "#EXTINF:").length = 8 := rfl
        have hrest : 0 ∉ walker.drop (start + 8) := fun hm => hnul (List.mem_of_mem_drop hm)
        simp only [hlen]
        rw [ih hrest (by rw [List.length_drop]; omega)]

end

/-- The runs over strings that end well are those for which there is a result. -/
theorem reading_ends_iff {buf : List UInt8} (behind : List UInt8) (hnul : 0 ∉ buf) :
    (m3u8Reading buf (0 :: behind)).ending = .read ↔ (m3u8Read buf).isSome := by
  simp only [m3u8Reading, m3u8Read, Option.isSome_map]
  rw [count_touches behind hnul (Nat.lt_succ_self _)]
  exact @read_ends_iff buf.length _ buf _ ⟨[], false, 0, 0, [], false⟩ hnul (Nat.lt_succ_self _)

/-- Whatever is in a buffer, the reader looks at the byte behind it. -/
theorem m3u8_read_safe_iff (buf behind : List UInt8) : ReadSafe buf behind ↔ buf = [] := by
  constructor
  · intro h
    by_contra hne
    obtain ⟨start, n, hlook, hlt⟩ := read_looks_behind hne (Nat.le_refl _) 0 h.ends
    have hle := h.looks start n (List.mem_append_right _ hlook)
    omega
  · rintro rfl
    have hreading : m3u8Reading [] behind = ⟨[], .read, 0⟩ := by
      simp [m3u8Reading, countTouches, readTouches]
    constructor
    · rw [hreading]
    · rw [hreading]
      simp
    · rw [hreading]
      simp
    · rw [hreading]
      simp

/-- A newline with a NUL behind it. -/
theorem newline_unsafe : ¬ ReadSafe [newline] [0] := by
  intro h
  have hlook : Touch.look 0 2 ∈ (m3u8Reading [newline] [0]).touches := by
    simp [m3u8Reading, countTouches, readTouches, getLine, lineLook, lineLen, blank, newline]
  exact absurd (h.looks 0 2 hlook) (by decide)

end Yclib.Media.Hls
