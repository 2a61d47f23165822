import Yclib.Media.Hls

namespace Yclib.Media.Hls
open Http.Reading

/-! Where `m3u8_write` writes: the position behind the string in the buffer is an `int32_t`. -/

/-- The strings that `%s` prints of the arrays. -/
def MediaM3u8.strings (m3u8 : MediaM3u8) : MediaM3u8 :=
  { m3u8 with seg := m3u8.seg.map fun seg => { seg with uri := cString seg.uri } }

/-- One `snprintf` of `m3u8_write`. A position that is negative is in front of the buffer. There is no result
where bytes outside the buffer are written, the NUL among them. -/
def printLine (size : Nat) (buf line : List UInt8) : Option (List UInt8) :=
  let count := i32 buf.length
  let room := ((size - count - 1) % 2 ^ 32).toNat
  let written := if room = 0 then 0 else min line.length (room - 1) + 1
  if written ≠ 0 ∧ (count < 0 ∨ size < count + written) then none
  else some (buf ++ line.take (room - 1))

def printLines (size : Nat) (buf : List UInt8) : List (List UInt8) → Option (List UInt8)
  | [] => some buf
  | line :: lines => (printLine size buf (line ++ [newline])).bind fun buf => printLines size buf lines

/-- `m3u8_write` of a playlist in memory. -/
def m3u8WriteBuf (m3u8 : MediaM3u8) (size : Nat) : Option (List UInt8) := printLines size [] m3u8.strings.lines

def textOf (lines : List (List UInt8)) : List UInt8 := lines.flatMap (· ++ [newline])

/-- All writes are inside the buffer, the length that is returned is below its size, and the text is a prefix of
that of the playlist. -/
def WritesInside (m3u8 : MediaM3u8) (size : Nat) : Prop :=
  ∃ text, m3u8WriteBuf m3u8 size = some text ∧ text.length < size ∧ text <+: textOf m3u8.strings.lines

section
variable {size : Nat} {text line : List UInt8} {lines : List (List UInt8)}

/-- A line is cut off at the end of the buffer, as long as the position behind the string is not negative. -/
theorem print_line (h : 2 ≤ size) (hs : size < 2 ^ 32) (text line : List UInt8) :
    printLine size (text.take (size - 2)) line =
      if (text.take (size - 2)).length < 2 ^ 31 then some ((text ++ line).take (size - 2)) else none := by
  obtain ⟨buf, hbuf⟩ : ∃ buf, buf = text.take (size - 2) := ⟨_, rfl⟩
  have hlen : buf.length = min (size - 2) text.length := by rw [hbuf, List.length_take]
  have hpos : ¬ size - buf.length - 1 = 0 := by omega
  rw [← hbuf, printLine]
  by_cases hlt : buf.length < 2 ^ 31
  · have hcount : i32 buf.length = buf.length := i32_of_lt (by omega) (by omega)
    have hroom : ((size - (buf.length : Int) - 1) % 2 ^ 32).toNat = size - buf.length - 1 := by omega
    have hrest : size - buf.length - 1 - 1 = size - 2 - text.length := by omega
    simp only [hcount, hroom, if_neg hpos]
    rw [if_pos hlt, if_neg (by omega), hrest, hbuf, List.take_append]
  · have hcount : i32 buf.length = buf.length - 2 ^ 32 := i32_of_ge (by omega) (by omega)
    have hroom : ((size - ((buf.length : Int) - 2 ^ 32) - 1) % 2 ^ 32).toNat = size - buf.length - 1 := by omega
    simp only [hcount, hroom, if_neg hpos]
    rw [if_neg hlt, if_pos (by omega)]

/-- The position behind the string does not become less, so the last line decides. -/
theorem print_lines (h : 2 ≤ size) (hs : size < 2 ^ 32) (text line : List UInt8) (lines : List (List UInt8)) :
    printLines size (text.take (size - 2)) (line :: lines) =
      if ((text ++ textOf (line :: lines).dropLast).take (size - 2)).length < 2 ^ 31 then
        some ((text ++ textOf (line :: lines)).take (size - 2))
      else none := by
  induction lines generalizing text line with
  | nil =>
    rw [printLines, print_line h hs]
    split <;> simp_all [printLines, textOf]
  | cons next lines ih =>
    have hfront : textOf (line :: next :: lines).dropLast = (line ++ [newline]) ++ textOf (next :: lines).dropLast := by
      simp [textOf]
    have hwhole : textOf (line :: next :: lines) = (line ++ [newline]) ++ textOf (next :: lines) := by
      simp [textOf]
    rw [printLines, print_line h hs, hfront, hwhole, ← List.append_assoc, ← List.append_assoc]
    split
    · rw [Option.bind_some, ih]
      simp only [List.append_assoc]
    · rename_i hge
      rw [if_neg, Option.bind_none]
      simp only [List.length_take, List.length_append] at hge ⊢
      omega

end

theorem written_buf {m3u8 : MediaM3u8} {size : Nat} (h : 2 ≤ size) (hs : size < 2 ^ 32) :
    m3u8WriteBuf m3u8 size =
      if ((textOf m3u8.strings.lines.dropLast).take (size - 2)).length < 2 ^ 31 then
        some ((textOf m3u8.strings.lines).take (size - 2))
      else none := by
  obtain ⟨line, lines, hlines⟩ : ∃ line lines, m3u8.strings.lines = line :: lines := ⟨_, _, rfl⟩
  have hprint := print_lines h hs [] line lines
  rw [List.take_nil, List.nil_append, List.nil_append] at hprint
  rw [m3u8WriteBuf, hlines, hprint]

/-- The writes stay inside unless the last line begins two gigabytes behind the beginning of the buffer, where
its position is negative. -/
theorem writes_inside_iff (m3u8 : MediaM3u8) {size : Nat} (h : 2 ≤ size) (hs : size < 2 ^ 32) :
    WritesInside m3u8 size ↔ size < 2 ^ 31 + 2 ∨ (textOf m3u8.strings.lines.dropLast).length < 2 ^ 31 := by
  rw [WritesInside, written_buf h hs, List.length_take]
  by_cases hlt : min (size - 2) (textOf m3u8.strings.lines.dropLast).length < 2 ^ 31
  · rw [if_pos hlt]
    refine iff_of_true ⟨_, rfl, ?_, List.take_prefix _ _⟩ (by omega)
    rw [List.length_take]
    omega
  · rw [if_neg hlt]
    refine iff_of_false ?_ (by omega)
    rintro ⟨text, hsome, -⟩
    cases hsome

theorem writes_inside_ten : WritesInside (oneSeg 10) 1024 ↔
    1024 < 2 ^ 31 + 2 ∨ (textOf (oneSeg 10).strings.lines.dropLast).length < 2 ^ 31 :=
  writes_inside_iff (oneSeg 10) (by decide) (by decide)

theorem many_narrow : (Fixed.number false 10 0).text.length ≤ 47 := by decide

theorem many_sequence : 7 < 2 ^ 32 := by decide

/-- A playlist of so many segments, each with a name of 255 bytes. -/
def manySegs (n : Nat) : MediaM3u8 :=
  ⟨.number false 10 0, 7, List.replicate n ⟨.number false 10 0, List.replicate 255 97⟩, true, many_narrow, many_sequence⟩

theorem segs_length {seg : MediaSeg} (h : seg.uri.length = 255) (n : Nat) :
    n * 256 ≤ (textOf ((List.replicate n seg).flatMap MediaSeg.lines)).length := by
  induction n with
  | zero => exact Nat.le_of_eq (Nat.zero_mul 256)
  | succ n ih =>
    have hlines : 256 ≤ (textOf seg.lines).length := by
      simp only [textOf, MediaSeg.lines, List.flatMap_cons, List.flatMap_nil, List.length_append, h,
        List.length_singleton]
      omega
    have hsplit : textOf ((List.replicate (n + 1) seg).flatMap MediaSeg.lines) =
        textOf seg.lines ++ textOf ((List.replicate n seg).flatMap MediaSeg.lines) := by
      rw [List.replicate_succ, List.flatMap_cons]
      exact List.flatMap_append
    rw [hsplit, List.length_append, Nat.succ_mul, Nat.add_comm]
    exact Nat.add_le_add hlines ih

theorem many_length (n : Nat) : n * 256 ≤ (textOf (manySegs n).strings.lines.dropLast).length := by
  obtain ⟨seg, hseg⟩ : ∃ seg : MediaSeg, seg = ⟨.number false 10 0, List.replicate 255 97⟩ := ⟨_, rfl⟩
  have hlen : seg.uri.length = 255 := by
    rw [hseg]
    exact List.length_replicate
  have hname : cString seg.uri = seg.uri := by
    apply c_string_plain
    rw [hseg]
    intro hm
    exact absurd (List.eq_of_mem_replicate hm) (by decide)
  have hstrings : (manySegs n).strings.seg = List.replicate n seg := by
    simp only [MediaM3u8.strings, manySegs, ← hseg, List.map_replicate, hname]
  have hend : (manySegs n).strings.ending = true := rfl
  rw [MediaM3u8.lines, hend, if_pos rfl, List.dropLast_concat, hstrings, textOf, List.flatMap_append,
    List.length_append]
  exact (segs_length hlen n).trans (Nat.le_add_left _ _)

/-- 2^23 segments are more than the position of the last line can be. -/
theorem many_outside : ¬ WritesInside (manySegs (2 ^ 23)) (2 ^ 31 + 2) := by
  rw [WritesInside, written_buf (by decide) (by decide), if_neg]
  · rintro ⟨text, hsome, -⟩
    cases hsome
  · have hlong := many_length (2 ^ 23)
    rw [List.length_take]
    omega

end Yclib.Media.Hls
