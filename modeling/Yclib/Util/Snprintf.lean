import Yclib.Util.Network

namespace Yclib.Snprintf

/-! Texts that are printed one behind the other into one buffer, where a `uint32_t` adds up what
`snprintf` returns and the room left is what the size of the buffer is more. -/

/-- The buffer, the sum, and the texts written: where each begins and how many bytes of it are there,
behind which is the NUL. -/
structure Printed where
  mem : Mem
  sum : Nat
  writes : List (Nat × Nat)

/-- A buffer that has been cleared. -/
def Printed.empty : Printed := ⟨fun _ => 0, 0, []⟩

/-- What `snprintf` returns for a text, as a `uint32_t`: -1 where an `int` cannot hold its length. -/
def returned (text : List UInt8) : Nat := if text.length < 2 ^ 31 then text.length else 2 ^ 32 - 1

/-- The memory with a text and its NUL. -/
def putText (m : Mem) (w : Nat) (text : List UInt8) : Mem := fun i =>
  if i < w ∨ w + text.length < i then m i else text.getD (i - w) 0

/-- `sum += snprintf(buf + sum, size - sum, ..)`. -/
def snprintf (size : Nat) (s : Printed) (text : List UInt8) : Printed :=
  let room := u32Sub size s.sum
  if room = 0 then { s with sum := u32 (s.sum + returned text) }
  else
    { mem := putText s.mem s.sum (text.take (room - 1))
      sum := u32 (s.sum + returned text)
      writes := s.writes ++ [(s.sum, (text.take (room - 1)).length)] }

def Printed.written (s : Printed) : Nat := (s.writes.map Prod.snd).sum

/-- Every text is in the buffer with its NUL. -/
def Inside (size : Nat) (s : Printed) : Prop := ∀ write ∈ s.writes, write.1 + write.2 + 1 ≤ size

/-- All writes are inside, and the sum is what has been written. -/
structure Right (size : Nat) (s : Printed) : Prop where
  inside : Inside size s
  sum : s.sum = s.written

/-- These bytes have been printed as a whole. -/
structure Holding (size : Nat) (s : Printed) (bytes : List UInt8) : Prop extends Right size s where
  length : s.sum = bytes.length
  holds : Holds s.mem 0 bytes

section
variable {size : Nat} {s : Printed} {text bytes : List UInt8} {texts : List (List UInt8)}

theorem empty_holding : Holding size .empty [] :=
  ⟨⟨fun _ h => absurd h List.not_mem_nil, rfl⟩, rfl, holds_nil _ _⟩

theorem put_holds (m : Mem) (w : Nat) (text : List UInt8) : Holds (putText m w text) w text := by
  intro i hi
  rw [putText, if_neg (by omega), Nat.add_sub_cancel_left]
  simp [hi]

theorem put_frame {m : Mem} {w : Nat} (h : Holds m 0 bytes) (hw : bytes.length ≤ w) :
    Holds (putText m w text) 0 bytes := by
  intro i hi
  rw [putText, if_pos (by omega)]
  exact h i hi

/-- A text that there is room for is printed behind the others. -/
theorem snprintf_holding (hsize : size < 2 ^ 31) (h : Holding size s bytes)
    (hroom : bytes.length + text.length < size) : Holding size (snprintf size s text) (bytes ++ text) := by
  have hlength := h.length
  have hleft : u32Sub size s.sum = size - bytes.length := by
    rw [hlength, u32_sub_of_le (by omega) (by omega)]
  have htake : text.take (size - bytes.length - 1) = text := List.take_of_length_le (by omega)
  have hreturned : returned text = text.length := if_pos (by omega)
  rw [snprintf, hleft, if_neg (by omega), htake, hreturned, hlength, u32_of_lt (by omega)]
  refine ⟨⟨?_, ?_⟩, ?_, ?_⟩
  · intro write hm
    rw [List.mem_append, List.mem_singleton] at hm
    rcases hm with hm | rfl
    · exact h.inside write hm
    · simp only
      omega
  · have hwritten := h.sum
    rw [hlength, Printed.written] at hwritten
    simp [Printed.written, ← hwritten]
  · rw [List.length_append]
  · rw [holds_append, Nat.zero_add]
    exact ⟨put_frame h.holds (le_refl _), put_holds _ _ _⟩

/-- Texts that there is room for are printed as a whole. -/
theorem texts_holding (hsize : size < 2 ^ 31) (h : Holding size s bytes)
    (hroom : bytes.length + texts.flatten.length < size) :
    Holding size (texts.foldl (snprintf size) s) (bytes ++ texts.flatten) := by
  induction texts generalizing s bytes with
  | nil => simpa using h
  | cons text texts ih =>
    rw [List.flatten_cons, List.length_append] at hroom
    rw [List.foldl_cons, List.flatten_cons, ← List.append_assoc]
    exact ih (snprintf_holding hsize h (by omega)) (by rw [List.length_append]; omega)

/-- What has been written stays written. -/
theorem snprintf_writes (size : Nat) (s : Printed) (text : List UInt8) :
    s.writes <+: (snprintf size s text).writes := by
  rw [snprintf]
  split
  · exact List.prefix_rfl
  · exact List.prefix_append _ _

theorem texts_inside (h : Inside size (texts.foldl (snprintf size) s)) : Inside size s := by
  induction texts generalizing s with
  | nil => exact h
  | cons text texts ih =>
    have hnext := ih h
    intro write hm
    exact hnext write ((snprintf_writes size s text).subset hm)

/-- Where the sum is more than the size, the next text is written outside. -/
theorem past_outside (hsum : size < s.sum) (hlt : s.sum < 2 ^ 32) (hsize : size < 2 ^ 31) (htexts : texts ≠ []) :
    ¬ Inside size (texts.foldl (snprintf size) s) := by
  obtain ⟨text, texts, rfl⟩ := List.exists_cons_of_ne_nil htexts
  intro h
  have hnext : Inside size (snprintf size s text) := texts_inside h
  have hroom : u32Sub size s.sum ≠ 0 := by
    unfold u32Sub
    omega
  rw [snprintf, if_neg hroom] at hnext
  have hlast := hnext _ (List.mem_append_right _ (List.mem_singleton_self _))
  simp only at hlast
  omega

/-- No text is empty, and `snprintf` can return the length of each. -/
def Plain (texts : List (List UInt8)) : Prop := ∀ text ∈ texts, text ≠ [] ∧ text.length < 2 ^ 31

/-- Once a text has been cut, the sum is not what has been written, or a later text is outside. -/
theorem full_wrong (hsize : size < 2 ^ 31) (hsum : size ≤ s.sum) (hlt : s.sum < 2 ^ 31 + size)
    (hwritten : s.written < size) (htexts : Plain texts) : ¬ Right size (texts.foldl (snprintf size) s) := by
  rcases texts with _ | ⟨text, texts⟩
  · intro h
    have heq : s.sum = s.written := h.sum
    omega
  rcases Nat.eq_or_lt_of_le hsum with heq | hlonger
  · -- there is no room at all, so the text is not written
    obtain ⟨hne, hshort⟩ := htexts text (List.mem_cons_self ..)
    have hpos := List.length_pos_of_ne_nil hne
    have hreturned : returned text = text.length := if_pos hshort
    have hnext : snprintf size s text = { s with sum := s.sum + text.length } := by
      rw [snprintf, if_pos (by unfold u32Sub; omega), hreturned, u32_of_lt (by omega)]
    rw [List.foldl_cons, hnext]
    intro h
    rcases texts with _ | ⟨text', texts⟩
    · have hsame : s.sum + text.length = s.written := h.sum
      omega
    · refine past_outside ?_ ?_ hsize (List.cons_ne_nil text' texts) h.inside
      · simp only
        omega
      · simp only
        omega
  · intro h
    exact past_outside hlonger (by omega) hsize (List.cons_ne_nil text texts) h.inside

/-- Texts that there is no room for. -/
theorem texts_wrong (hsize : size < 2 ^ 31) (h : Holding size s bytes) (hbytes : bytes.length < size)
    (htexts : Plain texts) (hroom : size ≤ bytes.length + texts.flatten.length) :
    ¬ Right size (texts.foldl (snprintf size) s) := by
  induction texts generalizing s bytes with
  | nil =>
    rw [List.flatten_nil, List.length_nil] at hroom
    omega
  | cons text texts ih =>
    obtain ⟨-, hshort⟩ := htexts text (List.mem_cons_self ..)
    have hrest : Plain texts := fun text' hm => htexts text' (List.mem_cons_of_mem _ hm)
    rw [List.flatten_cons, List.length_append] at hroom
    rw [List.foldl_cons]
    by_cases hfits : bytes.length + text.length < size
    · exact ih (snprintf_holding hsize h hfits) (by rwa [List.length_append]) hrest
        (by rw [List.length_append]; omega)
    · have hlength := h.length
      have hleft : u32Sub size s.sum = size - bytes.length := by
        rw [hlength, u32_sub_of_le (by omega) (by omega)]
      have hreturned : returned text = text.length := if_pos hshort
      have hwritten := h.sum
      rw [Printed.written] at hwritten
      refine full_wrong hsize ?_ ?_ ?_ hrest
      · rw [snprintf, hleft, if_neg (by omega), hreturned, u32_of_lt (by omega)]
        simp only
        omega
      · rw [snprintf, hleft, if_neg (by omega), hreturned, u32_of_lt (by omega)]
        simp only
        omega
      · rw [snprintf, hleft, if_neg (by omega)]
        simp only [Printed.written, List.map_append, List.map_cons, List.map_nil, List.sum_append,
          List.sum_singleton, List.length_take]
        omega

/-- The texts are printed right if and only if there is room for them. -/
theorem texts_right (hsize : size < 2 ^ 31) (hpos : 0 < size) (htexts : Plain texts) :
    Right size (texts.foldl (snprintf size) .empty) ↔ texts.flatten.length < size := by
  constructor
  · intro h
    by_contra hlong
    exact texts_wrong hsize empty_holding hpos htexts (by simpa using hlong) h
  · intro hroom
    exact (texts_holding hsize empty_holding (by simpa using hroom)).toRight

end

end Yclib.Snprintf
