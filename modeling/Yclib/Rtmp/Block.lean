import Yclib.Util.Network

namespace Yclib.Rtmp

/-- `RTMP_BLOCK_SIZE`. -/
def blockSize : Nat := 524288

/-- `offset & RTMP_BLOCK_MASK`: the mask clears what is below a block's size. -/
def blockAlign (offset : Nat) : Nat := offset / blockSize * blockSize

/-- Where a stream keeps its media: the blocks under their offsets, the number of
blocks `rns_mpool_alloc` has left to give, and the offset of the next byte. A
block's `len` is the length of its bytes. -/
structure Store where
  blocks : Nat → Option (List UInt8)
  avail : Nat
  offset : Nat

/-- One round of the copying loop of `rtmp_msg_payload`: as much of `bs` as the block
still holds goes into it; a missing block is allocated. Nothing is left to allocate
from in `none`. -/
def Store.fill (st : Store) (bs : List UInt8) : Option (Store × List UInt8) :=
  let align := blockAlign st.offset
  match st.blocks align with
  | none =>
    if st.avail = 0 then none
    else
      let len := min blockSize bs.length
      some (⟨Function.update st.blocks align (some (bs.take len)), st.avail - 1, st.offset + len⟩,
        bs.drop len)
  | some block =>
    let len := min (blockSize - block.length) bs.length
    some (⟨Function.update st.blocks align (some (block ++ bs.take len)), st.avail, st.offset + len⟩,
      bs.drop len)

/-- The copying loop, and what it could not copy. A round copies a byte at least while
the blocks are filled in order, so there are no more rounds than bytes. -/
def Store.copy : Nat → Store → List UInt8 → Store × List UInt8
  | 0, st, bs => (st, bs)
  | rounds + 1, st, bs =>
    if bs = [] then (st, bs)
    else match st.fill bs with
      | none => (st, bs)
      | some (st', rest) => Store.copy rounds st' rest

/-- The blocks are filled in order: the one the offset is in up to the offset, none
behind it. -/
structure Store.Level (st : Store) : Prop where
  here : ∀ b, st.blocks (blockAlign st.offset) = some b → b.length = st.offset - blockAlign st.offset
  first : st.blocks (blockAlign st.offset) = none → st.offset = blockAlign st.offset
  ahead : ∀ k, blockAlign st.offset < k → st.blocks k = none

/-- The bytes the store has room for. -/
def Store.space (st : Store) : Nat :=
  (if (st.blocks (blockAlign st.offset)).isSome then blockSize - (st.offset - blockAlign st.offset)
    else 0) + st.avail * blockSize

/-- One byte at the offset. -/
def Store.push (st : Store) (b : UInt8) : Store :=
  let align := blockAlign st.offset
  ⟨Function.update st.blocks align (some ((st.blocks align).getD [] ++ [b])),
    if (st.blocks align).isSome then st.avail else st.avail - 1, st.offset + 1⟩

/-- The byte at an offset, as `rtmp_msg_send` finds it. -/
def Store.byte (st : Store) (i : Nat) : Option UInt8 :=
  (st.blocks (blockAlign i)).bind (fun block => block[i - blockAlign i]?)

/-- The bytes from `off` on are those of the list. -/
def Store.Has (st : Store) (off : Nat) (bs : List UInt8) : Prop :=
  ∀ k, (h : k < bs.length) → st.byte (off + k) = some bs[k]

theorem align_le (n : Nat) : blockAlign n ≤ n := Nat.div_mul_le_self n blockSize

theorem lt_align (n : Nat) : n < blockAlign n + blockSize := by
  unfold blockAlign
  have := Nat.div_add_mod' n blockSize
  have := Nat.mod_lt n (show 0 < blockSize by decide)
  omega

theorem align_same {n k : Nat} (h : blockAlign n ≤ k) (hk : k < blockAlign n + blockSize) :
    blockAlign k = blockAlign n := by
  unfold blockAlign at *
  rw [Nat.div_eq_of_lt_le (k := n / blockSize) h]
  rw [Nat.succ_mul]
  exact hk

theorem align_next {n : Nat} (h : n + 1 = blockAlign n + blockSize) : blockAlign (n + 1) = n + 1 := by
  rw [h]
  unfold blockAlign
  rw [← Nat.succ_mul, Nat.mul_div_cancel _ (by decide)]

section
variable {st : Store}

/-- While there is room the byte is stored, and the blocks stay in order. -/
theorem push_level (hl : st.Level) (b : UInt8) : (st.push b).Level := by
  have hle := align_le st.offset
  have hlt := lt_align st.offset
  by_cases hnext : st.offset + 1 < blockAlign st.offset + blockSize
  · have hsame : blockAlign (st.offset + 1) = blockAlign st.offset :=
      align_same (by omega) hnext
    constructor
    · intro bs hbs
      simp only [Store.push, hsame, Function.update_self, Option.some.injEq] at hbs ⊢
      rw [← hbs]
      cases hblock : st.blocks (blockAlign st.offset) with
      | none =>
        have := hl.first hblock
        simp
        omega
      | some block =>
        have := hl.here block hblock
        simp
        omega
    · intro hnone
      simp [Store.push, hsame] at hnone
    · intro k hk
      simp only [Store.push, hsame] at hk ⊢
      rw [Function.update_of_ne (by omega)]
      exact hl.ahead k hk
  · have hsame : blockAlign (st.offset + 1) = st.offset + 1 := align_next (by omega)
    have hnone : (st.push b).blocks (st.offset + 1) = none := by
      simp only [Store.push]
      rw [Function.update_of_ne (by omega)]
      exact hl.ahead _ (by omega)
    constructor
    · intro bs hbs
      have hbs' : (st.push b).blocks (blockAlign (st.offset + 1)) = some bs := hbs
      rw [hsame, hnone] at hbs'
      cases hbs'
    · intro _
      exact hsame.symm
    · intro k hk
      have hk' : blockAlign (st.offset + 1) < k := hk
      simp only [Store.push]
      rw [Function.update_of_ne (by omega)]
      exact hl.ahead k (by omega)

theorem push_space (hl : st.Level) (b : UInt8) (h : 0 < st.space) :
    (st.push b).space = st.space - 1 := by
  have hle := align_le st.offset
  have hlt := lt_align st.offset
  have hsize : blockSize = 524288 := rfl
  have havail : st.blocks (blockAlign st.offset) = none → (st.avail - 1) * blockSize + blockSize =
      st.avail * blockSize := by
    intro hnone
    simp only [Store.space, hnone, Option.isSome_none, Bool.false_eq_true, if_false, Nat.zero_add] at h
    rw [← Nat.succ_mul, Nat.succ_eq_add_one, Nat.sub_add_cancel (Nat.pos_of_mul_pos_right h)]
  by_cases hnext : st.offset + 1 < blockAlign st.offset + blockSize
  · have hsame : blockAlign (st.offset + 1) = blockAlign st.offset :=
      align_same (by omega) hnext
    cases hblock : st.blocks (blockAlign st.offset) with
    | none =>
      have := hl.first hblock
      have := havail hblock
      simp only [Store.space, Store.push, hsame, Function.update_self, hblock, Option.isSome_some,
        Option.isSome_none, if_true, Bool.false_eq_true, if_false]
      omega
    | some block =>
      simp only [Store.space, Store.push, hsame, Function.update_self, hblock, Option.isSome_some,
        if_true]
      omega
  · have hsame : blockAlign (st.offset + 1) = st.offset + 1 := align_next (by omega)
    have hnone : Function.update st.blocks (blockAlign st.offset)
        (some ((st.blocks (blockAlign st.offset)).getD [] ++ [b])) (st.offset + 1) = none := by
      rw [Function.update_of_ne (by omega)]
      exact hl.ahead _ (by omega)
    cases hblock : st.blocks (blockAlign st.offset) with
    | none =>
      have := hl.first hblock
      omega
    | some block =>
      simp only [hblock] at hnone
      simp only [Store.space, Store.push, hsame, hblock, hnone, Option.isSome_some, Option.isSome_none,
        if_true, Bool.false_eq_true, if_false]
      omega

theorem pushes_level (hl : st.Level) (bs : List UInt8) : (bs.foldl Store.push st).Level := by
  induction bs generalizing st with
  | nil => exact hl
  | cons b bs ih => exact ih (push_level hl b)

theorem pushes_space (hl : st.Level) (bs : List UInt8) (h : bs.length ≤ st.space) :
    (bs.foldl Store.push st).space = st.space - bs.length := by
  induction bs generalizing st with
  | nil => rfl
  | cons b bs ih =>
    simp only [List.length_cons] at h
    have hone := push_space hl b (by omega)
    rw [List.foldl_cons, ih (push_level hl b) (by omega), hone, List.length_cons]
    omega

theorem pushes_offset (bs : List UInt8) :
    (bs.foldl Store.push st).offset = st.offset + bs.length := by
  induction bs generalizing st with
  | nil => rfl
  | cons b bs ih =>
    rw [List.foldl_cons, ih, List.length_cons]
    simp only [Store.push]
    omega

theorem fill_none {bs : List UInt8} {len : Nat} (hb : st.blocks (blockAlign st.offset) = none)
    (ha : st.avail ≠ 0) (hlen : min blockSize bs.length = len) :
    st.fill bs = some (⟨Function.update st.blocks (blockAlign st.offset) (some (bs.take len)),
      st.avail - 1, st.offset + len⟩, bs.drop len) := by
  subst hlen
  simp only [Store.fill, hb, if_neg ha]

theorem fill_some {bs block : List UInt8} {len : Nat}
    (hb : st.blocks (blockAlign st.offset) = some block)
    (hlen : min (blockSize - block.length) bs.length = len) :
    st.fill bs = some (⟨Function.update st.blocks (blockAlign st.offset)
      (some (block ++ bs.take len)), st.avail, st.offset + len⟩, bs.drop len) := by
  subst hlen
  simp only [Store.fill, hb]

theorem push_none {b : UInt8} (hb : st.blocks (blockAlign st.offset) = none) :
    st.push b = ⟨Function.update st.blocks (blockAlign st.offset) (some [b]), st.avail - 1,
      st.offset + 1⟩ := by
  simp [Store.push, hb]

theorem push_some {b : UInt8} {block : List UInt8}
    (hb : st.blocks (blockAlign st.offset) = some block) :
    st.push b = ⟨Function.update st.blocks (blockAlign st.offset) (some (block ++ [b])), st.avail,
      st.offset + 1⟩ := by
  simp [Store.push, hb]

/-- A round that does not end with its first byte is the round after that byte. -/
theorem fill_push (hl : st.Level) {b : UInt8} {bs : List UInt8} (hs : 0 < st.space) :
    st.fill (b :: bs) = some (st.push b, bs) ∨
      (bs ≠ [] ∧ 0 < (st.push b).space ∧ st.fill (b :: bs) = (st.push b).fill bs) := by
  have hle := align_le st.offset
  have hlt := lt_align st.offset
  have hsize : blockSize = 524288 := rfl
  have hspace := push_space hl b hs
  cases hblock : st.blocks (blockAlign st.offset) with
  | none =>
    have hoff := hl.first hblock
    have havail : 0 < st.avail := by
      simp only [Store.space, hblock, Option.isSome_none, Bool.false_eq_true, if_false,
        Nat.zero_add] at hs
      exact Nat.pos_of_mul_pos_right hs
    rw [push_none hblock]
    by_cases hbs : bs = []
    · left
      subst hbs
      exact @fill_none _ _ 1 hblock (by omega) (by simp only [List.length_singleton]; omega)
    · right
      have hpos := List.length_pos_iff.mpr hbs
      have hsame : blockAlign (st.offset + 1) = blockAlign st.offset :=
        align_same (by omega) (by omega)
      have hmore : blockSize ≤ st.space := by
        simp only [Store.space]
        have := Nat.le_mul_of_pos_left blockSize havail
        omega
      rw [push_none hblock] at hspace
      refine ⟨hbs, by omega, ?_⟩
      obtain ⟨len, hlen⟩ : ∃ len, min blockSize (bs.length + 1) = len + 1 :=
        ⟨min blockSize (bs.length + 1) - 1, by omega⟩
      rw [fill_none hblock (by omega) (by simp only [List.length_cons]; omega),
        @fill_some _ _ [b] len (by simp only [hsame, Function.update_self])
          (by simp only [List.length_singleton]; omega)]
      simp only [hsame, Function.update_idem, List.take_succ_cons, List.drop_succ_cons,
        List.singleton_append, Nat.add_assoc, Nat.add_comm 1 len]
  | some block =>
    have hlevel := hl.here block hblock
    rw [push_some hblock]
    by_cases hlast : blockSize - block.length = 1 ∨ bs = []
    · left
      have hlen : min (blockSize - block.length) (b :: bs).length = 1 := by
        rcases hlast with h | rfl
        · simp only [List.length_cons]
          omega
        · simp only [List.length_singleton]
          omega
      rw [fill_some hblock hlen]
      rfl
    · right
      obtain ⟨hroom, hbs⟩ := not_or.mp hlast
      have hpos := List.length_pos_iff.mpr hbs
      have hsame : blockAlign (st.offset + 1) = blockAlign st.offset :=
        align_same (by omega) (by omega)
      have hmore : 1 < st.space := by
        simp only [Store.space, hblock, Option.isSome_some, if_true]
        omega
      rw [push_some hblock] at hspace
      refine ⟨hbs, by omega, ?_⟩
      obtain ⟨len, hlen⟩ : ∃ len, min (blockSize - block.length) (bs.length + 1) = len + 1 :=
        ⟨min (blockSize - block.length) (bs.length + 1) - 1, by omega⟩
      rw [fill_some hblock (by simp only [List.length_cons]; omega),
        @fill_some _ _ (block ++ [b]) len (by simp only [hsame, Function.update_self])
          (by simp only [List.length_append, List.length_singleton]; omega)]
      simp only [hsame, Function.update_idem, List.take_succ_cons, List.drop_succ_cons,
        List.append_assoc, List.singleton_append, Nat.add_assoc, Nat.add_comm 1 len]

/-- A round stores some bytes, as many as the block holds. -/
theorem fill_pushes (hl : st.Level) {bs : List UInt8} (hne : bs ≠ []) (hs : 0 < st.space) :
    ∃ len, 0 < len ∧ len ≤ bs.length ∧
      st.fill bs = some ((bs.take len).foldl Store.push st, bs.drop len) := by
  induction bs generalizing st with
  | nil => exact absurd rfl hne
  | cons b bs ih =>
    rcases fill_push hl (b := b) hs with hone | ⟨hrest, hmore, hsame⟩
    · exact ⟨1, by omega, by simp, by simpa using hone⟩
    · obtain ⟨len, hpos, hlen, hfill⟩ := ih (push_level hl b) hrest hmore
      exact ⟨len + 1, by omega, by simpa using hlen, by rw [hsame, hfill]; simp⟩

/-- Where there is room the loop stores its bytes one behind the other. -/
theorem copy_pushes (hl : st.Level) {bs : List UInt8} {rounds : Nat} (hr : bs.length ≤ rounds)
    (hs : bs.length ≤ st.space) : st.copy rounds bs = (bs.foldl Store.push st, []) := by
  induction rounds generalizing st bs with
  | zero =>
    obtain rfl : bs = [] := List.length_eq_zero_iff.mp (by omega)
    rfl
  | succ rounds ih =>
    by_cases hne : bs = []
    · subst hne
      rfl
    · have hpos := List.length_pos_iff.mpr hne
      obtain ⟨len, hlen, hle, hfill⟩ := fill_pushes hl hne (by omega)
      rw [Store.copy, if_neg hne, hfill]
      have hspace := pushes_space hl (bs.take len) (by rw [List.length_take]; omega)
      rw [List.length_take] at hspace
      simp only
      rw [ih (pushes_level hl _) (by rw [List.length_drop]; omega) (by
        rw [List.length_drop, hspace]; omega), ← List.foldl_append, List.take_append_drop]

/-- A round that comes through has room. -/
theorem fill_room {bs : List UInt8} {r : Store × List UInt8}
    (h : st.fill bs = some r) : 0 < st.space := by
  have hlt := lt_align st.offset
  have hle := align_le st.offset
  simp only [Store.space]
  cases hblock : st.blocks (blockAlign st.offset) with
  | none =>
    by_cases ha : st.avail = 0
    · simp [Store.fill, hblock, ha] at h
    · have := Nat.mul_pos (Nat.pos_of_ne_zero ha) (show 0 < blockSize by decide)
      omega
  | some block =>
    simp only [Option.isSome_some, if_true]
    omega

/-- Whatever room there is, the loop stores a first part of its bytes. -/
theorem copy_prefix (hl : st.Level) (rounds : Nat) (bs : List UInt8) :
    ∃ n, n ≤ bs.length ∧ st.copy rounds bs = ((bs.take n).foldl Store.push st, bs.drop n) := by
  induction rounds generalizing st bs with
  | zero => exact ⟨0, Nat.zero_le _, by simp [Store.copy]⟩
  | succ rounds ih =>
    by_cases hne : bs = []
    · exact ⟨0, Nat.zero_le _, by simp [Store.copy, hne]⟩
    · cases hfill : st.fill bs with
      | none => exact ⟨0, Nat.zero_le _, by simp [Store.copy, hne, hfill]⟩
      | some r =>
        obtain ⟨len, hpos, hlen, hsome⟩ := fill_pushes hl hne (fill_room hfill)
        obtain ⟨n, hn, hrest⟩ := ih (pushes_level hl (bs.take len)) (bs.drop len)
        rw [List.length_drop] at hn
        refine ⟨len + n, by omega, ?_⟩
        rw [Store.copy, if_neg hne, hsome]
        simp only
        rw [hrest, ← List.foldl_append, List.drop_drop, List.take_add]

theorem copy_level (hl : st.Level) (rounds : Nat) (bs : List UInt8) :
    (st.copy rounds bs).1.Level := by
  obtain ⟨n, _, h⟩ := copy_prefix hl rounds bs
  rw [h]
  exact pushes_level hl _

theorem push_byte (hl : st.Level) (b : UInt8) : (st.push b).byte st.offset = some b := by
  simp only [Store.byte, Store.push, Function.update_self, Option.bind_some]
  cases hblock : st.blocks (blockAlign st.offset) with
  | none =>
    have hoff := hl.first hblock
    simp [← hoff]
  | some block =>
    have hlen := hl.here block hblock
    simp [← hlen]

theorem push_byte_before (hl : st.Level) (b : UInt8) {i : Nat} (hi : i < st.offset) :
    (st.push b).byte i = st.byte i := by
  have hle := align_le i
  simp only [Store.byte, Store.push]
  by_cases hsame : blockAlign i = blockAlign st.offset
  · rw [hsame, Function.update_self]
    cases hblock : st.blocks (blockAlign st.offset) with
    | none =>
      have hoff := hl.first hblock
      omega
    | some block =>
      have hlen := hl.here block hblock
      simp only [Option.getD_some, Option.bind_some]
      exact List.getElem?_append_left (by omega)
  · rw [Function.update_of_ne hsame]

theorem pushes_byte_before (hl : st.Level) (bs : List UInt8) {i : Nat} (hi : i < st.offset) :
    (bs.foldl Store.push st).byte i = st.byte i := by
  induction bs generalizing st with
  | nil => rfl
  | cons b bs ih =>
    rw [List.foldl_cons, ih (push_level hl b) (Nat.lt_succ_of_lt hi), push_byte_before hl b hi]

/-- What is stored is read back from the offset it was stored at. -/
theorem pushes_has (hl : st.Level) (bs : List UInt8) : (bs.foldl Store.push st).Has st.offset bs := by
  induction bs generalizing st with
  | nil => exact fun k hk => absurd hk (by simp)
  | cons b bs ih =>
    intro k hk
    cases k with
    | zero =>
      rw [List.foldl_cons, Nat.add_zero, pushes_byte_before (push_level hl b) bs (Nat.lt_succ_self _)]
      exact push_byte hl b
    | succ k =>
      have := ih (push_level hl b) k (by simpa using hk)
      rw [List.foldl_cons, List.getElem_cons_succ, ← this]
      congr 1
      simp only [Store.push]
      omega

theorem has_append {off : Nat} {xs ys : List UInt8} :
    st.Has off (xs ++ ys) ↔ st.Has off xs ∧ st.Has (off + xs.length) ys := by
  constructor
  · intro h
    refine ⟨fun k hk => ?_, fun k hk => ?_⟩
    · rw [h k (by rw [List.length_append]; omega), List.getElem_append_left hk]
    · rw [Nat.add_assoc, h (xs.length + k) (by rw [List.length_append]; omega),
        List.getElem_append_right (by omega)]
      simp
  · rintro ⟨hx, hy⟩ k hk
    by_cases hkx : k < xs.length
    · rw [hx k hkx, List.getElem_append_left hkx]
    · rw [List.length_append] at hk
      have := hy (k - xs.length) (by omega)
      rw [List.getElem_append_right (by omega), ← this]
      congr 1
      omega

theorem pushes_has_before (hl : st.Level) (bs : List UInt8) {off : Nat} {xs : List UInt8}
    (h : st.Has off xs) (hoff : off + xs.length ≤ st.offset) :
    (bs.foldl Store.push st).Has off xs := by
  intro k hk
  rw [pushes_byte_before hl bs (by omega)]
  exact h k hk

end

end Yclib.Rtmp
