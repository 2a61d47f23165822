import Yclib.Amf.Read

namespace Yclib.Amf
open Network

/-! What a buffer must look like for the readers to stay inside it, told by the
bytes alone: the grammar follows tags, names and end markers. -/

/-- How far a value or object goes: it needs more bytes, it is refused, or it
extends up to an offset. -/
inductive Stop
  | more
  | reject
  | upto (next : Nat)

/-- Where the enclosing reader goes on, for a payload that begins at `w`. -/
def Stop.next (e w : Nat) : Stop → Nat
  | .more => w
  | .reject => e
  | .upto n => n

/-- The number of payload bytes of a type without nesting, zero when they are cut short. -/
def leafLen (m : Mem) (e w : Nat) : Nat → Nat
  | 0 => if e < w + 8 then 0 else 8
  | 1 => if e - w < 1 then 0 else 1
  | 2 => if e - w < 2 then 0 else if e - (w + 2) < rnsBtoh16 m w then 0 else 2 + rnsBtoh16 m w
  | _ => 0

/-- A property begins at `w`: the bytes that tell it from an end marker are there,
and they are not one. -/
def Opens (m : Mem) (e w : Nat) : Prop :=
  w < e ∧ (m w = 0 → w + 1 < e ∧ (m (w + 1) = 0 → w + 2 < e ∧ m (w + 2) ≠ 9))

/-- The end marker, all three bytes of it. -/
def Closes (m : Mem) (e w : Nat) : Prop :=
  w + 2 < e ∧ m w = 0 ∧ m (w + 1) = 0 ∧ m (w + 2) = 9

/-- The name at `w` is complete. -/
def Named (m : Mem) (e w : Nat) : Prop := 2 ≤ e - w ∧ rnsBtoh16 m w ≤ e - (w + 2)

mutual

inductive ValueSpan (m : Mem) (e : Nat) : Nat → Stop → Prop
  | absent {w : Nat} (h : e ≤ w) : ValueSpan m e w .more
  | reject {w : Nat} (h : w < e) (ht : sdTypeEnd ≤ (m w).toNat) : ValueSpan m e w .reject
  | leaf {w : Nat} (h : w < e) (ht : (m w).toNat < 9) (h3 : (m w).toNat ≠ 3)
      (h8 : (m w).toNat ≠ 8) :
      ValueSpan m e w (.upto (w + 1 + leafLen m e (w + 1) (m w).toNat))
  | obj {w : Nat} {s : Stop} (h : w < e) (ht : (m w).toNat = 3)
      (ho : ObjSpan m e (w + 1) (w + 1) s) : ValueSpan m e w (.upto (s.next e (w + 1)))
  | ecmaCut {w : Nat} (h : w < e) (ht : (m w).toNat = 8) (hs : e - (w + 1) < 4) :
      ValueSpan m e w (.upto (w + 1))
  | ecma {w : Nat} {s : Stop} (h : w < e) (ht : (m w).toNat = 8) (hs : 4 ≤ e - (w + 1))
      (ho : ObjSpan m e (w + 5) (w + 5) s) : ValueSpan m e w (.upto (s.next e (w + 1)))

/-- The properties at `w` of the object at `buf`. -/
inductive ObjSpan (m : Mem) (e : Nat) : Nat → Nat → Stop → Prop
  | close {buf w : Nat} (h : Closes m e w) : ObjSpan m e buf w (.upto (w + 3))
  | cut {buf w : Nat} (h : Opens m e w) (hn : ¬ Named m e w) : ObjSpan m e buf w .more
  | more {buf w : Nat} (h : Opens m e w) (hn : Named m e w)
      (hv : ValueSpan m e (w + (2 + rnsBtoh16 m w)) .more) : ObjSpan m e buf w .more
  | reject {buf w : Nat} (h : Opens m e w) (hn : Named m e w)
      (hv : ValueSpan m e (w + (2 + rnsBtoh16 m w)) .reject) : ObjSpan m e buf w .reject
  | ppt {buf w n : Nat} {s : Stop} (h : Opens m e w) (hn : Named m e w)
      (hv : ValueSpan m e (w + (2 + rnsBtoh16 m w)) (.upto n)) (ho : ObjSpan m e buf n s) :
      ObjSpan m e buf w s
  -- An object that runs out has three bytes too many reported, unless that many
  -- wrap around: only in a buffer as large as the type of its size.
  | wrap {buf : Nat} (h : 2 ^ 32 ≤ e + 3 - buf) :
      ObjSpan m e buf e (.upto (buf + (e + 3 - buf - 2 ^ 32)))

end

/-- A buffer of `size` bytes that never runs out at an end marker and never names a
type without a reader. -/
def Delimited (m : Mem) (size : Nat) : Prop := ∃ s, ValueSpan m size 0 s

/-- The touch stays inside a buffer that ends at `e`, inside the nine entries of
`sd_read`, and inside the size the reader was given. -/
def Touch.Inside (e : Nat) : Touch → Prop
  | .byte off => off < e
  | .entry type => type < 9
  | .report len size => len ≤ size

/-- The reader returned `a` and everything it touched was inside. -/
def Clean (e : Nat) (x : Rd α) (a : α) : Prop := x.ret = some a ∧ ∀ t ∈ x.log, t.Inside e

@[simp] theorem clean_pure {e : Nat} {a b : α} : Clean e (pure a : Rd α) b ↔ a = b := by
  change some a = some b ∧ (∀ t ∈ [], _) ↔ _
  simp

theorem clean_bind {e : Nat} {x : Rd α} {f : α → Rd β} {b : β} :
    Clean e (x >>= f) b ↔ ∃ a, Clean e x a ∧ Clean e (f a) b := by
  obtain ⟨ret, log⟩ := x
  cases ret with
  | none =>
    change (none = some b ∧ _) ↔ _
    simp [Clean]
  | some a =>
    change ((f a).ret = some b ∧ ∀ t ∈ log ++ (f a).log, _) ↔ _
    simp only [Clean, List.mem_append, or_imp, forall_and, Option.some.injEq]
    constructor
    · rintro ⟨hr, hl, hf⟩
      exact ⟨a, ⟨rfl, hl⟩, hr, hf⟩
    · rintro ⟨_, ⟨rfl, hl⟩, hr, hf⟩
      exact ⟨hr, hl, hf⟩

@[simp] theorem clean_touch {e w n : Nat} {f : Unit → Rd β} {b : β} :
    Clean e (touch w n >>= f) b ↔ (∀ i, i < n → w + i < e) ∧ Clean e (f ()) b := by
  rw [clean_bind]
  constructor
  · rintro ⟨⟨⟩, ⟨_, ht⟩, hf⟩
    exact ⟨by simpa [touch, Touch.Inside] using ht, hf⟩
  · rintro ⟨ht, hf⟩
    exact ⟨(), ⟨rfl, by simpa [touch, Touch.Inside] using ht⟩, hf⟩

@[simp] theorem clean_entry {e type : Nat} {f : Unit → Rd β} {b : β} :
    Clean e (entry type >>= f) b ↔ type < 9 ∧ Clean e (f ()) b := by
  rw [clean_bind]
  constructor
  · rintro ⟨⟨⟩, ⟨_, ht⟩, hf⟩
    exact ⟨by simpa [entry, Touch.Inside] using ht, hf⟩
  · rintro ⟨ht, hf⟩
    exact ⟨(), ⟨rfl, by simpa [entry, Touch.Inside] using ht⟩, hf⟩

@[simp] theorem clean_give {e len size : Nat} {value : Option α} {r : Option α × Nat} :
    Clean e (give value len size) r ↔ r = (value, u32 len) ∧ u32 len ≤ size := by
  simp [Clean, give, Touch.Inside, eq_comm]

@[simp] theorem clean_lost {e : Nat} {b : α} : ¬ Clean e (⟨none, []⟩ : Rd α) b := by
  simp [Clean]

section
variable {m : Mem} {e : Nat}

theorem clean_dbl {w : Nat} {r : Option UInt64 × Nat} :
    Clean e (sdDblRead m e w) r ↔
      r = (if e < w + 8 then none else some (rnsBtohd m w), leafLen m e w 0) := by
  unfold sdDblRead leafLen
  split
  · simp [u32]
  · rename_i h
    simp only [clean_touch, clean_give, u32_of_lt (show 8 < 2 ^ 32 by norm_num)]
    constructor
    · exact fun h => h.2.1
    · exact fun h => ⟨by omega, h, by omega⟩

theorem clean_ui8 {w : Nat} {r : Option UInt8 × Nat} :
    Clean e (sdUi8Read m e w) r ↔
      r = (if e - w < 1 then none else some (m w), leafLen m e w 1) := by
  unfold sdUi8Read leafLen
  split
  · simp [u32]
  · rename_i h
    simp only [clean_touch, clean_give, u32_of_lt (show 1 < 2 ^ 32 by norm_num)]
    constructor
    · exact fun h => h.2.1
    · exact fun h => ⟨by omega, h, by omega⟩

theorem named_iff {w : Nat} :
    Named m e w ↔ ¬ e - w < 2 ∧ ¬ e - (w + 2) < rnsBtoh16 m w := by
  simp only [Named, Nat.not_lt]

instance (w : Nat) : Decidable (Named m e w) := inferInstanceAs (Decidable (_ ∧ _))

/-- A string is read when it is complete, and left alone otherwise. -/
theorem clean_str {w : Nat} {r : Option SdStr × Nat} :
    Clean e (sdStrRead m e w) r ↔
      r = if Named m e w then (some (strAt m w), 2 + rnsBtoh16 m w) else (none, 0) := by
  have hlt : rnsBtoh16 m w < 65536 := btoh_lt m w 2
  have hlen : u32 (2 + rnsBtoh16 m w) = 2 + rnsBtoh16 m w := u32_of_lt (by omega)
  unfold sdStrRead
  simp only [named_iff]
  by_cases h : e - w < 2
  · simp [h, u32]
  · by_cases hs : e - (w + 2) < rnsBtoh16 m w
    · simp only [h, hs, if_false, if_true, clean_touch, clean_give, not_false_eq_true,
        not_true_eq_false, and_false, u32]
      constructor
      · exact fun h => h.2.1
      · exact fun h => ⟨by omega, h, by omega⟩
    · simp only [h, hs, if_false, if_true, clean_touch, clean_give, not_false_eq_true,
        and_self, hlen]
      constructor
      · exact fun h => h.2.2.1
      · exact fun h => ⟨by omega, by omega, h, by omega⟩

theorem leaf_str {w : Nat} :
    leafLen m e w 2 = if Named m e w then 2 + rnsBtoh16 m w else 0 := by
  simp only [leafLen, named_iff]
  split
  · simp [*]
  · split <;> simp [*]

theorem clean_more {w : Nat} {b : Bool} :
    Clean e (sdObjMore m e w) b ↔
      (Opens m e w ∧ b = true) ∨ (Closes m e w ∧ b = false) ∨ (e ≤ w ∧ b = false) := by
  have one (v : Nat) : (∀ i, i < 1 → v + i < e) ↔ v < e := by
    simp
  unfold sdObjMore Opens Closes
  split
  · rename_i hw
    by_cases h0 : m w = 0
    · by_cases h1 : m (w + 1) = 0
      · by_cases h2 : m (w + 2) = 9
        · simp only [clean_touch, one, hw, h0, h1, h2, if_true, clean_pure, bne_self_eq_false]
          constructor
          · exact fun h => Or.inr (Or.inl ⟨⟨h.2.2.1, by simp⟩, h.2.2.2.symm⟩)
          · rintro (⟨h, _⟩ | ⟨h, rfl⟩ | ⟨h, _⟩)
            · exact absurd rfl ((h.2 trivial).2 trivial).2
            · exact ⟨trivial, by omega, h.1, rfl⟩
            · omega
        · have hne : (m (w + 2) != 9) = true := by simpa using h2
          simp only [clean_touch, one, hw, h0, h1, if_true, clean_pure, hne]
          constructor
          · exact fun h => Or.inl ⟨⟨trivial, fun _ => ⟨h.2.1, fun _ => ⟨h.2.2.1, h2⟩⟩⟩, h.2.2.2.symm⟩
          · rintro (⟨h, rfl⟩ | ⟨h, _⟩ | ⟨h, _⟩)
            · exact ⟨trivial, (h.2 trivial).1, ((h.2 trivial).2 trivial).1, rfl⟩
            · exact absurd h.2.2.2 h2
            · omega
      · simp only [clean_touch, one, hw, h0, h1, if_true, if_false, clean_pure]
        constructor
        · exact fun h => Or.inl ⟨⟨trivial, fun _ => ⟨h.2.1, fun h => h.elim⟩⟩, h.2.2.symm⟩
        · rintro (⟨h, rfl⟩ | ⟨h, _⟩ | ⟨h, _⟩)
          · exact ⟨trivial, (h.2 trivial).1, rfl⟩
          · exact h.2.2.1.elim
          · omega
    · simp only [clean_touch, one, hw, h0, if_false, clean_pure]
      constructor
      · exact fun h => Or.inl ⟨⟨trivial, fun h => h.elim⟩, h.2.symm⟩
      · rintro (⟨_, rfl⟩ | ⟨h, _⟩ | ⟨h, _⟩)
        · exact ⟨trivial, rfl⟩
        · exact h.2.1.elim
        · omega
  · rename_i hw
    simp only [clean_pure, hw, false_and, false_or]
    constructor
    · rintro rfl
      exact Or.inr ⟨by omega, rfl⟩
    · rintro (⟨h, _⟩ | ⟨_, h⟩)
      · omega
      · exact h.symm

/-- The value of a type without nesting: NULL in it when its bytes are cut short. -/
def leafValue (m : Mem) (e w : Nat) : Nat → SdValue
  | 0 => if e < w + 8 then .null 0 else .dbl (rnsBtohd m w)
  | 1 => if e - w < 1 then .null 1 else .ui8 (m w)
  | 2 => if Named m e w then .str (strAt m w) else .null 2
  | type => .null (Fin.ofNat 9 type)

/-- A type without nesting is read into its value, of the length `leafLen` gives. -/
theorem read_leaf {fuel w type : Nat} {r : SdValue × Nat} (ht : type < 9) (h3 : type ≠ 3)
    (h8 : type ≠ 8) :
    Clean e (sdRead m e (fuel + 1) type w) r ↔ r = (leafValue m e w type, leafLen m e w type) := by
  have cases_lt : type = 0 ∨ type = 1 ∨ type = 2 ∨ type = 4 ∨ type = 5 ∨ type = 6 ∨ type = 7 := by
    omega
  rcases cases_lt with rfl | rfl | rfl | rfl | rfl | rfl | rfl
  · simp only [sdRead, clean_entry, leafValue]
    simp only [clean_bind, clean_dbl, clean_pure, exists_eq_left]
    split <;> simp [eq_comm]
  · simp only [sdRead, clean_entry, leafValue]
    simp only [clean_bind, clean_ui8, clean_pure, exists_eq_left]
    split <;> simp [eq_comm]
  · simp only [sdRead, clean_entry, leafValue]
    simp only [clean_bind, clean_str, clean_pure, exists_eq_left, leaf_str]
    split <;> simp [eq_comm]
  · simp [sdRead, leafLen, leafValue, eq_comm]
  · simp [sdRead, leafLen, leafValue, eq_comm]
  · simp [sdRead, leafLen, leafValue, eq_comm]
  · simp [sdRead, leafLen, leafValue, eq_comm]

theorem leaf_next {w type : Nat} (hw : w ≤ e) : w + leafLen m e w type ≤ e := by
  unfold leafLen
  split
  · split <;> omega
  · split <;> omega
  · split
    · omega
    · split <;> omega
  · omega

theorem named_end {w : Nat} (hw : w ≤ e) (h : Named m e w) : w + (2 + rnsBtoh16 m w) ≤ e := by
  obtain ⟨h1, h2⟩ := h
  omega

/-- What `sd_objppt_read` makes of its value's result. -/
def pptGive (m : Mem) (e w : Nat) (v : Option SdValue × Nat) : Option (SdStr × SdValue) × Nat :=
  match v.1 with
  | none => (none, if v.2 ≠ 0 then e - w else 0)
  | some value => (some (strAt m w, value), 2 + rnsBtoh16 m w + v.2)

theorem clean_ppt_cut {fuel w : Nat} {r : Option (SdStr × SdValue) × Nat} (hn : ¬ Named m e w) :
    Clean e (sdObjpptRead m e (fuel + 1) w) r ↔ r = (none, 0) := by
  simp [sdObjpptRead, clean_bind, clean_str, hn, u32]

/-- A clean value reader reports no more than it was given. -/
theorem value_within {fuel w : Nat} {r : Option SdValue × Nat}
    (h : Clean e (sdValueRead m e fuel w) r) : r.2 ≤ e - w := by
  cases fuel with
  | zero => exact (clean_lost h).elim
  | succ fuel =>
    unfold sdValueRead at h
    split at h
    · obtain ⟨rfl, hle⟩ := clean_give.mp h
      exact hle
    · obtain ⟨_, h⟩ := clean_touch.mp h
      split at h
      · obtain ⟨rfl, hle⟩ := clean_give.mp h
        exact hle
      · obtain ⟨_, _, h⟩ := clean_bind.mp h
        obtain ⟨rfl, hle⟩ := clean_give.mp h
        exact hle

theorem clean_ppt {fuel w : Nat} {r : Option (SdStr × SdValue) × Nat} (he : e < 2 ^ 32)
    (hw : w ≤ e) (hn : Named m e w) :
    Clean e (sdObjpptRead m e (fuel + 1) w) r ↔
      ∃ v, Clean e (sdValueRead m e fuel (w + (2 + rnsBtoh16 m w))) v ∧ r = pptGive m e w v := by
  simp only [sdObjpptRead, clean_bind, clean_str, hn, if_true, exists_eq_left]
  refine exists_congr fun v => and_congr_right fun hc => ?_
  have hle := value_within hc
  have hend := named_end hw hn
  obtain ⟨_ | value, more⟩ := v
  · have hsize : u32 (if more ≠ 0 then e - w else 0) = if more ≠ 0 then e - w else 0 :=
      u32_of_lt (by split <;> omega)
    simp only [clean_give, hsize, pptGive]
    refine ⟨fun h => h.1, fun h => ⟨h, by split <;> omega⟩⟩
  · have hsize : u32 (2 + rnsBtoh16 m w + more) = 2 + rnsBtoh16 m w + more :=
      u32_of_lt (by omega)
    simp only [clean_give, hsize, pptGive]
    exact ⟨fun h => h.1, fun h => ⟨h, by omega⟩⟩

/-- What `sd_value_read` makes of a reader's result. -/
theorem clean_value {fuel w : Nat} {r : Option SdValue × Nat} (hw : w < e)
    (ht : (m w).toNat < sdTypeEnd) :
    Clean e (sdValueRead m e (fuel + 1) w) r ↔
      ∃ v, Clean e (sdRead m e fuel (m w).toNat (w + 1)) v ∧
        r = (some v.1, u32 (1 + v.2)) ∧ u32 (1 + v.2) ≤ e - w := by
  rw [sdValueRead, if_neg (by omega), clean_touch, if_neg (by omega), clean_bind]
  simp only [clean_give]
  exact ⟨fun h => h.2, fun h => ⟨by omega, h⟩⟩

theorem read_type {fuel type w : Nat} {v : SdValue × Nat}
    (h : Clean e (sdRead m e fuel type w) v) : type < 9 := by
  cases fuel with
  | zero => exact (clean_lost h).elim
  | succ fuel =>
    unfold sdRead at h
    exact (clean_entry.mp h).1

theorem read_obj {fuel w : Nat} {r : SdValue × Nat} :
    Clean e (sdRead m e (fuel + 1) 3 w) r ↔
      ∃ o, Clean e (sdObjRead m e fuel w w) o ∧ r = (o.1.elim (.null 3) .obj, o.2) := by
  rw [sdRead, clean_entry]
  simp [clean_bind, eq_comm]

theorem read_ecma {fuel w : Nat} {r : SdValue × Nat} :
    Clean e (sdRead m e (fuel + 1) 8 w) r ↔
      ∃ o, Clean e (sdEcmaRead m e fuel w) o ∧
        r = (o.1.elim (.null 8) (fun p => .ecma p.1 p.2), o.2) := by
  rw [sdRead, clean_entry]
  simp [clean_bind, eq_comm]

/-- A clean object reader reports no more than it was given. -/
theorem obj_within {fuel buf w : Nat} {r : Option SdObj × Nat}
    (h : Clean e (sdObjRead m e fuel buf w) r) : r.2 ≤ e - buf := by
  induction fuel generalizing w r with
  | zero => exact (clean_lost h).elim
  | succ fuel ih =>
    rw [sdObjRead, clean_bind] at h
    obtain ⟨b, _, h⟩ := h
    cases b with
    | false =>
      obtain ⟨rfl, hle⟩ := clean_give.mp h
      exact hle
    | true =>
      rw [if_pos rfl, clean_bind] at h
      obtain ⟨⟨_ | ⟨name, value⟩, bytes⟩, _, h⟩ := h
      · obtain ⟨rfl, hle⟩ := clean_give.mp h
        exact hle
      · obtain ⟨o, ho, h⟩ := clean_bind.mp h
        obtain rfl := clean_pure.mp h
        have hle := ih ho
        exact hle

/-- What `sd_ecma_read` makes of its object's result. -/
def ecmaGive (m : Mem) (e w : Nat) (o : Option SdObj × Nat) : Option (UInt32 × SdObj) × Nat :=
  match o.1 with
  | none => (none, if o.2 ≠ 0 then e - w else 0)
  | some obj => (some (UInt32.ofNat (rnsBtoh32 m w), obj), 4 + o.2)

theorem clean_ecma_cut {fuel w : Nat} {r : Option (UInt32 × SdObj) × Nat} (hw : e - w < 4) :
    Clean e (sdEcmaRead m e (fuel + 1) w) r ↔ r = (none, 0) := by
  simp [sdEcmaRead, hw, u32]

theorem clean_ecma {fuel w : Nat} {r : Option (UInt32 × SdObj) × Nat} (he : e < 2 ^ 32)
    (hw : 4 ≤ e - w) :
    Clean e (sdEcmaRead m e (fuel + 1) w) r ↔
      ∃ o, Clean e (sdObjRead m e fuel (w + 4) (w + 4)) o ∧ r = ecmaGive m e w o := by
  have hinside : ∀ i, i < 4 → w + i < e := fun i hi => by omega
  rw [sdEcmaRead, if_neg (by omega), clean_touch, clean_bind, and_iff_right hinside]
  refine exists_congr fun o => and_congr_right fun hc => ?_
  have hle := obj_within hc
  obtain ⟨_ | obj, bytes⟩ := o
  · have hsize : u32 (if bytes ≠ 0 then e - w else 0) = if bytes ≠ 0 then e - w else 0 :=
      u32_of_lt (by split <;> omega)
    simp only [clean_give, hsize, ecmaGive]
    exact ⟨fun h => h.1, fun h => ⟨h, by split <;> omega⟩⟩
  · have hsize : u32 (4 + bytes) = 4 + bytes := u32_of_lt (by omega)
    simp only [clean_give, hsize, ecmaGive]
    exact ⟨fun h => h.1, fun h => ⟨h, by omega⟩⟩

end

end Yclib.Amf
