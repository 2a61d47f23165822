import Yclib.Amf.Write

namespace Yclib.Amf
open Network

/-- Every store falls into a block of `size` bytes, and no more is returned. -/
def Wr.Inside (size : Nat) (wr : Wr) : Prop :=
  (∀ s ∈ wr.stores, 0 ≤ s.1 ∧ s.1 < size) ∧ wr.ret ≤ size

/-- A store goes to every offset from `w` up to `w + n`. -/
def Covers (w : Int) (n : Nat) (stores : List (Int × UInt8)) : Prop :=
  ∀ i, w ≤ i → i < w + n → ∃ s ∈ stores, s.1 = i

theorem covers_put (w : Int) (bs : List UInt8) : Covers w bs.length (put w bs) := by
  induction bs generalizing w with
  | nil =>
    intro i hw hi
    simp only [List.length_nil, Nat.cast_zero] at hi
    omega
  | cons b bs ih =>
    intro i hw hi
    simp only [List.length_cons] at hi
    push_cast at hi
    by_cases h : i = w
    · exact ⟨_, List.mem_cons_self, h.symm⟩
    · obtain ⟨s, hs, rfl⟩ := ih (w + 1) i (by omega) (by omega)
      exact ⟨s, List.mem_cons_of_mem _ hs, rfl⟩

theorem covers_append {w : Int} {n k : Nat} {xs ys : List (Int × UInt8)} (hx : Covers w n xs)
    (hy : Covers (w + n) k ys) : Covers w (n + k) (xs ++ ys) := by
  intro i hw hi
  push_cast at hi
  by_cases h : i < w + n
  · obtain ⟨s, hs, rfl⟩ := hx i hw h
    exact ⟨s, List.mem_append_left _ hs, rfl⟩
  · obtain ⟨s, hs, rfl⟩ := hy i (by omega) (by omega)
    exact ⟨s, List.mem_append_right _ hs, rfl⟩

theorem covers_mono {w : Int} {n k : Nat} {xs : List (Int × UInt8)} (h : Covers w n xs)
    (hk : k ≤ n) : Covers w k xs :=
  fun i hw hi => h i hw (by omega)

/-! The offsets are right up to 2 GiB, so the first 2 GiB of an encoding are stored
where they belong, in whatever block. -/

theorem str_covers (s : SdStr) (w : Int) : Covers w s.size (sdStrWrite s w).stores := by
  have h := covers_put w (rnsHtob16 s.str.length ++ s.str)
  rw [str_write_stores]
  apply covers_mono h
  simp only [List.length_append, rnsHtob16, htob_length, SdStr.size]
  omega

mutual

theorem value_covers (v : SdValue) (w : Int) (wr : Wr) (h : sdValueWrite v w = some wr) :
    Covers w (min v.size (2 ^ 31)) wr.stores := by
  have hsmall (hs : v.size < 2 ^ 31) : Covers w (min v.size (2 ^ 31)) wr.stores := by
    have hv : v.Whole := (value_write_isSome v w).mp (by rw [h]; rfl)
    rw [value_write v w hv hs] at h
    obtain rfl := Option.some.inj h
    have := covers_put w v.bytes
    rw [value_bytes_length] at this
    exact covers_mono this (by omega)
  match v with
  | .dbl _ => exact hsmall (by simp only [SdValue.size]; norm_num)
  | .ui8 _ => exact hsmall (by simp only [SdValue.size]; norm_num)
  | .str s =>
    have := s.short
    exact hsmall (by simp only [SdValue.size, SdStr.size]; omega)
  | .null _ => exact hsmall (by simp only [SdValue.size]; norm_num)
  | .obj o =>
    obtain ⟨r, hr, rfl⟩ := Option.map_eq_some_iff.mp h
    have ho := obj_covers (w + 1) o (w + 1) r hr
    apply covers_mono (covers_append (covers_put w [3]) ho)
    simp only [SdValue.size, List.length_singleton]
    omega
  | .ecma size o =>
    obtain ⟨c, hc, rfl⟩ := Option.map_eq_some_iff.mp h
    obtain ⟨r, hr, rfl⟩ := Option.map_eq_some_iff.mp hc
    have ho := obj_covers (w + 1 + 4) o (w + 1 + 4) r hr
    have hcount := covers_append (covers_put (w + 1) (rnsHtob32 size.toNat)) (by
      rw [rnsHtob32, htob_length]
      exact ho)
    apply covers_mono (covers_append (covers_put w [8]) hcount)
    simp only [SdValue.size, List.length_singleton, rnsHtob32, htob_length]
    omega

theorem obj_covers (buf : Int) (o : SdObj) (w : Int) (wr : Wr) (h : sdObjWrite buf o w = some wr) :
    Covers w (min o.size (2 ^ 31)) wr.stores := by
  match o with
  | .nil =>
    obtain rfl := Option.some.inj h
    apply covers_mono (covers_put w [0, 0, 9])
    simp only [SdObj.size, List.length_cons, List.length_nil]
    omega
  | .add name value rest =>
    simp only [sdObjWrite] at h
    split at h
    · cases h
    rename_i v hv
    split at h
    · cases h
    rename_i r hr
    obtain rfl := Option.some.inj h
    have hname := str_covers name w
    rw [str_write_ret] at hv
    have hvalue := value_covers value _ v hv
    have hppt := covers_append hname hvalue
    by_cases hs : name.size + value.size < 2 ^ 31
    · have hwhole : value.Whole := (value_write_isSome value _).mp (by rw [hv]; rfl)
      rw [value_write value _ hwhole (by omega)] at hv
      obtain rfl := Option.some.inj hv
      have hret : (Wr.named name w ⟨put (w + name.size) value.bytes, value.size⟩).ret =
          ((name.size + value.size : Nat) : Int) := by
        rw [named_write hs]
        push_cast
        rfl
      rw [hret] at hr
      have hrest := obj_covers buf rest _ r hr
      have hfirst : Covers w (name.size + value.size)
          (Wr.named name w ⟨put (w + name.size) value.bytes, value.size⟩).stores :=
        covers_mono hppt (by omega)
      apply covers_mono (covers_append hfirst hrest)
      simp only [SdObj.size]
      omega
    · intro i hw hi
      obtain ⟨s, hmem, rfl⟩ := hppt i hw (by omega)
      exact ⟨s, List.mem_append_left _ hmem, rfl⟩

end

/-- A value written into a block of `size` bytes stays inside it exactly when its
encoding fits and no payload is missing. Of the block and the value, one is shorter
than 2 GiB. -/
theorem value_room (v : SdValue) (size : Nat) (h : size < 2 ^ 31 ∨ v.size < 2 ^ 31) :
    (∃ wr, sdValueWrite v 0 = some wr ∧ wr.Inside size) ↔ v.Whole ∧ v.size ≤ size := by
  constructor
  · rintro ⟨wr, hwr, hstores, _⟩
    refine ⟨(value_write_isSome v 0).mp (by rw [hwr]; rfl), ?_⟩
    by_contra hbig
    obtain ⟨s, hs, hoff⟩ := value_covers v 0 wr hwr size (by omega) (by omega)
    have := (hstores s hs).2
    omega
  · rintro ⟨hv, hs⟩
    refine ⟨_, value_write v 0 hv (by omega), ?_, by simpa using hs⟩
    intro s hmem
    have := put_mem hmem
    rw [value_bytes_length] at this
    omega

end Yclib.Amf
