import Yclib.Amf.Bounds
import Yclib.Amf.Write

namespace Yclib.Amf
open Network

section
variable {m : Mem} {e : Nat}

/-- A name in its encoding is complete, and read as it was written. -/
theorem named_at {w : Nat} {s : SdStr}
    (h : Holds m w (rnsHtob16 s.str.length ++ s.str)) (hw : w + s.size ≤ e) :
    Named m e w ∧ rnsBtoh16 m w = s.str.length ∧ strAt m w = s := by
  obtain ⟨hlen, hstr⟩ := holds_append.mp h
  have hcount : rnsBtoh16 m w = s.str.length := by
    rw [rnsBtoh16, btoh_htob hlen]
    exact Nat.mod_eq_of_lt s.short
  have hcopy : (strAt m w).str = s.str := by
    simp only [strAt, hcount]
    exact slice_holds (by simpa [rnsHtob16] using hstr)
  refine ⟨?_, hcount, ?_⟩
  · unfold Named
    simp only [SdStr.size] at hw
    omega
  · cases s
    simpa [strAt] using hcopy

/-- A property is told from an end marker: its name is not empty, or its value's type
is none that an end marker has. -/
theorem opens_at {w : Nat} {name : SdStr} {value : SdValue} {rest : List UInt8}
    (h : Holds m w ((rnsHtob16 name.str.length ++ name.str) ++ (value.bytes ++ rest)))
    (hw : w + name.size + value.size ≤ e) : Opens m e w := by
  have hpos := value_size_pos value
  obtain ⟨hname, hvalue⟩ := holds_append.mp h
  simp only [SdStr.size] at hw
  refine ⟨by omega, fun h0 => ⟨by omega, fun h1 => ⟨by omega, ?_⟩⟩⟩
  -- the two length bytes are zero, so the name is empty and the value's type follows
  obtain ⟨hlen, _⟩ := holds_append.mp hname
  have hcount := btoh_htob (n := 2) hlen
  have hzero : name.str.length = 0 := by
    rw [show btoh m w 2 = 0 by simp [btoh, h0, h1]] at hcount
    exact (Nat.mod_eq_of_lt name.short).symm.trans hcount.symm
  have htype := (holds_append.mp hvalue).1
  simp only [List.length_append, rnsHtob16, htob_length, hzero, Nat.add_zero] at htype
  obtain ⟨tail, htail⟩ := value_bytes_head value
  rw [htail] at htype
  rw [(holds_cons.mp htype).1]
  intro h9
  have htag := congrArg UInt8.toNat h9
  rw [UInt8.toNat_ofNat', show (9 : UInt8).toNat = 9 from rfl] at htag
  have := value.type_lt
  omega

/-- `sd_value_read` on a tag, given what the reader of the tag returns. -/
theorem value_read_of {fuel w t n size : Nat} {v : SdValue} {tail : List UInt8}
    (h : Holds m w (UInt8.ofNat t :: tail)) (ht : t < 9)
    (hr : Clean e (sdRead m e fuel t (w + 1)) (v, n)) (hs : 1 + n = size)
    (hw : w + size ≤ e) (he : e < 2 ^ 32) :
    Clean e (sdValueRead m e (fuel + 1) w) (some v, size) := by
  have hbyte : (m w).toNat = t := by
    rw [(holds_cons.mp h).1, UInt8.toNat_ofNat']
    omega
  have hlen : u32 (1 + n) = size := by rw [u32_of_lt (by omega), hs]
  have hend : sdTypeEnd = 13 := rfl
  refine (clean_value (by omega) (by omega)).mpr ⟨(v, n), by rw [hbyte]; exact hr, ?_, ?_⟩
  · rw [hlen]
  · rw [hlen]
    omega

mutual

theorem value_read (v : SdValue) (w fuel : Nat) (hv : v.Whole) (h : Holds m w v.bytes)
    (hw : w + v.size ≤ e) (he : e < 2 ^ 32) (hf : 4 * (e - w) + 4 ≤ fuel) :
    Clean e (sdValueRead m e fuel w) (some v, v.size) := by
  obtain ⟨fuel, rfl⟩ := Nat.exists_eq_add_of_le' (show 3 ≤ fuel by omega)
  match v with
  | .dbl d =>
    simp only [SdValue.size] at hw
    refine value_read_of (t := 0) h (by omega) ?_ (show 1 + 8 = _ from rfl) hw he
    rw [read_leaf (by omega) (by omega) (by omega), leafValue, leafLen, if_neg (by omega),
      if_neg (by omega), btohd_htobd (holds_cons.mp h).2]
  | .ui8 b =>
    simp only [SdValue.size] at hw
    refine value_read_of (t := 1) h (by omega) ?_ (show 1 + 1 = _ from rfl) hw he
    rw [read_leaf (by omega) (by omega) (by omega), leafValue, leafLen, if_neg (by omega),
      if_neg (by omega), (holds_cons.mp (holds_cons.mp h).2).1]
  | .str s =>
    simp only [SdValue.size] at hw
    obtain ⟨hnamed, hcount, hstr⟩ := named_at (e := e) (holds_cons.mp h).2 (by omega)
    refine value_read_of (t := 2) (n := s.size) h (by omega) ?_ rfl hw he
    rw [read_leaf (by omega) (by omega) (by omega), leafValue, leaf_str, if_pos hnamed,
      if_pos hnamed, hcount, hstr, SdStr.size, Nat.add_comm 2]
  | .obj o =>
    simp only [SdValue.size] at hw
    refine value_read_of (t := 3) (n := o.size) h (by omega) ?_ rfl hw he
    have ho := obj_read o (w + 1) (w + 1) (fuel + 1) hv (holds_cons.mp h).2 (le_refl _) (by omega)
      he (by omega)
    rw [Nat.add_sub_cancel_left] at ho
    exact read_obj.mpr ⟨_, ho, rfl⟩
  | .ecma size o =>
    simp only [SdValue.size] at hw
    obtain ⟨hsize, hobj⟩ := holds_append.mp (holds_cons.mp h).2
    refine value_read_of (t := 8) (n := 4 + o.size) h (by omega) ?_ (by simp only [SdValue.size]; omega)
      hw he
    rw [rnsHtob32, htob_length] at hobj
    have ho := obj_read o (w + 1 + 4) (w + 1 + 4) fuel hv hobj (le_refl _) (by omega) he (by omega)
    rw [Nat.add_sub_cancel_left] at ho
    have hcount : rnsBtoh32 m (w + 1) = size.toNat := by
      rw [rnsBtoh32, btoh_htob hsize]
      exact Nat.mod_eq_of_lt size.toNat_lt
    refine read_ecma.mpr ⟨_, (clean_ecma he (by omega)).mpr ⟨_, ho, rfl⟩, ?_⟩
    simp [ecmaGive, hcount]
  | .null type =>
    simp only [SdValue.size] at hw
    simp only [SdValue.Whole] at hv
    refine value_read_of (n := 0) h type.isLt ?_ rfl hw he
    rw [read_leaf type.isLt (by omega) (by omega)]
    obtain rfl | rfl | rfl | rfl : type = 4 ∨ type = 5 ∨ type = 6 ∨ type = 7 := by omega
    · rfl
    · rfl
    · rfl
    · rfl

theorem obj_read (o : SdObj) (buf w fuel : Nat) (ho : o.Whole) (h : Holds m w o.bytes)
    (hb : buf ≤ w) (hw : w + o.size ≤ e) (he : e < 2 ^ 32) (hf : 4 * (e - w) + 5 ≤ fuel) :
    Clean e (sdObjRead m e fuel buf w) (some o, w + o.size - buf) := by
  obtain ⟨fuel, rfl⟩ := Nat.exists_eq_add_of_le' (show 2 ≤ fuel by omega)
  rw [sdObjRead, clean_bind]
  match o with
  | .nil =>
    simp only [SdObj.size] at hw
    obtain ⟨h0, h'⟩ := holds_cons.mp h
    obtain ⟨h1, h'⟩ := holds_cons.mp h'
    have hclose : Closes m e w := ⟨by omega, h0, h1, (holds_cons.mp h').1⟩
    refine ⟨false, clean_more.mpr (.inr (.inl ⟨hclose, rfl⟩)), clean_give.mpr ⟨?_, ?_⟩⟩
    · rw [u32_of_lt (by omega)]
      rfl
    · rw [u32_of_lt (by omega)]
      omega
  | .add name value rest =>
    simp only [SdObj.size] at hw
    have hopen := opens_at (e := e) h (by omega)
    obtain ⟨hname, hvalue⟩ := holds_append.mp h
    obtain ⟨hvalue, hrest⟩ := holds_append.mp hvalue
    obtain ⟨hnamed, hcount, hstr⟩ := named_at (e := e) hname (by omega)
    have hlen : (rnsHtob16 name.str.length ++ name.str).length = name.size := by
      simp only [List.length_append, rnsHtob16, htob_length, SdStr.size]
      omega
    have hnext : 2 + rnsBtoh16 m w = name.size := by
      rw [hcount, SdStr.size, Nat.add_comm]
    rw [hlen, value_bytes_length] at hrest
    rw [hlen] at hvalue
    have hv := value_read value (w + name.size) fuel ho.1 hvalue (by omega) he (by omega)
    have hr := obj_read rest buf (w + name.size + value.size) (fuel + 1) ho.2 hrest (by omega) (by omega)
      he (by omega)
    refine ⟨true, clean_more.mpr (.inl ⟨hopen, rfl⟩), ?_⟩
    rw [if_pos rfl, clean_bind]
    refine ⟨_, (clean_ppt he (by omega) hnamed).mpr ⟨_, by rw [hnext]; exact hv, rfl⟩, ?_⟩
    simp only [pptGive, hnext, hstr, clean_bind, ← Nat.add_assoc]
    refine ⟨_, hr, clean_pure.mpr ?_⟩
    simp only [Option.map_some, SdObj.size, Nat.add_assoc]

end

/-- An encoding delimits its own value: the readers stay inside it. -/
theorem bytes_delimited {v : SdValue} {size : UInt32} (hv : v.Whole) (h : Holds m 0 v.bytes)
    (hs : v.size ≤ size.toNat) : Delimited m size.toNat := by
  have hr := value_read v 0 (readFuel size.toNat) hv h (by omega) size.toNat_lt (by simp [readFuel])
  exact (value_safe size.toNat_lt).mp hr.2

end

/-- Written at the start of a block and followed by `suffix`, the value is read back
with the length that was written. -/
def RoundTrips (v : SdValue) (suffix : List UInt8) : Prop :=
  ∃ wr, sdValueWrite v 0 = some wr ∧ ∀ block m : Mem,
    (∀ i : Nat, (i : Int) < wr.ret → m i = store block wr.stores i) →
    Holds m wr.ret.toNat suffix →
    (readValue m (wr.ret.toNat + suffix.length)).ret = some (some v, wr.ret.toNat)

/-- A value shorter than 2 GiB survives writing and reading, whatever follows it. -/
theorem value_round_trip (v : SdValue) (suffix : List UInt8) (hv : v.Whole)
    (hs : v.size < 2 ^ 31) (he : v.size + suffix.length < 2 ^ 32) : RoundTrips v suffix := by
  refine ⟨_, value_write v 0 hv hs, ?_⟩
  intro block m hblock _
  simp only [Int.toNat_natCast]
  have hbytes : Holds m 0 v.bytes := by
    intro i hi
    rw [value_bytes_length] at hi
    rw [Nat.zero_add, hblock i (by simpa using hi)]
    have hput := store_put (m := block) (w := 0) i (by rwa [value_bytes_length])
    simpa using hput
  exact (value_read v 0 _ hv hbytes (by omega) he (by simp [readFuel])).1

/-- A short value before an arbitrary byte. -/
theorem value_round_trip_ui8 : RoundTrips (.obj (.add ⟨[], by decide⟩ (.ui8 1) .nil)) [255] :=
  value_round_trip _ _ ⟨trivial, trivial⟩ (by decide) (by decide)

/-- `n` unnamed properties with one string each. -/
def repeatObj (s : SdStr) : Nat → SdObj
  | 0 => .nil
  | n + 1 => .add ⟨[], by decide⟩ (.str s) (repeatObj s n)

theorem repeat_whole (s : SdStr) (n : Nat) : (repeatObj s n).Whole := by
  induction n with
  | zero => trivial
  | succ n ih => exact ⟨trivial, ih⟩

theorem repeat_size (s : SdStr) (n : Nat) : (repeatObj s n).size = 3 + n * (s.size + 3) := by
  induction n with
  | zero => simp [repeatObj, SdObj.size]
  | succ n ih =>
    simp only [repeatObj, SdObj.size, ih, SdValue.size]
    simp only [SdStr.size, List.length_nil]
    ring

theorem repeat_write (s : SdStr) (buf w : Int) (n : Nat) :
    ∃ stores, sdObjWrite buf (repeatObj s n) w =
      some ⟨stores, i32 (w + ((repeatObj s n).size : Int) - buf)⟩ := by
  have hshort := s.short
  have hs : s.size < 2 ^ 31 - 3 := by
    simp only [SdStr.size]
    omega
  induction n generalizing w with
  | zero => exact ⟨_, rfl⟩
  | succ n ih =>
    have hv := value_write (.str s) (w + (sdStrWrite ⟨[], by decide⟩ w).ret) trivial
      (by simp only [SdValue.size]; omega)
    have hnext (st : List (Int × UInt8)) :
        (Wr.named ⟨[], by decide⟩ w ⟨st, ((SdValue.str s).size : Nat)⟩).ret = s.size + 3 := by
      simp only [Wr.named, str_write_ret, SdValue.size]
      simp only [SdStr.size, List.length_nil] at hs ⊢
      rw [i32_of_lt (by omega) (by omega)]
      push_cast
      omega
    obtain ⟨stores, hr⟩ := ih (w + (s.size + 3))
    refine ⟨(Wr.named ⟨[], by decide⟩ w ⟨put (w + (sdStrWrite ⟨[], by decide⟩ w).ret)
      (SdValue.str s).bytes, ((SdValue.str s).size : Nat)⟩).stores ++ stores, ?_⟩
    simp only [repeatObj, sdObjWrite, hv]
    rw [hnext, hr]
    have hret : w + (s.size + 3) + ((repeatObj s n).size : Int) - buf =
        w + ((SdObj.add ⟨[], by decide⟩ (.str s) (repeatObj s n)).size : Int) - buf := by
      simp only [SdObj.size, SdValue.size, SdStr.size, List.length_nil]
      push_cast
      omega
    rw [hret]

theorem ret_bind {x : Rd α} {f : α → Rd β} {b : β} :
    (x >>= f).ret = some b ↔ ∃ a, x.ret = some a ∧ (f a).ret = some b := by
  obtain ⟨ret, log⟩ := x
  cases ret with
  | none =>
    change none = some b ↔ _
    simp
  | some a =>
    change (f a).ret = some b ↔ _
    simp

/-- An array has at least its four count bytes. -/
theorem ecma_needs_count {m : Mem} {e w fuel type n : Nat} {size : UInt32} {o : SdObj}
    (h : (sdRead m e fuel type w).ret = some (.ecma size o, n)) : 4 ≤ e - w := by
  have some_pure {α : Type} {a b : α} (h : (pure a : Rd α).ret = some b) : a = b :=
    Option.some.inj h
  cases fuel with
  | zero => cases h
  | succ fuel =>
    unfold sdRead at h
    obtain ⟨_, _, h⟩ := ret_bind.mp h
    split at h
    · obtain ⟨⟨_ | _, _⟩, _, h⟩ := ret_bind.mp h <;> cases some_pure h
    · obtain ⟨⟨_ | _, _⟩, _, h⟩ := ret_bind.mp h <;> cases some_pure h
    · obtain ⟨⟨_ | _, _⟩, _, h⟩ := ret_bind.mp h <;> cases some_pure h
    · obtain ⟨⟨_ | _, _⟩, _, h⟩ := ret_bind.mp h <;> cases some_pure h
    · cases some_pure h
    · cases some_pure h
    · cases some_pure h
    · cases some_pure h
    · obtain ⟨⟨_ | _, _⟩, hecma, h⟩ := ret_bind.mp h
      · cases some_pure h
      · by_contra hcut
        cases fuel with
        | zero => cases hecma
        | succ fuel =>
          rw [sdEcmaRead, if_pos (by omega)] at hecma
          cases Option.some.inj hecma
    · cases h

theorem one_byte_no_array {m : Mem} {size : UInt32} {o : SdObj} {n : Nat} :
    (readValue m 1).ret ≠ some (some (.ecma size o), n) := by
  intro h
  have hr : (sdValueRead m 1 8 0).ret = some (some (.ecma size o), n) := h
  rw [sdValueRead, if_neg (by omega)] at hr
  obtain ⟨_, _, hr⟩ := ret_bind.mp hr
  split at hr
  · cases Option.some.inj hr
  · obtain ⟨⟨v, k⟩, hread, hr⟩ := ret_bind.mp hr
    cases Option.some.inj hr
    have := ecma_needs_count hread
    omega

/-- From 2 GiB on the object writer's length is negative, and the array is said to
have taken one byte. -/
theorem long_not_read_back {s : SdStr} {n : Nat} (h0 : 2 ^ 31 ≤ 3 + n * (s.size + 3))
    (h1 : 3 + n * (s.size + 3) < 2 ^ 32) : ¬ RoundTrips (.ecma 0 (repeatObj s n)) [] := by
  rintro ⟨wr, hwr, hread⟩
  obtain ⟨stores, hobj⟩ := repeat_write s (0 + 1 + 4) (0 + 1 + 4) n
  have hsize := repeat_size s n
  have hneg : i32 (0 + 1 + 4 + ((repeatObj s n).size : Int) - (0 + 1 + 4)) < 0 := by
    rw [i32_of_ge (by omega) (by omega)]
    omega
  have hret : wr.ret = 1 := by
    simp only [sdValueWrite, hobj, Option.map_some, Option.some.injEq] at hwr
    simp only [← hwr, Wr.tagged, Wr.counted, if_pos hneg]
    decide
  have hone := hread (fun _ => 0) (store (fun _ => 0) wr.stores) (fun _ _ => rfl) (holds_nil _ _)
  rw [hret] at hone
  exact one_byte_no_array hone

theorem string_of_length {n : Nat} (h : n < 2 ^ 16) : ∃ s : SdStr, s.size = n + 2 :=
  ⟨⟨List.replicate n 0, by rwa [List.length_replicate]⟩, by
    simp only [SdStr.size, List.length_replicate]⟩

/-- An array of 2 GiB, of the longest strings there are, does not come back from a
block with room for all of it. -/
theorem long_array_not_read_back :
    ¬ ∀ (v : SdValue) (suffix : List UInt8), v.Whole → v.size + suffix.length < 2 ^ 32 →
      RoundTrips v suffix := by
  intro h
  obtain ⟨s, hs⟩ := string_of_length (n := 65535) (by norm_num)
  have hobj := repeat_size s 32768
  have hsize : (SdValue.ecma 0 (repeatObj s 32768)).size = 5 + (3 + 32768 * (s.size + 3)) := by
    rw [SdValue.size, hobj]
  refine long_not_read_back (s := s) (n := 32768) (by omega) (by omega) (h _ [] ?_ ?_)
  · exact repeat_whole s 32768
  · rw [hsize, List.length_nil]
    omega

end Yclib.Amf
