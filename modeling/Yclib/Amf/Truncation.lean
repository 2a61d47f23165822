import Yclib.Amf.RoundTrip

namespace Yclib.Amf
open Network

/-! What `sd_value_read` makes of a value whose end has not come yet. -/

section
variable {m : Mem} {e w fuel : Nat}

/-- Behind a type that has a reader, a value is returned whatever came of its payload. -/
theorem typed_taken {r : Option SdValue × Nat} (hw : w < e) (ht : (m w).toNat < sdTypeEnd)
    (hr : (sdValueRead m e fuel w).ret = some r) : r.1.isSome := by
  cases fuel with
  | zero => cases hr
  | succ fuel =>
    rw [sdValueRead, if_neg (by omega), ret_bind] at hr
    obtain ⟨_, -, hr⟩ := hr
    rw [if_neg (by omega), ret_bind] at hr
    obtain ⟨value, -, hr⟩ := hr
    cases hr
    rfl

theorem absent_needs_more (m : Mem) : (readValue m 0).ret = some (none, 0) := rfl

/-- A part of a value that has its type is taken for a value, wherever in the value it is cut. -/
theorem cut_taken {v : SdValue} {n : Nat} {r : Option SdValue × Nat} (hn : 0 < n)
    (hm : Holds m 0 (v.bytes.take n)) (hr : (readValue m n).ret = some r) : r.1.isSome := by
  obtain ⟨tail, hbytes⟩ := value_bytes_head v
  obtain ⟨n, rfl⟩ := Nat.exists_eq_add_of_le' hn
  rw [hbytes, List.take_succ_cons] at hm
  have htype : (m 0).toNat = v.type := by
    have hlt := v.type_lt
    rw [(holds_cons.mp hm).1, UInt8.toNat_ofNat']
    omega
  apply typed_taken hn ?_ hr
  have hlt := v.type_lt
  have hend : sdTypeEnd = 13 := rfl
  omega

end

/-- Of the strict prefixes of an encoded value, more data is asked for behind the empty one
alone. -/
theorem cut_needs_more_iff {v : SdValue} {n : Nat} (hn : n < v.bytes.length) {m : Mem}
    (hm : Holds m 0 (v.bytes.take n)) : (readValue m n).ret = some (none, 0) ↔ n = 0 := by
  constructor
  · intro hr
    by_contra hpos
    have htaken := cut_taken (Nat.pos_of_ne_zero hpos) hm hr
    cases htaken
  · intro hzero
    subst hzero
    exact absent_needs_more m

theorem cut_needs_more_iff_byte :
    (readValue (fun _ => 1) 1).ret = some (none, 0) ↔ 1 = 0 :=
  @cut_needs_more_iff (.ui8 7) 1 (by decide) _ (fun k hk => by
    obtain rfl : k = 0 := by simpa [SdValue.bytes] using hk
    rfl)

/-- A number of which the type alone has come is read as a number, of one byte. -/
theorem cut_number_taken : ¬ ∀ (v : SdValue) (n : Nat) (m : Mem), v.Whole → n < v.bytes.length →
    Holds m 0 (v.bytes.take n) → (readValue m n).ret = some (none, 0) := by
  intro hall
  have hm : Holds (fun _ => 0) 0 ((SdValue.dbl 0).bytes.take 1) := by
    intro k hk
    obtain rfl : k = 0 := by simpa [SdValue.bytes] using hk
    rfl
  have hcut := hall (.dbl 0) 1 (fun _ => 0) trivial (by rw [value_bytes_length]; decide) hm
  have htaken := cut_taken (Nat.one_pos) hm hcut
  cases htaken

end Yclib.Amf
