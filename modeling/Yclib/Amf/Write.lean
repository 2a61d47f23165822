import Yclib.Amf.Value

namespace Yclib.Amf
open Network

/-- What a writer did: the bytes it stored, in order and each with its offset in the
block, and the length it returned. -/
structure Wr where
  stores : List (Int × UInt8)
  ret : Int

/-- Store bytes one after another from offset `w` on. -/
def put (w : Int) : List UInt8 → List (Int × UInt8)
  | [] => []
  | b :: bs => (w, b) :: put (w + 1) bs

/-- The block after the stores. -/
def store (m : Mem) (stores : List (Int × UInt8)) : Mem :=
  stores.foldl (fun m s => fun i => if (i : Int) = s.1 then s.2 else m i) m

-- No writer looks at the size it is given, so the sizes are left out.

def sdDblWrite (d : UInt64) (w : Int) : Wr := ⟨put w (rnsHtobd d), 8⟩

def sdUi8Write (b : UInt8) (w : Int) : Wr := ⟨put w [b], 1⟩

def sdStrWrite (s : SdStr) (w : Int) : Wr :=
  ⟨put w (rnsHtob16 s.str.length) ++ put (w + 2) s.str, s.str.length + 2⟩

/-- `sd_value_write` around the writer its table selects. -/
def Wr.tagged (type : Nat) (w : Int) (payload : Wr) : Wr :=
  ⟨(w, UInt8.ofNat type) :: payload.stores, i32 (1 + payload.ret)⟩

/-- `sd_ecma_write` around the writer of its object. -/
def Wr.counted (size : UInt32) (w : Int) (obj : Wr) : Wr :=
  ⟨put w (rnsHtob32 size.toNat) ++ obj.stores, if obj.ret < 0 then 0 else i32 (4 + obj.ret)⟩

/-- `sd_objppt_write` around the writer of its value. -/
def Wr.named (name : SdStr) (w : Int) (value : Wr) : Wr :=
  ⟨(sdStrWrite name w).stores ++ value.stores, i32 ((sdStrWrite name w).ret + value.ret)⟩

mutual

/-- `sd_value_write`, with the table `sd_write` spelled out. There is no result where
a writer that needs its payload is handed NULL. -/
def sdValueWrite : SdValue → Int → Option Wr
  | .dbl d, w => some ((sdDblWrite d (w + 1)).tagged 0 w)
  | .ui8 b, w => some ((sdUi8Write b (w + 1)).tagged 1 w)
  | .str s, w => some ((sdStrWrite s (w + 1)).tagged 2 w)
  | .obj o, w => (sdObjWrite (w + 1) o (w + 1)).map (Wr.tagged 3 w)
  | .ecma size o, w =>
    ((sdObjWrite (w + 1 + 4) o (w + 1 + 4)).map (Wr.counted size (w + 1))).map (Wr.tagged 8 w)
  | .null type, w =>
    if 4 ≤ type.val ∧ type.val ≤ 7 then some (Wr.tagged type w ⟨[], 0⟩) else none

/-- `sd_obj_write` of the object at `buf`, with its loop at `w`. -/
def sdObjWrite (buf : Int) : SdObj → Int → Option Wr
  | .nil, w => some ⟨put w [0, 0, 9], i32 (w + 3 - buf)⟩
  | .add name value rest, w =>
    match sdValueWrite value (w + (sdStrWrite name w).ret) with
    | none => none
    | some v =>
      match sdObjWrite buf rest (w + (v.named name w).ret) with
      | none => none
      | some r => some ⟨(v.named name w).stores ++ r.stores, r.ret⟩

end

def sdEcmaWrite (size : UInt32) (o : SdObj) (w : Int) : Option Wr :=
  (sdObjWrite (w + 4) o (w + 4)).map (Wr.counted size w)

theorem put_append (w : Int) (xs ys : List UInt8) :
    put w (xs ++ ys) = put w xs ++ put (w + xs.length) ys := by
  induction xs generalizing w with
  | nil => simp [put]
  | cons x xs ih =>
    simp only [List.cons_append, put, ih, List.length_cons]
    congr 3
    push_cast
    omega

theorem put_mem {w : Int} {bs : List UInt8} {s : Int × UInt8} (h : s ∈ put w bs) :
    w ≤ s.1 ∧ s.1 < w + bs.length := by
  induction bs generalizing w with
  | nil => simp [put] at h
  | cons b bs ih =>
    simp only [put, List.mem_cons] at h
    simp only [List.length_cons]
    rcases h with rfl | h
    · constructor
      · exact le_refl _
      · push_cast
        omega
    · have := ih h
      push_cast
      omega

/-- Consecutive stores leave their bytes in the block. -/
theorem store_put {m : Mem} {w : Nat} {bs : List UInt8} : Holds (store m (put w bs)) w bs := by
  have keep (m : Mem) (v : Int) (bs : List UInt8) (i : Nat) (hi : (i : Int) < v) :
      store m (put v bs) i = m i := by
    induction bs generalizing m v with
    | nil => rfl
    | cons b bs ih =>
      simp only [put, store, List.foldl_cons]
      rw [← store, ih _ _ (by omega)]
      simp [show (i : Int) ≠ v by omega]
  induction bs generalizing m w with
  | nil => exact holds_nil _ _
  | cons b bs ih =>
    refine holds_cons.mpr ⟨?_, ?_⟩
    · simp only [put, store, List.foldl_cons]
      rw [← store, keep _ _ _ _ (by omega)]
      simp
    · simp only [put, store, List.foldl_cons]
      rw [← store]
      exact_mod_cast ih

mutual

/-- A value is written exactly when every payload it needs is there. -/
theorem value_write_isSome (v : SdValue) (w : Int) : (sdValueWrite v w).isSome ↔ v.Whole := by
  match v with
  | .dbl _ => simp [sdValueWrite, SdValue.Whole]
  | .ui8 _ => simp [sdValueWrite, SdValue.Whole]
  | .str _ => simp [sdValueWrite, SdValue.Whole]
  | .obj o => simp [sdValueWrite, SdValue.Whole, obj_write_isSome _ o]
  | .ecma _ o => simp [sdValueWrite, SdValue.Whole, obj_write_isSome _ o]
  | .null type =>
    simp only [sdValueWrite, SdValue.Whole]
    split <;> simp [*]

theorem obj_write_isSome (buf : Int) (o : SdObj) (w : Int) :
    (sdObjWrite buf o w).isSome ↔ o.Whole := by
  match o with
  | .nil => simp [sdObjWrite, SdObj.Whole]
  | .add name value rest =>
    have hv := value_write_isSome value (w + (sdStrWrite name w).ret)
    simp only [sdObjWrite, SdObj.Whole]
    split
    · rename_i h
      simp only [h, Option.isSome_none, Bool.false_eq_true, false_iff] at hv
      simp [hv]
    · rename_i v h
      have hr := obj_write_isSome buf rest (w + (v.named name w).ret)
      simp only [h, Option.isSome_some, true_iff] at hv
      split
      · rename_i h
        simp only [h, Option.isSome_none, Bool.false_eq_true, false_iff] at hr
        simp [hr]
      · rename_i r h
        simp only [h, Option.isSome_some, true_iff] at hr
        simp [hv, hr]

end

@[simp] theorem str_write_stores (s : SdStr) (w : Int) :
    (sdStrWrite s w).stores = put w (rnsHtob16 s.str.length ++ s.str) := by
  simp [sdStrWrite, put_append, rnsHtob16]

@[simp] theorem str_write_ret (s : SdStr) (w : Int) : (sdStrWrite s w).ret = s.size := by
  simp [sdStrWrite, SdStr.size]

/-- A property whose value is written as its encoding is written as its own. -/
theorem named_write {name : SdStr} {value : SdValue} {w : Int}
    (hsize : name.size + value.size < 2 ^ 31) :
    Wr.named name w ⟨put (w + name.size) value.bytes, value.size⟩ =
      ⟨put w ((rnsHtob16 name.str.length ++ name.str) ++ value.bytes), name.size + value.size⟩ := by
  have hlen : ((rnsHtob16 name.str.length ++ name.str).length : Int) = name.size := by
    simp only [List.length_append, rnsHtob16, htob_length, SdStr.size]
    push_cast
    omega
  simp only [Wr.named, str_write_stores, str_write_ret]
  rw [put_append _ (rnsHtob16 name.str.length ++ name.str), hlen, i32_of_lt (by omega) (by omega)]

theorem counted_write {size : UInt32} {o : SdObj} {w : Int} (hs : 4 + o.size < 2 ^ 31) :
    Wr.counted size w ⟨put (w + 4) o.bytes, o.size⟩ =
      ⟨put w (rnsHtob32 size.toNat ++ o.bytes), 4 + o.size⟩ := by
  simp only [Wr.counted, put_append, rnsHtob32, htob_length, Nat.cast_ofNat,
    show ¬ (o.size : Int) < 0 by omega, if_false]
  rw [i32_of_lt (by omega) (by omega)]

mutual

/-- A value shorter than 2 GiB is written as its encoding. -/
theorem value_write (v : SdValue) (w : Int) (hv : v.Whole) (hs : v.size < 2 ^ 31) :
    sdValueWrite v w = some ⟨put w v.bytes, v.size⟩ := by
  match v with
  | .dbl d => simp [sdValueWrite, Wr.tagged, sdDblWrite, SdValue.bytes, SdValue.size, put, i32]
  | .ui8 b => simp [sdValueWrite, Wr.tagged, sdUi8Write, SdValue.bytes, SdValue.size, put, i32]
  | .str s =>
    have hret : i32 (1 + s.size) = ((1 + s.size : Nat) : Int) := by
      rw [i32_of_lt (by omega) (by simp only [SdValue.size] at hs; omega)]
      push_cast
      rfl
    simp only [sdValueWrite, Wr.tagged, str_write_stores, str_write_ret, hret, SdValue.bytes,
      SdValue.size, put]
    rfl
  | .obj o =>
    simp only [SdValue.size] at hs
    have ho := obj_write (w + 1) o (w + 1) hv (by omega) (by omega)
    have hret : i32 (1 + (w + 1 + o.size - (w + 1))) = ((1 + o.size : Nat) : Int) := by
      rw [i32_of_lt (by omega) (by omega)]
      push_cast
      omega
    simp only [sdValueWrite, ho, Option.map_some, Wr.tagged, hret, SdValue.bytes, SdValue.size, put]
    rfl
  | .ecma size o =>
    simp only [SdValue.size] at hs
    have ho := obj_write (w + 1 + 4) o (w + 1 + 4) hv (by omega) (by omega)
    have hret : i32 (1 + (4 + (o.size : Int))) = ((5 + o.size : Nat) : Int) := by
      rw [i32_of_lt (by omega) (by omega)]
      push_cast
      omega
    rw [show w + 1 + 4 + (o.size : Int) - (w + 1 + 4) = o.size by omega] at ho
    simp only [sdValueWrite, ho, Option.map_some, counted_write (show 4 + o.size < 2 ^ 31 by omega)]
    simp only [Wr.tagged, hret, SdValue.bytes, SdValue.size, put]
    rfl
  | .null type =>
    have hret : i32 1 = 1 := by decide
    simp only [SdValue.Whole] at hv
    simp [sdValueWrite, hv, Wr.tagged, SdValue.bytes, SdValue.size, put, hret]

theorem obj_write (buf : Int) (o : SdObj) (w : Int) (ho : o.Whole) (hb : buf ≤ w)
    (hs : w + o.size - buf < 2 ^ 31) :
    sdObjWrite buf o w = some ⟨put w o.bytes, w + o.size - buf⟩ := by
  match o with
  | .nil =>
    simp only [SdObj.size] at hs
    simp only [sdObjWrite, SdObj.bytes, SdObj.size]
    rw [i32_of_lt (by omega) (by omega)]
    rfl
  | .add name value rest =>
    obtain ⟨hvalue, hrest⟩ := ho
    simp only [SdObj.size] at hs
    push_cast at hs
    have hv := value_write value (w + name.size) hvalue (by omega)
    have hr := obj_write buf rest (w + (name.size + value.size)) hrest (by omega) (by omega)
    simp only [sdObjWrite, str_write_ret, hv]
    rw [named_write (by omega)]
    have hlen : ((rnsHtob16 name.str.length ++ name.str ++ value.bytes).length : Int) =
        name.size + value.size := by
      simp only [List.length_append, rnsHtob16, htob_length, SdStr.size, value_bytes_length]
      push_cast
      omega
    simp only [hr, SdObj.bytes, SdObj.size]
    rw [← List.append_assoc, put_append _ (rnsHtob16 name.str.length ++ name.str ++ value.bytes), hlen]
    push_cast
    congr 2
    omega

end

theorem ecma_write {size : UInt32} {o : SdObj} {w : Int} (ho : o.Whole)
    (hs : 4 + o.size < 2 ^ 31) :
    sdEcmaWrite size o w = some ⟨put w (rnsHtob32 size.toNat ++ o.bytes), 4 + o.size⟩ := by
  have hobj := obj_write (w + 4) o (w + 4) ho (by omega) (by omega)
  rw [show w + 4 + (o.size : Int) - (w + 4) = o.size by omega] at hobj
  rw [sdEcmaWrite, hobj, Option.map_some, counted_write hs]

end Yclib.Amf
