import Yclib.Amf.Span

namespace Yclib.Amf
open Network

section
variable {m : Mem} {e : Nat}

/-- The reader's answer to a span: NULL and zero for more bytes, NULL and the whole
size for a refusal, an object and its length otherwise. The reader was called at
`buf`, has got to `w`, and never goes back behind `lo`. -/
def Answers (e buf lo w : Nat) (r : Option α × Nat) : Stop → Prop
  | .more => r = (none, 0)
  | .reject => r = (none, e - buf) ∧ w < e
  | .upto n => r.1.isSome ∧ r.2 = n - buf ∧ lo ≤ n ∧ n ≤ e

/-- Reading inside the buffer and the grammar of the buffer are one thing. -/
def Agrees (e buf lo w : Nat) (span : Stop → Prop) (x : Rd (Option α × Nat)) : Prop :=
  (∀ r, Clean e x r → ∃ s, span s ∧ Answers e buf lo w r s) ∧
  ∀ s, span s → ∃ r, Clean e x r ∧ Answers e buf lo w r s

/-- The answer about the properties after the first is the answer about all of them. -/
theorem obj_answer {buf lo w n : Nat} {o : Option α × Nat} {s : Stop} {f : α → β} (hn : w ≤ n)
    (h : Answers e buf lo n o s) : Answers e buf lo w (o.1.map f, o.2) s := by
  cases s with
  | more =>
    obtain rfl : o = (none, 0) := h
    rfl
  | reject =>
    obtain ⟨rfl, hlt⟩ : o = (none, _) ∧ _ := h
    exact ⟨rfl, by omega⟩
  | upto next =>
    obtain ⟨hsome, hlen, hlt, hle⟩ := h
    exact ⟨by simpa using hsome, hlen, hlt, hle⟩

theorem obj_agrees {fuel buf w : Nat} (hb : buf ≤ w) (hw : w ≤ e) (he : e < 2 ^ 32)
    (ihv : ∀ v, w < v → v ≤ e → Agrees e v (v + 1) v (ValueSpan m e v) (sdValueRead m e fuel v))
    (iho : ∀ v, w < v → v ≤ e → Agrees e buf buf v (ObjSpan m e buf v) (sdObjRead m e (fuel + 1) buf v)) :
    Agrees e buf buf w (ObjSpan m e buf w) (sdObjRead m e (fuel + 2) buf w) := by
  have hsize : u32 (e - buf) = e - buf := u32_of_lt (by omega)
  constructor
  · intro r hr
    rw [sdObjRead, clean_bind] at hr
    obtain ⟨b, hb, hr⟩ := hr
    rcases clean_more.mp hb with ⟨hopen, rfl⟩ | ⟨hclose, rfl⟩ | ⟨hend, rfl⟩
    · simp only [if_true, clean_bind] at hr
      obtain ⟨p, hp, hr⟩ := hr
      by_cases hn : Named m e w
      · obtain ⟨v, hv, rfl⟩ := (clean_ppt he hw hn).mp hp
        have hend := named_end hw hn
        obtain ⟨s, hspan, hans⟩ := (ihv _ (by omega) hend).1 v hv
        cases s with
        | more =>
          obtain rfl : v = (none, 0) := hans
          obtain ⟨rfl, _⟩ := clean_give.mp hr
          exact ⟨.more, .more hopen hn hspan, rfl⟩
        | reject =>
          obtain ⟨rfl, hlt⟩ : v = (none, _) ∧ _ := hans
          have hpos : e - (w + (2 + rnsBtoh16 m w)) ≠ 0 := by omega
          have hpos' : e - w ≠ 0 := by omega
          simp only [pptGive, hpos, hpos', ne_eq, not_false_eq_true, if_true, clean_give, hsize] at hr
          exact ⟨.reject, .reject hopen hn hspan, hr.1, by omega⟩
        | upto n =>
          obtain ⟨v, len⟩ := v
          obtain ⟨hsome, hlen, hlt, hle⟩ := hans
          obtain ⟨value, rfl⟩ := Option.isSome_iff_exists.mp hsome
          have hnext : w + (2 + rnsBtoh16 m w + len) = n := by
            simp only at hlen
            omega
          simp only [pptGive, clean_bind, hnext] at hr
          obtain ⟨o, ho, hr⟩ := hr
          obtain ⟨s, hspan', hans'⟩ := (iho n (by omega) hle).1 o ho
          obtain rfl := clean_pure.mp hr
          exact ⟨s, .ppt hopen hn hspan hspan', obj_answer (by omega) hans'⟩
      · obtain rfl := (clean_ppt_cut hn).mp hp
        obtain ⟨rfl, _⟩ := clean_give.mp hr
        exact ⟨.more, .cut hopen hn, rfl⟩
    · obtain ⟨rfl, _⟩ := clean_give.mp hr
      have := hclose.1
      have hlen : u32 (w + 3 - buf) = w + 3 - buf := u32_of_lt (by omega)
      exact ⟨.upto (w + 3), .close hclose, rfl, hlen, by omega, by omega⟩
    · obtain ⟨rfl, hle⟩ := clean_give.mp hr
      obtain rfl : w = e := le_antisymm hw hend
      by_cases hbig : 2 ^ 32 ≤ w + 3 - buf
      · have hlen : u32 (w + 3 - buf) = w + 3 - buf - 2 ^ 32 := by
          unfold u32
          omega
        exact ⟨_, .wrap hbig, rfl, by simp only [hlen]; omega, by omega, by omega⟩
      · rw [u32_of_lt (by omega)] at hle
        omega
  · intro s hspan
    rw [sdObjRead]
    simp only [clean_bind, clean_more]
    cases hspan with
    | close h =>
      have hlen : u32 (w + 3 - buf) = w + 3 - buf := u32_of_lt (by have := h.1; omega)
      have := h.1
      refine ⟨(some .nil, w + 3 - buf), ⟨false, .inr (.inl ⟨h, rfl⟩), ?_⟩, rfl, rfl, by omega, by omega⟩
      exact clean_give.mpr ⟨by rw [hlen], by rw [hlen]; omega⟩
    | cut h hn =>
      refine ⟨(none, 0), ⟨true, .inl ⟨h, rfl⟩, ?_⟩, rfl⟩
      rw [if_pos rfl, clean_bind]
      exact ⟨_, (clean_ppt_cut hn).mpr rfl, clean_give.mpr ⟨rfl, by simp [u32]⟩⟩
    | more h hn hv =>
      have hend := named_end hw hn
      obtain ⟨v, hc, rfl⟩ := (ihv _ (by omega) hend).2 _ hv
      refine ⟨(none, 0), ⟨true, .inl ⟨h, rfl⟩, ?_⟩, rfl⟩
      rw [if_pos rfl, clean_bind]
      exact ⟨_, (clean_ppt he hw hn).mpr ⟨_, hc, rfl⟩, clean_give.mpr ⟨rfl, by simp [pptGive, u32]⟩⟩
    | reject h hn hv =>
      have hend := named_end hw hn
      obtain ⟨v, hc, rfl, hlt⟩ := (ihv _ (by omega) hend).2 _ hv
      refine ⟨(none, e - buf), ⟨true, .inl ⟨h, rfl⟩, ?_⟩, rfl, by omega⟩
      rw [if_pos rfl, clean_bind]
      refine ⟨_, (clean_ppt he hw hn).mpr ⟨_, hc, rfl⟩, ?_⟩
      have hpos : e - (w + (2 + rnsBtoh16 m w)) ≠ 0 := by omega
      have hpos' : e - w ≠ 0 := by omega
      simp [pptGive, hpos, hpos', hsize]
    | @ppt _ _ n s h hn hv ho =>
      have hend := named_end hw hn
      obtain ⟨⟨v, len⟩, hc, hsome, hlen, hlt, hle⟩ := (ihv _ (by omega) hend).2 _ hv
      obtain ⟨value, rfl⟩ := Option.isSome_iff_exists.mp hsome
      obtain ⟨o, hco, hans⟩ := (iho n (by omega) hle).2 s ho
      have hnext : w + (2 + rnsBtoh16 m w + len) = n := by
        simp only at hlen
        omega
      refine ⟨(o.1.map (.add (strAt m w) value), o.2), ⟨true, .inl ⟨h, rfl⟩, ?_⟩, ?_⟩
      · rw [if_pos rfl, clean_bind]
        refine ⟨_, (clean_ppt he hw hn).mpr ⟨_, hc, rfl⟩, ?_⟩
        simp only [pptGive, hnext, clean_bind]
        exact ⟨o, hco, clean_pure.mpr rfl⟩
      · exact obj_answer (w := w) (by omega) hans
    | wrap hbig =>
      have hlen : u32 (e + 3 - buf) = e + 3 - buf - 2 ^ 32 := by
        unfold u32
        omega
      refine ⟨(some .nil, u32 (e + 3 - buf)), ⟨false, .inr (.inr ⟨le_refl e, rfl⟩), ?_⟩, rfl, ?_⟩
      · exact clean_give.mpr ⟨rfl, by omega⟩
      · simp only [hlen]
        omega

theorem value_upto {fuel w n : Nat} {v : SdValue × Nat} (ht : (m w).toNat < sdTypeEnd)
    (hv : Clean e (sdRead m e fuel (m w).toNat (w + 1)) v) (hu : u32 (1 + v.2) = n - w)
    (hn : w < n) (hle : n ≤ e) :
    ∃ r, Clean e (sdValueRead m e (fuel + 1) w) r ∧ Answers e w (w + 1) w r (.upto n) :=
  ⟨_, (clean_value (by omega) ht).mpr ⟨v, hv, rfl, by omega⟩, rfl, hu, hn, hle⟩

/-- The consumed length of a nested object, whatever came of it. -/
theorem answer_next {w : Nat} {o : Option α × Nat} {s : Stop} (hw : w ≤ e)
    (h : Answers e w w w o s) : o.2 = s.next e w - w ∧ w ≤ s.next e w ∧ s.next e w ≤ e := by
  cases s with
  | more =>
    obtain rfl : o = (none, 0) := h
    exact ⟨(Nat.sub_self w).symm, le_refl w, hw⟩
  | reject =>
    obtain ⟨rfl, hlt⟩ : o = (none, _) ∧ _ := h
    exact ⟨rfl, hw, le_refl e⟩
  | upto next =>
    obtain ⟨hsome, hlen, hlt, hle⟩ := h
    exact ⟨hlen, hlt, hle⟩

/-- The consumed length of an array, from the answer about the object in it. -/
theorem ecma_next {w : Nat} {o : Option SdObj × Nat} {s : Stop} (hw : 4 ≤ e - w)
    (h : Answers e (w + 4) (w + 4) (w + 4) o s) :
    (ecmaGive m e w o).2 = s.next e w - w ∧ w ≤ s.next e w ∧ s.next e w ≤ e := by
  cases s with
  | more =>
    obtain rfl : o = (none, 0) := h
    exact ⟨(Nat.sub_self w).symm, le_refl w, by simp only [Stop.next]; omega⟩
  | reject =>
    obtain ⟨rfl, hlt⟩ : o = (none, _) ∧ _ := h
    have hpos : e - (w + 4) ≠ 0 := by omega
    exact ⟨by simp [ecmaGive, hpos, Stop.next], by simp only [Stop.next]; omega, le_refl e⟩
  | upto next =>
    obtain ⟨obj, len⟩ := o
    obtain ⟨hsome, hlen, hlt, hle⟩ := h
    obtain ⟨obj, rfl⟩ := Option.isSome_iff_exists.mp hsome
    simp only at hlen
    exact ⟨by simp only [ecmaGive, Stop.next]; omega, by simp only [Stop.next]; omega, hle⟩

theorem value_agrees {fuel w : Nat} (hw : w ≤ e) (he : e < 2 ^ 32)
    (ih : ∀ v, w < v → v ≤ e → Agrees e v v v (ObjSpan m e v v) (sdObjRead m e (fuel + 1) v v))
    (ihe : ∀ v, w < v → v ≤ e → Agrees e v v v (ObjSpan m e v v) (sdObjRead m e fuel v v)) :
    Agrees e w (w + 1) w (ValueSpan m e w) (sdValueRead m e (fuel + 3) w) := by
  have hbound : sdTypeEnd = 13 := rfl
  have hlen {n : Nat} (hn : w + 1 ≤ n) (hne : n ≤ e) : u32 (1 + (n - (w + 1))) = n - w := by
    rw [u32_of_lt (by omega)]
    omega
  constructor
  · intro r hr
    by_cases hend : e ≤ w
    · rw [sdValueRead, if_pos (by omega)] at hr
      obtain ⟨rfl, _⟩ := clean_give.mp hr
      exact ⟨.more, .absent hend, rfl⟩
    by_cases hbig : sdTypeEnd ≤ (m w).toNat
    · rw [sdValueRead, if_neg (by omega), clean_touch, if_pos hbig] at hr
      obtain ⟨rfl, _⟩ := clean_give.mp hr.2
      exact ⟨.reject, .reject (by omega) hbig, by rw [u32_of_lt (by omega)], by omega⟩
    obtain ⟨v, hv, rfl, hle⟩ := (clean_value (by omega) (by omega)).mp hr
    have ht := read_type hv
    by_cases h3 : (m w).toNat = 3
    · rw [h3] at hv
      obtain ⟨o, ho, rfl⟩ := read_obj.mp hv
      obtain ⟨s, hspan, hans⟩ := (ih (w + 1) (by omega) (by omega)).1 o ho
      obtain ⟨hnext, hge, hle⟩ := answer_next (by omega) hans
      refine ⟨_, .obj (by omega) h3 hspan, rfl, ?_, by omega, hle⟩
      simp only [hnext, hlen hge hle]
    by_cases h8 : (m w).toNat = 8
    · rw [h8] at hv
      obtain ⟨a, ha, rfl⟩ := read_ecma.mp hv
      by_cases hs : e - (w + 1) < 4
      · obtain rfl := (clean_ecma_cut hs).mp ha
        exact ⟨_, .ecmaCut (by omega) h8 hs, rfl, by rw [u32_of_lt (by omega)]; omega, by omega, by omega⟩
      · obtain ⟨o, ho, rfl⟩ := (clean_ecma he (by omega)).mp ha
        obtain ⟨s, hspan, hans⟩ := (ihe (w + 5) (by omega) (by omega)).1 o ho
        obtain ⟨hnext, hge, hle⟩ := ecma_next (m := m) (by omega) hans
        refine ⟨_, .ecma (by omega) h8 (by omega) hspan, rfl, ?_, by omega, hle⟩
        simp only [hnext, hlen hge hle]
    · obtain rfl := (read_leaf ht h3 h8).mp hv
      have hfit : w + 1 + leafLen m e (w + 1) (m w).toNat ≤ e := leaf_next (by omega)
      refine ⟨_, .leaf (by omega) ht h3 h8, rfl, ?_, by omega, hfit⟩
      rw [u32_of_lt (by omega)]
      omega
  · intro s hspan
    cases hspan with
    | absent h =>
      rw [sdValueRead, if_pos (by omega)]
      exact ⟨(none, 0), clean_give.mpr ⟨rfl, by simp [u32]⟩, rfl⟩
    | reject h hbig =>
      have hsize : u32 (e - w) = e - w := u32_of_lt (by omega)
      refine ⟨(none, e - w), ?_, rfl, h⟩
      rw [sdValueRead, if_neg (by omega), clean_touch, if_pos hbig]
      exact ⟨by omega, clean_give.mpr ⟨by rw [hsize], by omega⟩⟩
    | leaf h ht h3 h8 =>
      have hfit : w + 1 + leafLen m e (w + 1) (m w).toNat ≤ e := leaf_next (by omega)
      have hu : u32 (1 + leafLen m e (w + 1) (m w).toNat) =
          w + 1 + leafLen m e (w + 1) (m w).toNat - w := by
        rw [u32_of_lt (by omega)]
        omega
      exact value_upto (by omega) ((read_leaf ht h3 h8).mpr rfl) hu (by omega) hfit
    | @obj _ s h ht ho =>
      obtain ⟨o, hc, hans⟩ := (ih (w + 1) (by omega) (by omega)).2 _ ho
      obtain ⟨hnext, hge, hle⟩ := answer_next (by omega) hans
      have hv : Clean e (sdRead m e (fuel + 2) (m w).toNat (w + 1))
          (o.1.elim (.null 3) .obj, o.2) := by
        rw [ht]
        exact read_obj.mpr ⟨o, hc, rfl⟩
      have hu : u32 (1 + o.2) = s.next e (w + 1) - w := by rw [hnext, hlen hge hle]
      exact value_upto (by rw [ht]; decide) hv hu (by omega) hle
    | ecmaCut h ht hs =>
      have hv : Clean e (sdRead m e (fuel + 2) (m w).toNat (w + 1)) (.null 8, 0) := by
        rw [ht]
        exact read_ecma.mpr ⟨_, (clean_ecma_cut hs).mpr rfl, rfl⟩
      have hu : u32 (1 + 0) = w + 1 - w := by simp [u32]
      exact value_upto (by rw [ht]; decide) hv hu (by omega) (by omega)
    | @ecma _ s h ht hs ho =>
      obtain ⟨o, hc, hans⟩ := (ihe (w + 5) (by omega) (by omega)).2 _ ho
      obtain ⟨hnext, hge, hle⟩ := ecma_next (m := m) hs hans
      have hv : Clean e (sdRead m e (fuel + 2) (m w).toNat (w + 1))
          ((ecmaGive m e (w + 1) o).1.elim (.null 8) (fun p => .ecma p.1 p.2),
            (ecmaGive m e (w + 1) o).2) := by
        rw [ht]
        exact read_ecma.mpr ⟨_, (clean_ecma he hs).mpr ⟨o, hc, rfl⟩, rfl⟩
      have hu : u32 (1 + (ecmaGive m e (w + 1) o).2) = s.next e (w + 1) - w := by
        rw [hnext, hlen hge hle]
      exact value_upto (by rw [ht]; decide) hv hu (by omega) hle

/-- The readers at every depth: the fuel `f` serves any `w` that leaves at most
`(f - 4) / 4` bytes. -/
theorem readers_agree (he : e < 2 ^ 32) (fuel : Nat) :
    (∀ w, w ≤ e → 4 * (e - w) + 4 ≤ fuel →
      Agrees e w (w + 1) w (ValueSpan m e w) (sdValueRead m e fuel w)) ∧
    (∀ buf w, buf ≤ w → w ≤ e → 4 * (e - w) + 5 ≤ fuel →
      Agrees e buf buf w (ObjSpan m e buf w) (sdObjRead m e fuel buf w)) := by
  induction fuel using Nat.strong_induction_on with
  | _ fuel ih =>
    constructor
    · intro w hw hf
      obtain ⟨fuel, rfl⟩ := Nat.exists_eq_add_of_le' (show 3 ≤ fuel by omega)
      apply value_agrees hw he
      · exact fun v hv hve => (ih _ (by omega)).2 v v (le_refl v) hve (by omega)
      · exact fun v hv hve => (ih _ (by omega)).2 v v (le_refl v) hve (by omega)
    · intro buf w hb hw hf
      obtain ⟨fuel, rfl⟩ := Nat.exists_eq_add_of_le' (show 2 ≤ fuel by omega)
      apply obj_agrees hb hw he
      · exact fun v hv hve => (ih _ (by omega)).1 v hve (by omega)
      · exact fun v hv hve => (ih _ (by omega)).2 buf v (by omega) hve (by omega)

/-! A reader that touches nothing outside also comes back: the depth of its calls is
bounded by the bytes it has left. -/

def Safe (e : Nat) (x : Rd α) : Prop := ∀ t ∈ x.log, t.Inside e

def Returns (e : Nat) (x : Rd α) : Prop := Safe e x → ∃ a, Clean e x a

theorem returns_some {x : Rd α} (h : x.ret.isSome) : Returns e x := by
  intro hs
  obtain ⟨a, ha⟩ := Option.isSome_iff_exists.mp h
  exact ⟨a, ha, hs⟩

theorem log_bind_first {x : Rd α} {f : α → Rd β} {t : Touch} (ht : t ∈ x.log) :
    t ∈ (x >>= f).log := by
  obtain ⟨ret, log⟩ := x
  cases ret with
  | none => exact ht
  | some a => exact List.mem_append_left _ ht

theorem log_bind_rest {x : Rd α} {f : α → Rd β} {a : α} {t : Touch} (ha : x.ret = some a)
    (ht : t ∈ (f a).log) : t ∈ (x >>= f).log := by
  obtain ⟨ret, log⟩ := x
  obtain rfl : ret = some a := ha
  exact List.mem_append_right _ ht

theorem returns_bind {x : Rd α} {f : α → Rd β} (hx : Returns e x)
    (hf : ∀ a, Clean e x a → Returns e (f a)) : Returns e (x >>= f) := by
  intro hs
  have hlog : Safe e x := by
    intro t ht
    apply hs
    exact log_bind_first ht
  obtain ⟨a, ha⟩ := hx hlog
  have hrest : Safe e (f a) := by
    intro t ht
    apply hs
    exact log_bind_rest ha.1 ht
  obtain ⟨b, hb⟩ := hf a ha hrest
  exact ⟨b, clean_bind.mpr ⟨a, ha, hb⟩⟩

theorem returns_give {len size : Nat} {value : Option α} : Returns e (give value len size) :=
  returns_some rfl

theorem returns_dbl {w : Nat} : Returns e (sdDblRead m e w) :=
  returns_some (by unfold sdDblRead; split <;> rfl)

theorem returns_ui8 {w : Nat} : Returns e (sdUi8Read m e w) :=
  returns_some (by unfold sdUi8Read; split <;> rfl)

theorem returns_str {w : Nat} : Returns e (sdStrRead m e w) := by
  unfold sdStrRead
  split
  · exact returns_give
  · refine returns_bind (returns_some rfl) fun _ _ => ?_
    split
    · exact returns_give
    · exact returns_bind (returns_some rfl) fun _ _ => returns_give

theorem returns_more {w : Nat} : Returns e (sdObjMore m e w) := by
  unfold sdObjMore
  split
  · refine returns_bind (returns_some rfl) fun _ _ => ?_
    split
    · refine returns_bind (returns_some rfl) fun _ _ => ?_
      split
      · exact returns_bind (returns_some rfl) fun _ _ => returns_some rfl
      · exact returns_some rfl
    · exact returns_some rfl
  · exact returns_some rfl

theorem returns_ecma {fuel w : Nat}
    (hobj : 4 ≤ e - w → Returns e (sdObjRead m e fuel (w + 4) (w + 4))) :
    Returns e (sdEcmaRead m e (fuel + 1) w) := by
  rw [sdEcmaRead]
  split
  · exact returns_give
  rename_i hsize
  refine returns_bind (returns_some rfl) fun _ _ => ?_
  refine returns_bind (hobj (Nat.not_lt.mp hsize)) fun o _ => ?_
  obtain ⟨_ | obj, bytes⟩ := o
  · exact returns_give
  · exact returns_give

theorem readers_return (he : e < 2 ^ 32) (fuel : Nat) :
    (∀ w, w ≤ e → 4 * (e - w) + 4 ≤ fuel → Returns e (sdValueRead m e fuel w)) ∧
    (∀ buf w, buf ≤ w → w ≤ e → 4 * (e - w) + 5 ≤ fuel →
      Returns e (sdObjRead m e fuel buf w)) := by
  induction fuel using Nat.strong_induction_on with
  | _ fuel ih =>
    constructor
    · intro w hw hf
      obtain ⟨fuel, rfl⟩ := Nat.exists_eq_add_of_le' (show 3 ≤ fuel by omega)
      have hobj : ∀ v, w < v → v ≤ e → Returns e (sdObjRead m e (fuel + 1) v v) :=
        fun v hv hve => (ih _ (by omega)).2 v v (le_refl v) hve (by omega)
      have hecma : ∀ v, w < v → v ≤ e → Returns e (sdObjRead m e fuel v v) :=
        fun v hv hve => (ih _ (by omega)).2 v v (le_refl v) hve (by omega)
      rw [sdValueRead]
      split
      · exact returns_give
      refine returns_bind (returns_some rfl) fun _ _ => ?_
      split
      · exact returns_give
      refine returns_bind ?_ fun _ _ => returns_give
      unfold sdRead
      refine returns_bind (returns_some rfl) fun _ hentry => ?_
      split
      · exact returns_bind returns_dbl fun _ _ => returns_some rfl
      · exact returns_bind returns_ui8 fun _ _ => returns_some rfl
      · exact returns_bind returns_str fun _ _ => returns_some rfl
      · exact returns_bind (hobj _ (by omega) (by omega)) fun _ _ => returns_some rfl
      · exact returns_some rfl
      · exact returns_some rfl
      · exact returns_some rfl
      · exact returns_some rfl
      · refine returns_bind ?_ fun _ _ => returns_some rfl
        apply returns_ecma
        intro hsize
        exact hecma _ (by omega) (by omega)
      · -- an entry the table does not have
        have hlt : (m w).toNat < 9 := hentry.2 _ (List.mem_singleton.mpr rfl)
        grind
    · intro buf w hb hw hf
      obtain ⟨fuel, rfl⟩ := Nat.exists_eq_add_of_le' (show 2 ≤ fuel by omega)
      have hvalue : ∀ v, w < v → v ≤ e → Returns e (sdValueRead m e fuel v) :=
        fun v hv hve => (ih _ (by omega)).1 v hve (by omega)
      have hobj : ∀ v, w < v → v ≤ e → Returns e (sdObjRead m e (fuel + 1) buf v) :=
        fun v hv hve => (ih _ (by omega)).2 buf v (by omega) hve (by omega)
      rw [sdObjRead]
      refine returns_bind returns_more fun b _ => ?_
      split
      · have hppt : Returns e (sdObjpptRead m e (fuel + 1) w) := by
          rw [sdObjpptRead]
          refine returns_bind returns_str fun n hn => ?_
          by_cases hname : Named m e w
          · obtain rfl := (clean_str.mp hn).trans (if_pos hname)
            have hend := named_end hw hname
            refine returns_bind (hvalue _ (by omega) hend) fun v _ => ?_
            obtain ⟨_ | value, more⟩ := v
            · exact returns_give
            · exact returns_give
          · obtain rfl := (clean_str.mp hn).trans (if_neg hname)
            exact returns_give
        refine returns_bind hppt fun p hp => ?_
        by_cases hname : Named m e w
        · have hend := named_end hw hname
          obtain ⟨v, hv, rfl⟩ := (clean_ppt he hw hname).mp hp
          have hle := value_within hv
          obtain ⟨_ | value, more⟩ := v
          · exact returns_give
          · simp only at hle
            refine returns_bind (hobj _ ?_ ?_) fun _ _ => returns_some rfl
            · simp only
              omega
            · simp only
              omega
        · obtain rfl := (clean_ppt_cut hname).mp hp
          exact returns_give
      · exact returns_give

/-- A reader that agrees with a grammar stays inside where there is a span. -/
theorem agrees_safe {buf lo w : Nat} {span : Stop → Prop} {x : Rd (Option α × Nat)}
    (hagree : Agrees e buf lo w span x) (hreturn : Returns e x) : Safe e x ↔ ∃ s, span s := by
  constructor
  · intro hsafe
    obtain ⟨r, hr⟩ := hreturn hsafe
    obtain ⟨s, hspan, -⟩ := hagree.1 r hr
    exact ⟨s, hspan⟩
  · intro h
    obtain ⟨s, hspan⟩ := h
    obtain ⟨r, hr, -⟩ := hagree.2 s hspan
    exact hr.2

theorem value_safe (he : e < 2 ^ 32) : Safe e (readValue m e) ↔ Delimited m e := by
  have hfuel : 4 * (e - 0) + 4 ≤ readFuel e := by simp [readFuel]
  apply agrees_safe
  · exact (readers_agree he _).1 0 (Nat.zero_le _) hfuel
  · exact (readers_return he _).1 0 (Nat.zero_le _) hfuel

/-- A value that is read has at least its type. -/
theorem value_pos {v : SdValue} {bytes : Nat} (he : e < 2 ^ 32) (hsafe : Safe e (readValue m e))
    (h : (readValue m e).ret = some (some v, bytes)) : 0 < bytes := by
  have hfuel : 4 * (e - 0) + 4 ≤ readFuel e := by simp [readFuel]
  obtain ⟨s, -, hans⟩ := ((readers_agree he _).1 0 (Nat.zero_le _) hfuel).1 _ ⟨h, hsafe⟩
  cases s with
  | more => cases hans
  | reject => cases hans.1
  | upto n =>
    obtain ⟨-, rfl, hn, -⟩ := hans
    exact hn

theorem object_safe {fuel w : Nat} (he : e < 2 ^ 32) (hw : w ≤ e) (hf : 4 * (e - w) + 5 ≤ fuel) :
    Safe e (sdObjRead m e fuel w w) ↔ ∃ s, ObjSpan m e w w s := by
  apply agrees_safe
  · exact (readers_agree he _).2 w w le_rfl hw hf
  · exact (readers_return he _).2 w w le_rfl hw hf

theorem ecma_safe {fuel : Nat} (he : e < 2 ^ 32) (hf : 4 * e ≤ fuel + 11) :
    Safe e (sdEcmaRead m e (fuel + 1) 0) ↔ (4 ≤ e → ∃ s, ObjSpan m e 4 4 s) := by
  by_cases hsize : 4 ≤ e
  · have hobj := @object_safe m e fuel 4 he hsize (by omega)
    have hreturn : Returns e (sdObjRead m e fuel 4 4) :=
      (readers_return he _).2 4 4 le_rfl hsize (by omega)
    simp only [hsize, forall_const]
    rw [← hobj]
    constructor
    · intro hsafe
      obtain ⟨r, hr⟩ := returns_ecma (fun _ => by simpa using hreturn) hsafe
      obtain ⟨o, ho, -⟩ := (clean_ecma he hsize).mp hr
      exact ho.2
    · intro hsafe
      obtain ⟨o, ho⟩ := hreturn hsafe
      have hecma := (clean_ecma (w := 0) he hsize).mpr ⟨o, by simpa using ho, rfl⟩
      exact hecma.2
  · have hcut := (@clean_ecma_cut m e fuel 0 _ (by omega)).mpr rfl
    exact iff_of_true hcut.2 fun h => absurd h hsize

end

/-- The readers stay inside a buffer exactly when the buffer delimits its value. -/
theorem readers_inside_iff (m : Mem) (size : UInt32) :
    (∀ t ∈ (readValue m size.toNat).log, t.Inside size.toNat) ↔ Delimited m size.toNat :=
  value_safe size.toNat_lt

instance (e : Nat) (t : Touch) : Decidable (t.Inside e) :=
  match t with
  | .byte off => inferInstanceAs (Decidable (off < e))
  | .entry type => inferInstanceAs (Decidable (type < 9))
  | .report len size => inferInstanceAs (Decidable (len ≤ size))

/-- An object whose end marker is cut off: `{"A": null` in five bytes is read up to the
end and reported as eight bytes long. -/
theorem cut_object_read_outside :
    ¬ ∀ (m : Mem) (size : UInt32), ∀ t ∈ (readValue m size.toNat).log, t.Inside size.toNat := by
  intro h
  have hcut := h (fun i => [3, 0, 1, 65, 5].getD i 0) 5
  revert hcut
  decide

end Yclib.Amf
