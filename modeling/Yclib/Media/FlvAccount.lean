import Yclib.Media.FlvRuns

namespace Yclib.Media.Flv
open Network

/-! The lengths that `flv_read_tag` keeps: what is left of a tag, where the buffer ends, and what is
consumed in all. -/

/-- From one state of the reader to another over rounds of its loop. -/
inductive Reading.Reaches (m : Mem) : Reading → Reading → Prop
  | here (r : Reading) : Reaches m r r
  | round {r r' r'' : Reading} (h : r.tag.state ≠ .done) (hs : r.step m = some r') (hr : Reaches m r' r'') :
      Reaches m r r''

/-- The account of a buffer of `size` bytes: no round takes more than there is left of the tag, none
inspects a byte behind the end, and a tag that was read has consumed its header and its data. -/
structure Accounts (m : Mem) (size : Nat) (tag : Tag) : Prop where
  counted : ∀ r, Reading.Reaches m ⟨tag, 0, 0⟩ r → r.spent ≤ r.dataSize
  inside : ∀ r, Reading.Reaches m ⟨tag, 0, 0⟩ r → r.looks ≤ size
  whole : ∀ rounds got n, flvReadTag m tag rounds = some (got, n) → n = 11 + got.tagHeader.dataSize

/-- How many bytes of attributes the reader takes behind the header at `w`. The codec of an audio tag is
masked but not shifted, and so never the one with a packet type. -/
def attributeSize (m : Mem) (w : Nat) : Nat :=
  if m w &&& 0x1F = packetTypeAudio then 1
  else if m w &&& 0x1F = packetTypeVideo then if m (w + 12) &&& 0x0F = 7 then 5 else 1
  else 0

/-- The first header of a known type is filtered, so that nothing is read behind its attributes; these
are in the buffer, and the header counts as many bytes. -/
def Filtered (m : Mem) (size k : Nat) : Prop :=
  FirstKnown m 0 k ∧ m (12 * k) &&& 0x20 ≠ 0 ∧ 12 * k + 12 + attributeSize m (12 * k) ≤ size ∧
    attributeSize m (12 * k) ≤ rnsBtoh24 m (12 * k + 1)

/-- How many bytes of attributes are to come. -/
def Reading.left (m : Mem) (r : Reading) : Nat :=
  match r.tag.state with
  | .audioHeader | .audioPacketType => 1
  | .videoHeader => if m r.walker &&& 0x0F = 7 then 5 else 1
  | .videoPacketType => 4
  | _ => 0

/-- Between a filtered header and its end. -/
structure Stuck (m : Mem) (size : Nat) (r : Reading) : Prop where
  begun : r.tag.state.Attribute
  filtered : r.tag.tagHeader.filter ≠ 0
  inside : r.walker + r.left m ≤ size
  counted : r.left m ≤ r.dataSize
  short : r.dataSize < 2 ^ 32

section
variable {m : Mem} {size k : Nat} {r r' r'' : Reading} {tag : Tag}

/-- A codec in the upper four bits is not 10. -/
theorem masked_not_ten (b : UInt8) : b &&& 0xF0 ≠ 10 := by
  intro h
  have hlow : b &&& 0xF0 &&& 0x0F = 0 := by
    rw [UInt8.and_assoc]
    exact UInt8.and_zero
  rw [h] at hlow
  exact absurd hlow (by decide)

/-- A round takes from what is to come. -/
theorem read_left (h : r.tag.state.Header) (hs : r.step m = some r') : r'.left m + r.spent = r.left m := by
  unfold Reading.step at hs
  rcases h with h | h | h | h
  · simp only [h, Option.some.injEq] at hs
    subst hs
    simp [Reading.goTo, Reading.take, Reading.setAudio, Reading.left, Reading.spent, h, masked_not_ten]
  · simp only [h, Option.some.injEq] at hs
    subst hs
    simp [Reading.goTo, Reading.take, Reading.setAudio, Reading.left, Reading.spent, h]
  · simp only [h, Option.some.injEq] at hs
    subst hs
    by_cases hcodec : m r.walker &&& 0x0F = 7
    · simp [Reading.goTo, Reading.take, Reading.setVideo, Reading.left, Reading.spent, h, hcodec]
    · simp [Reading.goTo, Reading.take, Reading.setVideo, Reading.left, Reading.spent, h, hcodec]
  · simp only [h, Option.some.injEq] at hs
    subst hs
    simp [Reading.goTo, Reading.take, Reading.setVideo, Reading.left, Reading.spent, h]

theorem stuck_step (h : Stuck m size r) (hs : r.step m = some r') : Stuck m size r' := by
  rcases h.begun with hheader | hattr
  · obtain ⟨next, hstep, hsame, hmoves, hwalker, hsize⟩ := read_moves (m := m) hheader
    rw [hs, Option.some.injEq] at hstep
    subst hstep
    have hleft := read_left hheader hs
    have hinside := h.inside
    have hcounted := h.counted
    have hshort := h.short
    have hdata : r'.dataSize = r.dataSize - r.spent := by
      rw [hsize, u32_sub_of_le (by omega) hshort]
    exact ⟨moves_attribute hmoves, by rw [hsame]; exact h.filtered, by omega, by omega, by omega⟩
  · have hstay : r.step m = some r := by simp [Reading.step, hattr, h.filtered]
    rw [hs, Option.some.injEq] at hstay
    rw [hstay]
    exact h

theorem stuck_safe (h : Stuck m size r) : r.spent ≤ r.dataSize ∧ r.looks ≤ size := by
  have hinside := h.inside
  have hcounted := h.counted
  rcases h.begun with hheader | hattr
  · obtain ⟨next, hstep, -⟩ := read_moves (m := m) hheader
    have hleft := read_left hheader hstep
    have hlooks : r.looks = r.walker + r.spent := by
      rcases hheader with h | h | h | h <;> simp only [Reading.looks, h]
    omega
  · simp only [Reading.left, hattr] at hinside
    simp only [Reading.looks, Reading.spent, hattr]
    omega

theorem header_left (h : Known m (12 * k)) (hs : r.tag.state = (flvReadTagHeader m (12 * k)).next .tagHeader)
    (hw : r.walker = 12 * k + 12) : r.left m = attributeSize m (12 * k) := by
  have htype : (flvReadTagHeader m (12 * k)).tagType = m (12 * k) &&& 0x1F := rfl
  simp only [Known, List.mem_cons, List.not_mem_nil, or_false] at h
  rw [Reading.left, hs, TagHeader.next, htype, attributeSize, hw]
  rcases h with h | h | h <;> simp [h, packetTypeAudio, packetTypeVideo, packetTypeScript]

/-- In front of the first header of a known type, or stuck behind it. -/
def Passing (m : Mem) (size k : Nat) (r : Reading) : Prop :=
  (r.tag.state = .tagHeader ∧ ∃ j ≤ k, r.walker = 12 * j) ∨ Stuck m size r

theorem passing_step (hf : Filtered m size k) (h : Passing m size k r) (hs : r.step m = some r') :
    Passing m size k r' := by
  obtain ⟨⟨hbefore, hknown⟩, hfilter, hinside, hcounted⟩ := hf
  simp only [Nat.zero_add] at hbefore hknown
  rcases h with ⟨hstate, j, hj, hw⟩ | hstuck
  · obtain ⟨next, hstep, hheader, hwalker, hdata, hnext⟩ := read_header (m := m) hstate
    rw [hs, Option.some.injEq] at hstep
    subst hstep
    by_cases hlast : j = k
    · right
      subst hlast
      rw [hw] at hheader hwalker hdata hnext
      have hleft := header_left hknown hnext hwalker
      have hshort : r'.dataSize < 2 ^ 32 := by
        rw [hdata]
        exact (btoh_lt m _ 3).trans (by decide)
      refine ⟨?_, ?_, by omega, by omega, hshort⟩
      · rw [hnext]
        exact header_next_known hknown
      · rw [hheader]
        exact hfilter
    · left
      have hunknown := hbefore j (by omega)
      rw [← hw] at hunknown
      refine ⟨?_, j + 1, by omega, by omega⟩
      rw [hnext, header_next_unknown hunknown]
  · exact .inr (stuck_step hstuck hs)

theorem passing_safe (hf : Filtered m size k) (h : Passing m size k r) : r.spent ≤ r.dataSize ∧ r.looks ≤ size := by
  rcases h with ⟨hstate, j, hj, hw⟩ | hstuck
  · have hinside := hf.2.2.1
    simp only [Reading.spent, Reading.looks, hstate]
    omega
  · exact stuck_safe hstuck

theorem reaches_passing (hf : Filtered m size k) (h : Passing m size k r) (hr : Reading.Reaches m r r') :
    Passing m size k r' := by
  induction hr with
  | here r => exact h
  | round _ hs _ ih => exact ih (passing_step hf h hs)

theorem reaches_trans (h : Reading.Reaches m r r') (h' : Reading.Reaches m r' r'') : Reading.Reaches m r r'' := by
  induction h with
  | here r => exact h'
  | round hne hs _ ih => exact .round hne hs (ih h')

theorem reaches_round (h : Reading.Reaches m r r') (hne : r'.tag.state ≠ .done) (hs : r'.step m = some r'') :
    Reading.Reaches m r r'' := reaches_trans h (.round hne hs (.here r''))

theorem first_known_unique {j : Nat} (h : FirstKnown m 0 j) (h' : FirstKnown m 0 k) : j = k := by
  rcases Nat.lt_trichotomy j k with hlt | heq | hgt
  · exact absurd h.2 (h'.1 j hlt)
  · exact heq
  · exact absurd h'.2 (h.1 k hgt)

/-- Over headers of unknown types the reader comes to the one behind them. -/
theorem reaches_header (hs : tag.state = .tagHeader) (h : ∀ j < k, ¬ Known m (12 * j)) :
    ∃ r, Reading.Reaches m ⟨tag, 0, 0⟩ r ∧ r.tag.state = .tagHeader ∧ r.walker = 12 * k := by
  induction k with
  | zero => exact ⟨_, .here _, hs, rfl⟩
  | succ k ih =>
    obtain ⟨r, hreach, hstate, hw⟩ := ih fun j hj => h j (by omega)
    obtain ⟨next, hstep, -, hwalker, -, hnext⟩ := read_header (m := m) hstate
    have hunknown := h k (Nat.lt_succ_self k)
    rw [← hw] at hunknown
    refine ⟨next, reaches_round hreach (by simp [hstate]) hstep, ?_, by omega⟩
    rw [hnext, header_next_unknown hunknown]

theorem reaches_returns {rounds : Nat} {result : Tag × Nat} (h : Reading.Reaches m r r')
    (hrun : Reading.loop m rounds r' = some result) : ∃ rounds, Reading.loop m rounds r = some result := by
  induction h with
  | here r => exact ⟨rounds, hrun⟩
  | round hne hs _ ih =>
    obtain ⟨rounds, hrest⟩ := ih hrun
    refine ⟨rounds + 1, ?_⟩
    rw [read_round hne hs, hrest]

/-- Where every round is safe, all of the attributes are there and counted. -/
theorem safe_left (h : r.tag.state.Attribute) (hshort : r.dataSize < 2 ^ 32)
    (hsafe : ∀ r', Reading.Reaches m r r' → r'.spent ≤ r'.dataSize ∧ r'.looks ≤ size) :
    r.walker + r.left m ≤ size ∧ r.left m ≤ r.dataSize := by
  induction hn : r.tag.state.rank using Nat.strong_induction_on generalizing r with
  | _ n ih =>
    have hhere := hsafe r (.here r)
    rcases h with hheader | hattr
    · obtain ⟨next, hstep, -, hmoves, hwalker, hsize⟩ := read_moves (m := m) hheader
      have hleft := read_left hheader hstep
      have hrank := moves_rank hmoves
      have hne := attribute_not_done (.inl hheader)
      rw [u32_sub_of_le hhere.1 hshort] at hsize
      have hrest := ih _ (by omega) (moves_attribute hmoves) (by omega)
        (fun r' hr' => hsafe r' (.round hne hstep hr')) rfl
      omega
    · simp only [Reading.looks, Reading.spent, hattr] at hhere
      simp only [Reading.left, hattr]
      omega

/-- Among enough headers in a row one is of a known type, or the reader leaves the buffer. -/
theorem accounts_known (ha : Accounts m size tag) (hs : tag.state = .tagHeader) :
    ∃ k, (∀ j < k, ¬ Known m (12 * j)) ∧ Known m (12 * k) := by
  have hsome : ∃ k, Known m (12 * k) := by
    by_contra hnone
    obtain ⟨r, hreach, hstate, hw⟩ := reaches_header (k := size) hs fun j _ hj => hnone ⟨j, hj⟩
    have hinside := ha.inside r hreach
    simp only [Reading.looks, hstate] at hinside
    omega
  exact ⟨Nat.find hsome, fun j hj => Nat.find_min hsome hj, Nat.find_spec hsome⟩

end

/-- A tag that is read to its end has consumed a byte too much, so the account is right only where the
reader gets stuck in front of the payload. -/
theorem tag_accounted_iff (m : Mem) (size : Nat) (tag : Tag) (hs : tag.state = .tagHeader) :
    Accounts m size tag ↔ ∃ k, Filtered m size k := by
  constructor
  · intro ha
    obtain ⟨k, hbefore, hknown⟩ := accounts_known ha hs
    obtain ⟨r, hreach, hstate, hw⟩ := reaches_header hs hbefore
    obtain ⟨next, hstep, hheader, hwalker, hdata, hnext⟩ := read_header (m := m) hstate
    have hreach' := reaches_round hreach (by simp [hstate]) hstep
    rw [hw] at hheader hwalker hdata hnext
    have hattr : next.tag.state.Attribute := by
      rw [hnext]
      exact header_next_known hknown
    have hshort : next.dataSize < 2 ^ 24 := by
      rw [hdata]
      exact btoh_lt m _ 3
    have hfilter : m (12 * k) &&& 0x20 ≠ 0 := by
      intro hzero
      obtain ⟨rounds, got, hrun, htotal, hgot⟩ := read_ends (m := m) hattr (by rw [hheader]; exact hzero)
      obtain ⟨rounds', hwhole⟩ := reaches_returns hreach' hrun
      have hn := ha.whole rounds' got.1 got.2 hwhole
      rw [htotal, hgot, hheader, hwalker, u32] at hn
      have hsize : (flvReadTagHeader m (12 * k)).dataSize = next.dataSize := hdata.symm
      omega
    have hsafe := safe_left hattr (by omega) fun r' hr' =>
      ⟨ha.counted r' (reaches_trans hreach' hr'), ha.inside r' (reaches_trans hreach' hr')⟩
    rw [header_left hknown hnext hwalker, hwalker, hdata] at hsafe
    refine ⟨k, ⟨?_, ?_⟩, hfilter, hsafe⟩
    · simpa only [Nat.zero_add] using hbefore
    · simpa only [Nat.zero_add] using hknown
  · rintro ⟨k, hf⟩
    have hstart : Passing m size k ⟨tag, 0, 0⟩ := .inl ⟨hs, 0, Nat.zero_le k, rfl⟩
    constructor
    · intro r hr
      exact (passing_safe hf (reaches_passing hf hstart hr)).1
    · intro r hr
      exact (passing_safe hf (reaches_passing hf hstart hr)).2
    · intro rounds got n hrun
      have hsome : (Reading.loop m rounds ⟨tag, 0, 0⟩).isSome := by
        rw [flvReadTag] at hrun
        rw [hrun]
        rfl
      obtain ⟨j, hfirst, hzero⟩ := (read_header_returns (r := ⟨tag, 0, 0⟩) hs).mp ⟨rounds, hsome⟩
      have hsame := first_known_unique hfirst hf.1
      rw [hsame, Nat.zero_add] at hzero
      exact absurd hzero hf.2.1

/-- A tag that waits for its header. -/
def emptyTag : Tag := ⟨⟨0, 0, 0, 0, 0⟩, ⟨0, 0, 0, 0, 0⟩, ⟨0, 0, 0, 0⟩, [], .tagHeader⟩

/-- An audio header that counts no data, and a byte behind it. -/
def hollowAudio : Mem := fun i => [0x08, 0, 0, 0, 0, 0, 0, 0, 0, 0, 0, 0, 0xAF].getD i 0

theorem hollow_audio_iff : Accounts hollowAudio 13 emptyTag ↔ ∃ k, Filtered hollowAudio 13 k :=
  tag_accounted_iff hollowAudio 13 emptyTag rfl

/-- The attribute byte is not in the data size, which goes below zero. -/
theorem hollow_audio_uncounted : ¬ Accounts hollowAudio 13 emptyTag := by
  intro ha
  have hreach : Reading.Reaches hollowAudio ⟨emptyTag, 0, 0⟩
      ⟨{ emptyTag with tagHeader := ⟨0, 8, 0, 0, 0⟩, state := .audioHeader }, 12, 0⟩ :=
    .round (by decide) rfl (.here _)
  exact absurd (ha.counted _ hreach) (by decide)

end Yclib.Media.Flv
