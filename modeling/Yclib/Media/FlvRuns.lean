import Yclib.Media.Flv
import Yclib.Util.Loop

namespace Yclib.Media.Flv
open Network Loop

/-! Which runs over a tag come to an end, and what the reader makes of its lengths on the way. -/

/-- The attribute headers, and the state behind them. -/
inductive Moves : State → State → Prop
  | audioType : Moves .audioHeader .audioPacketType
  | audio : Moves .audioHeader .dataAttr
  | audioDone : Moves .audioPacketType .dataAttr
  | videoType : Moves .videoHeader .videoPacketType
  | video : Moves .videoHeader .dataAttr
  | videoDone : Moves .videoPacketType .dataAttr

/-- An attribute header is read or written next. -/
def State.Header (s : State) : Prop :=
  s = .audioHeader ∨ s = .audioPacketType ∨ s = .videoHeader ∨ s = .videoPacketType

/-- The states from the header of a tag to its payload. -/
def State.Attribute (s : State) : Prop := s.Header ∨ s = .dataAttr

/-- How many rounds are left at most behind the header of an unfiltered tag. -/
def State.rank : State → Nat
  | .audioHeader | .videoHeader => 4
  | .audioPacketType | .videoPacketType => 3
  | .dataAttr => 2
  | .data => 1
  | _ => 0

theorem moves_attribute {s s' : State} (h : Moves s s') : s'.Attribute := by
  cases h <;> simp [State.Attribute, State.Header]

theorem moves_rank {s s' : State} (h : Moves s s') : s'.rank < s.rank := by
  cases h <;> simp [State.rank]

theorem attribute_not_done {s : State} (h : s.Attribute) : s ≠ .done := by
  rintro rfl
  simp [State.Attribute, State.Header] at h

namespace Reading

/-- By how much a round lowers the size that is left. -/
def spent (r : Reading) : Nat :=
  match r.tag.state with
  | .audioHeader | .audioPacketType | .videoHeader => 1
  | .videoPacketType => 4
  | _ => 0

/-- Where the bytes end that a round inspects. -/
def looks (r : Reading) : Nat :=
  match r.tag.state with
  | .tagHeader => r.walker + 12
  | .data => r.walker + r.dataSize
  | _ => r.walker + r.spent

end Reading

section
variable {m : Mem} {r r' : Reading} {w w' : Writing}

/-- What the reader does with an attribute header. -/
theorem read_moves (h : r.tag.state.Header) : ∃ r', r.step m = some r' ∧
    r'.tag.tagHeader = r.tag.tagHeader ∧ Moves r.tag.state r'.tag.state ∧
    r'.walker = r.walker + r.spent ∧ r'.dataSize = u32Sub r.dataSize r.spent := by
  unfold Reading.step Reading.spent
  rcases h with h | h | h | h <;> simp only [h]
  · refine ⟨_, rfl, rfl, ?_, rfl, rfl⟩
    simp only [Reading.goTo]
    split
    · exact .audioType
    · exact .audio
  · exact ⟨_, rfl, rfl, .audioDone, rfl, rfl⟩
  · refine ⟨_, rfl, rfl, ?_, rfl, rfl⟩
    simp only [Reading.goTo]
    split
    · exact .videoType
    · exact .video
  · exact ⟨_, rfl, rfl, .videoDone, rfl, rfl⟩

theorem write_moves (h : w.tag.state.Header) : ∃ w', w.step = some w' ∧
    w'.tag.tagHeader = w.tag.tagHeader ∧ Moves w.tag.state w'.tag.state := by
  unfold Writing.step
  rcases h with h | h | h | h <;> simp only [h]
  · refine ⟨_, rfl, rfl, ?_⟩
    simp only [Writing.goTo]
    split
    · exact .audioType
    · exact .audio
  · exact ⟨_, rfl, rfl, .audioDone⟩
  · refine ⟨_, rfl, rfl, ?_⟩
    simp only [Writing.goTo]
    split
    · exact .videoType
    · exact .video
  · exact ⟨_, rfl, rfl, .videoDone⟩

theorem read_round (h : r.tag.state ≠ .done) (hs : r.step m = some r') (rounds : Nat) :
    Reading.loop m (rounds + 1) r = Reading.loop m rounds r' := by
  rw [Reading.loop, if_neg h, hs]

/-- A filtered tag is never left. -/
theorem read_filtered (h : r.tag.state.Attribute) (hf : r.tag.tagHeader.filter ≠ 0) (rounds : Nat) :
    Reading.loop m rounds r = none := by
  have hround : ∀ r : Reading, r.tag.state.Attribute ∧ r.tag.tagHeader.filter ≠ 0 →
      ∃ r' : Reading, (r'.tag.state.Attribute ∧ r'.tag.tagHeader.filter ≠ 0) ∧
        ∀ rounds, Reading.loop m (rounds + 1) r = Reading.loop m rounds r' := by
    rintro r ⟨hheader | hattr, hf⟩
    · obtain ⟨r', hstep, hsame, hmoves, -⟩ := read_moves (m := m) hheader
      exact ⟨r', ⟨moves_attribute hmoves, by rw [hsame]; exact hf⟩,
        read_round (attribute_not_done (.inl hheader)) hstep⟩
    · have hstep : r.step m = some r := by simp [Reading.step, hattr, hf]
      exact ⟨r, ⟨.inr hattr, hf⟩, read_round (attribute_not_done (.inr hattr)) hstep⟩
  exact fuel_never (fun _ => rfl) hround ⟨h, hf⟩ rounds

theorem write_filtered (h : w.tag.state.Attribute) (hf : w.tag.tagHeader.filter ≠ 0) (rounds : Nat) :
    Writing.loop rounds w = none := by
  have hround : ∀ w : Writing, w.tag.state.Attribute ∧ w.tag.tagHeader.filter ≠ 0 →
      ∃ w' : Writing, (w'.tag.state.Attribute ∧ w'.tag.tagHeader.filter ≠ 0) ∧
        ∀ rounds, Writing.loop (rounds + 1) w = Writing.loop rounds w' := by
    rintro w ⟨hheader | hattr, hf⟩
    · obtain ⟨w', hstep, hsame, hmoves⟩ := write_moves hheader
      exact ⟨w', ⟨moves_attribute hmoves, by rw [hsame]; exact hf⟩,
        loop_round (attribute_not_done (.inl hheader)) hstep⟩
    · have hstep : w.step = some w := by simp [Writing.step, hattr, hf]
      exact ⟨w, ⟨.inr hattr, hf⟩, loop_round (attribute_not_done (.inr hattr)) hstep⟩
  exact fuel_never (fun _ => rfl) hround ⟨h, hf⟩ rounds

/-- The payload is copied, and the reader returns. -/
theorem read_data (h : r.tag.state = .data) : ∃ got, Reading.loop m 2 r = some (got, u32 (r.walker + r.dataSize)) ∧
    got.tagHeader = r.tag.tagHeader := by
  have hstep : r.step m = some ⟨{ r.tag with data := slice m r.walker r.dataSize, state := .done },
      r.walker + r.dataSize, r.dataSize⟩ := by simp only [Reading.step, h]
  rw [read_round (by simp [h]) hstep, Reading.loop, if_pos rfl]
  exact ⟨_, rfl, rfl⟩

/-- What a reader in front of the payload of an unfiltered tag keeps: its header and all that it counts. -/
structure Counts (header : TagHeader) (total : Nat) (r : Reading) : Prop where
  begun : r.tag.state.Attribute
  unfiltered : r.tag.tagHeader.filter = 0
  same : r.tag.tagHeader = header
  total : u32 (r.walker + r.dataSize) = total

/-- An unfiltered tag is read to its end, all that it has counted included. -/
theorem read_ends (h : r.tag.state.Attribute) (hf : r.tag.tagHeader.filter = 0) :
    ∃ rounds got, Reading.loop m rounds r = some got ∧ got.2 = u32 (r.walker + r.dataSize) ∧
      got.1.tagHeader = r.tag.tagHeader := by
  generalize hheader : r.tag.tagHeader = header
  generalize htotal : u32 (r.walker + r.dataSize) = total
  have hround : ∀ r, Counts header total r →
      (∃ rounds got, Reading.loop m rounds r = some got ∧ got.2 = total ∧ got.1.tagHeader = header) ∨
      ∃ r' : Reading, Counts header total r' ∧ r'.tag.state.rank < r.tag.state.rank ∧
        ∀ rounds, Reading.loop m (rounds + 1) r = Reading.loop m rounds r' := by
    intro r hr
    rcases hr.begun with hbegun | hattr
    · right
      obtain ⟨r', hstep, hsame, hmoves, hwalker, hsize⟩ := read_moves (m := m) hbegun
      have hkeeps : u32 (r'.walker + r'.dataSize) = u32 (r.walker + r.dataSize) := by
        rw [hwalker, hsize, u32, u32, u32Sub]
        omega
      refine ⟨r', ⟨moves_attribute hmoves, ?_, hsame.trans hr.same, hkeeps.trans hr.total⟩, moves_rank hmoves,
        read_round (attribute_not_done (.inl hbegun)) hstep⟩
      rw [hsame]
      exact hr.unfiltered
    · left
      have hstep : r.step m = some (r.goTo .data) := by simp [Reading.step, hattr, hr.unfiltered]
      obtain ⟨got, hrun, hgot⟩ := read_data (m := m) (r := r.goTo .data) rfl
      refine ⟨3, (got, u32 (r.walker + r.dataSize)), ?_, hr.total, hgot.trans hr.same⟩
      rw [read_round (attribute_not_done (.inr hattr)) hstep, hrun]
      rfl
  exact fuel_ends (fun r : Reading => r.tag.state.rank) hround ⟨h, hf, hheader, htotal⟩

theorem write_ends (h : w.tag.state.Attribute) (hf : w.tag.tagHeader.filter = 0) :
    ∃ rounds bytes, Writing.loop rounds w = some bytes := by
  have hround : ∀ w : Writing, w.tag.state.Attribute ∧ w.tag.tagHeader.filter = 0 →
      (∃ rounds bytes, Writing.loop rounds w = some bytes ∧ True) ∨
      ∃ w' : Writing, (w'.tag.state.Attribute ∧ w'.tag.tagHeader.filter = 0) ∧
        w'.tag.state.rank < w.tag.state.rank ∧
        ∀ rounds, Writing.loop (rounds + 1) w = Writing.loop rounds w' := by
    rintro w ⟨hheader | hattr, hf⟩
    · right
      obtain ⟨w', hstep, hsame, hmoves⟩ := write_moves hheader
      exact ⟨w', ⟨moves_attribute hmoves, by rw [hsame]; exact hf⟩, moves_rank hmoves,
        loop_round (attribute_not_done (.inl hheader)) hstep⟩
    · left
      have hstep : w.step = some (w.goTo .data) := by simp [Writing.step, hattr, hf]
      refine ⟨3, w.bytes ++ w.tag.data.take w.dataSize, ?_, trivial⟩
      rw [loop_round (attribute_not_done (.inr hattr)) hstep]
      simp [Writing.loop, Writing.step, Writing.goTo]
  obtain ⟨rounds, bytes, hrun, -⟩ := fuel_ends (fun w : Writing => w.tag.state.rank) hround ⟨h, hf⟩
  exact ⟨rounds, bytes, hrun⟩

end

/-- The header at `w` is one of the three types. -/
def Known (m : Mem) (w : Nat) : Prop := m w &&& 0x1F ∈ [packetTypeAudio, packetTypeVideo, packetTypeScript]

instance (m : Mem) (w : Nat) : Decidable (Known m w) := inferInstanceAs (Decidable (_ ∈ _))

/-- Of the headers from `w` on, each taken for 12 bytes, the one behind `k` others is the first that is
one of the three types. -/
def FirstKnown (m : Mem) (w k : Nat) : Prop := (∀ j < k, ¬ Known m (w + 12 * j)) ∧ Known m (w + 12 * k)

section
variable {m : Mem} {r : Reading} {w : Nat}

theorem next_attribute {header : TagHeader}
    (h : header.tagType ∈ [packetTypeAudio, packetTypeVideo, packetTypeScript]) :
    (header.next .tagHeader).Attribute := by
  have hnext := @next_known header .tagHeader h
  simp only [List.mem_cons, List.not_mem_nil, or_false] at hnext
  rcases hnext with hnext | hnext | hnext <;> simp [hnext, State.Attribute, State.Header]

theorem next_unknown {header : TagHeader} {state : State}
    (h : header.tagType ∉ [packetTypeAudio, packetTypeVideo, packetTypeScript]) : header.next state = state := by
  simp only [List.mem_cons, List.not_mem_nil, or_false, not_or] at h
  rw [TagHeader.next, if_neg h.1, if_neg h.2.1, if_neg h.2.2]

theorem header_next_known (h : Known m w) : ((flvReadTagHeader m w).next .tagHeader).Attribute := next_attribute h

theorem header_next_unknown (h : ¬ Known m w) : (flvReadTagHeader m w).next .tagHeader = .tagHeader :=
  next_unknown h

theorem tag_header_not_attribute : ¬ State.tagHeader.Attribute := by
  simp [State.Attribute, State.Header]

/-- What the reader does with the header of a tag. -/
theorem read_header (h : r.tag.state = .tagHeader) : ∃ r', r.step m = some r' ∧
    r'.tag.tagHeader = flvReadTagHeader m r.walker ∧ r'.walker = r.walker + 12 ∧
    r'.dataSize = rnsBtoh24 m (r.walker + 1) ∧
    r'.tag.state = (flvReadTagHeader m r.walker).next .tagHeader := by
  simp only [Reading.step, h]
  exact ⟨_, rfl, rfl, rfl, rfl, rfl⟩

theorem first_known_zero : FirstKnown m w 0 ↔ Known m w := by
  simp [FirstKnown]

theorem first_known_succ {k : Nat} : FirstKnown m w (k + 1) ↔ ¬ Known m w ∧ FirstKnown m (w + 12) k := by
  have hshift : ∀ j, w + 12 * (j + 1) = w + 12 + 12 * j := by
    intro j
    omega
  rw [FirstKnown, FirstKnown, hshift, ← and_assoc, and_congr_left_iff]
  intro _
  constructor
  · intro h
    constructor
    · exact h 0 (Nat.succ_pos k)
    · intro j hj
      rw [← hshift]
      exact h (j + 1) (Nat.succ_lt_succ hj)
  · rintro ⟨hfirst, hrest⟩ j hj
    cases j with
    | zero => exact hfirst
    | succ j =>
      rw [hshift]
      exact hrest j (Nat.lt_of_succ_lt_succ hj)

/-- Headers of other types are passed over until one of the three comes, and a filtered one is the end
of all progress. -/
theorem read_header_returns (h : r.tag.state = .tagHeader) : (∃ rounds, (Reading.loop m rounds r).isSome) ↔
    ∃ k, FirstKnown m r.walker k ∧ m (r.walker + 12 * k) &&& 0x20 = 0 := by
  constructor
  · rintro ⟨rounds, hrun⟩
    induction rounds generalizing r with
    | zero => cases hrun
    | succ rounds ih =>
      obtain ⟨r', hstep, hheader, hwalker, -, hstate⟩ := read_header (m := m) h
      rw [read_round (by simp [h]) hstep] at hrun
      by_cases hknown : Known m r.walker
      · refine ⟨0, first_known_zero.mpr hknown, ?_⟩
        by_contra hfilter
        have hstuck := read_filtered (m := m) (r := r') (by rw [hstate]; exact header_next_known hknown)
          (by rw [hheader]; exact hfilter) rounds
        rw [hstuck] at hrun
        cases hrun
      · obtain ⟨k, hfirst, hfilter⟩ := ih (by rw [hstate, header_next_unknown hknown]) hrun
        rw [hwalker] at hfirst hfilter
        refine ⟨k + 1, first_known_succ.mpr ⟨hknown, hfirst⟩, ?_⟩
        rw [show r.walker + 12 * (k + 1) = r.walker + 12 + 12 * k by omega]
        exact hfilter
  · rintro ⟨k, hfirst, hfilter⟩
    induction k generalizing r with
    | zero =>
      obtain ⟨r', hstep, hheader, -, -, hstate⟩ := read_header (m := m) h
      obtain ⟨rounds, got, hrun, -⟩ := read_ends (m := m) (r := r')
        (by rw [hstate]; exact header_next_known (first_known_zero.mp hfirst)) (by rw [hheader]; exact hfilter)
      refine ⟨rounds + 1, ?_⟩
      rw [read_round (by simp [h]) hstep, hrun]
      rfl
    | succ k ih =>
      obtain ⟨r', hstep, -, hwalker, -, hstate⟩ := read_header (m := m) h
      obtain ⟨hunknown, hrest⟩ := first_known_succ.mp hfirst
      rw [← hwalker] at hrest
      rw [show r.walker + 12 * (k + 1) = r'.walker + 12 * k by omega] at hfilter
      obtain ⟨rounds, hrun⟩ := ih (by rw [hstate, header_next_unknown hunknown]) hrest hfilter
      refine ⟨rounds + 1, ?_⟩
      rw [read_round (by simp [h]) hstep]
      exact hrun

end

/-- A tag that `flv_read_tag` is done with: the first header of a known type is not filtered, or, for a
tag that has its header, this one is not. -/
def Tag.ReadEnds (m : Mem) (tag : Tag) : Prop :=
  (tag.state = .tagHeader → ∃ k, FirstKnown m 0 k ∧ m (12 * k) &&& 0x20 = 0) ∧
    (tag.state.Attribute → tag.tagHeader.filter = 0)

/-- A tag that `flv_write_tag` is done with. -/
def Tag.WriteEnds (tag : Tag) : Prop :=
  (tag.state = .tagHeader → tag.tagHeader.tagType ∈ [packetTypeAudio, packetTypeVideo, packetTypeScript] ∧
      tag.tagHeader.filter = 0) ∧
    (tag.state.Attribute → tag.tagHeader.filter = 0)

theorem read_tag_returns (m : Mem) (tag : Tag) :
    (∃ rounds, (flvReadTag m tag rounds).isSome) ↔ tag.ReadEnds m := by
  unfold flvReadTag Tag.ReadEnds
  by_cases hheader : tag.state = .tagHeader
  · have hreturns := read_header_returns (m := m) (r := ⟨tag, 0, 0⟩) hheader
    simp only [Nat.zero_add] at hreturns
    simp only [hreturns, hheader, tag_header_not_attribute, forall_const, false_implies, and_true]
  by_cases hattr : tag.state.Attribute
  · simp only [hheader, hattr, false_implies, true_and, forall_const]
    constructor
    · rintro ⟨rounds, hrun⟩
      by_contra hfilter
      rw [read_filtered hattr hfilter] at hrun
      cases hrun
    · intro hfilter
      obtain ⟨rounds, got, hrun, -⟩ := read_ends (m := m) (r := ⟨tag, 0, 0⟩) hattr hfilter
      exact ⟨rounds, by rw [hrun]; rfl⟩
  · simp only [hheader, hattr, false_implies, and_true, iff_true]
    by_cases hdata : tag.state = .data
    · obtain ⟨got, hrun, -⟩ := read_data (m := m) (r := ⟨tag, 0, 0⟩) hdata
      exact ⟨2, by rw [hrun]; rfl⟩
    · refine ⟨1, ?_⟩
      cases hstate : tag.state <;> simp_all [Reading.loop, Reading.step, State.Attribute, State.Header]

/-- A header of another type is written again and again. -/
theorem write_unknown {w : Writing} (h : w.tag.state = .tagHeader)
    (hunknown : w.tag.tagHeader.tagType ∉ [packetTypeAudio, packetTypeVideo, packetTypeScript]) (rounds : Nat) :
    Writing.loop rounds w = none := by
  have hround : ∀ w : Writing, w.tag.state = .tagHeader ∧
      w.tag.tagHeader.tagType ∉ [packetTypeAudio, packetTypeVideo, packetTypeScript] →
      ∃ w' : Writing, (w'.tag.state = .tagHeader ∧
        w'.tag.tagHeader.tagType ∉ [packetTypeAudio, packetTypeVideo, packetTypeScript]) ∧
        ∀ rounds, Writing.loop (rounds + 1) w = Writing.loop rounds w' := by
    rintro w ⟨h, hunknown⟩
    let next := Writing.goTo ⟨w.tag, w.bytes ++ flvWriteTagHeader w.tag.tagHeader, w.tag.tagHeader.dataSize⟩
      (w.tag.tagHeader.next w.tag.state)
    have hstep : w.step = some next := by simp only [Writing.step, h, next]
    exact ⟨next, ⟨(next_unknown hunknown).trans h, hunknown⟩, loop_round (by simp [h]) hstep⟩
  exact fuel_never (fun _ => rfl) hround ⟨h, hunknown⟩ rounds

theorem write_tag_returns (tag : Tag) : (∃ rounds, (flvWriteTag tag rounds).isSome) ↔ tag.WriteEnds := by
  unfold flvWriteTag Tag.WriteEnds
  by_cases hheader : tag.state = .tagHeader
  · have hstep : Writing.step ⟨tag, [], 0⟩ = some (Writing.goTo ⟨tag, flvWriteTagHeader tag.tagHeader,
        tag.tagHeader.dataSize⟩ (tag.tagHeader.next .tagHeader)) := by
      simp [Writing.step, hheader]
    simp only [hheader, tag_header_not_attribute, forall_const, false_implies, and_true]
    constructor
    · rintro ⟨rounds, hrun⟩
      have hknown : tag.tagHeader.tagType ∈ [packetTypeAudio, packetTypeVideo, packetTypeScript] := by
        by_contra hunknown
        rw [write_unknown (w := ⟨tag, [], 0⟩) hheader hunknown] at hrun
        cases hrun
      apply And.intro hknown
      by_contra hfilter
      cases rounds with
      | zero => cases hrun
      | succ rounds =>
        rw [loop_round (by simp [hheader]) hstep, write_filtered (next_attribute hknown) hfilter] at hrun
        cases hrun
    · rintro ⟨hknown, hfilter⟩
      obtain ⟨rounds, bytes, hrun⟩ := write_ends (w := Writing.goTo ⟨tag, flvWriteTagHeader tag.tagHeader,
        tag.tagHeader.dataSize⟩ (tag.tagHeader.next .tagHeader)) (next_attribute hknown) hfilter
      refine ⟨rounds + 1, ?_⟩
      rw [loop_round (by simp [hheader]) hstep, hrun]
      rfl
  by_cases hattr : tag.state.Attribute
  · simp only [hheader, hattr, false_implies, true_and, forall_const]
    constructor
    · rintro ⟨rounds, hrun⟩
      by_contra hfilter
      rw [write_filtered hattr hfilter] at hrun
      cases hrun
    · intro hfilter
      obtain ⟨rounds, bytes, hrun⟩ := write_ends (w := ⟨tag, [], 0⟩) hattr hfilter
      exact ⟨rounds, by rw [hrun]; rfl⟩
  · simp only [hheader, hattr, false_implies, and_true, iff_true]
    apply Exists.intro 2
    cases hstate : tag.state <;>
      simp_all [Writing.loop, Writing.step, Writing.goTo, State.Attribute, State.Header]

end Yclib.Media.Flv
