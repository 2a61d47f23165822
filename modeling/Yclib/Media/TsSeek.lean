import Yclib.Media.TsTables
import Yclib.Util.Loop

namespace Yclib.Media.Ts
open Loop

/-! The clock of a transport stream: how much of it lies between two offsets, and the search for one of
its values. A pointer that was not found is dereferenced, and then there is no result. -/

/-- `find_first_pmt`; the last program with the number 1 counts. -/
def findFirstPmt (m : Mem) (tsPtr tsEnd : Nat) : Option Nat :=
  (findPat m tsPtr tsEnd).bind fun patOffset =>
    let pmtPid := (parsePat m (patOffset + 5)).programHead.foldl
      (fun pid program => if program.programNumber = 1 then program.programMapPid else pid) 0
    findPid m (tsPtr + 188) tsEnd pmtPid

def findPcrPid (m : Mem) (tsPtr tsEnd : Nat) : Nat :=
  (findFirstPmt m tsPtr tsEnd).elim 0 fun pmtOffset => (parsePmt m (pmtOffset + 5)).pcrPid

/-- `find_duration_by_offset`. -/
def findDurationByOffset (m : Mem) (tsPtr tsEnd startOffset endOffset : Nat) : Option Nat :=
  let pid := findPcrPid m tsPtr tsEnd
  (findPcr m startOffset tsEnd pid).bind fun pcrStartOffset =>
    (findPcrR m endOffset tsPtr pid).map fun pcrEndOffset =>
      u32Sub (getPcr m pcrEndOffset) (getPcr m pcrStartOffset)

/-- The local pointers of `find_ts_by_pcr`. -/
structure Seeking where
  pcrStartOffset : Nat
  pcrEndOffset : Nat

/-- The middle between two pointers, whose difference is signed. -/
def middle (a b : Nat) : Nat := ((a : Int) + Int.tdiv ((b : Int) - a) 2).toNat

/-- One round of the loop of `find_ts_by_pcr`. -/
def seekRound (m : Mem) (tsEnd pid tick : Nat) (s : Seeking) : Round Seeking (Option Nat) :=
  if s.pcrStartOffset < s.pcrEndOffset then
    (findPcr m s.pcrStartOffset tsEnd pid).elim (.exit none) fun pcrStartOffset =>
      -- the backward search is bounded by the end of the range
      (findPcrR m s.pcrEndOffset tsEnd pid).elim (.exit none) fun pcrEndOffset =>
        let pcrMiddle := middle pcrStartOffset pcrEndOffset
        if tick < u32 (getPcr m pcrStartOffset + getPcr m pcrEndOffset) / 2 then
          .go ⟨pcrStartOffset, pcrMiddle⟩
        else .go ⟨pcrMiddle, pcrEndOffset⟩
  else .exit (some s.pcrStartOffset)

/-- What `find_ts_by_pcr` ends with, if it ends. -/
def FindTsByPcr (m : Mem) (tsPtr tsEnd tick : Nat) (r : Option Nat) : Prop :=
  Ends (seekRound m tsEnd (findPcrPid m tsPtr tsEnd) tick) ⟨tsPtr, tsEnd⟩ r

/-- The 33-bit base of the clock in the packet at `w`. -/
def pcrBase (m : Mem) (w : Nat) : Nat :=
  (m (w + 6)).toNat * 2 ^ 25 + ((m (w + 7)).toNat * 2 ^ 17 + ((m (w + 8)).toNat * 2 ^ 9 +
    ((m (w + 9)).toNat * 2 + (m (w + 10)).toNat / 2 ^ 7)))

section
variable {m : Mem} {w : Nat}

theorem pcr_base_lt (m : Mem) (w : Nat) : pcrBase m w < 2 ^ 33 := by
  have h6 := (m (w + 6)).toNat_lt
  have h7 := (m (w + 7)).toNat_lt
  have h8 := (m (w + 8)).toNat_lt
  have h9 := (m (w + 9)).toNat_lt
  have h10 := (m (w + 10)).toNat_lt
  unfold pcrBase
  omega

theorem get_pcr_eq (m : Mem) (w : Nat) : getPcr m w = pcrBase m w % 2 ^ 32 := by
  have h7 := (m (w + 7)).toNat_lt
  have h8 := (m (w + 8)).toNat_lt
  have h9 := (m (w + 9)).toNat_lt
  have h10 := (m (w + 10)).toNat_lt
  rw [getPcr, u32, Nat.or_assoc, Nat.or_assoc, Nat.or_assoc, pcrBase, Nat.shiftRight_eq_div_pow]
  rw [← Nat.shiftLeft_add_eq_or_of_lt (i := 1) (by omega), Nat.shiftLeft_eq _ 1]
  rw [← Nat.shiftLeft_add_eq_or_of_lt (i := 9) (by omega), Nat.shiftLeft_eq _ 9]
  rw [← Nat.shiftLeft_add_eq_or_of_lt (i := 17) (by omega), Nat.shiftLeft_eq _ 17]
  rw [← Nat.shiftLeft_add_eq_or_of_lt (i := 25) (by omega), Nat.shiftLeft_eq _ 25, Nat.pow_one]

/-- The difference of two values of `get_pcr` is the one of the bases, as far as it fits. -/
theorem pcr_difference (m : Mem) (first last : Nat) : u32Sub (getPcr m last) (getPcr m first) =
    u32 (((pcrBase m last : Int) - pcrBase m first) % 2 ^ 33).toNat := by
  rw [get_pcr_eq, get_pcr_eq, u32Sub, u32]
  omega

/-- An elapsed time that fits is what the difference gives, also when the base has wrapped. -/
theorem pcr_elapsed {first last elapsed : Nat} (hlt : elapsed < 2 ^ 32)
    (h : pcrBase m last = (pcrBase m first + elapsed) % 2 ^ 33) :
    u32Sub (getPcr m last) (getPcr m first) = elapsed := by
  have hfirst := pcr_base_lt m first
  rw [get_pcr_eq, get_pcr_eq, h, u32Sub]
  omega

/-- A packet with a clock value is found from its own offset on. -/
theorem find_pcr_here {tsEnd pid : Nat} (h : isPcr m w pid) (hw : w < tsEnd) : findPcr m w tsEnd pid = some w := by
  rw [findPcr, packets_cons hw]
  exact List.find?_cons_of_pos h

theorem find_pcr_r_here {tsStart pid : Nat} (h : isPcr m w pid) (hw : tsStart ≤ w) :
    findPcrR m (w + 188) tsStart pid = some w := by
  rw [findPcrR, packets_r_cons (by omega), Nat.add_sub_cancel]
  exact List.find?_cons_of_pos h

/-- A search backwards from the bound itself finds nothing. -/
theorem find_pcr_r_bound (m : Mem) (tsPtr pid : Nat) : findPcrR m tsPtr tsPtr pid = none := by
  rw [findPcrR, packetsR, Nat.sub_self]
  rfl

end

/-- What `find_duration_by_offset` gives for the clocks of two packets: their difference modulo `2 ^ 33`
in a `uint32_t`, and so every elapsed time that fits into one. -/
def MeasuresPcr (m : Mem) (first last : Nat) (duration : Option Nat) : Prop :=
  duration = some (u32 (((pcrBase m last : Int) - pcrBase m first) % 2 ^ 33).toNat) ∧
    ∀ elapsed < 2 ^ 32, pcrBase m last = (pcrBase m first + elapsed) % 2 ^ 33 → duration = some elapsed

/-- Whichever offsets lead to the two packets, and the offsets around them do. -/
theorem duration_measures (m : Mem) (tsPtr tsEnd first last : Nat)
    (hfirst : isPcr m first (findPcrPid m tsPtr tsEnd)) (hlast : isPcr m last (findPcrPid m tsPtr tsEnd))
    (hend : first < tsEnd) (hstart : tsPtr ≤ last) :
    MeasuresPcr m first last (findDurationByOffset m tsPtr tsEnd first (last + 188)) ∧
      ∀ startOffset endOffset, findPcr m startOffset tsEnd (findPcrPid m tsPtr tsEnd) = some first →
        findPcrR m endOffset tsPtr (findPcrPid m tsPtr tsEnd) = some last →
        MeasuresPcr m first last (findDurationByOffset m tsPtr tsEnd startOffset endOffset) := by
  have hfound : ∀ startOffset endOffset, findPcr m startOffset tsEnd (findPcrPid m tsPtr tsEnd) = some first →
      findPcrR m endOffset tsPtr (findPcrPid m tsPtr tsEnd) = some last →
      MeasuresPcr m first last (findDurationByOffset m tsPtr tsEnd startOffset endOffset) := by
    intro startOffset endOffset hfrom hto
    have hdur : findDurationByOffset m tsPtr tsEnd startOffset endOffset =
        some (u32Sub (getPcr m last) (getPcr m first)) := by
      simp only [findDurationByOffset, hfrom, hto, Option.bind_some, Option.map_some]
    rw [hdur]
    constructor
    · rw [pcr_difference]
    · intro elapsed hlt hbase
      rw [pcr_elapsed hlt hbase]
  exact ⟨hfound first (last + 188) (find_pcr_here hfirst hend) (find_pcr_r_here hlast hstart), hfound⟩

/-- Two packets with a clock, which wraps between them: 2 ^ 33 - 1 in the first, 4 in the second. -/
def wrapping : Mem := fun i => [0x47, 0x00, 0x00, 0x20, 0x07, 0x10, 0xFF, 0xFF, 0xFF, 0xFF, 0xFE].getD i
  ([0x47, 0x00, 0x00, 0x20, 0x07, 0x10, 0x00, 0x00, 0x00, 0x02, 0x7E].getD (i - 188) 0xFF)

theorem wrapping_measured : MeasuresPcr wrapping 0 188 (findDurationByOffset wrapping 0 376 0 376) :=
  (duration_measures wrapping 0 376 0 188 (by decide) (by decide) (by decide) (by decide)).1

/-- `find_ts_by_pcr` ends with the offset of a packet in the range. -/
def Seeks (m : Mem) (tsPtr tsEnd tick : Nat) : Prop :=
  ∃ w ∈ packets tsPtr tsEnd, FindTsByPcr m tsPtr tsEnd tick (some w)

/-- The first round already has a pointer that was not found: in a range with a packet there is no
other way. -/
theorem seek_ends_null (m : Mem) (tsPtr tsEnd tick : Nat) (h : tsPtr < tsEnd) (r : Option Nat) :
    FindTsByPcr m tsPtr tsEnd tick r ↔ r = none := by
  apply ends_exit
  rw [seekRound, if_pos h, find_pcr_r_bound]
  cases findPcr m tsPtr tsEnd (findPcrPid m tsPtr tsEnd) with
  | none => rfl
  | some w => rfl

/-- No range of packets is searched, whatever is in them. -/
theorem never_seeks (m : Mem) (tsPtr tsEnd tick : Nat) (h : tsPtr < tsEnd) : ¬ Seeks m tsPtr tsEnd tick := by
  rintro ⟨w, -, hends⟩
  cases (seek_ends_null m tsPtr tsEnd tick h (some w)).mp hends

theorem never_seeks_wrapping : ¬ Seeks wrapping 0 376 0 := never_seeks wrapping 0 376 0 (by decide)

/-- Both packets of the range have a clock, and the search for its first value fails. -/
theorem wrapping_not_found : (∃ w ∈ packets 0 376, isPcr wrapping w (findPcrPid wrapping 0 376)) ∧
    ¬ Seeks wrapping 0 376 (getPcr wrapping 0) := by
  constructor
  · exact ⟨0, mem_packets.mpr ⟨by decide, 0, rfl⟩, by decide⟩
  · rintro ⟨w, -, hends⟩
    cases (seek_ends_null wrapping 0 376 _ (by decide) (some w)).mp hends

end Yclib.Media.Ts
