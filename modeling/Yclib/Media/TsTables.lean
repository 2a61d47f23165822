import Yclib.Media.Ts

namespace Yclib.Media.Ts

/-! The tables of a transport stream. Allocations are taken to succeed; a list is in the order in which
`rns_list_for_each` visits it. -/

/-- A 12-bit length as `parse_pat` puts it together, where `<<` binds tighter than `&`. -/
def looseLength (m : Mem) (w : Nat) : Nat := ((m w).toNat &&& (0x0F <<< 8)) ||| (m (w + 1)).toNat

/-- The 12-bit length that is meant. -/
def length12 (m : Mem) (w : Nat) : Nat := twoBytes 0x0F m w

/-- `ts_pat_program_t`. -/
structure PatProgram where
  programNumber : Nat
  programMapPid : Nat
deriving DecidableEq

/-- `ts_pat_t`. -/
structure Pat where
  tableId : UInt8
  sectionLength : Nat
  programHead : List PatProgram
deriving DecidableEq

def patProgram (m : Mem) (w : Nat) : PatProgram := ⟨twoBytes 0xFF m w, twoBytes 0x1F m (w + 2)⟩

/-- `program_num`: the length is an `int` in the quotient, which goes to a `uint32_t`. -/
def programNum (sectionLength : Nat) : Nat := ((Int.tdiv ((sectionLength : Int) - 9) 4) % 2 ^ 32).toNat

/-- `parse_pat`. -/
def parsePat (m : Mem) (patPtr : Nat) : Pat :=
  let sectionLength := looseLength m (patPtr + 1)
  ⟨m patPtr, sectionLength,
    (List.range (programNum sectionLength)).map fun i => patProgram m (patPtr + 8 + 4 * i)⟩

/-- The bytes that it reads. -/
def patReads (m : Mem) (patPtr : Nat) : List Nat :=
  [patPtr, patPtr + 1, patPtr + 2] ++
    (List.range (programNum (looseLength m (patPtr + 1)))).flatMap fun i =>
      (List.range 4).map fun k => patPtr + 8 + 4 * i + k

def parsePat2 (m : Mem) (patPtr : Nat) : Pat := parsePat m (patPtr + 5)

/-- `ts_pmt_stream_t`, with what is set of it. -/
structure PmtStream where
  streamType : UInt8
  streamPid : Nat
deriving DecidableEq

/-- `ts_pmt_t`. -/
structure Pmt where
  tableId : UInt8
  sectionLength : Nat
  pcrPid : Nat
  streamHead : List PmtStream
deriving DecidableEq

def pmtStream (m : Mem) (w : Nat) : PmtStream := ⟨m w, twoBytes 0x1F m (w + 1)⟩

/-- The loop of `parse_pmt`, as the offsets where it takes an entry; the length of the descriptors is
put together as in `parse_pat`. -/
def pmtWalk (m : Mem) (stop walker : Nat) : List Nat :=
  if walker < stop then walker :: pmtWalk m stop (walker + looseLength m (walker + 3) + 5) else []
termination_by stop - walker

/-- Where the loop begins and where it ends. -/
def pmtEntries (m : Mem) (pmtPtr : Nat) : List Nat :=
  pmtWalk m (pmtPtr + 3 + length12 m (pmtPtr + 1) - 4) (pmtPtr + 12)

/-- `parse_pmt`. -/
def parsePmt (m : Mem) (pmtPtr : Nat) : Pmt :=
  ⟨m pmtPtr, length12 m (pmtPtr + 1), twoBytes 0x1F m (pmtPtr + 8), (pmtEntries m pmtPtr).map (pmtStream m)⟩

def pmtReads (m : Mem) (pmtPtr : Nat) : List Nat :=
  [pmtPtr, pmtPtr + 1, pmtPtr + 2, pmtPtr + 8, pmtPtr + 9] ++
    (pmtEntries m pmtPtr).flatMap fun walker => (List.range 5).map fun k => walker + k

def parsePmt2 (m : Mem) (pmtPtr : Nat) : Pmt := parsePmt m (pmtPtr + 5)

section
variable {m : Mem} {w : Nat}

/-- The first byte of a loose length is lost. -/
theorem loose_length_eq : looseLength m w = (m (w + 1)).toNat := by
  have hzero : (m w).toNat &&& (0x0F <<< 8) = 0 := by
    apply Nat.eq_of_testBit_eq
    intro i
    rw [Nat.testBit_and, Nat.testBit_shiftLeft, Nat.zero_testBit]
    by_cases hi : 8 ≤ i
    · have hlt : (m w).toNat < 2 ^ i := (m w).toNat_lt.trans_le (Nat.pow_le_pow_right (by omega) hi)
      rw [Nat.testBit_lt_two_pow hlt, Bool.false_and]
    · simp [hi]
  rw [looseLength, hzero, Nat.zero_or]

theorem length12_eq : length12 m w = (m w &&& 0x0F).toNat * 256 + (m (w + 1)).toNat := two_bytes_eq 0x0F

/-- The two lengths agree where the upper bits are not set. -/
theorem loose_length_iff : looseLength m w = length12 m w ↔ m w &&& 0x0F = 0 := by
  rw [loose_length_eq, length12_eq]
  constructor
  · intro h
    apply UInt8.toNat.inj
    rw [UInt8.toNat_zero]
    omega
  · intro h
    rw [h, UInt8.toNat_zero]
    omega

theorem program_num_of_ge {len : Nat} (h : 9 ≤ len) (hlt : len < 4096) : programNum len = (len - 9) / 4 := by
  have hdiv : Int.tdiv ((len : Int) - 9) 4 = ((len : Int) - 9) / 4 := Int.tdiv_eq_ediv_of_nonneg (by omega)
  rw [programNum, hdiv]
  omega

/-- Below 6 the number of programs is a negative one, wrapped around. -/
theorem program_num_lt {len : Nat} (hlt : len < 256) : programNum len < 44 ↔ 6 ≤ len ∧ len ≤ 184 := by
  by_cases h : 9 ≤ len
  · rw [program_num_of_ge h (by omega)]
    omega
  · have hcases : len ∈ List.range 9 := List.mem_range.mpr (by omega)
    revert len
    decide +kernel

/-- The programs are in the packet if there are fewer than 44 of them. -/
theorem pat_reads_inside (m : Mem) :
    (∀ i ∈ patReads m 5, i < 188) ↔ 6 ≤ (m 7).toNat ∧ (m 7).toNat ≤ 184 := by
  have hlow : looseLength m (5 + 1) = (m 7).toNat := loose_length_eq
  rw [← program_num_lt (m 7).toNat_lt, patReads, hlow]
  constructor
  · intro h
    by_contra hnum
    have hlast := h 188 (List.mem_append_right _ (List.mem_flatMap.mpr
      ⟨43, List.mem_range.mpr (by omega), List.mem_map.mpr ⟨3, by simp, rfl⟩⟩))
    omega
  · intro h i hi
    simp only [List.mem_append, List.mem_cons, List.not_mem_nil, or_false, List.mem_flatMap, List.mem_map,
      List.mem_range] at hi
    rcases hi with hi | ⟨n, hn, k, hk, rfl⟩
    · omega
    · omega

end

/-- A PAT section at `w`: its table, and a length of whole entries that the standard allows. -/
structure PatSection (m : Mem) (w : Nat) : Prop where
  tableId : m w = 0x00
  low : 9 ≤ length12 m (w + 1)
  high : length12 m (w + 1) ≤ 1021
  whole : (length12 m (w + 1) - 9) % 4 = 0

/-- The programs of the section. -/
def patPrograms (m : Mem) (w : Nat) : List PatProgram :=
  (List.range ((length12 m (w + 1) - 9) / 4)).map fun i => patProgram m (w + 8 + 4 * i)

/-- The table in a packet is parsed without a byte from outside of it, and if it is a PAT section, its
programs come out in order. -/
def ParsesPat (m : Mem) : Prop :=
  (∀ i ∈ patReads m 5, i < 188) ∧ (PatSection m 5 → (parsePat2 m 0).programHead = patPrograms m 5)

theorem pat_parsed_iff (m : Mem) : ParsesPat m ↔
    (6 ≤ (m 7).toNat ∧ (m 7).toNat ≤ 184) ∧ (PatSection m 5 → m 6 &&& 0x0F = 0) := by
  rw [ParsesPat, pat_reads_inside, and_congr_right_iff]
  intro hread
  apply imp_congr_right
  intro hsection
  have hlow := hsection.low
  have hhigh := hsection.high
  have hnum := program_num_lt (m 7).toNat_lt
  simp only [Nat.reduceAdd] at hlow hhigh
  rw [← loose_length_iff]
  simp only [parsePat2, parsePat, patPrograms, Nat.zero_add, Nat.reduceAdd]
  constructor
  · intro hsame
    have hlength := congrArg List.length hsame
    have hbyte := length12_eq (m := m) (w := 6)
    have hsmall := hnum.mpr hread
    simp only [List.length_map, List.length_range] at hlength
    rw [loose_length_eq] at hlength ⊢
    simp only [Nat.reduceAdd] at hlength hbyte ⊢
    omega
  · intro hsame
    rw [hsame, program_num_of_ge hlow (by omega)]

/-- A table of zeros has no section length, and the loop runs on behind the packet. -/
theorem empty_pat_overruns : ¬ ParsesPat fun _ => 0x00 := by
  intro h
  have hread := (pat_reads_inside fun _ => 0x00).mp h.1
  exact absurd hread.1 (by decide)

/-- Elementary streams one behind the other from an offset up to `stop`, each with as many bytes of
descriptors as its 12-bit length says. -/
inductive Laid (m : Mem) (stop : Nat) : Nat → List Nat → Prop
  | done : Laid m stop stop []
  | entry {walker : Nat} {rest : List Nat}
      (tail : Laid m stop (walker + length12 m (walker + 3) + 5) rest) : Laid m stop walker (walker :: rest)

/-- A PMT section at `w` with its streams at these offsets, behind the descriptors of the program. -/
structure PmtSection (m : Mem) (w : Nat) (streams : List Nat) : Prop where
  tableId : m w = 0x02
  high : length12 m (w + 1) ≤ 1021
  laid : Laid m (w + 3 + length12 m (w + 1) - 4) (w + 12 + length12 m (w + 10)) streams

/-- From one offset of a packet to another over entries that are as long as the low byte of their
length says. -/
inductive Hops (m : Mem) : Nat → Nat → Prop
  | here (w : Nat) : Hops m w w
  | hop {w w' : Nat} (h : Hops m (w + (m (w + 4)).toNat + 5) w') : Hops m w w'

section
variable {m : Mem} {stop w : Nat} {streams : List Nat}

theorem laid_le (h : Laid m stop w streams) : w ≤ stop := by
  induction h with
  | done => exact le_refl stop
  | entry _ ih => omega

/-- A loop that begins in front of the first stream does not list the streams. -/
theorem walk_early {early : Nat} (h : Laid m stop w streams) (hlt : early < w) :
    pmtWalk m stop early ≠ streams := by
  have hle := laid_le h
  rw [pmtWalk, if_pos (by omega)]
  intro hsame
  cases h with
  | done => cases hsame
  | entry tail =>
    have hhead := (List.cons.inj hsame).1
    omega

theorem walk_laid_iff (h : Laid m stop w streams) :
    pmtWalk m stop w = streams ↔ ∀ p ∈ streams, m (p + 3) &&& 0x0F = 0 := by
  induction h with
  | done =>
    rw [pmtWalk, if_neg (lt_irrefl stop)]
    simp
  | @entry walker rest tail ih =>
    have hle := laid_le tail
    rw [pmtWalk, if_pos (by omega), List.cons.injEq, and_iff_right rfl, List.forall_mem_cons, ← ih,
      ← loose_length_iff]
    by_cases hlow : looseLength m (walker + 3) = length12 m (walker + 3)
    · rw [hlow, and_iff_right rfl]
    · -- the upper bits are lost, so the loop goes on inside of the descriptors
      have hearly : walker + looseLength m (walker + 3) + 5 < walker + length12 m (walker + 3) + 5 := by
        rw [loose_length_eq] at hlow ⊢
        rw [length12_eq] at hlow ⊢
        omega
      exact iff_of_false (walk_early tail hearly) fun hboth => hlow hboth.1

theorem section_walk_iff {start info : Nat} (h : Laid m stop (start + info) streams) :
    pmtWalk m stop start = streams ↔ info = 0 ∧ ∀ p ∈ streams, m (p + 3) &&& 0x0F = 0 := by
  by_cases hinfo : info = 0
  · subst hinfo
    rw [Nat.add_zero] at h
    rw [walk_laid_iff h, and_iff_right rfl]
  · exact iff_of_false (walk_early h (by omega)) fun hboth => hinfo hboth.1

theorem hops_le {w' : Nat} (h : Hops m w w') : w ≤ w' := by
  induction h with
  | here w => exact le_refl w
  | hop _ ih => omega

theorem mem_walk {p : Nat} : p ∈ pmtWalk m stop w ↔ Hops m w p ∧ p < stop := by
  constructor
  · intro hp
    induction hn : stop - w using Nat.strong_induction_on generalizing w with
    | _ n ih =>
      rw [pmtWalk] at hp
      split at hp
      · rename_i hlt
        rcases List.mem_cons.mp hp with rfl | hp
        · exact ⟨.here p, hlt⟩
        · obtain ⟨hhops, hstop⟩ := ih _ (by omega) hp rfl
          rw [loose_length_eq] at hhops
          exact ⟨.hop hhops, hstop⟩
      · cases hp
  · rintro ⟨hhops, hstop⟩
    induction hhops with
    | here w =>
      rw [pmtWalk, if_pos hstop]
      exact List.mem_cons_self
    | @hop w w' hrest ih =>
      have hle := hops_le hrest
      rw [pmtWalk, if_pos (by omega), loose_length_eq]
      exact List.mem_cons_of_mem _ (ih hstop)

theorem pmt_reads_inside (m : Mem) : (∀ i ∈ pmtReads m 5, i < 188) ↔
    ∀ p, Hops m 17 p → p < length12 m 6 + 4 → p < 184 := by
  have hmem : ∀ p, p ∈ pmtEntries m 5 ↔ Hops m 17 p ∧ p < length12 m 6 + 4 := by
    intro p
    rw [pmtEntries, mem_walk]
    apply and_congr_right
    intro _
    simp only [Nat.reduceAdd]
    omega
  constructor
  · intro h p hhops hstop
    have hlast := h (p + 4) (List.mem_append_right _ (List.mem_flatMap.mpr
      ⟨p, (hmem p).mpr ⟨hhops, hstop⟩, List.mem_map.mpr ⟨4, by simp, rfl⟩⟩))
    omega
  · intro h i hi
    simp only [pmtReads, List.mem_append, List.mem_cons, List.not_mem_nil, or_false, List.mem_flatMap,
      List.mem_map, List.mem_range] at hi
    rcases hi with hi | ⟨p, hp, k, hk, rfl⟩
    · omega
    · have hlt := h p ((hmem p).mp hp).1 ((hmem p).mp hp).2
      omega

end

/-- The table in a packet is parsed without a byte from outside of it, and if it is a PMT section, its
streams come out in order, each taken where it is. -/
def ParsesPmt (m : Mem) : Prop :=
  (∀ i ∈ pmtReads m 5, i < 188) ∧ ∀ streams, PmtSection m 5 streams →
    pmtEntries m 5 = streams ∧ (parsePmt2 m 0).streamHead = streams.map (pmtStream m)

theorem pmt_parsed_iff (m : Mem) : ParsesPmt m ↔
    (∀ p, Hops m 17 p → p < length12 m 6 + 4 → p < 184) ∧ ∀ streams, PmtSection m 5 streams →
      length12 m 15 = 0 ∧ ∀ p ∈ streams, m (p + 3) &&& 0x0F = 0 := by
  rw [ParsesPmt, pmt_reads_inside]
  apply and_congr_right
  intro _
  apply forall_congr'
  intro streams
  apply imp_congr_right
  intro hsection
  rw [← section_walk_iff hsection.laid]
  constructor
  · intro hsame
    exact hsame.1
  · intro hsame
    have hentries : pmtEntries m 5 = streams := hsame
    exact ⟨hentries, congrArg (List.map (pmtStream m)) hentries⟩

/-- A program with a registration descriptor and one video stream. -/
def registered : Mem := fun i =>
  [0x47, 0x41, 0x00, 0x10, 0x00, 0x02, 0xB0, 0x18, 0x00, 0x01, 0xC1, 0x00, 0x00, 0xE1, 0x00, 0xF0, 0x06,
    0x05, 0x04, 0x48, 0x44, 0x4D, 0x56, 0x1B, 0xE1, 0x00, 0xF0, 0x00, 0x01, 0x02, 0x03, 0x04].getD i 0xFF

/-- The descriptor is listed in place of the stream. -/
theorem registered_misread : ¬ ParsesPmt registered := by
  intro h
  have hsection : PmtSection registered 5 [23] := ⟨rfl, by decide, .entry .done⟩
  have hstreams := (h.2 [23] hsection).2
  have hentries : pmtEntries registered 5 = 17 :: pmtWalk registered 28 99 := by
    rw [pmtEntries, pmtWalk]
    rfl
  have hhead := (List.cons.inj ((congrArg (List.map (pmtStream registered)) hentries).symm.trans hstreams)).1
  exact absurd hhead (by decide)

end Yclib.Media.Ts
