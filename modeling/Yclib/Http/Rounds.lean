import Yclib.Http.Scan

namespace Yclib.Http.Reading

/-! The rounds of `rns_http_info_read`: each that goes on takes bytes, so that they end. -/

section
variable {full : Bool} {tunes tunes' : Tunes} {line rest walker walker' : List UInt8}

theorem find_length {found : List UInt8 × List UInt8} (h : findCrlf walker = some found) :
    found.2.length + 2 ≤ walker.length := by
  induction walker generalizing found with
  | nil => cases h
  | cons b walker ih =>
    rw [findCrlf] at h
    split at h
    · cases h
    · split at h
      · rename_i hcrlf
        cases h
        have hne : walker ≠ [] := by
          rintro rfl
          exact absurd hcrlf.2 (by simp)
        have := List.length_pos_iff.mpr hne
        simp only [List.length_tail, List.length_cons]
        omega
      · obtain ⟨found', hfound, rfl⟩ := Option.map_eq_some_iff.mp h
        have := ih hfound
        simp only [List.length_cons]
        omega

theorem skip_length (walker : List UInt8) : (skipSpaces walker).length ≤ walker.length :=
  (List.dropWhile_suffix _).length_le

theorem uri_go (h : uriTurn tunes line rest = .go tunes' walker') : walker' = rest := by
  unfold uriTurn failTurn at h
  grind

theorem method_go (h : methodTurn tunes line rest = .go tunes' walker') : walker' = rest := by
  unfold methodTurn failTurn at h
  grind [uri_go]

theorem start_go (h : startTurn tunes line rest = .go tunes' walker') : walker' = rest := by
  unfold startTurn codeTurn failTurn at h
  grind [method_go]

theorem header_go (h : headerTurn full tunes walker = .go tunes' walker') :
    walker'.length < walker.length := by
  unfold headerTurn waitTurn at h
  cases hfind : findCrlf walker with
  | none => grind
  | some found =>
    have hlen := find_length hfind
    have hskip := skip_length found.2
    simp only [hfind] at h
    split at h
    · cases h
      rw [List.length_drop]
      omega
    · split at h
      · cases h
      · cases h
        omega

theorem size_go (h : sizeTurn tunes line rest = .go tunes' walker') : walker' = rest := by
  unfold sizeTurn at h
  grind

theorem chunk_go (h : chunkTurn full tunes walker = .go tunes' walker') :
    walker'.length < walker.length := by
  have hskip := skip_length walker
  unfold chunkTurn waitTurn at h
  cases hfind : findCrlf (skipSpaces walker) with
  | none => grind
  | some found =>
    have hlen := find_length hfind
    simp only [hfind] at h
    split at h
    · cases hfind' : findCrlf found.2 with
      | none => grind
      | some found' =>
        have hlen' := find_length hfind'
        simp only [hfind'] at h
        rw [size_go h]
        omega
    · rw [size_go h]
      omega

/-- A round that goes on takes at least one byte. -/
theorem turn_go (h : turn full tunes walker = .go tunes' walker') : walker'.length < walker.length := by
  unfold turn at h
  split at h
  · unfold waitTurn at h
    cases hfind : findCrlf walker with
    | none => grind
    | some found =>
      have hlen := find_length hfind
      simp only [hfind] at h
      rw [start_go h]
      omega
  · exact header_go h
  · exact chunk_go h
  · cases h
  · cases h
  · cases h

theorem loop_fuel {fuel : Nat} (h : walker.length < fuel) :
    readLoop full fuel tunes walker = rnsHttpInfoRead full tunes walker := by
  induction hn : walker.length using Nat.strongRecOn generalizing tunes walker fuel with
  | ind n ih =>
    obtain ⟨fuel, rfl⟩ : ∃ n, fuel = n + 1 := ⟨fuel - 1, by omega⟩
    rw [rnsHttpInfoRead, readLoop, readLoop]
    split
    · rfl
    · cases hturn : turn full tunes walker with
      | stop tunes walker => rfl
      | outside => rfl
      | go tunes' walker' =>
        have hlt := turn_go hturn
        have h1 : readLoop full fuel tunes' walker' = rnsHttpInfoRead full tunes' walker' :=
          ih _ (hn ▸ hlt) (by omega) rfl
        have h2 : readLoop full walker.length tunes' walker' = rnsHttpInfoRead full tunes' walker' :=
          ih _ (hn ▸ hlt) hlt rfl
        simp only [h1, h2]

@[simp] theorem read_nil : rnsHttpInfoRead full tunes [] = some (finish tunes, []) := rfl

theorem read_stop (hne : walker ≠ []) (h : turn full tunes walker = .stop tunes' walker') :
    rnsHttpInfoRead full tunes walker = some (tunes', walker') := by
  rw [rnsHttpInfoRead, readLoop, if_neg hne, h]

theorem read_go (hne : walker ≠ []) (h : turn full tunes walker = .go tunes' walker') :
    rnsHttpInfoRead full tunes walker = rnsHttpInfoRead full tunes' walker' := by
  rw [rnsHttpInfoRead, readLoop, if_neg hne, h]
  exact loop_fuel (turn_go h)

end

end Yclib.Http.Reading
