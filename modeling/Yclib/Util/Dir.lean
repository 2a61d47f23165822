import Yclib.Util.CSearch
import Yclib.Util.Loop

namespace Yclib.Dir
open Loop

/-! `rns_dir_create`, which makes a directory with those that it is in. -/

/-- What `mkdir` comes to, `exist` standing for EEXIST. -/
inductive Mkdir
  | made
  | exist
  | failed
deriving DecidableEq

/-- The result of a call of `mkdir`, by the calls before it and its path. -/
abbrev World := List (List UInt8) → List UInt8 → Mkdir

def slash : UInt8 := 47

/-- The walker in the copy of the path, and the paths that `mkdir` was called with. -/
structure Making where
  walker : Nat
  calls : List (List UInt8)

/-- One call of `mkdir`: what follows it, unless it fails. -/
def Making.call (s : Making) (mkdir : World) (dir : List UInt8) (error : Int)
    (next : List (List UInt8) → Round Making (Int × List (List UInt8))) : Round Making (Int × List (List UInt8)) :=
  if mkdir s.calls dir = .failed then .exit (error, s.calls ++ [dir]) else next (s.calls ++ [dir])

/-- One round of the loop of `rns_dir_create`, or what follows the loop. The separator is put back
after the call. -/
def createRound (mkdir : World) (path : List UInt8) (s : Making) : Round Making (Int × List (List UInt8)) :=
  let str := path ++ [0]
  if s.walker + 1 < path.length then
    (rnsStrchr slash (str.drop (s.walker + 1))).elim
      (s.call mkdir (cString str) (-3) fun calls => .exit (0, calls)) fun i =>
        let walker := s.walker + 1 + i
        s.call mkdir (cString (str.set walker 0)) (-2) fun calls => .go ⟨walker, calls⟩
  else .exit (0, s.calls)

/-- `rns_dir_create`, with what it returns and the directories that it has `mkdir` make. -/
def RnsDirCreate (mkdir : World) (path : List UInt8) (r : Int × List (List UInt8)) : Prop :=
  Ends (createRound mkdir path) ⟨0, []⟩ r

/-- A directory on the way: what is in front of a separator, or the whole path if it does not end
with one. -/
def IsDir (path dir : List UInt8) : Prop :=
  dir ≠ [] ∧ (dir ++ [slash] <+: path ∨ dir = path ∧ path.getLast? ≠ some slash)

instance (path dir : List UInt8) : Decidable (IsDir path dir) := inferInstanceAs (Decidable (_ ∧ _))

/-- The directories on the way, from the shortest one. -/
def dirPrefixes (path : List UInt8) : List (List UInt8) := path.inits.filter fun dir => IsDir path dir

/-- The path without its trailing separator. -/
def fullDir (path : List UInt8) : List UInt8 := if path.getLast? = some slash then path.dropLast else path

/-- The directories from a place in the path on, with what is in front of it. -/
def dirsFrom (done : List UInt8) : List UInt8 → List (List UInt8)
  | [] => if done.getLast? = some slash then [] else [done]
  | b :: bs => if b = slash then done :: dirsFrom (done ++ [b]) bs else dirsFrom (done ++ [b]) bs

section
variable {done chunk rest path : List UInt8} {mkdir : World}

theorem is_dir_end (hdone : done ≠ []) : IsDir done done ↔ done.getLast? ≠ some slash := by
  have hlonger : ¬ done ++ [slash] <+: done := by
    intro hpre
    have hle := hpre.length_le
    rw [List.length_append, List.length_singleton] at hle
    omega
  simp [IsDir, hdone, hlonger]

theorem is_dir_cons {b : UInt8} {bs : List UInt8} (hdone : done ≠ []) : IsDir (done ++ b :: bs) done ↔ b = slash := by
  have hwhole : done ≠ done ++ b :: bs := fun he => by simpa using congrArg List.length he
  simp only [IsDir, List.prefix_append_right_inj, List.cons_prefix_cons, List.nil_prefix, and_true]
  simp only [hdone, hwhole, ne_eq, not_false_eq_true, false_and, or_false, true_and]
  exact eq_comm

theorem dirs_from_inits (hdone : done ≠ []) :
    (rest.inits.map (done ++ ·)).filter (fun dir => IsDir (done ++ rest) dir) = dirsFrom done rest := by
  induction rest generalizing done with
  | nil =>
    simp only [List.inits, List.map_cons, List.map_nil, List.append_nil, dirsFrom]
    by_cases hlast : done.getLast? = some slash
    · simp [is_dir_end hdone, hlast]
    · simp [is_dir_end hdone, hlast]
  | cons b bs ih =>
    have hmap : bs.inits.map ((done ++ ·) ∘ fun t => b :: t) = bs.inits.map ((done ++ [b]) ++ ·) := by
      apply List.map_congr_left
      intro t _
      simp
    have hpath : done ++ b :: bs = (done ++ [b]) ++ bs := by simp
    rw [List.inits_cons, List.map_cons, List.map_map, hmap, List.append_nil, List.filter_cons, dirsFrom]
    have hrest := @ih (done ++ [b]) (by simp)
    by_cases hb : b = slash
    · rw [if_pos (by simpa using (is_dir_cons hdone).mpr hb), if_pos hb, hpath, hrest]
    · rw [if_neg (by simpa using fun h => hb ((is_dir_cons hdone).mp h)), if_neg hb, hpath, hrest]

theorem dir_prefixes_cons (b : UInt8) (bs : List UInt8) : dirPrefixes (b :: bs) = dirsFrom [b] bs := by
  rw [← dirs_from_inits (by simp), dirPrefixes, List.inits_cons, List.filter_cons_of_neg]
  · rfl
  · simp [IsDir]

/-- Without a separator nothing ends. -/
theorem dirs_chunk (h : slash ∉ chunk) : dirsFrom done (chunk ++ rest) = dirsFrom (done ++ chunk) rest := by
  induction chunk generalizing done with
  | nil => simp
  | cons b bs ih =>
    simp only [List.mem_cons, not_or] at h
    rw [List.cons_append, dirsFrom, if_neg (Ne.symm h.1), ih h.2, List.append_assoc, List.singleton_append]

theorem dirs_cut (h : slash ∉ chunk) :
    dirsFrom done (chunk ++ slash :: rest) = (done ++ chunk) :: dirsFrom (done ++ chunk ++ [slash]) rest := by
  rw [dirs_chunk h, dirsFrom, if_pos rfl]

theorem dirs_end (h : slash ∉ chunk) (hne : chunk ≠ []) : dirsFrom done chunk = [done ++ chunk] := by
  have hlast : (done ++ chunk).getLast? ≠ some slash := by
    intro hlast
    rw [List.getLast?_append_of_ne_nil _ hne] at hlast
    exact h (List.mem_of_getLast? hlast)
  have hchunk : dirsFrom done (chunk ++ []) = dirsFrom (done ++ chunk) [] := dirs_chunk h
  rw [List.append_nil] at hchunk
  rw [hchunk, dirsFrom, if_neg hlast]

/-- Each call succeeds or reports that the directory exists. -/
def Willing (mkdir : World) : Prop := ∀ calls dir, mkdir calls dir ≠ .failed

theorem call_willing (h : Willing mkdir) (s : Making) (dir : List UInt8) (error : Int)
    (next : List (List UInt8) → Round Making (Int × List (List UInt8))) :
    s.call mkdir dir error next = next (s.calls ++ [dir]) := if_neg (h s.calls dir)

/-- The rest of a path without a separator is the last directory. -/
theorem round_last (h : Willing mkdir) (hnul : 0 ∉ done ++ rest) (hrest : slash ∉ rest) (hne : rest ≠ [])
    {s : Making} (hw : s.walker + 1 = done.length) :
    createRound mkdir (done ++ rest) s = .exit (0, s.calls ++ [done ++ rest]) := by
  have hpos := List.length_pos_of_ne_nil hne
  have hlt : s.walker + 1 < (done ++ rest).length := by
    rw [List.length_append]
    omega
  have hsearch : rnsStrchr slash ((done ++ rest ++ [0]).drop (s.walker + 1)) = none := by
    rw [hw, List.append_assoc, List.drop_left]
    exact strchr_none hrest (by decide)
  simp only [createRound]
  rw [if_pos hlt, hsearch, Option.elim_none, call_willing h, c_string_nul hnul]

/-- A separator ends a directory. -/
theorem round_cut (h : Willing mkdir) (hnul : 0 ∉ done ++ chunk ++ slash :: rest) (hchunk : slash ∉ chunk)
    {s : Making} (hw : s.walker + 1 = done.length) :
    createRound mkdir (done ++ chunk ++ slash :: rest) s =
      .go ⟨(done ++ chunk).length, s.calls ++ [done ++ chunk]⟩ := by
  have hdone : 0 ∉ done ++ chunk := fun hmem => hnul (List.mem_append_left _ hmem)
  have hnone : 0 ∉ chunk := fun hmem => hdone (List.mem_append_right _ hmem)
  have hlt : s.walker + 1 < (done ++ chunk ++ slash :: rest).length := by
    simp only [List.length_append, List.length_cons]
    omega
  have hsearch : rnsStrchr slash ((done ++ chunk ++ slash :: rest ++ [0]).drop (s.walker + 1)) =
      some chunk.length := by
    rw [hw, List.append_assoc, List.append_assoc, List.drop_left, List.cons_append]
    exact strchr_first hchunk hnone
  have hset : (done ++ chunk ++ slash :: rest ++ [0]).set (done ++ chunk).length 0 =
      done ++ chunk ++ 0 :: (rest ++ [0]) := by
    rw [List.append_assoc, List.set_append_right _ _ (le_refl _), Nat.sub_self]
    rfl
  have hwalker : s.walker + 1 + chunk.length = (done ++ chunk).length := by rw [hw, List.length_append]
  simp only [createRound]
  rw [if_pos hlt, hsearch, Option.elim_some, hwalker, hset, call_willing h, c_string_nul hdone]

/-- The loop begins behind the first byte of the path. -/
theorem short_path_nothing (h : path.length ≤ 1) {r : Int × List (List UInt8)} :
    RnsDirCreate mkdir path r ↔ r = (0, []) := by
  apply ends_exit
  simp only [createRound]
  rw [if_neg (by omega)]

/-- From a separator on, the loop makes the directories that are left. -/
theorem loop_makes (h : Willing mkdir) (hnul : 0 ∉ done ++ rest) {s : Making} (hw : s.walker + 1 = done.length)
    (hend : rest = [] → done.getLast? = some slash) :
    Ends (createRound mkdir (done ++ rest)) s (0, s.calls ++ dirsFrom done rest) := by
  induction hn : rest.length using Nat.strong_induction_on generalizing done rest s with
  | _ n ih =>
    by_cases hne : rest = []
    · subst hne
      rw [List.append_nil, dirsFrom, if_pos (hend rfl), List.append_nil]
      apply Ends.exit
      simp only [createRound]
      rw [if_neg (by omega)]
    by_cases hmem : slash ∈ rest
    · obtain ⟨chunk, behind, rfl, hchunk⟩ := List.eq_append_cons_of_mem hmem
      rw [dirs_cut hchunk]
      rw [← List.append_assoc] at hnul ⊢
      apply Ends.go (round_cut h hnul hchunk hw)
      have hcut : done ++ chunk ++ slash :: behind = (done ++ chunk ++ [slash]) ++ behind := by simp
      rw [hcut] at hnul ⊢
      have hless : behind.length < n := by
        rw [← hn, List.length_append, List.length_cons]
        omega
      rw [List.append_cons s.calls _ (dirsFrom _ behind)]
      apply ih behind.length hless hnul _ _ rfl
      · simp only [List.length_append, List.length_cons, List.length_nil]
      · intro _
        exact List.getLast?_concat
    · rw [dirs_end hmem hne]
      exact .exit (round_last h hnul hmem hne hw)

end

/-- The full directory is the last of the directories on the way. -/
theorem full_dir_mem {path : List UInt8} (hne : path ≠ []) (hroot : path ≠ [slash]) :
    fullDir path ∈ dirPrefixes path := by
  rw [fullDir, dirPrefixes, List.mem_filter]
  split
  · rename_i hlast
    have hpath : path.dropLast ++ [slash] = path := List.dropLast_append_getLast? slash hlast
    have hdir : path.dropLast ≠ [] := by
      intro hnil
      rw [hnil] at hpath
      exact hroot hpath.symm
    have hpre : path.dropLast ++ [slash] <+: path := by rw [hpath]
    exact ⟨(List.mem_inits _ _).mpr (List.dropLast_prefix path), by simpa using ⟨hdir, .inl hpre⟩⟩
  · rename_i hlast
    exact ⟨(List.mem_inits _ _).mpr List.prefix_rfl, by simpa using (is_dir_end hne).mpr hlast⟩

/-- Every directory on the way is made, in order, the full one too, and success is reported. -/
def Creates (mkdir : World) (path : List UInt8) : Prop :=
  RnsDirCreate mkdir path (0, dirPrefixes path) ∧ (path ≠ [] → fullDir path ∈ dirPrefixes path)

/-- A path of one byte is left out, because the loop begins behind its first byte. -/
theorem dir_created_iff (mkdir : World) (path : List UInt8) (hmkdir : Willing mkdir) (hnul : 0 ∉ path)
    (hroot : path ≠ [slash]) : Creates mkdir path ↔ path.length ≠ 1 := by
  rw [Creates, and_iff_left fun hne => full_dir_mem hne hroot]
  cases path with
  | nil => exact iff_of_true ((short_path_nothing (by simp)).mpr rfl) (by simp)
  | cons b bs =>
    rw [dir_prefixes_cons]
    cases bs with
    | nil =>
      have hb : b ≠ slash := fun he => hroot (by rw [he])
      apply iff_of_false _ (by simp)
      intro hrun
      have hresult := (short_path_nothing (by simp)).mp hrun
      simp [dirsFrom, hb] at hresult
    | cons c cs =>
      apply iff_of_true _ (by simp)
      have hrun : Ends (createRound mkdir ([b] ++ c :: cs)) ⟨0, []⟩ (0, [] ++ dirsFrom [b] (c :: cs)) :=
        loop_makes hmkdir hnul rfl (by simp)
      exact hrun

/-- A directory in another one, neither of which is there. -/
theorem nested_created : Creates (fun _ _ => .made) [97, 47, 98] ↔ [(97 : UInt8), 47, 98].length ≠ 1 :=
  dir_created_iff (fun _ _ => .made) [97, 47, 98] (by intro _ _ h; cases h) (by decide) (by decide)

/-- A directory with a name of one byte is not made. -/
theorem one_byte_not_created : ¬ Creates (fun _ _ => .made) [97] := by
  intro h
  have hresult := (short_path_nothing (by decide)).mp h.1
  exact absurd hresult (by decide)

end Yclib.Dir
