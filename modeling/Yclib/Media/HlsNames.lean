import Yclib.Media.HlsRead

namespace Yclib.Media.Hls
open Http.Reading

/-! The segments of a playlist as its lines name them, and that `m3u8_read` finds these. -/

/-- The lines with something in them, without the spaces in front. -/
def textLines (body : List UInt8) : List (List UInt8) :=
  ((body.splitOn newline).map (List.dropWhile (· = space))).filter (· ≠ [])

def BeginsSeg (line : List UInt8) : Prop := ascii "#EXTINF:" <:+: line

instance (line : List UInt8) : Decidable (BeginsSeg line) := by
  unfold BeginsSeg
  infer_instance

/-- The lines behind those with the tag. -/
def segNames : List (List UInt8) → List (List UInt8)
  | [] => []
  | [_] => []
  | line :: uri :: lines => if BeginsSeg line then uri :: segNames lines else segNames (uri :: lines)

/-- There is a line behind each one with the tag. -/
def Paired : List (List UInt8) → Prop
  | [] => True
  | [line] => ¬ BeginsSeg line
  | line :: uri :: lines => if BeginsSeg line then Paired lines else Paired (uri :: lines)

/-- The lines are taken by `t_buf` with a NUL, and there is a name for each segment. -/
structure Legible (body : List UInt8) : Prop where
  short : ∀ line ∈ textLines body, line.length < 256
  paired : Paired (textLines body)

section
variable {walker line rest : List UInt8} {lines : List (List UInt8)}

theorem text_newline (walker : List UInt8) : textLines (newline :: walker) = textLines walker := by
  rw [textLines, List.splitOn_cons_eq_if_modifyHead, if_pos (beq_self_eq_true newline)]
  rfl

theorem text_space (walker : List UInt8) : textLines (space :: walker) = textLines walker := by
  obtain ⟨line, lines, hlines⟩ := List.exists_cons_of_ne_nil (List.splitOn_ne_nil newline walker)
  rw [textLines, List.splitOn_cons_eq_if_modifyHead, if_neg (by decide), textLines, hlines]
  rfl

theorem text_blank (walker : List UInt8) : textLines (walker.dropWhile blank) = textLines walker := by
  induction walker with
  | nil => rfl
  | cons b bs ih =>
    by_cases hb : blank b
    · rw [List.dropWhile_cons_of_pos hb, ih]
      rcases (by simpa [blank] using hb : b = newline ∨ b = space) with rfl | rfl
      · exact (text_newline bs).symm
      · exact (text_space bs).symm
    · rw [List.dropWhile_cons_of_neg hb]

/-- A line, and those behind it. -/
theorem text_cons (hline : newline ∉ line) (hstart : ∀ b ∈ line.head?, b ≠ space) (hne : line ≠ [])
    (hrest : rest = [] ∨ ∃ more, rest = newline :: more) : textLines (line ++ rest) = line :: textLines rest := by
  have hdrop : line.dropWhile (· = space) = line := by
    obtain ⟨b, bs, rfl⟩ := List.exists_cons_of_ne_nil hne
    exact List.dropWhile_cons_of_neg (by simpa using hstart b rfl)
  rcases hrest with rfl | ⟨more, rfl⟩
  · rw [List.append_nil, textLines, List.splitOn_eq_singleton hline, List.map_singleton, hdrop]
    exact List.filter_cons_of_pos (by simpa using hne)
  · rw [text_newline, textLines, List.splitOn_append_cons_self_of_not_mem hline, List.map_cons, hdrop,
      List.filter_cons_of_pos (by simpa using hne), textLines]

/-- What `get_line` comes to is the first line. -/
theorem text_line {bytes : List UInt8} (hbytes : bytes = (walker.dropWhile blank).takeWhile (· ≠ newline))
    (hne : bytes ≠ []) : textLines walker = bytes :: textLines ((walker.dropWhile blank).drop bytes.length) := by
  have hhead := List.head?_dropWhile_not blank walker
  rw [← text_blank]
  cases hstart : walker.dropWhile blank with
  | nil =>
    rw [hstart] at hbytes
    exact absurd hbytes hne
  | cons b bs =>
    rw [hstart] at hhead hbytes
    have happ := List.takeWhile_append_dropWhile (p := (· ≠ newline)) (l := b :: bs)
    rw [← hbytes] at happ
    have hb : b ≠ newline ∧ b ≠ space := by simpa [blank] using hhead
    have hrest : (b :: bs).drop bytes.length = (b :: bs).dropWhile (· ≠ newline) := by
      nth_rewrite 1 [← happ]
      exact List.drop_left
    rw [hrest]
    nth_rewrite 1 [← happ]
    apply text_cons
    · intro hm
      rw [hbytes] at hm
      simpa using List.mem_takeWhile_imp hm
    · rw [hbytes, List.takeWhile_cons_of_pos (by simpa using hb.1)]
      rintro c hc rfl
      exact hb.2 (Option.some.inj hc)
    · exact hne
    · cases hdrop : (b :: bs).dropWhile (· ≠ newline) with
      | nil => exact .inl rfl
      | cons c cs =>
        have hend := List.head?_dropWhile_not (· ≠ newline) (b :: bs)
        rw [hdrop] at hend
        simp at hend
        exact .inr ⟨cs, by rw [hend]⟩

theorem text_get (h : getLine walker = .line line rest) : textLines walker = line :: textLines rest := by
  simp only [getLine] at h
  split at h
  · cases h
  · rename_i hne
    split at h
    · cases h
    · obtain ⟨rfl, rfl⟩ := Line.line.inj h
      exact text_line rfl hne

theorem text_none (h : getLine walker = .none) : textLines walker = [] := by
  have hlen := get_line_none h
  have hsplit := congrArg List.length (List.takeWhile_append_dropWhile (p := blank) (l := walker))
  rw [List.length_append, hlen, Nat.add_eq_left, List.length_eq_zero_iff] at hsplit
  rw [← text_blank, hsplit]
  rfl

theorem text_overrun (h : getLine walker = .overrun) :
    ∃ line lines, textLines walker = line :: lines ∧ 256 ≤ line.length := by
  simp only [getLine] at h
  split at h
  · cases h
  · rename_i hne
    split at h
    · rename_i hlong
      exact ⟨_, _, text_line rfl hne, hlong⟩
    · cases h

/-- A short line is what `get_line` gives. -/
theorem get_text (h : textLines walker = line :: lines) (hshort : line.length < 256) :
    ∃ rest, getLine walker = .line line rest ∧ textLines rest = lines := by
  cases hline : getLine walker with
  | none =>
    rw [text_none hline] at h
    cases h
  | overrun =>
    obtain ⟨line', lines', htext, hlong⟩ := text_overrun hline
    rw [h] at htext
    obtain ⟨rfl, -⟩ := List.cons.inj htext
    exact absurd hshort (Nat.not_lt.mpr hlong)
  | line line' rest =>
    rw [text_get hline] at h
    obtain ⟨rfl, rfl⟩ := List.cons.inj h
    exact ⟨rest, rfl, rfl⟩

theorem begins_none : lineSubstr line (ascii "#EXTINF:") = none ↔ ¬ BeginsSeg line := by
  rw [lineSubstr, Option.map_eq_none_iff]
  constructor
  · rintro h ⟨front, back, rfl⟩
    obtain ⟨i, -, hi⟩ := strstr_le front (ascii "#EXTINF:") back
    rw [hi] at h
    cases h
  · exact strstr_none

theorem begins_some {value : List UInt8} (h : lineSubstr line (ascii "#EXTINF:") = some value) :
    BeginsSeg line := by
  by_contra hnot
  rw [begins_none.mpr hnot] at h
  cases h

theorem names_skip (h : ¬ BeginsSeg line) (lines : List (List UInt8)) :
    segNames (line :: lines) = segNames lines ∧ (Paired (line :: lines) ↔ Paired lines) := by
  cases lines with
  | nil => exact ⟨rfl, iff_of_true h trivial⟩
  | cons uri lines =>
    rw [segNames, if_neg h, Paired, if_neg h]
    exact ⟨rfl, Iff.rfl⟩

/-- Behind a line with the tag there is the name of its segment. -/
theorem paired_names {line : List UInt8} (h : BeginsSeg line) (hpaired : Paired (line :: lines)) :
    ∃ uri rest, lines = uri :: rest ∧ segNames (line :: lines) = uri :: segNames rest ∧ Paired rest := by
  cases lines with
  | nil => exact absurd h hpaired
  | cons uri rest =>
    rw [Paired, if_pos h] at hpaired
    exact ⟨uri, rest, rfl, by rw [segNames, if_pos h], hpaired⟩

/-- A tag is counted, and what is counted behind it. -/
theorem count_found {m n : Nat} {front back : List UInt8}
    (h : ∀ mid, (mid ++ back).length < n → countSegs m back ≤ countSegs n (mid ++ back))
    (hn : (front ++ ascii "#EXTINF:" ++ back).length < n + 1) :
    countSegs m back + 1 ≤ countSegs (n + 1) (front ++ ascii "#EXTINF:" ++ back) := by
  obtain ⟨i, hi, hfound⟩ := strstr_le front (ascii "#EXTINF:") back
  have hlen : (ascii "#EXTINF:").length = 8 := rfl
  rw [countSegs, hfound]
  simp only [hlen]
  have hle : i + 8 ≤ (front ++ ascii "#EXTINF:").length := by
    rw [List.length_append, hlen]
    omega
  rw [List.drop_append_of_le_length hle]
  apply Nat.succ_le_succ
  apply h
  rw [List.length_append, List.length_drop]
  rw [List.length_append] at hn
  omega

/-- Nothing is counted twice, so a rest has no more segments. -/
theorem count_suffix {m n : Nat} (front back : List UInt8) (hn : (front ++ back).length < n) :
    countSegs m back ≤ countSegs n (front ++ back) := by
  induction n generalizing m front back with
  | zero => omega
  | succ n ih =>
    cases m with
    | zero => exact Nat.zero_le _
    | succ m =>
      cases hfound : rnsStrstr (ascii "#EXTINF:") back with
      | none =>
        rw [countSegs, hfound]
        exact Nat.zero_le _
      | some i =>
        obtain ⟨skipped, rest, hsplit, hlen⟩ := strstr_split hfound
        have hrest : back.drop (i + (ascii "#EXTINF:").length) = rest := by
          rw [hsplit, ← hlen, ← List.length_append, List.drop_left]
        rw [countSegs, hfound]
        simp only [hrest]
        rw [hsplit, ← List.append_assoc, ← List.append_assoc] at hn ⊢
        exact count_found (fun mid hmid => ih mid rest hmid) hn

/-- Each segment that is named has been counted. -/
theorem names_counted {rounds : Nat} (hshort : ∀ line ∈ textLines walker, line.length < 256)
    (hpaired : Paired (textLines walker)) (hrounds : walker.length < rounds) :
    (segNames (textLines walker)).length ≤ countSegs rounds walker := by
  induction rounds generalizing walker with
  | zero => omega
  | succ rounds ih =>
    cases hline : getLine walker with
    | none =>
      rw [text_none hline]
      exact Nat.zero_le _
    | overrun =>
      obtain ⟨line, lines, htext, hlong⟩ := text_overrun hline
      exact absurd (hshort line (htext ▸ List.mem_cons_self)) (Nat.not_lt.mpr hlong)
    | line line rest =>
      have hless := get_line_shorter hline
      have hsplit := get_line_split hline
      have htext := text_get hline
      rw [htext] at hshort hpaired ⊢
      by_cases hbegins : BeginsSeg line
      · obtain ⟨uri, lines, hlines, hnames, hpaired'⟩ := paired_names hbegins hpaired
        obtain ⟨rest', huri, rfl⟩ := get_text hlines (hshort uri (by simp [hlines]))
        have hless' := get_line_shorter huri
        have hsplit' := get_line_split huri
        have hnext := @ih rest' (fun l hm => hshort l (by simp [hlines, hm])) hpaired' (by omega)
        rw [hnames, List.length_cons]
        obtain ⟨front, back, rfl⟩ := hbegins
        -- the first loop goes on behind the tag, in front of the name
        obtain ⟨behind, hbehind⟩ : ∃ behind, behind = back ++ rest.takeWhile blank ++ uri := ⟨_, rfl⟩
        have hwalker : walker = (walker.takeWhile blank ++ front) ++ ascii "#EXTINF:" ++ (behind ++ rest') := by
          nth_rewrite 1 [hsplit, hsplit']
          simp only [hbehind, List.append_assoc]
        obtain ⟨before, hbefore⟩ : ∃ before, before = walker.takeWhile blank ++ front := ⟨_, rfl⟩
        rw [← hbefore] at hwalker
        have hlen := congrArg List.length hwalker
        simp only [List.length_append, show (ascii "#EXTINF:").length = 8 from rfl] at hlen
        have hrest := @count_suffix rounds rounds behind rest' (by rw [List.length_append]; omega)
        have hfound := @count_found rounds rounds before (behind ++ rest')
          (fun mid hmid => count_suffix mid _ hmid) (hwalker ▸ hrounds)
        rw [← hwalker] at hfound
        exact (Nat.succ_le_succ (hnext.trans hrest)).trans hfound
      · obtain ⟨hnames, hskip⟩ := names_skip hbegins (textLines rest)
        rw [hnames]
        have hnext := @ih rest (fun l hm => hshort l (List.mem_cons_of_mem _ hm)) (hskip.mp hpaired) (by omega)
        rw [hsplit, ← List.append_assoc] at hrounds ⊢
        exact hnext.trans (count_suffix _ rest hrounds)

/-- With room for them, all segments that are named are read. -/
theorem read_names {rounds segSize : Nat} {read : Read} (hshort : ∀ line ∈ textLines walker, line.length < 256)
    (hpaired : Paired (textLines walker)) (hrounds : walker.length < rounds)
    (hroom : read.seg.length + (segNames (textLines walker)).length ≤ segSize) :
    ∃ read', readLines segSize rounds walker read = some read' ∧
      read'.seg.map Prod.snd = read.seg.map Prod.snd ++ segNames (textLines walker) := by
  induction rounds generalizing walker read with
  | zero => omega
  | succ rounds ih =>
    rw [readLines]
    cases hline : getLine walker with
    | none => exact ⟨read, rfl, by rw [text_none hline]; simp [segNames]⟩
    | overrun =>
      obtain ⟨line, lines, htext, hlong⟩ := text_overrun hline
      exact absurd (hshort line (htext ▸ List.mem_cons_self)) (Nat.not_lt.mpr hlong)
    | line line rest =>
      have hless := get_line_shorter hline
      rw [text_get hline] at hshort hpaired hroom ⊢
      dsimp only
      cases hvalue : lineSubstr line (ascii "#EXTINF:") with
      | none =>
        obtain ⟨hnames, hskip⟩ := names_skip (begins_none.mp hvalue) (textLines rest)
        rw [hnames] at hroom ⊢
        have hnext := @ih rest (read.readTag line) (fun l hm => hshort l (List.mem_cons_of_mem _ hm))
          (hskip.mp hpaired) (by omega)
        rw [tag_seg] at hnext
        exact hnext hroom
      | some value =>
        have hbegins := begins_some hvalue
        obtain ⟨uri, lines, hlines, hnames, hpaired'⟩ := paired_names hbegins hpaired
        obtain ⟨rest', huri, rfl⟩ := get_text hlines (hshort uri (by simp [hlines]))
        have hless' := get_line_shorter huri
        rw [hnames, List.length_cons] at hroom
        rw [huri]
        dsimp only
        rw [if_pos (by omega)]
        obtain ⟨read', hread', hseg⟩ := @ih rest' { read with seg := read.seg ++ [(value, uri)] }
          (fun l hm => hshort l (by simp [hlines, hm])) hpaired' (by omega)
          (by rw [List.length_append, List.length_singleton]; omega)
        refine ⟨read', hread', ?_⟩
        rw [hseg, hnames, List.map_append, List.append_assoc]
        rfl

/-- What is read to its end is legible. -/
theorem read_legible {rounds segSize : Nat} {read : Read} (hrounds : walker.length < rounds)
    (h : (readLines segSize rounds walker read).isSome) :
    (∀ line ∈ textLines walker, line.length < 256) ∧ Paired (textLines walker) := by
  induction rounds generalizing walker read with
  | zero => omega
  | succ rounds ih =>
    rw [readLines] at h
    cases hline : getLine walker with
    | none =>
      rw [text_none hline]
      exact ⟨fun _ hm => absurd hm List.not_mem_nil, trivial⟩
    | overrun => simp [hline] at h
    | line line rest =>
      have hless := get_line_shorter hline
      have hlen := (get_line_rest hline).2.1
      rw [hline] at h
      rw [text_get hline]
      dsimp only at h
      cases hvalue : lineSubstr line (ascii "#EXTINF:") with
      | none =>
        rw [hvalue] at h
        obtain ⟨hshort, hpaired⟩ := ih (by omega) h
        exact ⟨List.forall_mem_cons.mpr ⟨hlen, hshort⟩, (names_skip (begins_none.mp hvalue) _).2.mpr hpaired⟩
      | some value =>
        have hbegins := begins_some hvalue
        rw [hvalue] at h
        dsimp only at h
        cases huri : getLine rest with
        | none => simp [huri] at h
        | overrun => simp [huri] at h
        | line uri rest' =>
          have hless' := get_line_shorter huri
          have hlen' := (get_line_rest huri).2.1
          rw [huri] at h
          dsimp only at h
          split at h
          · obtain ⟨hshort, hpaired⟩ := ih (by omega) h
            rw [text_get huri, Paired, if_pos hbegins]
            exact ⟨List.forall_mem_cons.mpr ⟨hlen, List.forall_mem_cons.mpr ⟨hlen', hshort⟩⟩, hpaired⟩
          · cases h

/-- Of a legible playlist all segments that it names are read, and perhaps some without a name behind them. -/
theorem legible_read {body : List UInt8} (h : Legible body) : ∃ read extra, m3u8Read body = some read ∧
    read.seg.map Prod.snd = segNames (textLines body) ++ List.replicate extra [] := by
  have hcounted := names_counted h.short h.paired (Nat.lt_succ_self _)
  obtain ⟨read, hread, hseg⟩ := @read_names body (body.length + 1) (countSegs (body.length + 1) body)
    ⟨[], false, 0, 0, [], false⟩ h.short h.paired (Nat.lt_succ_self _) ((Nat.zero_add _).trans_le hcounted)
  obtain ⟨extra, hextra⟩ : ∃ extra, extra = countSegs (body.length + 1) body - read.seg.length := ⟨_, rfl⟩
  refine ⟨{ read with seg := read.seg ++ List.replicate extra ([], []) }, extra, ?_, ?_⟩
  · simp only [m3u8Read, hread, Option.map_some, ← hextra]
  · rw [List.map_append, hseg, List.map_replicate, List.map_nil, List.nil_append]

theorem legible_iff {body : List UInt8} : Legible body ↔ (m3u8Read body).isSome := by
  constructor
  · intro h
    obtain ⟨read, extra, hread, -⟩ := legible_read h
    rw [hread]
    rfl
  · intro h
    rw [m3u8Read, Option.isSome_map] at h
    obtain ⟨hshort, hpaired⟩ := read_legible (Nat.lt_succ_self _) h
    exact ⟨hshort, hpaired⟩

theorem split_subset (walker : List UInt8) : ∀ line ∈ walker.splitOn newline, line ⊆ walker := by
  induction walker with
  | nil =>
    intro line hm
    rw [List.splitOn_nil, List.mem_singleton] at hm
    rw [hm]
    exact List.nil_subset []
  | cons b bs ih =>
    obtain ⟨first, others, hsplit⟩ := List.exists_cons_of_ne_nil (List.splitOn_ne_nil newline bs)
    rw [List.splitOn_cons_eq_if_modifyHead]
    intro line hm
    split at hm
    · rcases List.mem_cons.mp hm with rfl | hm
      · exact List.nil_subset _
      · exact List.subset_cons_of_subset b (ih line hm)
    · rw [hsplit] at ih hm
      rcases List.mem_cons.mp hm with rfl | hm
      · exact List.cons_subset_cons b (ih first List.mem_cons_self)
      · exact List.subset_cons_of_subset b (ih line (List.mem_cons_of_mem _ hm))

theorem text_subset {body : List UInt8} (h : line ∈ textLines body) : line ⊆ body ∧ line ≠ [] := by
  obtain ⟨hm, hne⟩ := List.mem_filter.mp h
  obtain ⟨whole, hwhole, rfl⟩ := List.mem_map.mp hm
  refine ⟨?_, by simpa using hne⟩
  exact List.Subset.trans (List.dropWhile_suffix _).subset (split_subset body whole hwhole)

theorem names_subset : segNames lines ⊆ lines := by
  induction lines using segNames.induct with
  | case1 => exact List.nil_subset _
  | case2 line => exact List.nil_subset _
  | case3 line uri lines hbegins ih =>
    rw [segNames, if_pos hbegins]
    exact List.subset_cons_of_subset line (List.cons_subset_cons uri ih)
  | case4 line uri lines hbegins ih =>
    rw [segNames, if_neg hbegins]
    exact List.subset_cons_of_subset line ih

/-- The names are short strings with something in them. -/
theorem legible_names {body : List UInt8} (hnul : 0 ∉ body) (h : Legible body) :
    ∀ uri ∈ segNames (textLines body), uri ≠ [] ∧ uri.length < 256 ∧ 0 ∉ uri := by
  intro uri hm
  have hline := names_subset hm
  obtain ⟨hsubset, hne⟩ := text_subset hline
  exact ⟨hne, h.short uri hline, fun hzero => hnul (hsubset hzero)⟩

end

end Yclib.Media.Hls
