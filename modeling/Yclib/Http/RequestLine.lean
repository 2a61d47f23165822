import Yclib.Http.Scan

namespace Yclib.Http.RequestLine
open Reading

/-! What `rns_http_info_read` makes of the first line of a request, for all lines. -/

/-- A path, key, value or version: without spaces, control characters and delimiters. -/
def Plain (bs : List UInt8) : Prop := bs ≠ [] ∧ ∀ b ∈ bs, 32 < b ∧ b ≠ 127 ∧ b ≠ 63 ∧ b ≠ 38 ∧ b ≠ 61

abbrev Pair := List UInt8 × List UInt8

def Pair.text (pair : Pair) : List UInt8 := pair.1 ++ 61 :: pair.2

structure Line where
  post : Bool
  path : List UInt8
  pairs : List Pair
  version : List UInt8

def Line.query (line : Line) : List UInt8 :=
  if line.pairs = [] then [] else 63 :: List.intercalate [38] (line.pairs.map Pair.text)

def Line.text (line : Line) : List UInt8 :=
  (if line.post then ascii "POST" else ascii "GET") ++
    32 :: (line.path ++ line.query ++ 32 :: (ascii "HTTP/" ++ line.version))

def Line.bytes (line : Line) : List UInt8 := line.text ++ crlf

structure Line.WellFormed (line : Line) : Prop where
  path : Plain line.path
  pairs : ∀ pair ∈ line.pairs, Plain pair.1 ∧ Plain pair.2
  version : Plain line.version

/-- The entries of the store that hold the pairs. -/
def Line.entries (line : Line) : List (Rbt.Str × List UInt8) :=
  line.pairs.map fun pair => (⟨pair.1⟩, pair.2)

/-- The method, the path and the pairs are those of the line, and there are no other pairs. -/
structure Line.Recorded (line : Line) (info : Info) : Prop where
  method : info.method = if line.post then .post else .get
  uri : info.uri = line.path
  args : info.args.Perm line.entries

/-- The line is read and recorded, and what is read behind it leaves it so. -/
structure Line.Records (line : Line) (full : Bool) (tunes : Tunes) (rest : List UInt8) : Prop where
  reads : ∃ tunes', turn full tunes (line.bytes ++ rest) = .go tunes' rest ∧ line.Recorded tunes'.request
  keeps : ∀ result, rnsHttpInfoRead full tunes (line.bytes ++ rest) = some result →
    line.Recorded result.1.request

/-- What the version follows: the path, or the last pair of the query. -/
def Line.tail (line : Line) : List UInt8 := (line.pairs.getLast?.map Pair.text).getD line.path

section
variable {bs rest word : List UInt8}

theorem plain_text (h : Plain bs) : Text bs := by
  intro b hb
  have hless := (h.2 b hb).1
  refine ⟨?_, ?_, ?_⟩ <;> intro he <;> subst he <;> exact absurd hless (by decide)

theorem plain_free (h : Plain bs) : 32 ∉ bs ∧ 63 ∉ bs ∧ 38 ∉ bs ∧ 61 ∉ bs := by
  refine ⟨?_, ?_, ?_, ?_⟩
  · intro hm
    exact absurd (h.2 32 hm).1 (by decide)
  · intro hm
    exact (h.2 63 hm).2.2.1 rfl
  · intro hm
    exact (h.2 38 hm).2.2.2.1 rfl
  · intro hm
    exact (h.2 61 hm).2.2.2.2 rfl

/-- Nothing from the first `HTTP` on is in front of it. -/
theorem before_le (front rest : List UInt8) :
    (beforeHttp (front ++ (ascii "HTTP" ++ rest))).length ≤ front.length := by
  induction front with
  | nil =>
    have hstart : strncmpEq (ascii "HTTP" ++ rest) (ascii "HTTP") 4 = true :=
      (http_starts _).mpr (List.prefix_append _ _)
    have hcons : ascii "HTTP" ++ rest = 72 :: (ascii "TTP" ++ rest) := rfl
    rw [hcons] at hstart
    rw [List.nil_append, hcons, beforeHttp, if_pos hstart]
  | cons b front ih =>
    rw [List.cons_append, beforeHttp]
    split
    · exact Nat.zero_le _
    · simpa using ih

/-- The end of a word that has `HTTP` in it is found there. -/
theorem until_less (rest : List UInt8) (h : ascii "HTTP" <:+: word) :
    (untilVersion (word ++ rest)).length < word.length := by
  obtain ⟨front, behind, rfl⟩ := h
  have hle := before_le front (behind ++ rest)
  simp only [← List.append_assoc] at hle
  have hdrop : untilVersion (front ++ ascii "HTTP" ++ behind ++ rest) <+:
      beforeHttp (front ++ ascii "HTTP" ++ behind ++ rest) := List.rdropWhile_prefix _ _
  have hlength := hdrop.length_le
  have hword : (front ++ ascii "HTTP" ++ behind).length = front.length + 4 + behind.length := by
    rw [List.length_append, List.length_append, ascii_http]
    rfl
  omega

end

section
variable {args : List (Rbt.Str × List UInt8)} {pairs : List Pair} {pair : Pair}

theorem split_pair (h : Plain pair.1 ∧ Plain pair.2) :
    rnsSplitKeyValue pair.text 61 = some (pair.1, pair.2) := by
  obtain ⟨b, value, hvalue⟩ := List.exists_cons_of_ne_nil h.2.1
  have hb : b ≠ 32 := fun he => (plain_free h.2).1 (by simp [hvalue, he])
  have hskip : skipSpaces pair.2 = pair.2 := skip_first (by rw [hvalue]; rfl) hb
  rw [rnsSplitKeyValue, Pair.text, cut_append (plain_free h.1).2.2.2, Option.map_some, hskip]

theorem insert_pair (h : Plain pair.1 ∧ Plain pair.2) :
    (insertSplit pair.text 61 args).Perm ((⟨pair.1⟩, pair.2) :: args) := by
  rw [insertSplit, split_pair h]
  exact Multimap.insert_perm

/-- The pairs in front of the last one are all in the store. -/
theorem insert_pairs (h : ∀ pair ∈ pairs, Plain pair.1 ∧ Plain pair.2) :
    ((pairs.map Pair.text).foldl (fun args item => insertSplit item 61 args) args).Perm
      ((pairs.map fun pair => ((⟨pair.1⟩ : Rbt.Str), pair.2)) ++ args) := by
  induction pairs generalizing args with
  | nil => exact .refl _
  | cons pair pairs ih =>
    obtain ⟨hpair, hpairs⟩ := List.forall_mem_cons.mp h
    have hrest := @ih (insertSplit pair.text 61 args) hpairs
    exact hrest.trans (((insert_pair hpair).append_left _).trans List.perm_middle)

/-- The bytes of all entries. -/
def weight (args : List (Rbt.Str × List UInt8)) : Nat :=
  (args.map fun entry => entry.1.bytes.length + 1 + entry.2.length).sum

theorem weight_perm {args' : List (Rbt.Str × List UInt8)} (h : args.Perm args') :
    weight args = weight args' := (h.map _).sum_nat

/-- No more is put into the store than there is in the text. -/
theorem insert_weight (str : List UInt8) : weight (insertSplit str 61 args) ≤ weight args + str.length := by
  rw [insertSplit]
  split
  · exact Nat.le_add_right _ _
  · rename_i entry hsplit
    obtain ⟨found, hcut, rfl⟩ := Option.map_eq_some_iff.mp hsplit
    have hlength : str.length = found.1.length + (found.2.length + 1) := by
      rw [cut_some hcut, List.length_append, List.length_cons]
    have hskip : (skipSpaces found.2).length ≤ found.2.length := (List.dropWhile_suffix _).length_le
    rw [weight_perm Multimap.insert_perm]
    simp only [weight, List.map_cons, List.sum_cons]
    omega

end

section
variable {line : Line} {tunes : Tunes} {full : Bool} {rest : List UInt8}

theorem line_text (h : line.WellFormed) : Text line.text := by
  have hspace : (32 : UInt8) ≠ 0 ∧ (32 : UInt8) ≠ 13 ∧ (32 : UInt8) ≠ 10 := by decide
  have hmethod : Text (if line.post then ascii "POST" else ascii "GET") := by
    have hpost : ascii "POST" = [80, 79, 83, 84] := by decide
    have hget : ascii "GET" = [71, 69, 84] := by decide
    unfold Text
    split <;> simp [hpost, hget]
  have hhttp : Text (ascii "HTTP/") := by
    have hbytes : ascii "HTTP/" = [72, 84, 84, 80, 47] := by decide
    simp [Text, hbytes]
  have hversion : Text (ascii "HTTP/" ++ line.version) := text_append.mpr ⟨hhttp, plain_text h.version⟩
  have hquery : Text line.query := by
    unfold Line.query
    split
    · exact text_nil
    · refine text_cons.mpr ⟨by decide, intercalate_text (by decide) ?_⟩
      intro item hitem
      obtain ⟨pair, hpair, rfl⟩ := List.mem_map.mp hitem
      obtain ⟨hkey, hvalue⟩ := h.pairs pair hpair
      exact text_append.mpr ⟨plain_text hkey, text_cons.mpr ⟨by decide, plain_text hvalue⟩⟩
  refine text_append.mpr ⟨hmethod, text_cons.mpr ⟨hspace, ?_⟩⟩
  exact text_append.mpr ⟨text_append.mpr ⟨plain_text h.path, hquery⟩, text_cons.mpr ⟨hspace, hversion⟩⟩

/-- The tunes when the method has been read. -/
def begun (tunes : Tunes) : Tunes :=
  ({ tunes with readType := false } : Tunes).setInfo { tunes.request with method := .post }

theorem begun_info (tunes : Tunes) : (begun tunes).info = { tunes.request with method := .post } := by
  rw [begun, Tunes.info_set]

theorem line_turn (h : line.WellFormed) (hinit : tunes.info.state = .init) :
    turn full tunes (line.bytes ++ rest) =
      uriTurn (begun tunes) (line.path ++ line.query ++ 32 :: (ascii "HTTP/" ++ line.version)) rest := by
  have hfind : findCrlf (line.bytes ++ rest) = some (line.text, rest) := by
    rw [Line.bytes, List.append_assoc]
    exact find_line (line_text h)
  simp only [turn, hinit, hfind]
  rw [Line.text, method_turn]
  rfl

/-- Without a query, the URI goes up to the first `HTTP`. -/
theorem path_turn (h : line.WellFormed) (hp : line.pairs = []) :
    uriTurn tunes (line.path ++ line.query ++ 32 :: (ascii "HTTP/" ++ line.version)) rest =
      if ascii "HTTP" <+: line.path then .outside
      else .go (tunes.setInfo { tunes.info with
        uri := untilVersion (line.path ++ 32 :: (ascii "HTTP/" ++ line.version)), state := .header }) rest := by
  obtain ⟨b, path, hpath⟩ := List.exists_cons_of_ne_nil h.path.1
  have hfree := plain_free h.path
  have hb : b ≠ 32 := fun he => hfree.1 (by simp [hpath, he])
  have hskip : skipSpaces (line.path ++ 32 :: (ascii "HTTP/" ++ line.version)) =
      line.path ++ 32 :: (ascii "HTTP/" ++ line.version) := skip_first (by rw [hpath]; rfl) hb
  have hne : line.path ++ 32 :: (ascii "HTTP/" ++ line.version) ≠ [] := by simp
  have hcut : cut 63 (line.path ++ 32 :: (ascii "HTTP/" ++ line.version)) = none := by
    have hhttp : (63 : UInt8) ∉ ascii "HTTP/" := by decide
    exact cut_none (by simp [hfree.2.1, hhttp, (plain_free h.version).2.1])
  have hstart : strncmpEq (line.path ++ 32 :: (ascii "HTTP/" ++ line.version)) (ascii "HTTP") 4 = true ↔
      ascii "HTTP" <+: line.path := by
    rw [http_starts]
    exact ⟨prefix_word, fun hpre => hpre.trans (List.prefix_append _ _)⟩
  rw [Line.query, if_pos hp, List.append_nil, uriTurn, hskip]
  simp only [if_neg hne, hcut, hstart]

/-- With a query, the last pair goes up to the first `HTTP` in it. -/
theorem query_turn (h : line.WellFormed) {front : List Pair} {last : Pair}
    (hp : line.pairs = front ++ [last]) :
    uriTurn tunes (line.path ++ line.query ++ 32 :: (ascii "HTTP/" ++ line.version)) rest =
      .go (tunes.setInfo { tunes.info with
        uri := line.path
        args := insertSplit (untilVersion (last.text ++ 32 :: (ascii "HTTP/" ++ line.version))) 61
          ((front.map Pair.text).foldl (fun args item => insertSplit item 61 args) tunes.info.args)
        state := .header }) rest := by
  obtain ⟨b, path, hpath⟩ := List.exists_cons_of_ne_nil h.path.1
  have hfree := plain_free h.path
  have hb : b ≠ 32 := fun he => hfree.1 (by simp [hpath, he])
  have hne : line.pairs ≠ [] := by simp [hp]
  have hitems : List.intercalate [38] (line.pairs.map Pair.text) ++ 32 :: (ascii "HTTP/" ++ line.version) =
      List.intercalate [38] (front.map Pair.text ++
        [last.text ++ 32 :: (ascii "HTTP/" ++ line.version)]) := by
    rw [hp, List.map_append, List.map_singleton]
    generalize front.map Pair.text = items
    induction items with
    | nil => simp
    | cons item items ih =>
      cases items with
      | nil => simp
      | cons item' items =>
        simp only [List.cons_append, List.intercalate_cons_cons, List.append_assoc] at ih ⊢
        rw [ih]
  have htext : line.path ++ line.query ++ 32 :: (ascii "HTTP/" ++ line.version) =
      line.path ++ 63 :: List.intercalate [38] (front.map Pair.text ++
        [last.text ++ 32 :: (ascii "HTTP/" ++ line.version)]) := by
    rw [Line.query, if_neg hne, List.append_assoc, List.cons_append, hitems]
  have hsplit : (List.intercalate [38] (front.map Pair.text ++
      [last.text ++ 32 :: (ascii "HTTP/" ++ line.version)])).splitOn 38 =
        front.map Pair.text ++ [last.text ++ 32 :: (ascii "HTTP/" ++ line.version)] := by
    have hpair : ∀ pair ∈ line.pairs, 38 ∉ pair.text := by
      intro pair hmem
      obtain ⟨hkey, hvalue⟩ := h.pairs pair hmem
      simp [Pair.text, (plain_free hkey).2.2.1, (plain_free hvalue).2.2.1]
    have hhttp : (38 : UInt8) ∉ ascii "HTTP/" := by decide
    apply List.splitOn_intercalate
    · intro item hitem
      rcases List.mem_append.mp hitem with hitem | hitem
      · obtain ⟨pair, hmem, rfl⟩ := List.mem_map.mp hitem
        exact hpair pair (by simp [hp, hmem])
      · obtain rfl := List.mem_singleton.mp hitem
        simp [hpair last (by simp [hp]), hhttp, (plain_free h.version).2.2.1]
    · simp
  rw [htext, uriTurn, skip_first (by rw [hpath]; rfl) hb, cut_append hfree.2.1]
  have hne' : line.path ++ 63 :: List.intercalate [38] (front.map Pair.text ++
      [last.text ++ 32 :: (ascii "HTTP/" ++ line.version)]) ≠ [] := by simp
  simp only [if_neg hne', hsplit, read_args]

end

/-! What is read behind the line. -/

/-- The first line stays read, and what it says stays. -/
structure Same (tunes tunes' : Tunes) : Prop where
  type : tunes'.readType = tunes.readType
  begun : tunes'.info.state ≠ .init
  method : tunes'.info.method = tunes.info.method
  uri : tunes'.info.uri = tunes.info.uri
  args : tunes'.info.args = tunes.info.args

theorem Same.trans {tunes tunes' tunes'' : Tunes} (h : Same tunes tunes') (h' : Same tunes' tunes'') :
    Same tunes tunes'' where
  type := h'.type.trans h.type
  begun := h'.begun
  method := h'.method.trans h.method
  uri := h'.uri.trans h.uri
  args := h'.args.trans h.args

section
variable {tunes : Tunes} {full : Bool} {walker : List UInt8}

theorem same_refl (hs : tunes.info.state ≠ .init) : Same tunes tunes := ⟨rfl, hs, rfl, rfl, rfl⟩

theorem same_set {info : Info} (hs : info.state ≠ .init) (hmethod : info.method = tunes.info.method)
    (huri : info.uri = tunes.info.uri) (hargs : info.args = tunes.info.args) :
    Same tunes (tunes.setInfo info) := by
  refine ⟨Tunes.set_type .., ?_, ?_, ?_, ?_⟩ <;> rw [Tunes.info_set] <;> assumption

theorem read_header_same (info : Info) (line : List UInt8) :
    (info.readHeader line).state = info.state ∧ (info.readHeader line).method = info.method ∧
      (info.readHeader line).uri = info.uri ∧ (info.readHeader line).args = info.args := by
  unfold Info.readHeader
  split <;> exact ⟨rfl, rfl, rfl, rfl⟩

/-- The tunes that a round leaves. -/
def tunesOf : Turn → Option Tunes
  | .stop tunes _ => some tunes
  | .go tunes _ => some tunes
  | .outside => none

theorem wait_same {behind : List UInt8} (hs : tunes.info.state ≠ .init) :
    ∀ tunes' ∈ tunesOf (waitTurn full tunes walker behind), Same tunes tunes' := by
  intro tunes' hmem
  unfold waitTurn at hmem
  split at hmem
  · cases hmem
  · cases hmem
    exact same_refl hs

theorem size_same {line rest : List UInt8} :
    ∀ tunes' ∈ tunesOf (sizeTurn tunes line rest), Same tunes tunes' := by
  intro tunes' hmem
  unfold sizeTurn at hmem
  simp only at hmem
  split at hmem <;> cases hmem <;> exact same_set (by simp) rfl rfl rfl

theorem header_same (hs : tunes.info.state ≠ .init) :
    ∀ tunes' ∈ tunesOf (headerTurn full tunes walker), Same tunes tunes' := by
  intro tunes' hmem
  unfold headerTurn at hmem
  split at hmem
  · exact wait_same hs tunes' hmem
  · rename_i found _
    obtain ⟨hstate, hmethod, huri, hargs⟩ := read_header_same tunes.info found.1
    simp only at hmem
    split at hmem
    · cases hmem
      refine same_set ?_ hmethod huri hargs
      simp only
      split <;> decide
    · split at hmem
      · cases hmem
      · cases hmem
        exact same_set (by rw [hstate]; exact hs) hmethod huri hargs

theorem chunk_same (hs : tunes.info.state ≠ .init) :
    ∀ tunes' ∈ tunesOf (chunkTurn full tunes walker), Same tunes tunes' := by
  intro tunes' hmem
  unfold chunkTurn at hmem
  simp only at hmem
  split at hmem
  · exact wait_same hs tunes' hmem
  · split at hmem
    · split at hmem
      · exact wait_same hs tunes' hmem
      · exact size_same tunes' hmem
    · exact size_same tunes' hmem

theorem body_same (hs : tunes.info.state ≠ .init) :
    ∀ tunes' ∈ tunesOf (bodyTurn tunes walker), Same tunes tunes' := by
  intro tunes' hmem
  cases hmem
  refine same_set ?_ rfl rfl rfl
  simp only
  split
  · decide
  · exact hs

/-- No round behind the first line changes what it has said. -/
theorem turn_same (hs : tunes.info.state ≠ .init) :
    ∀ tunes' ∈ tunesOf (turn full tunes walker), Same tunes tunes' := by
  intro tunes' hmem
  unfold turn at hmem
  split at hmem
  · rename_i hinit
    exact absurd hinit hs
  · exact header_same hs tunes' hmem
  · exact chunk_same hs tunes' hmem
  · exact body_same hs tunes' hmem
  · cases hmem
    exact same_refl hs
  · cases hmem
    exact same_refl hs

theorem finish_same (hs : tunes.info.state ≠ .init) : Same tunes (finish tunes) := by
  unfold finish
  split
  · exact same_set (by simp) rfl rfl rfl
  · exact same_refl hs

theorem loop_same {fuel : Nat} {result : Tunes × List UInt8} (hs : tunes.info.state ≠ .init)
    (hr : readLoop full fuel tunes walker = some result) : Same tunes result.1 := by
  induction fuel generalizing tunes walker with
  | zero => cases hr
  | succ fuel ih =>
    rw [readLoop] at hr
    split at hr
    · cases hr
      exact finish_same hs
    · have hround := @turn_same tunes full walker hs
      split at hr
      · rename_i hturn
        rw [hturn] at hround
        cases hr
        exact hround _ rfl
      · rename_i hturn
        rw [hturn] at hround
        have hsame := hround _ rfl
        exact hsame.trans (ih hsame.begun hr)
      · cases hr

end

/-- What follows the target in the line. -/
def Line.behind (line : Line) : List UInt8 := 32 :: (ascii "HTTP/" ++ line.version)

/-- What the code makes of the line. -/
def Line.read (line : Line) (info : Info) : Info :=
  match line.pairs.getLast? with
  | none =>
    { info with method := .post, uri := untilVersion (line.path ++ line.behind), state := .header }
  | some last =>
    { info with
      method := .post
      uri := line.path
      args := insertSplit (untilVersion (last.text ++ line.behind)) 61
        ((line.pairs.dropLast.map Pair.text).foldl (fun args item => insertSplit item 61 args) info.args)
      state := .header }

section
variable {line : Line} {tunes : Tunes} {full : Bool} {rest : List UInt8} {info : Info}

theorem line_reads (hinit : tunes.info.state = .init) (h : line.WellFormed) :
    turn full tunes (line.bytes ++ rest) =
      if line.pairs = [] ∧ ascii "HTTP" <+: line.path then .outside
      else .go ((begun tunes).setInfo (line.read tunes.request)) rest := by
  rw [line_turn h hinit]
  rcases List.eq_nil_or_concat line.pairs with hp | ⟨front, last, hp⟩
  · rw [path_turn h hp, begun_info]
    simp only [hp, true_and, Line.read, List.getLast?_nil, Line.behind]
  · rw [List.concat_eq_append] at hp
    have hne : ¬ (line.pairs = [] ∧ ascii "HTTP" <+: line.path) := by simp [hp]
    rw [query_turn h hp, begun_info, if_neg hne]
    simp only [Line.read, hp, List.getLast?_concat, List.dropLast_concat, Line.behind]

/-- What is recorded when the line is read stays. -/
theorem records_iff (hinit : tunes.info.state = .init) (h : line.WellFormed) :
    line.Records full tunes rest ↔
      ¬ (line.pairs = [] ∧ ascii "HTTP" <+: line.path) ∧ line.Recorded (line.read tunes.request) := by
  have hreads := @line_reads _ tunes full rest hinit h
  have hrequest : ((begun tunes).setInfo (line.read tunes.request)).request = line.read tunes.request := rfl
  constructor
  · intro hrecords
    obtain ⟨tunes', hgo, hrecorded⟩ := hrecords.reads
    rw [hreads] at hgo
    split at hgo
    · cases hgo
    · rename_i hin
      cases hgo
      exact ⟨hin, hrecorded⟩
  · intro hok
    obtain ⟨hin, hrecorded⟩ := hok
    rw [if_neg hin] at hreads
    refine ⟨⟨_, hreads, hrecorded⟩, ?_⟩
    intro result hresult
    have hne : line.bytes ++ rest ≠ [] := by simp [Line.bytes, crlf]
    rw [rnsHttpInfoRead, readLoop, if_neg hne, hreads] at hresult
    have hstate : ((begun tunes).setInfo (line.read tunes.request)).info.state ≠ .init := by
      rw [Tunes.info_set, Line.read]
      split <;> simp
    have hsame := loop_same hstate hresult
    have htype : result.1.readType = false := hsame.type
    have hinfo : result.1.info = result.1.request := by
      rw [Tunes.info, htype]
      rfl
    obtain ⟨hmethod, huri, hargs⟩ := hrecorded
    refine ⟨?_, ?_, ?_⟩
    · rw [← hinfo, hsame.method, Tunes.info_set, hmethod]
    · rw [← hinfo, hsame.uri, Tunes.info_set, huri]
    · rw [← hinfo, hsame.args, Tunes.info_set]
      exact hargs

theorem read_post (hr : line.Recorded (line.read info)) : line.post = true := by
  have hmethod := hr.method
  have hpost : (line.read info).method = .post := by
    unfold Line.read
    split <;> rfl
  rw [hpost] at hmethod
  cases hp : line.post with
  | true => rfl
  | false =>
    rw [hp] at hmethod
    cases hmethod

theorem path_recorded (hargs : info.args = []) (h : line.WellFormed) (hp : line.pairs = [])
    (hpost : line.post = true) :
    line.Recorded (line.read info) ↔ ¬ ascii "HTTP" <:+: line.path := by
  have hread : line.read info = { info with
      method := .post, uri := untilVersion (line.path ++ line.behind), state := .header } := by
    simp only [Line.read, hp, List.getLast?_nil]
  constructor
  · intro hr hin
    have huri : untilVersion (line.path ++ line.behind) = line.path := by
      have hrecorded := hr.uri
      rw [hread] at hrecorded
      exact hrecorded
    have hless := until_less line.behind hin
    rw [huri] at hless
    exact lt_irrefl _ hless
  · intro hnot
    refine ⟨?_, ?_, ?_⟩
    · rw [hread, if_pos hpost]
    · rw [hread]
      exact until_word (plain_free h.path).1 hnot ⟨47 :: line.version, rfl⟩
    · rw [hread, Line.entries, hp]
      simp [hargs]

/-- The store has all of the pairs exactly if it has all of the last one. -/
theorem query_recorded (hargs : info.args = []) (h : line.WellFormed) {front : List Pair} {last : Pair}
    (hp : line.pairs = front ++ [last]) (hpost : line.post = true) :
    line.Recorded (line.read info) ↔ ¬ ascii "HTTP" <:+: last.text := by
  have hread : line.read info = { info with
      method := .post
      uri := line.path
      args := insertSplit (untilVersion (last.text ++ line.behind)) 61
        ((front.map Pair.text).foldl (fun args item => insertSplit item 61 args) [])
      state := .header } := by
    simp only [Line.read, hp, List.getLast?_concat, List.dropLast_concat, hargs]
  have hpairs : ∀ pair ∈ front, Plain pair.1 ∧ Plain pair.2 := fun pair hm => h.pairs pair (by simp [hp, hm])
  have hlast : Plain last.1 ∧ Plain last.2 := h.pairs last (by simp [hp])
  have hfront := @insert_pairs [] front hpairs
  rw [List.append_nil] at hfront
  have hentries : line.entries.Perm
      ((⟨last.1⟩, last.2) :: front.map fun pair => ((⟨pair.1⟩ : Rbt.Str), pair.2)) := by
    rw [Line.entries, hp, List.map_append]
    exact List.perm_append_singleton _ _
  constructor
  · intro hr hin
    have hless := until_less line.behind hin
    have hweight := weight_perm (hr.args.trans hentries)
    have hinsert := @insert_weight ((front.map Pair.text).foldl (fun args item => insertSplit item 61 args) [])
      (untilVersion (last.text ++ line.behind))
    rw [hread] at hweight
    simp only [weight, List.map_cons, List.sum_cons] at hweight
    have hsame := weight_perm hfront
    have htext : last.text.length = last.1.length + 1 + last.2.length := by
      simp only [Pair.text, List.length_append, List.length_cons]
      omega
    simp only [weight] at hinsert hsame
    omega
  · intro hnot
    have hfree : 32 ∉ last.text := by
      simp [Pair.text, (plain_free hlast.1).1, (plain_free hlast.2).1]
    have huntil : untilVersion (last.text ++ line.behind) = last.text :=
      until_word hfree hnot ⟨47 :: line.version, rfl⟩
    refine ⟨?_, ?_, ?_⟩
    · rw [hread, if_pos hpost]
    · rw [hread]
    · rw [hread, huntil]
      exact ((insert_pair hlast).trans (hfront.cons _)).trans hentries.symm

/-- A line is recorded exactly if it is a POST request and what is in front of the version does
not have `HTTP` in it: a GET request is recorded as a POST request. -/
theorem request_line_iff (hinit : tunes.info.state = .init) (hargs : tunes.request.args = [])
    (h : line.WellFormed) :
    line.Records full tunes rest ↔ line.post = true ∧ ¬ ascii "HTTP" <:+: line.tail := by
  rw [records_iff hinit h]
  constructor
  · intro hok
    obtain ⟨-, hr⟩ := hok
    have hpost := read_post hr
    refine ⟨hpost, ?_⟩
    rcases List.eq_nil_or_concat line.pairs with hp | ⟨front, last, hp⟩
    · rw [Line.tail, hp]
      exact (path_recorded hargs h hp hpost).mp hr
    · rw [List.concat_eq_append] at hp
      rw [Line.tail, hp, List.getLast?_concat]
      exact (query_recorded hargs h hp hpost).mp hr
  · intro hok
    obtain ⟨hpost, hnot⟩ := hok
    rcases List.eq_nil_or_concat line.pairs with hp | ⟨front, last, hp⟩
    · rw [Line.tail, hp] at hnot
      refine ⟨fun hin => hnot hin.2.isInfix, (path_recorded hargs h hp hpost).mpr hnot⟩
    · rw [List.concat_eq_append] at hp
      rw [Line.tail, hp, List.getLast?_concat] at hnot
      exact ⟨fun hin => by simp [hp] at hin, (query_recorded hargs h hp hpost).mpr hnot⟩

end

/-- The connection before its first request. -/
def ready : Tunes := ⟨false, .zero, .zero⟩

/-- `POST /a?k=v HTTP/1`. -/
def posted : Line := ⟨true, [47, 97], [([107], [118])], [49]⟩

theorem posted_formed : posted.WellFormed :=
  ⟨by simp [posted, Plain], by simp [posted, Plain], by simp [posted, Plain]⟩

theorem request_line_iff_posted : posted.Records false ready [] :=
  (request_line_iff rfl rfl posted_formed).mpr ⟨rfl, by rw [ascii_http]; decide⟩

/-- `GET /a?k=v HTTP/1` is not recorded as a GET request. -/
theorem get_as_post : ¬ ({ posted with post := false } : Line).Records false ready [] := by
  have hformed : ({ posted with post := false } : Line).WellFormed :=
    ⟨posted_formed.path, posted_formed.pairs, posted_formed.version⟩
  intro hrecords
  obtain ⟨-, hr⟩ := (records_iff rfl hformed).mp hrecords
  exact absurd (read_post hr) (by decide)

end Yclib.Http.RequestLine
