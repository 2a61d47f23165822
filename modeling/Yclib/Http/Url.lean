import Yclib.Http.Scan
import Yclib.Util.CSearch

namespace Yclib.Http.Urls
open Reading

/-! `rns_http_url_create`. -/

/-- `rns_http_url_t`. -/
structure Url where
  addr : List UInt8
  port : Nat
  uri : List UInt8
deriving DecidableEq

/-- The result, how many bytes of the string each loop and function has come over, and how many bytes are
copied into a buffer of which size. -/
structure Created where
  url : Option Url
  looks : List Nat
  copies : List (Nat × Nat)

/-- Neither `:` nor `/`. -/
def inAddr (b : UInt8) : Bool := b ≠ 58 && b ≠ 47

/-- From `walker` on, which is at the `/` in front of the path, `at` bytes from the beginning. -/
def createUri (addr : List UInt8) (port at' : Nat) (path : List UInt8) (looks : List Nat)
    (copies : List (Nat × Nat)) : Created :=
  match cut 63 (47 :: cString path) with
  | some (uri, _) =>
    ⟨some ⟨addr, port, uri⟩, looks ++ [at' + uri.length + 1], copies ++ [(uri.length + 1, uri.length)]⟩
  | none =>
    let uri := 47 :: cString path
    ⟨some ⟨addr, port, uri⟩, looks ++ [at' + uri.length + 1], copies ++ [(uri.length + 1, uri.length)]⟩

/-- `rns_http_url_create`. Behind the NUL of the string is what the memory holds there; `stale` is what it
holds where `port` is, and behind that. -/
def rnsHttpUrlCreate (str behind stale : List UInt8) : Created :=
  match rnsStrstr [47, 47] str with
  | none => ⟨none, [str.length + 1], []⟩
  | some i =>
    let rest := (str ++ 0 :: behind).drop (i + 2)
    let addr := rest.takeWhile inAddr
    let at' := i + 2 + addr.length
    let looks := [i + 2, at' + 1]
    if 128 < addr.length then ⟨none, looks, []⟩
    else
      let copies := [(addr.length + 1, addr.length)]
      match rest.dropWhile inAddr with
      | [] => ⟨none, looks, copies⟩
      | b :: ptr =>
        if b = 58 then
          match cut 47 (cString ptr) with
          | none => ⟨none, looks ++ [at' + 1 + (cString ptr).length + 1], copies⟩
          | some (port, _) =>
            let looks := looks ++ [at' + 1 + port.length + 1]
            if 8 < port.length then ⟨none, looks, copies⟩
            else
              createUri addr (ofInt (rnsAtoi (port ++ stale.drop port.length))) (at' + 1 + port.length)
                (ptr.drop (port.length + 1)) looks (copies ++ [(8, port.length)])
        else createUri addr 80 at' ptr looks copies

/-- Each copy is inside its buffer. -/
def Created.CopiesInside (created : Created) : Prop := ∀ copy ∈ created.copies, copy.2 ≤ copy.1

/-- No byte behind the NUL of the string is read. -/
def Created.ReadsInside (created : Created) (str : List UInt8) : Prop := ∀ n ∈ created.looks, n ≤ str.length + 1

/-- `scheme://host[:port]/path[?args]`. -/
structure Form where
  scheme : List UInt8
  host : List UInt8
  port : Option (List UInt8)
  path : List UInt8
  args : Option (List UInt8)

def Form.bytes (form : Form) : List UInt8 :=
  form.scheme ++ 58 :: 47 :: 47 :: (form.host ++ (form.port.elim [] fun port => 58 :: port) ++
    47 :: (form.path ++ form.args.elim [] fun args => 63 :: args))

structure Form.WellFormed (form : Form) : Prop where
  scheme : 47 ∉ form.scheme
  host : ∀ b ∈ form.host, inAddr b
  port : ∀ port, form.port = some port → port ≠ [] ∧ ∀ b ∈ port, isDigit b
  path : 63 ∉ form.path

/-- The host, the port in decimal or the default, and the path. -/
def Form.url (form : Form) : Url where
  addr := form.host
  port := form.port.elim 80 (readDigits 0)
  uri := 47 :: form.path

section
variable {str behind stale : List UInt8} {b : UInt8}

theorem slashes_found {front rest : List UInt8} (h : 47 ∉ front) :
    rnsStrstr [47, 47] (front ++ 47 :: 47 :: rest) = some front.length := by
  induction front with
  | nil => exact if_pos ⟨rest, rfl⟩
  | cons b front ih =>
    rw [List.mem_cons, not_or] at h
    rw [List.cons_append, rnsStrstr, if_neg fun hpre => h.1 (List.cons_prefix_cons.mp hpre).1, ih h.2]
    rfl

theorem uri_copies {addr : List UInt8} {port at' : Nat} {path : List UInt8} {looks : List Nat}
    {copies : List (Nat × Nat)} (h : ∀ copy ∈ copies, copy.2 ≤ copy.1) :
    (createUri addr port at' path looks copies).CopiesInside := by
  intro copy hm
  unfold createUri at hm
  split at hm
  all_goals
    rw [List.mem_append, List.mem_singleton] at hm
    rcases hm with hm | rfl
    · exact h copy hm
    · exact Nat.le_succ _

/-- Whatever the string is, every copy is inside its buffer. -/
theorem create_copies (str behind stale : List UInt8) : (rnsHttpUrlCreate str behind stale).CopiesInside := by
  unfold rnsHttpUrlCreate
  split
  · simp [Created.CopiesInside]
  simp only
  split
  · simp [Created.CopiesInside]
  split
  · simp [Created.CopiesInside]
  split
  · split
    · simp [Created.CopiesInside]
    · split
      · simp [Created.CopiesInside]
      · apply uri_copies
        intro copy hm
        simp only [List.mem_append, List.mem_singleton] at hm
        rcases hm with rfl | rfl
        · exact Nat.le_succ _
        · simp only
          omega
  · exact uri_copies (by simp)

/-- Where the address ends in the string. -/
theorem create_eq {addr tail : List UInt8} {c : UInt8} {i : Nat} (hstr : 0 ∉ str)
    (hfound : rnsStrstr [47, 47] str = some i)
    (hsplit : str.drop (i + 2) = addr ++ c :: tail) (haddr : ∀ b ∈ addr, inAddr b)
    (hc : inAddr c = false) :
    rnsHttpUrlCreate str behind stale =
      let at' := i + 2 + addr.length
      let looks := [i + 2, at' + 1]
      let copies := [(addr.length + 1, addr.length)]
      if 128 < addr.length then ⟨none, looks, []⟩
      else if c = 58 then
        match cut 47 tail with
        | none => ⟨none, looks ++ [at' + 1 + tail.length + 1], copies⟩
        | some (port, path) =>
          let looks := looks ++ [at' + 1 + port.length + 1]
          if 8 < port.length then ⟨none, looks, copies⟩
          else
            createUri addr (ofInt (rnsAtoi (port ++ stale.drop port.length))) (at' + 1 + port.length)
              (path ++ 0 :: behind) looks (copies ++ [(8, port.length)])
      else createUri addr 80 at' (tail ++ 0 :: behind) looks copies := by
  have hle : i + 2 ≤ str.length := strstr_end hfound
  have hrest : (str ++ 0 :: behind).drop (i + 2) = addr ++ c :: (tail ++ 0 :: behind) := by
    rw [List.drop_append_of_le_length hle, hsplit]
    simp
  have htail : 0 ∉ tail := by
    intro hm
    have hin : (0 : UInt8) ∈ str.drop (i + 2) := by
      rw [hsplit]
      simp [hm]
    exact hstr (List.mem_of_mem_drop hin)
  have htake : (addr ++ c :: (tail ++ 0 :: behind)).takeWhile inAddr = addr := by
    rw [List.takeWhile_append_of_pos haddr]
    simp [hc]
  have hdrop : (addr ++ c :: (tail ++ 0 :: behind)).dropWhile inAddr = c :: (tail ++ 0 :: behind) := by
    rw [List.dropWhile_append_of_pos haddr]
    simp [hc]
  rw [rnsHttpUrlCreate, hfound]
  simp only [hrest, htake, hdrop, c_string_nul htail]
  split
  · rfl
  split
  · cases hcut : cut 47 tail with
    | none => rfl
    | some found =>
      obtain ⟨port, path⟩ := found
      have hpath : (tail ++ 0 :: behind).drop (port.length + 1) = path ++ 0 :: behind := by
        rw [cut_some hcut]
        simp
      simp only [hpath]
  · rfl

/-- The path is read up to the NUL at most. -/
theorem uri_reads {addr path : List UInt8} {port at' : Nat} {looks : List Nat} {copies : List (Nat × Nat)}
    (hlooks : ∀ n ∈ looks, n ≤ str.length + 1) (hpath : at' + 1 + (cString path).length ≤ str.length) :
    (createUri addr port at' path looks copies).ReadsInside str := by
  intro n hm
  unfold createUri at hm
  split at hm
  · rename_i uri args hcut
    have hlength := congrArg List.length (cut_some hcut)
    simp only [List.length_cons, List.length_append] at hlength
    simp only [List.mem_append, List.mem_singleton] at hm
    rcases hm with hm | rfl
    · exact hlooks n hm
    · omega
  · simp only [List.mem_append, List.mem_singleton, List.length_cons] at hm
    rcases hm with hm | rfl
    · exact hlooks n hm
    · omega

/-- Where the address ends in the string, nothing behind its NUL is read. -/
theorem create_reads (hstr : 0 ∉ str)
    (hends : ∀ i, rnsStrstr [47, 47] str = some i → ∃ b ∈ str.drop (i + 2), inAddr b = false) :
    (rnsHttpUrlCreate str behind stale).ReadsInside str := by
  cases hfound : rnsStrstr [47, 47] str with
  | none =>
    rw [rnsHttpUrlCreate, hfound]
    simp [Created.ReadsInside]
  | some i =>
    obtain ⟨b, hb, hin⟩ := hends i hfound
    have hparts := @List.takeWhile_append_dropWhile _ inAddr (str.drop (i + 2))
    have hne : (str.drop (i + 2)).dropWhile inAddr ≠ [] := by
      rw [ne_eq, List.dropWhile_eq_nil_iff]
      intro hall
      rw [hall b hb] at hin
      cases hin
    obtain ⟨c, tail, htail⟩ := List.exists_cons_of_ne_nil hne
    have hc : inAddr c = false := by
      have hhead := List.head_dropWhile_not inAddr hne
      simpa [htail] using hhead
    generalize haddr : (str.drop (i + 2)).takeWhile inAddr = addr at hparts
    rw [htail] at hparts
    have hall : ∀ b ∈ addr, inAddr b := by
      intro b hb
      rw [← haddr] at hb
      exact List.mem_takeWhile_imp hb
    have hlength := congrArg List.length hparts
    have hle : i + 2 ≤ str.length := strstr_end hfound
    rw [List.length_drop, List.length_append, List.length_cons] at hlength
    have hclean : 0 ∉ tail := by
      intro hm
      have hin : (0 : UInt8) ∈ str.drop (i + 2) := by
        rw [← hparts]
        simp [hm]
      exact hstr (List.mem_of_mem_drop hin)
    rw [create_eq hstr hfound hparts.symm hall hc]
    simp only
    split
    · simp only [Created.ReadsInside, List.mem_cons, List.not_mem_nil, or_false]
      rintro n (rfl | rfl) <;> omega
    split
    · cases hcut : cut 47 tail with
      | none =>
        simp only [Created.ReadsInside, List.mem_append, List.mem_cons, List.not_mem_nil, or_false]
        rintro n ((rfl | rfl) | rfl) <;> omega
      | some found =>
        obtain ⟨port, path⟩ := found
        have hsome : tail = port ++ 47 :: path := cut_some hcut
        have hport := congrArg List.length hsome
        rw [List.length_append, List.length_cons] at hport
        have hpath : 0 ∉ path := by
          intro hm
          apply hclean
          rw [hsome]
          simp [hm]
        have hlooks : ∀ n ∈ [i + 2, i + 2 + addr.length + 1] ++ [i + 2 + addr.length + 1 + port.length + 1],
            n ≤ str.length + 1 := by
          simp only [List.mem_append, List.mem_cons, List.not_mem_nil, or_false]
          rintro n ((rfl | rfl) | rfl) <;> omega
        simp only
        split
        · exact hlooks
        · apply uri_reads hlooks
          rw [c_string_nul hpath]
          omega
    · refine uri_reads ?_ ?_
      · simp only [List.mem_cons, List.not_mem_nil, or_false]
        rintro n (rfl | rfl) <;> omega
      · rw [c_string_nul hclean]
        omega

/-- Digits are a number of at most so many. -/
theorem read_digits_lt {digits : List UInt8} (value : Nat) (h : ∀ b ∈ digits, isDigit b) :
    readDigits value digits < (value + 1) * 10 ^ digits.length := by
  induction digits generalizing value with
  | nil => simp [readDigits]
  | cons b digits ih =>
    have hb := h b (List.mem_cons_self ..)
    rw [readDigits, if_pos hb]
    have hlt := ih (value * 10 + (b.toNat - 48)) fun c hc => h c (List.mem_cons_of_mem _ hc)
    have hdigit : b.toNat - 48 ≤ 9 := by
      simp only [isDigit, Bool.and_eq_true, decide_eq_true_eq, UInt8.le_iff_toNat_le] at hb
      have hnine : (57 : UInt8).toNat = 57 := rfl
      omega
    apply hlt.trans_le
    rw [List.length_cons, Nat.pow_succ, Nat.mul_comm (10 ^ digits.length) 10, ← Nat.mul_assoc]
    exact Nat.mul_le_mul_right _ (by omega)

/-- What is not a digit ends a number. -/
theorem read_digits_append {digits rest : List UInt8} (value : Nat) (h : ∀ b ∈ digits, isDigit b)
    (hrest : ∀ b, rest.head? = some b → isDigit b = false) :
    readDigits value (digits ++ rest) = readDigits value digits := by
  induction digits generalizing value with
  | nil =>
    cases rest with
    | nil => rfl
    | cons b rest => simp [readDigits, hrest b rfl]
  | cons b digits ih =>
    rw [List.cons_append, readDigits, readDigits]
    split
    · exact ih _ fun c hc => h c (List.mem_cons_of_mem _ hc)
    · rfl

/-- The guards let the host and the port pass, and no digit is left behind the port where it is copied. -/
structure Form.Passes (form : Form) (stale : List UInt8) : Prop where
  host : form.host.length ≤ 128
  port : ∀ port, form.port = some port → port.length < 8
  stale : ∀ port, form.port = some port → ∀ b, (stale.drop port.length).head? = some b → isDigit b = false

theorem port_read {form : Form} (hwell : form.WellFormed) (hpass : form.Passes stale) {port : List UInt8}
    (hport : form.port = some port) :
    ofInt (rnsAtoi (port ++ stale.drop port.length)) = readDigits 0 port := by
  obtain ⟨hne, hdigits⟩ := hwell.port port hport
  have hlt := read_digits_lt 0 hdigits
  have hpow : 10 ^ port.length ≤ 10 ^ 7 := Nat.pow_le_pow_right (by decide) (Nat.le_of_lt_succ (hpass.port port hport))
  have hread := read_digits_append 0 hdigits (hpass.stale port hport)
  obtain ⟨b, rest, rfl⟩ := List.exists_cons_of_ne_nil hne
  rw [List.cons_append] at hread
  rw [List.cons_append, atoi_first (hdigits b (List.mem_cons_self ..)), hread]
  unfold ofInt
  omega

/-- The uri of a path. -/
theorem create_uri {addr path : List UInt8} {args : Option (List UInt8)} {port at' : Nat} {looks : List Nat}
    {copies : List (Nat × Nat)} (hpath : 63 ∉ path) (hclean : 0 ∉ path ++ args.elim [] fun args => 63 :: args) :
    (createUri addr port at' ((path ++ args.elim [] fun args => 63 :: args) ++ 0 :: behind) looks copies).url =
      some ⟨addr, port, 47 :: path⟩ := by
  have hslash : 63 ∉ 47 :: path := by
    rw [List.mem_cons, not_or]
    exact ⟨by decide, hpath⟩
  rw [createUri, c_string_nul hclean]
  cases args with
  | none =>
    rw [Option.elim_none, List.append_nil, cut_none hslash]
  | some args =>
    rw [Option.elim_some, ← List.cons_append, cut_append hslash]

/-- A url of the form gives its host, its port and its path. -/
theorem create_form {form : Form} (hclean : 0 ∉ form.bytes) (hwell : form.WellFormed) (hpass : form.Passes stale) :
    (rnsHttpUrlCreate form.bytes behind stale).url = some form.url := by
  obtain ⟨scheme, host, port, path, args⟩ := form
  have hscheme : 47 ∉ scheme ++ [58] := by
    simp [hwell.scheme]
  have hhost : ¬ 128 < host.length := Nat.not_lt.mpr hpass.host
  have hfound := @slashes_found (scheme ++ [58]) (host ++ (port.elim [] fun port => 58 :: port) ++
    47 :: (path ++ args.elim [] fun args => 63 :: args)) hscheme
  have hbytes : (scheme ++ [58]) ++ 47 :: 47 :: (host ++ (port.elim [] fun port => 58 :: port) ++
      47 :: (path ++ args.elim [] fun args => 63 :: args)) = (Form.mk scheme host port path args).bytes := by
    simp [Form.bytes]
  have hdrop : (Form.mk scheme host port path args).bytes.drop ((scheme ++ [58]).length + 2) =
      host ++ (port.elim [] fun port => 58 :: port) ++ 47 :: (path ++ args.elim [] fun args => 63 :: args) := by
    rw [← hbytes, List.drop_append]
    simp
  rw [hbytes] at hfound
  have htail : 0 ∉ path ++ args.elim [] fun args => 63 :: args := by
    intro hm
    apply hclean
    rw [← hbytes]
    simp only [List.mem_append, List.mem_cons] at hm ⊢
    exact .inr (.inr (.inr (.inr (.inr hm))))
  cases port with
  | none =>
    rw [Option.elim_none, List.append_nil] at hdrop
    rw [create_eq hclean hfound hdrop hwell.host (by decide)]
    simp only
    rw [if_neg hhost, if_neg (by decide), create_uri hwell.path htail]
    rfl
  | some port =>
    have hdigits := (hwell.port port rfl).2
    have hslash : 47 ∉ port := fun hm => absurd (hdigits 47 hm) (by decide)
    have hlt := hpass.port port rfl
    rw [Option.elim_some, List.append_assoc, List.cons_append] at hdrop
    rw [create_eq hclean hfound hdrop hwell.host (by decide), cut_append hslash]
    simp only
    rw [if_neg hhost, if_pos trivial, if_neg (by omega), create_uri hwell.path htail, port_read hwell hpass rfl]
    rfl

end

/-- A string, which ends at its NUL. -/
structure Text where
  bytes : List UInt8
  clean : 0 ∉ bytes

/-- For every string, whatever is behind its NUL and where the port is copied: no copy leaves its buffer; nothing
behind the NUL is read where the host ends in the string; and a url of the form that the guards let pass gives its
host, its port and its path. -/
theorem url_created (str : Text) (behind stale : List UInt8) :
    (rnsHttpUrlCreate str.bytes behind stale).CopiesInside ∧
      ((∀ i, rnsStrstr [47, 47] str.bytes = some i → ∃ b ∈ str.bytes.drop (i + 2), inAddr b = false) →
        (rnsHttpUrlCreate str.bytes behind stale).ReadsInside str.bytes) ∧
      ∀ form : Form, form.WellFormed → form.Passes stale → form.bytes = str.bytes →
        (rnsHttpUrlCreate str.bytes behind stale).url = some form.url := by
  refine ⟨create_copies _ _ _, create_reads str.clean, ?_⟩
  intro form hwell hpass hbytes
  have hclean := str.clean
  rw [← hbytes] at hclean ⊢
  exact create_form hclean hwell hpass

/-- `http://a:80/b?c`. -/
def shortForm : Form := ⟨[104, 116, 116, 112], [97], some [56, 48], [98], some [99]⟩

theorem short_well : shortForm.WellFormed := by
  refine ⟨by decide, ?_, ?_, by decide⟩
  · intro b hb
    obtain rfl := List.mem_singleton.mp hb
    decide
  · intro port hport
    obtain rfl := Option.some.inj hport
    exact ⟨by decide, by simp [isDigit]⟩

theorem url_created_short : (rnsHttpUrlCreate shortForm.bytes [] [0]).url = some ⟨[97], 80, [47, 98]⟩ := by
  have hpass : shortForm.Passes [0] := by
    refine ⟨by decide, ?_, ?_⟩
    · intro port hport
      obtain rfl := Option.some.inj hport
      decide
    · intro port hport b hb
      obtain rfl := Option.some.inj hport
      cases hb
  exact (url_created ⟨shortForm.bytes, by decide⟩ [] [0]).2.2 shortForm short_well hpass rfl

/-- What is asked of a string, whatever is around it in memory. -/
def Parses (str behind stale : List UInt8) : Prop :=
  (rnsHttpUrlCreate str behind stale).ReadsInside str ∧ (rnsHttpUrlCreate str behind stale).CopiesInside ∧
    ∀ form : Form, form.WellFormed → form.bytes = str →
      (rnsHttpUrlCreate str behind stale).url = some form.url

/-- A host of 129 bytes. -/
def longForm : Form := ⟨[104, 116, 116, 112], List.replicate 129 97, none, [], none⟩

theorem long_refused : (rnsHttpUrlCreate longForm.bytes [] []).url = none := by
  have hclean : 0 ∉ longForm.bytes := by
    simp [longForm, Form.bytes]
  have hfound : rnsStrstr [47, 47] longForm.bytes = some 5 :=
    @slashes_found [104, 116, 116, 112, 58] (List.replicate 129 97 ++ [47]) (by decide)
  have hhost : ∀ b ∈ List.replicate 129 (97 : UInt8), inAddr b := by
    intro b hb
    rw [List.eq_of_mem_replicate hb]
    decide
  have hdrop : longForm.bytes.drop (5 + 2) = List.replicate 129 97 ++ 47 :: [] := rfl
  rw [create_eq hclean hfound hdrop hhost (by decide), List.length_replicate]
  rfl

/-- A host of 129 bytes is turned down; a url without a path is read behind its NUL; and a port goes on with
what its buffer has held before. -/
theorem url_not_created : ¬ Parses longForm.bytes [] [] ∧ ¬ Parses [47, 47, 97] [] [] ∧
    ¬ Parses shortForm.bytes [] (List.replicate 8 57) := by
  refine ⟨?_, ?_, ?_⟩
  · rintro ⟨-, -, hform⟩
    have hwell : longForm.WellFormed := by
      refine ⟨by decide, ?_, ?_, List.not_mem_nil⟩
      · intro b hb
        rw [List.eq_of_mem_replicate hb]
        decide
      · intro port hport
        cases hport
    have hurl := hform longForm hwell rfl
    rw [long_refused] at hurl
    cases hurl
  · rintro ⟨hreads, -, -⟩
    revert hreads
    unfold Created.ReadsInside
    decide
  · rintro ⟨-, -, hform⟩
    have hurl := hform shortForm short_well rfl
    revert hurl
    decide

end Yclib.Http.Urls
