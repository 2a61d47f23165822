import Yclib.Http.Scan
import Yclib.Util.CSearch

namespace Yclib.IpText
open Http.Reading

/-! Addresses as texts: what `rns_ip_type` takes for one, and the two conversions. -/

def dot : UInt8 := 46

inductive UrlType
  | ip
  | domain
deriving DecidableEq

/-- The loop of `rns_ip_type`. -/
def ipTypeLoop : Nat → Nat → List UInt8 → UrlType
  | _, _, [] => .ip
  | len, count, b :: ip =>
    if b ≠ dot ∧ isDigit b = false then .domain
    else if b = dot then
      if 3 < len then .domain
      else if 3 < count + 1 then .domain
      else ipTypeLoop 0 (count + 1) ip
    else if 3 < len + 1 then .domain
    else ipTypeLoop (len + 1) count ip

/-- `rns_ip_type`. -/
def rnsIpType (ip : List UInt8) : UrlType := ipTypeLoop 0 0 ip

/-- What `rns_strtok` gives in turn. -/
def tokens (buf : List UInt8) : List (List UInt8) := (buf.splitOn dot).filter (· ≠ [])

/-- `rns_ip_str2int`, of a NULL pointer or a string. -/
def rnsIpStr2int : Option (List UInt8) → Nat
  | none => 0
  | some ip =>
    match tokens ((cString ip).take 63) with
    | [] => 0
    | walker :: walkers =>
      walkers.foldl (fun ipNum walker => u32 (u32 (ipNum <<< 8) + ofInt (rnsAtoi walker))) (ofInt (rnsAtoi walker))

/-- `rns_ip_int2str`, into a buffer of so many bytes or through a NULL pointer. -/
def rnsIpInt2str (ip : Nat) : Option Nat → Option (List UInt8)
  | none => none
  | some size =>
    if size < 20 then none
    else some (([dot].intercalate [decimal (ip >>> 24 &&& 0xFF), decimal (ip >>> 16 &&& 0xFF),
      decimal (ip >>> 8 &&& 0xFF), decimal (ip &&& 0xFF)]).take 19)

/-- The groups between the dots of a string. -/
def groups (ip : List UInt8) : List (List UInt8) := ip.splitOn dot

/-- Four groups, each a decimal number of one byte. -/
def Quad (ip : List UInt8) : Prop :=
  (groups ip).length = 4 ∧ ∀ group ∈ groups ip, group ≠ [] ∧ (∀ b ∈ group, isDigit b = true) ∧ readDigits 0 group ≤ 255

/-- A number without the zeros in front of it. -/
def withoutZeros (group : List UInt8) : List UInt8 :=
  let rest := group.dropWhile (· = 48)
  if rest = [] then [48] else rest

/-- A string that is taken for an address is one, and comes back without the leading zeros. -/
def IpSound (ip : List UInt8) : Prop :=
  rnsIpType ip = .ip → Quad ip ∧ ∀ size, 20 ≤ size →
    rnsIpInt2str (rnsIpStr2int (some ip)) (some size) = some ([dot].intercalate ((groups ip).map withoutZeros))

/-- What a group has, in which a number of one byte is read. -/
structure Group (group : List UInt8) : Prop where
  nonempty : group ≠ []
  digits : ∀ b ∈ group, isDigit b = true
  short : group.length ≤ 3
  small : readDigits 0 group ≤ 255

def packed (a b c d : Nat) : Nat := ((a * 256 + b) * 256 + c) * 256 + d

section
variable {ip group : List UInt8} {a b c d : List UInt8}

theorem groups_cons (x : UInt8) (ip : List UInt8) :
    ∃ first rest, groups ip = first :: rest ∧
      groups (x :: ip) = if x = dot then [] :: first :: rest else (x :: first) :: rest := by
  obtain ⟨first, rest, hgroups⟩ := List.exists_cons_of_ne_nil (List.splitOn_ne_nil dot ip)
  refine ⟨first, rest, hgroups, ?_⟩
  rw [groups, List.splitOn_cons_eq_if_modifyHead, hgroups]
  simp

/-- The loop counts what is left: of the group that it is in, and of those behind. -/
theorem type_loop (len count : Nat) (hlen : len ≤ 3) (hcount : count ≤ 3) (ip : List UInt8) :
    ∃ first rest, groups ip = first :: rest ∧ (ipTypeLoop len count ip = .ip ↔
      (∀ b ∈ ip, b ≠ dot → isDigit b = true) ∧ len + first.length ≤ 3 ∧ (∀ group ∈ rest, group.length ≤ 3) ∧
        count + rest.length ≤ 3) := by
  induction ip generalizing len count with
  | nil => exact ⟨[], [], rfl, by simp [ipTypeLoop, hlen, hcount]⟩
  | cons x ip ih =>
    obtain ⟨first, rest, hgroups, hcons⟩ := groups_cons x ip
    rw [hcons]
    have hnext : ∀ len count, len ≤ 3 → count ≤ 3 → (ipTypeLoop len count ip = .ip ↔
        (∀ b ∈ ip, b ≠ dot → isDigit b = true) ∧ len + first.length ≤ 3 ∧ (∀ group ∈ rest, group.length ≤ 3) ∧
          count + rest.length ≤ 3) := by
      intro len count hlen hcount
      obtain ⟨first', rest', hgroups', hiff⟩ := ih len count hlen hcount
      obtain ⟨rfl, rfl⟩ := List.cons.inj (hgroups.symm.trans hgroups')
      exact hiff
    by_cases hdot : x = dot
    · refine ⟨[], first :: rest, if_pos hdot, ?_⟩
      rw [ipTypeLoop, if_neg fun h => h.1 hdot, if_pos hdot, if_neg (by omega), List.length_cons]
      by_cases hmany : 3 < count + 1
      · rw [if_pos hmany]
        exact iff_of_false UrlType.noConfusion fun h => by omega
      · rw [if_neg hmany, hnext 0 (count + 1) (by omega) (by omega), List.forall_mem_cons, List.forall_mem_cons]
        simp only [hdot, ne_eq, not_true_eq_false, false_implies, true_and, Nat.zero_add, List.length_nil,
          Nat.add_zero, hlen, and_assoc, Nat.add_assoc, Nat.add_comm 1]
    · refine ⟨x :: first, rest, if_neg hdot, ?_⟩
      rw [ipTypeLoop, if_neg hdot, List.length_cons]
      by_cases hdigit : isDigit x = true
      · rw [if_neg (by simp [hdigit])]
        by_cases hlong : 3 < len + 1
        · rw [if_pos hlong]
          exact iff_of_false UrlType.noConfusion fun h => by omega
        · rw [if_neg hlong, hnext (len + 1) count (by omega) hcount, List.forall_mem_cons]
          simp only [hdigit, implies_true, true_and, Nat.add_assoc, Nat.add_comm 1]
      · rw [if_pos ⟨hdot, by simpa using hdigit⟩]
        exact iff_of_false UrlType.noConfusion fun h => hdigit (h.1 x List.mem_cons_self hdot)

/-- The strings that are taken for addresses: of digits and dots, with three dots and three digits between them
at most. -/
theorem type_iff (ip : List UInt8) : rnsIpType ip = .ip ↔
    (∀ b ∈ ip, b ≠ dot → isDigit b = true) ∧ (∀ group ∈ groups ip, group.length ≤ 3) ∧ (groups ip).length ≤ 4 := by
  obtain ⟨first, rest, hgroups, hiff⟩ := type_loop 0 0 (by decide) (by decide) ip
  rw [rnsIpType, hiff, hgroups, List.forall_mem_cons, List.length_cons]
  simp only [Nat.zero_add, and_assoc]
  constructor <;> rintro ⟨hdigits, hfirst, hrest, hcount⟩ <;> exact ⟨hdigits, hfirst, hrest, by omega⟩

theorem groups_mem {x : UInt8} (h : group ∈ groups ip) (hx : x ∈ group) : x ∈ ip ∧ x ≠ dot := by
  induction ip generalizing group with
  | nil =>
    obtain rfl := List.mem_singleton.mp h
    cases hx
  | cons y ip ih =>
    obtain ⟨first, rest, hgroups, hcons⟩ := groups_cons y ip
    have hrest : ∀ group ∈ first :: rest, x ∈ group → x ∈ y :: ip ∧ x ≠ dot := by
      intro group hm hx
      obtain ⟨hin, hne⟩ := ih (hgroups ▸ hm) hx
      exact ⟨List.mem_cons_of_mem y hin, hne⟩
    rw [hcons] at h
    split at h
    · rcases List.mem_cons.mp h with rfl | hm
      · cases hx
      · exact hrest group hm hx
    · rename_i hy
      rcases List.mem_cons.mp h with rfl | hm
      · rcases List.mem_cons.mp hx with rfl | hx
        · exact ⟨List.mem_cons_self, hy⟩
        · exact hrest first List.mem_cons_self hx
      · exact hrest group (List.mem_cons_of_mem _ hm) hx

theorem digit_char {n : Nat} (h : n < 10) : UInt8.ofNat n.digitChar.toNat = UInt8.ofNat (48 + n) := by
  interval_cases n <;> rfl

theorem decimal_one {n : Nat} (h : n < 10) : decimal n = [UInt8.ofNat (48 + n)] := by
  rw [decimal, Nat.toDigits_of_lt_base h, List.map_singleton, digit_char h]

theorem decimal_step {n k : Nat} (hn : 0 < n) (hk : k < 10) : decimal (n * 10 + k) = decimal n ++ [UInt8.ofNat (48 + k)] := by
  rw [decimal, Nat.mul_comm, ← Nat.toDigits_append_toDigits (by decide) hn hk, List.map_append,
    Nat.toDigits_of_lt_base hk, List.map_singleton, digit_char hk, decimal]

theorem digit_value {x : UInt8} (h : isDigit x = true) : x.toNat - 48 < 10 ∧ UInt8.ofNat (48 + (x.toNat - 48)) = x := by
  have hx : 48 ≤ x.toNat ∧ x.toNat ≤ 57 := by simpa [isDigit, UInt8.le_iff_toNat_le] using h
  refine ⟨by omega, ?_⟩
  rw [Nat.add_sub_cancel' hx.1, UInt8.ofNat_toNat]

/-- Digits without a zero in front are those of their number. -/
theorem decimal_read (hne : group ≠ []) (h : ∀ b ∈ group, isDigit b = true) (hzero : group.head? ≠ some 48) :
    decimal (readDigits 0 group) = group := by
  induction group using List.reverseRecOn with
  | nil => exact absurd rfl hne
  | append_singleton front x ih =>
    have hfront : ∀ b ∈ front, isDigit b = true := fun b hb => h b (List.mem_append_left _ hb)
    obtain ⟨hlt, hchar⟩ := digit_value (h x (by simp))
    rw [read_digits_fold h, List.foldl_append, ← read_digits_fold hfront, List.foldl_cons, List.foldl_nil]
    by_cases hnil : front = []
    · subst hnil
      rw [readDigits, Nat.zero_mul, Nat.zero_add, decimal_one hlt, hchar, List.nil_append]
    · rw [List.head?_append_of_ne_nil _ hnil] at hzero
      have hread := ih hnil hfront hzero
      have hpos : 0 < readDigits 0 front := by
        by_contra hle
        have hvalue : readDigits 0 front = 0 := by omega
        rw [hvalue, decimal_one (by decide)] at hread
        rw [← hread] at hzero
        exact hzero rfl
      rw [decimal_step hpos hlt, hread, hchar]

theorem read_zeros (group : List UInt8) : readDigits 0 (group.dropWhile (· = 48)) = readDigits 0 group := by
  induction group with
  | nil => rfl
  | cons x group ih =>
    by_cases hx : x = 48
    · subst hx
      rw [List.dropWhile_cons_of_pos (by simp), ih, readDigits, if_pos (by decide)]
      rfl
    · rw [List.dropWhile_cons_of_neg (by simpa using hx)]

/-- The text of the number that a group stands for. -/
theorem decimal_group (h : ∀ b ∈ group, isDigit b = true) : decimal (readDigits 0 group) = withoutZeros group := by
  rw [withoutZeros, ← read_zeros]
  by_cases hrest : group.dropWhile (· = 48) = []
  · rw [hrest]
    exact decimal_one (by decide)
  · simp only [if_neg hrest]
    apply decimal_read hrest
    · intro b hb
      exact h b ((List.dropWhile_suffix _).subset hb)
    · intro hhead
      have hnot := List.head?_dropWhile_not (· = 48) group
      rw [hhead] at hnot
      simp at hnot

theorem groups_join (h : groups ip = [a, b, c, d]) : ip = a ++ dot :: (b ++ dot :: (c ++ dot :: d)) := by
  have hjoin : [dot].intercalate (groups ip) = ip := List.intercalate_splitOn dot
  rw [← hjoin, h]
  simp [List.intercalate]

/-- Four groups are read as four bytes. -/
theorem str2int_four (h : groups ip = [a, b, c, d]) (hgroups : ∀ group ∈ groups ip, Group group) :
    rnsIpStr2int (some ip) = packed (readDigits 0 a) (readDigits 0 b) (readDigits 0 c) (readDigits 0 d) := by
  have htokens : tokens ip = [a, b, c, d] := by
    rw [tokens, ← groups, List.filter_eq_self.mpr fun group hm => by simpa using (hgroups group hm).nonempty, h]
  have hjoin := groups_join h
  rw [h] at hgroups
  simp only [List.forall_mem_cons, List.not_mem_nil, false_implies, implies_true, and_true] at hgroups
  obtain ⟨ha, hb, hc, hd⟩ := hgroups
  have hvalue : ∀ {group}, Group group → ofInt (rnsAtoi group) = readDigits 0 group := by
    intro group hgroup
    have hsmall := hgroup.small
    rw [atoi_digits hgroup.nonempty hgroup.digits, ofInt]
    omega
  have hplain : cString ip = ip := by
    apply c_string_plain
    intro hx
    have hdigit : (0 : UInt8) = dot ∨ isDigit 0 = true := by
      rw [hjoin] at hx
      simp only [List.mem_append, List.mem_cons] at hx
      rcases hx with hx | hx | hx | hx | hx | hx | hx
      · exact .inr (ha.digits 0 hx)
      · exact .inl hx
      · exact .inr (hb.digits 0 hx)
      · exact .inl hx
      · exact .inr (hc.digits 0 hx)
      · exact .inl hx
      · exact .inr (hd.digits 0 hx)
    revert hdigit
    decide
  have hlength : ip.length ≤ 63 := by
    have := ha.short
    have := hb.short
    have := hc.short
    have := hd.short
    rw [hjoin]
    simp only [List.length_append, List.length_cons]
    omega
  have := ha.small
  have := hb.small
  have := hc.small
  have := hd.small
  rw [rnsIpStr2int, hplain, List.take_of_length_le hlength, htokens]
  simp only [List.foldl_cons, List.foldl_nil, hvalue ha, hvalue hb, hvalue hc, hvalue hd, u32, packed,
    Nat.shiftLeft_eq]
  omega

theorem byte_of (ip k : Nat) : ip >>> k &&& 0xFF = ip / 2 ^ k % 256 := by
  rw [Nat.shiftRight_eq_div_pow]
  exact Nat.and_two_pow_sub_one_eq_mod _ 8

theorem decimal_short {n : Nat} (h : n ≤ 255) : (decimal n).length ≤ 3 := decimal_length (by decide) (by omega)

/-- Four bytes are printed as four groups. -/
theorem int2str_packed {i j k l size : Nat} (hi : i ≤ 255) (hj : j ≤ 255) (hk : k ≤ 255) (hl : l ≤ 255)
    (hsize : 20 ≤ size) : rnsIpInt2str (packed i j k l) (some size) =
      some ([dot].intercalate [decimal i, decimal j, decimal k, decimal l]) := by
  have hfirst : packed i j k l / 2 ^ 24 % 256 = i := by
    unfold packed
    omega
  have hsecond : packed i j k l / 2 ^ 16 % 256 = j := by
    unfold packed
    omega
  have hthird : packed i j k l / 2 ^ 8 % 256 = k := by
    unfold packed
    omega
  have hlast : packed i j k l &&& 0xFF = l := by
    have hbyte := byte_of (packed i j k l) 0
    rw [Nat.shiftRight_zero] at hbyte
    unfold packed at hbyte ⊢
    omega
  rw [rnsIpInt2str, if_neg (by omega), byte_of, byte_of, byte_of, hfirst, hsecond, hthird, hlast]
  have := decimal_short hi
  have := decimal_short hj
  have := decimal_short hk
  have := decimal_short hl
  rw [List.take_of_length_le]
  simp only [List.intercalate, List.intersperse, List.flatten_cons, List.flatten_nil, List.length_append,
    List.length_singleton, List.length_nil]
  omega

theorem decimal_dot (n : Nat) : dot ∉ decimal n := by
  intro hm
  exact absurd (decimal_is_digit dot hm) (by decide)

theorem decimal_byte {n : Nat} (h : n ≤ 255) : Group (decimal n) where
  nonempty := decimal_ne_nil n
  digits := decimal_is_digit
  short := decimal_short h
  small := by rwa [read_decimal]

/-- Every address comes back from its text. -/
theorem str2int_int2str {x size : Nat} (hx : x < 2 ^ 32) (hsize : 20 ≤ size) :
    rnsIpStr2int (rnsIpInt2str x (some size)) = x := by
  obtain ⟨i, j, k, l, hi, hj, hk, hl, rfl⟩ : ∃ i j k l, i ≤ 255 ∧ j ≤ 255 ∧ k ≤ 255 ∧ l ≤ 255 ∧ x = packed i j k l := by
    refine ⟨x / 2 ^ 24 % 256, x / 2 ^ 16 % 256, x / 2 ^ 8 % 256, x % 256, by omega, by omega, by omega, by omega, ?_⟩
    unfold packed
    omega
  have hgroups : groups ([dot].intercalate [decimal i, decimal j, decimal k, decimal l]) =
      [decimal i, decimal j, decimal k, decimal l] := by
    apply List.splitOn_intercalate
    · intro group hm
      simp only [List.mem_cons, List.not_mem_nil, or_false] at hm
      rcases hm with rfl | rfl | rfl | rfl <;> exact decimal_dot _
    · exact List.cons_ne_nil _ _
  rw [int2str_packed hi hj hk hl hsize, str2int_four hgroups]
  · rw [read_decimal, read_decimal, read_decimal, read_decimal]
  · rw [hgroups]
    intro group hm
    simp only [List.mem_cons, List.not_mem_nil, or_false] at hm
    rcases hm with rfl | rfl | rfl | rfl
    · exact decimal_byte hi
    · exact decimal_byte hj
    · exact decimal_byte hk
    · exact decimal_byte hl

end

/-- Every address comes back from its text. A text is taken for an address rightly unless it has less than three
dots, an empty group or one from 256 on. -/
theorem ip_text_iff (ip : List UInt8) :
    (∀ x < 2 ^ 32, ∀ size, 20 ≤ size → rnsIpStr2int (rnsIpInt2str x (some size)) = x) ∧
    (IpSound ip ↔ (∃ b ∈ ip, b ≠ dot ∧ isDigit b = false) ∨ (∃ group ∈ groups ip, 3 < group.length) ∨
      4 < (groups ip).length ∨
      ((groups ip).length = 4 ∧ ∀ group ∈ groups ip, group ≠ [] ∧ readDigits 0 group ≤ 255)) := by
  refine ⟨fun x hx size hsize => str2int_int2str hx hsize, ?_, ?_⟩
  · intro hsound
    by_cases htype : rnsIpType ip = .ip
    · obtain ⟨⟨hfour, hall⟩, -⟩ := hsound htype
      exact .inr (.inr (.inr ⟨hfour, fun group hm => ⟨(hall group hm).1, (hall group hm).2.2⟩⟩))
    · rw [type_iff] at htype
      by_contra hnone
      simp only [not_or, not_exists, not_and, Nat.not_lt] at hnone
      obtain ⟨hbytes, hshort, hcount, -⟩ := hnone
      exact htype ⟨fun b hb hne => by simpa using hbytes b hb hne, hshort, hcount⟩
  · intro hcond htype
    obtain ⟨hbytes, hshort, hcount⟩ := (type_iff ip).mp htype
    have hquad : (groups ip).length = 4 ∧ ∀ group ∈ groups ip, group ≠ [] ∧ readDigits 0 group ≤ 255 := by
      rcases hcond with ⟨b, hb, hne, hnot⟩ | ⟨group, hm, hlong⟩ | hmany | hquad
      · rw [hbytes b hb hne] at hnot
        cases hnot
      · exact absurd hlong (Nat.not_lt.mpr (hshort group hm))
      · exact absurd hmany (Nat.not_lt.mpr hcount)
      · exact hquad
    have hgroup : ∀ group ∈ groups ip, Group group := by
      intro group hm
      refine ⟨(hquad.2 group hm).1, fun b hb => ?_, hshort group hm, (hquad.2 group hm).2⟩
      obtain ⟨hin, hne⟩ := groups_mem hm hb
      exact hbytes b hin hne
    refine ⟨⟨hquad.1, fun group hm => ⟨(hgroup group hm).nonempty, (hgroup group hm).digits, (hgroup group hm).small⟩⟩,
      fun size hsize => ?_⟩
    obtain ⟨a, b, c, d, hfour⟩ := List.length_eq_four.mp hquad.1
    have hstr := str2int_four hfour hgroup
    rw [hfour] at hgroup ⊢
    simp only [List.forall_mem_cons, List.not_mem_nil, false_implies, implies_true, and_true] at hgroup
    obtain ⟨ha, hb, hc, hd⟩ := hgroup
    rw [hstr, int2str_packed ha.small hb.small hc.small hd.small hsize, decimal_group ha.digits,
      decimal_group hb.digits, decimal_group hc.digits, decimal_group hd.digits]
    rfl

/-- A text of two groups, and one with a group that is no byte. -/
theorem short_text_taken : ¬ IpSound (ascii "1.2") ∧ ¬ IpSound (ascii "256.0.0.0") := by
  constructor
  · intro hsound
    exact absurd (hsound (by decide)).1.1 (by decide)
  · intro hsound
    have hsmall := ((hsound (by decide)).1.2 (ascii "256") (by decide)).2.2
    exact absurd hsmall (by decide)

end Yclib.IpText
