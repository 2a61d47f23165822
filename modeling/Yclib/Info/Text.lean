import Yclib.Info.Xml

namespace Yclib.Info

/-! The values that the texts of an element make, however the parser splits them. -/

/-- The texts directly in the content, as the handler cuts them, one behind the other. -/
def Content.value (content : Content) : List UInt8 := (content.texts.map trimmed).flatten

/-- Nothing has been written behind the end of the buffer. -/
def InBuffer (value : Option (List UInt8 × Nat)) : Prop :=
  ∀ bytes size, value = some (bytes, size) → bytes.length ≤ size

/-- The value is this text with a NUL behind it; there is none where there is no text. The buffer is
cleared when it is allocated, so that there is a NUL where nothing has been written. -/
def IsText (text : List UInt8) : Option (List UInt8 × Nat) → Prop
  | none => text = []
  | some (bytes, size) => bytes = text ∧ bytes.length < size

/-- What a value is for a text: the text as long as it is in the first buffer, and behind that a buffer
without room for a NUL. -/
def Grown (text : List UInt8) : Option (List UInt8 × Nat) → Prop
  | none => text = []
  | some (bytes, size) => bytes.length = text.length ∧
    (text.length ≤ 1024 ∧ size = 1024 ∧ bytes = text ∨ 1024 < text.length ∧ size = text.length)

section
variable {text : List UInt8} {value : Option (List UInt8 × Nat)}

theorem text_grown (h : Grown text value) (more : List UInt8) :
    Grown (text ++ trimmed more) (textValue value more) := by
  unfold textValue
  split
  · rename_i hnone
    rwa [hnone, List.append_nil]
  rename_i hsome
  have hpos := List.length_pos_of_ne_nil hsome
  rcases value with _ | ⟨bytes, size⟩
  · obtain rfl : text = [] := h
    refine ⟨rfl, ?_⟩
    rw [List.nil_append]
    rcases Nat.lt_or_ge 1024 (trimmed more).length with hlong | hshort
    · exact .inr ⟨hlong, Nat.max_eq_left hlong.le⟩
    · exact .inl ⟨hshort, Nat.max_eq_right hshort, rfl⟩
  · obtain ⟨hlength, hcase⟩ := h
    simp only
    split
    · rename_i hgrows
      refine ⟨by simp [hlength], .inr ?_⟩
      rw [List.length_append]
      omega
    · rename_i hfits
      rcases hcase with ⟨-, rfl, rfl⟩ | ⟨-, rfl⟩
      · refine ⟨rfl, .inl ⟨?_, rfl, rfl⟩⟩
        rw [List.length_append]
        omega
      · omega

theorem texts_grown (h : Grown text value) (texts : List (List UInt8)) :
    Grown (text ++ (texts.map trimmed).flatten) (texts.foldl textValue value) := by
  induction texts generalizing text value with
  | nil => rwa [List.map_nil, List.flatten_nil, List.append_nil]
  | cons more texts ih =>
    rw [List.map_cons, List.flatten_cons, ← List.append_assoc]
    exact ih (text_grown h more)

theorem grown_in (h : Grown text value) : InBuffer value := by
  rintro bytes size rfl
  obtain ⟨hlength, hcase⟩ := h
  omega

theorem grown_text (h : Grown text value) : IsText text value ↔ text.length < 1024 := by
  rcases value with _ | ⟨bytes, size⟩
  · obtain rfl : text = [] := h
    exact iff_of_true rfl (by decide)
  · obtain ⟨hlength, ⟨-, rfl, rfl⟩ | ⟨hlong, rfl⟩⟩ := h
    · exact and_iff_right rfl
    · refine iff_of_false ?_ (by omega)
      rintro ⟨-, hroom⟩
      omega

/-- The values of a document. -/
theorem document_grown (doc : Content) : ∃ xml, rnsXmlCreate doc.events = some xml ∧
    ∀ e inside, (e, inside) ∈ doc.all → Grown inside.value (xml.value e) := by
  obtain ⟨xml, hcreate, -, hvalue⟩ := document_built doc
  refine ⟨xml, hcreate, ?_⟩
  intro e inside hm
  rw [hvalue e inside hm]
  have hgrown := texts_grown (show Grown [] none from rfl) inside.texts
  rwa [List.nil_append] at hgrown

end

/-- In every document, however its texts are split: what is written of the value of an element is inside its
buffer, and the value is the text with a NUL if and only if the text has less than 1024 bytes. -/
theorem value_text_iff (doc : Content) : ∃ xml, rnsXmlCreate doc.events = some xml ∧
    ∀ e inside, (e, inside) ∈ doc.all → InBuffer (xml.value e) ∧
      (IsText inside.value (xml.value e) ↔ inside.value.length < 1024) := by
  obtain ⟨xml, hcreate, hgrown⟩ := document_grown doc
  exact ⟨xml, hcreate, fun e inside hm => ⟨grown_in (hgrown e inside hm), grown_text (hgrown e inside hm)⟩⟩

/-- A text of 1024 bytes. -/
def longText : Content := .text (List.replicate 1024 97) .nothing

theorem long_length : longText.value.length = 1024 := by
  have hcut : trimmed (List.replicate 1024 97) = List.replicate 1024 97 := by
    rw [trimmed, List.rdropWhile_eq_self_iff]
    intro hne
    rw [List.getLast_replicate]
    decide
  rw [Content.value, longText, Content.texts, Content.texts, List.map_cons, List.map_nil, hcut,
    List.flatten_singleton, List.length_replicate]

/-- It leaves no room for the NUL. -/
theorem value_without_end : ¬ ∀ doc : Content, ∃ xml, rnsXmlCreate doc.events = some xml ∧
    ∀ e inside, (e, inside) ∈ doc.all → InBuffer (xml.value e) ∧ IsText inside.value (xml.value e) := by
  intro hall
  obtain ⟨xml, hcreate, hvalues⟩ := hall (.element nameA [] longText .nothing)
  obtain ⟨xml', hcreate', hgrown⟩ := document_grown (.element nameA [] longText .nothing)
  rw [hcreate] at hcreate'
  obtain rfl := Option.some.inj hcreate'
  have hm : (1, longText) ∈ (Content.element nameA [] longText .nothing).all :=
    List.mem_cons_of_mem _ (List.mem_cons_self ..)
  have hshort := (grown_text (hgrown 1 longText hm)).mp (hvalues 1 longText hm).2
  rw [long_length] at hshort
  exact lt_irrefl _ hshort

end Yclib.Info
