import Mathlib.Data.List.DropRight
import Yclib.Util.CString
import Yclib.Util.RbtSearch

namespace Yclib.Info
open Rbt

/-- `rns_xml_t` with its nodes, told by the order in which they are made; the root of the document is
the node 0. `value` has the bytes in front and the size of the buffer. -/
structure Xml where
  nodes : Nat
  attr : Nat → Tree Str (List UInt8)
  children : Nat → Tree Str Nat
  value : Nat → Option (List UInt8 × Nat)
  parent : Nat → Option Nat
  curr : Nat

def Xml.init : Xml := ⟨1, fun _ => .null, fun _ => .null, fun _ => none, fun _ => none, 0⟩

/-- The attributes go into their tree one by one. -/
def insertAttrs (attrs : List (Str × List UInt8)) (root : Tree Str (List UInt8)) :
    Option (Tree Str (List UInt8)) :=
  attrs.foldlM (fun root attr => rbtInsertStr root attr.1 attr.2) root

def beginNode (xml : Xml) (name : Str) (attr : List (Str × List UInt8)) : Option Xml := do
  let children ← rbtInsertStr (xml.children xml.curr) name xml.nodes
  let attrs ← insertAttrs attr .null
  return {
    nodes := xml.nodes + 1
    attr := Function.update xml.attr xml.nodes attrs
    children := Function.update (Function.update xml.children xml.nodes .null) xml.curr children
    value := Function.update xml.value xml.nodes none
    parent := Function.update xml.parent xml.nodes (some xml.curr)
    curr := xml.nodes }

/-- There is no node to come back to behind the root. -/
def endNode (xml : Xml) : Option Xml := (xml.parent xml.curr).map fun parent => { xml with curr := parent }

/-- `text`: a value that grows out of its buffer loses what was in it. -/
def textNode (xml : Xml) (text : List UInt8) : Xml :=
  let text := text.rdropWhile fun b => b = 32 ∨ b = 10
  if text = [] then xml
  else
    let value := match xml.value xml.curr with
      | none => (text, max text.length 1024)
      | some (bytes, size) =>
        if size < bytes.length + text.length then
          (List.replicate bytes.length 0 ++ text, bytes.length + text.length)
        else (bytes ++ text, size)
    { xml with value := Function.update xml.value xml.curr (some value) }

/-- What the parser calls back with. -/
inductive Event
  | start (name : Str) (attr : List (Str × List UInt8))
  | text (text : List UInt8)
  | stop

def step (xml : Xml) : Event → Option Xml
  | .start name attr => beginNode xml name attr
  | .text text => some (textNode xml text)
  | .stop => endNode xml

def rnsXmlCreate (events : List Event) : Option Xml := events.foldlM step .init

/-- The loop of `rns_xml_node`, below this node. -/
def nodeBelow (xml : Xml) : Nat → Option (Place Str Nat) → List Str → Option (Place Str Nat)
  | _, xmlNode, [] => xmlNode
  | root, _, name :: names =>
    (rbtSearchStr (xml.children root) name).bind fun node => nodeBelow xml node.value (some node) names

def rnsXmlNode (xml : Xml) (names : List Str) : Option (Place Str Nat) := nodeBelow xml 0 none names

def rnsXmlNodeNext (xmlNode : Place Str Nat) : Option (Place Str Nat) :=
  (rbtNext xmlNode).filter fun xn => strncmpEq xn.key.bytes xmlNode.key.bytes xn.key.bytes.length

/-- `while(xml_node) xml_node = rns_xml_node_next(xml_node)`, with the nodes that it comes to. -/
inductive Visits : Option (Place Str Nat) → List Nat → Prop
  | null : Visits none []
  | node {xmlNode : Place Str Nat} {nodes : List Nat} (h : Visits (rnsXmlNodeNext xmlNode) nodes) :
    Visits (some xmlNode) (xmlNode.value :: nodes)

/-- The name of an element, which ends at its NUL. -/
structure Name where
  key : Str
  clean : 0 ∉ key.bytes

/-- What is between two tags. -/
inductive Content
  | nothing
  | text (text : List UInt8) (rest : Content)
  | element (name : Name) (attr : List (Str × List UInt8)) (inside rest : Content)

namespace Content

/-- The calls of the parser, in the order of the document. -/
def events : Content → List Event
  | nothing => []
  | text bytes rest => .text bytes :: rest.events
  | element name attr inside rest => .start name.key attr :: (inside.events ++ .stop :: rest.events)

/-- The texts directly in the content, one for each call. -/
def texts : Content → List (List UInt8)
  | nothing => []
  | text bytes rest => bytes :: rest.texts
  | element _ _ _ rest => rest.texts

def size : Content → Nat
  | nothing => 0
  | text _ rest => rest.size
  | element _ _ inside rest => 1 + inside.size + rest.size

/-- The elements directly in the content, with their places in the document, of which `n` is the first. -/
def children (n : Nat) : Content → List (Str × Nat)
  | nothing => []
  | text _ rest => rest.children n
  | element name _ inside rest => (name.key, n) :: rest.children (n + 1 + inside.size)

/-- All elements with what is inside. -/
def elements (n : Nat) : Content → List (Nat × Content)
  | nothing => []
  | text _ rest => rest.elements n
  | element _ _ inside rest =>
    (n, inside) :: (inside.elements (n + 1) ++ rest.elements (n + 1 + inside.size))

/-- The root and all elements of a document. -/
def all (doc : Content) : List (Nat × Content) := (0, doc) :: doc.elements 1

theorem elements_bound {content inside : Content} {n e : Nat} (h : (e, inside) ∈ content.elements n) :
    n ≤ e ∧ e < n + content.size := by
  induction content generalizing n with
  | nothing => cases h
  | text _ rest ih => exact ih h
  | element name attr inside' rest ihi ihr =>
    rw [elements, List.mem_cons, List.mem_append] at h
    rw [size]
    rcases h with h | h | h
    · obtain ⟨rfl, -⟩ := Prod.mk.inj h
      omega
    · have := ihi h
      omega
    · have := ihr h
      omega

/-- What is a child of something is an element. -/
theorem child_element {content : Content} {n e : Nat} (h : e ∈ Multimap.values (content.children n)) :
    ∃ inside, (e, inside) ∈ content.elements n := by
  induction content generalizing n with
  | nothing => cases h
  | text _ rest ih => exact ih h
  | element name attr inside rest _ ihr =>
    rw [children, Multimap.values, List.map_cons, List.mem_cons] at h
    rw [elements]
    rcases h with rfl | h
    · exact ⟨inside, List.mem_cons_self ..⟩
    · obtain ⟨inside', hm⟩ := ihr h
      exact ⟨inside', List.mem_cons_of_mem _ (List.mem_append_right _ hm)⟩

/-- The elements of an element are elements. -/
theorem elements_inside {content inside : Content} {n e : Nat} (h : (e, inside) ∈ content.elements n) :
    inside.elements (e + 1) ⊆ content.elements n := by
  induction content generalizing n with
  | nothing => cases h
  | text _ rest ih => exact ih h
  | element name attr inside' rest ihi ihr =>
    rw [elements, List.mem_cons, List.mem_append] at h
    rw [elements]
    intro entry hm
    rw [List.mem_cons, List.mem_append]
    rcases h with h | h | h
    · obtain ⟨rfl, rfl⟩ := Prod.mk.inj h
      exact .inr (.inl hm)
    · exact .inr (.inl (ihi h hm))
    · exact .inr (.inr (ihr h hm))

theorem all_inside {doc inside : Content} {e : Nat} (h : (e, inside) ∈ doc.all) :
    inside.elements (e + 1) ⊆ doc.all := by
  rw [all, List.mem_cons] at h
  intro entry hm
  rcases h with h | h
  · obtain ⟨rfl, rfl⟩ := Prod.mk.inj h
    exact List.mem_cons_of_mem _ hm
  · exact List.mem_cons_of_mem _ (elements_inside h hm)

end Content

/-- The tree of a node's children is in order, and has the elements inside. -/
def Holds (xml : Xml) (e : Nat) (linked : List (Str × Nat)) : Prop :=
  Sound (xml.children e) ∧ Ordered (xml.children e) linked

theorem insert_attrs (attrs : List (Str × List UInt8)) {root : Tree Str (List UInt8)} (h : Sound root) :
    ∃ root', insertAttrs attrs root = some root' := by
  induction attrs generalizing root with
  | nil => exact ⟨root, rfl⟩
  | cons attr attrs ih =>
    obtain ⟨root₁, hinsert, hsound⟩ :=
      insert_sound (fun a b => strcmpLess a.bytes b.bytes) h attr.1 attr.2
    obtain ⟨root', hrest⟩ := ih hsound
    refine ⟨root', ?_⟩
    rw [insertAttrs, List.foldlM_cons, rbtInsertStr, hinsert]
    exact hrest

/-- A start tag makes a node behind the children that there are. -/
theorem begin_node {xml : Xml} {linked : List (Str × Nat)} (name : Str) (attr : List (Str × List UInt8))
    (hcurr : xml.curr < xml.nodes) (h : Holds xml xml.curr linked)
    (hnew : xml.nodes ∉ Multimap.values linked) :
    ∃ xml', beginNode xml name attr = some xml' ∧ xml'.nodes = xml.nodes + 1 ∧ xml'.curr = xml.nodes ∧
      xml'.parent = Function.update xml.parent xml.nodes (some xml.curr) ∧
      Holds xml' xml.curr (linked ++ [(name, xml.nodes)]) ∧ Holds xml' xml.nodes [] ∧
      ∀ e, e ≠ xml.curr → e ≠ xml.nodes → xml'.children e = xml.children e := by
  obtain ⟨root, hinsert, hsound, hordered⟩ := insert_ordered strcmp_less h.2 h.1 name hnew
  have hnull : Sound (.null : Tree Str (List UInt8)) := ⟨0, .null⟩
  obtain ⟨attrs, hattrs⟩ := insert_attrs attr hnull
  refine ⟨_, by rw [beginNode, rbtInsertStr, hinsert, hattrs]; rfl, rfl, rfl, rfl, ?_, ?_, ?_⟩
  · simp only [Holds, Function.update_self]
    exact ⟨hsound, hordered⟩
  · simp only [Holds, Function.update_of_ne (Nat.ne_of_gt hcurr), Function.update_self]
    exact ⟨⟨0, .null⟩, null_ordered⟩
  · intro e hcurr' hnodes
    simp only [Function.update_of_ne hcurr', Function.update_of_ne hnodes]

/-- A text as the handler cuts it. -/
def trimmed (text : List UInt8) : List UInt8 := text.rdropWhile fun b => b = 32 ∨ b = 10

/-- What a text makes of the value of its node. -/
def textValue (value : Option (List UInt8 × Nat)) (text : List UInt8) : Option (List UInt8 × Nat) :=
  if trimmed text = [] then value
  else match value with
    | none => some (trimmed text, max (trimmed text).length 1024)
    | some (bytes, size) =>
      if size < bytes.length + (trimmed text).length then
        some (List.replicate bytes.length 0 ++ trimmed text, bytes.length + (trimmed text).length)
      else some (bytes ++ trimmed text, size)

theorem text_value (xml : Xml) (text : List UInt8) :
    (textNode xml text).value = Function.update xml.value xml.curr (textValue (xml.value xml.curr) text) := by
  unfold textNode textValue trimmed
  dsimp only
  split
  · rw [Function.update_eq_self]
  · cases xml.value xml.curr with
    | none => rfl
    | some value =>
      obtain ⟨bytes, size⟩ := value
      dsimp only
      split <;> rfl

theorem begin_value {xml xml' : Xml} {name : Str} {attr : List (Str × List UInt8)}
    (h : beginNode xml name attr = some xml') : xml'.value = Function.update xml.value xml.nodes none := by
  simp only [beginNode, Option.bind_eq_bind, Option.bind_eq_some_iff] at h
  obtain ⟨_, _, _, _, hsome⟩ := h
  cases hsome
  rfl

/-- Nothing but values changes in a text. -/
theorem text_node (xml : Xml) (text : List UInt8) :
    (textNode xml text).nodes = xml.nodes ∧ (textNode xml text).curr = xml.curr ∧
      (textNode xml text).parent = xml.parent ∧ (textNode xml text).children = xml.children := by
  rw [textNode]
  dsimp only
  split
  · exact ⟨rfl, rfl, rfl, rfl⟩
  · exact ⟨rfl, rfl, rfl, rfl⟩

/-- What the calls for some content make of a node and the ones behind it. -/
structure Built (content : Content) (xml : Xml) (linked : List (Str × Nat)) (xml' : Xml) : Prop where
  nodes : xml'.nodes = xml.nodes + content.size
  curr : xml'.curr = xml.curr
  parent : ∀ e < xml.nodes, xml'.parent e = xml.parent e
  inner : Holds xml' xml.curr (linked ++ content.children xml.nodes)
  other : ∀ e < xml.nodes, e ≠ xml.curr → xml'.children e = xml.children e
  elements : ∀ e inside, (e, inside) ∈ content.elements xml.nodes → Holds xml' e (inside.children (e + 1))
  value : xml'.value xml.curr = content.texts.foldl textValue (xml.value xml.curr)
  values : ∀ e < xml.nodes, e ≠ xml.curr → xml'.value e = xml.value e
  texts : ∀ e inside, (e, inside) ∈ content.elements xml.nodes →
    xml'.value e = inside.texts.foldl textValue none

/-- The calls for some content give the node they begin at its elements as children and its texts as the
value, make the elements in the same way, and leave the other nodes alone. -/
theorem content_built (content : Content) {xml : Xml} {linked : List (Str × Nat)}
    (hcurr : xml.curr < xml.nodes) (h : Holds xml xml.curr linked)
    (hold : ∀ e ∈ Multimap.values linked, e < xml.nodes) :
    ∃ xml', content.events.foldlM step xml = some xml' ∧ Built content xml linked xml' := by
  induction content generalizing xml linked with
  | nothing =>
    refine ⟨xml, rfl, rfl, rfl, fun _ _ => rfl, ?_, fun _ _ _ => rfl, ?_, rfl, fun _ _ _ => rfl, ?_⟩
    · rwa [Content.children, List.append_nil]
    · intro e inside hm
      cases hm
    · intro e inside hm
      cases hm
  | text bytes rest ih =>
    obtain ⟨hnodes, hcurr', hparent, hchildren⟩ := text_node xml bytes
    have hvalue := text_value xml bytes
    have h' : Holds (textNode xml bytes) (textNode xml bytes).curr linked := by
      rwa [Holds, hchildren, hcurr']
    obtain ⟨xml', hrun, hbuilt⟩ := ih (by rwa [hcurr', hnodes]) h' (by rwa [hnodes])
    obtain ⟨hnodes₂, hcurr₂, hparent₂, hinner₂, hother₂, helems₂, hvalue₂, hvalues₂, htexts₂⟩ := hbuilt
    rw [hnodes] at hnodes₂ hparent₂ hother₂ helems₂ hvalues₂ htexts₂
    rw [hcurr'] at hcurr₂ hother₂ hinner₂ hvalue₂ hvalues₂
    rw [hnodes] at hinner₂
    rw [hparent] at hparent₂
    rw [hchildren] at hother₂
    rw [hvalue] at hvalue₂ hvalues₂
    rw [Function.update_self] at hvalue₂
    refine ⟨xml', ?_, hnodes₂, hcurr₂, hparent₂, hinner₂, hother₂, helems₂, hvalue₂, ?_, htexts₂⟩
    · rw [Content.events, List.foldlM_cons]
      exact hrun
    · intro e he hne
      rw [hvalues₂ e he hne, Function.update_of_ne hne]
  | element name attr inside rest ihi ihr =>
    have hnew : xml.nodes ∉ Multimap.values linked := fun hm => Nat.lt_irrefl _ (hold _ hm)
    obtain ⟨xml₁, hbegin, hnodes₁, hcurr₁, hparent₁, houter₁, hinner₁, hother₁⟩ :=
      begin_node name.key attr hcurr h hnew
    have hvalue₁ := begin_value hbegin
    have hempty₁ : Holds xml₁ xml₁.curr [] := by rwa [hcurr₁]
    obtain ⟨xml₂, hrun₂, hbuilt₂⟩ := ihi (by omega) hempty₁ (by simp [Multimap.values])
    have hnodes₂ := hbuilt₂.nodes
    -- the end tag leads back to the node in which the element is
    have hback : endNode xml₂ = some { xml₂ with curr := xml.curr } := by
      rw [endNode, hbuilt₂.curr, hbuilt₂.parent _ (by omega), hparent₁, hcurr₁, Function.update_self]
      rfl
    have houter₂ : Holds { xml₂ with curr := xml.curr } xml.curr (linked ++ [(name.key, xml.nodes)]) := by
      have hsame := hbuilt₂.other xml.curr (by omega) (by omega)
      rw [Holds]
      dsimp only
      rw [hsame]
      exact houter₁
    have hcurr₃ : xml.curr < xml₂.nodes := by omega
    have hold₂ : ∀ e ∈ Multimap.values (linked ++ [(name.key, xml.nodes)]), e < xml₂.nodes := by
      intro e hm
      rw [Multimap.values, List.map_append, List.mem_append] at hm
      rcases hm with hm | hm
      · have := hold e hm
        omega
      · have : e = xml.nodes := by simpa using hm
        omega
    obtain ⟨xml₃, hrun₃, hbuilt₃⟩ := @ihr { xml₂ with curr := xml.curr } _ hcurr₃ houter₂ hold₂
    have hfresh : xml₂.nodes = xml.nodes + 1 + inside.size := by omega
    obtain ⟨hnodes₃, hback₃, hparent₃, houter₃, hother₃, helems₃, hvalue₃, hvalues₃, htexts₃⟩ := hbuilt₃
    dsimp only at hnodes₃ hback₃ hparent₃ houter₃ hother₃ helems₃ hvalue₃ hvalues₃ htexts₃
    refine ⟨xml₃, ?_, ?_, hback₃, ?_, ?_, ?_, ?_, ?_, ?_, ?_⟩
    · rw [Content.events, List.foldlM_cons, step, hbegin, Option.bind_eq_bind, Option.bind_some,
        List.foldlM_append, hrun₂, Option.bind_eq_bind, Option.bind_some, List.foldlM_cons, step, hback,
        Option.bind_eq_bind, Option.bind_some]
      exact hrun₃
    · rw [Content.size]
      omega
    · intro e he
      rw [hparent₃ e (by omega), hbuilt₂.parent e (by omega), hparent₁, Function.update_of_ne (by omega)]
    · rw [hfresh, List.append_assoc] at houter₃
      exact houter₃
    · intro e he hne
      rw [hother₃ e (by omega) hne, hbuilt₂.other e (by omega) (by omega)]
      exact hother₁ e hne (by omega)
    · intro e inside' hm
      rw [Content.elements, List.mem_cons, List.mem_append] at hm
      rcases hm with hm | hm | hm
      · obtain ⟨rfl, rfl⟩ := Prod.mk.inj hm
        have hinner₂ := hbuilt₂.inner
        rw [Holds, hother₃ xml.nodes (by omega) (by omega)]
        rw [hcurr₁, hnodes₁, List.nil_append] at hinner₂
        exact hinner₂
      · have hbound := Content.elements_bound hm
        have helems₂ := hbuilt₂.elements
        rw [Holds, hother₃ e (by omega) (by omega)]
        rw [hnodes₁] at helems₂
        exact helems₂ e inside' hm
      · rw [hfresh] at helems₃
        exact helems₃ e inside' hm
    · rw [hvalue₃, hbuilt₂.values xml.curr (by omega) (by omega), hvalue₁, Function.update_of_ne (by omega)]
      rfl
    · intro e he hne
      rw [hvalues₃ e (by omega) hne, hbuilt₂.values e (by omega) (by omega), hvalue₁,
        Function.update_of_ne (by omega)]
    · intro e inside' hm
      rw [Content.elements, List.mem_cons, List.mem_append] at hm
      rcases hm with hm | hm | hm
      · obtain ⟨rfl, rfl⟩ := Prod.mk.inj hm
        have hvalue₂ := hbuilt₂.value
        rw [hcurr₁, hvalue₁, Function.update_self] at hvalue₂
        rw [hvalues₃ xml.nodes (by omega) (by omega), hvalue₂]
      · have hbound := Content.elements_bound hm
        have htexts₂ := hbuilt₂.texts
        rw [hnodes₁] at htexts₂
        rw [hvalues₃ e (by omega) (by omega), htexts₂ e inside' hm]
      · rw [hfresh] at htexts₃
        exact htexts₃ e inside' hm

/-- A document makes a tree of children and a value for each of its elements. -/
theorem document_built (doc : Content) :
    ∃ xml, rnsXmlCreate doc.events = some xml ∧
      (∀ e inside, (e, inside) ∈ doc.all → Holds xml e (inside.children (e + 1))) ∧
      ∀ e inside, (e, inside) ∈ doc.all → xml.value e = inside.texts.foldl textValue none := by
  have hinit : Holds .init Xml.init.curr [] := ⟨⟨0, .null⟩, null_ordered⟩
  obtain ⟨xml, hrun, hbuilt⟩ :=
    content_built doc (show Xml.init.curr < Xml.init.nodes from Nat.one_pos) hinit (by simp [Multimap.values])
  refine ⟨xml, hrun, ?_, ?_⟩
  · intro e inside hm
    rcases List.mem_cons.mp hm with hm | hm
    · obtain ⟨rfl, rfl⟩ := Prod.mk.inj hm
      exact hbuilt.inner
    · exact hbuilt.elements e inside hm
  · intro e inside hm
    rcases List.mem_cons.mp hm with hm | hm
    · obtain ⟨rfl, rfl⟩ := Prod.mk.inj hm
      exact hbuilt.value
    · exact hbuilt.texts e inside hm

theorem children_clean {content : Content} {n : Nat} {entry : Str × Nat} (h : entry ∈ content.children n) :
    0 ∉ entry.1.bytes := by
  induction content generalizing n with
  | nothing => cases h
  | text _ rest ih => exact ih h
  | element name attr inside rest _ ihr =>
    rw [Content.children, List.mem_cons] at h
    rcases h with rfl | h
    · exact name.clean
    · exact ihr h

/-! Reading the tree. -/

theorem strncmp_begins {str other : List UInt8} (h : 0 ∉ str) :
    strncmpEq str other str.length = true ↔ str <+: other := by
  induction str generalizing other with
  | nil => simp [strncmpEq]
  | cons b str ih =>
    obtain ⟨hb, hstr⟩ := not_or.mp (fun hor => h (List.mem_cons.mpr hor))
    have hb' : ¬ b = 0 := fun he => hb he.symm
    cases other with
    | nil => simp [strncmpEq, hb']
    | cons c other => simp [strncmpEq, hb', ih hstr, List.cons_prefix_cons]

/-- A name that begins another one does not come behind it. -/
theorem prefix_le {a b : Str} (h : a.bytes <+: b.bytes) : a ≤ b := by
  have hcodes : a.codes <+: b.codes := h.map UInt8.toNat
  have hle : ¬ b.codes < a.codes := hcodes.le
  exact not_lt.mp hle

/-- Of the nodes behind a node, the walk goes through those that come first with its name. -/
theorem visits_rest {node : Place Str Nat} {rest : List (Str × Nat)} (hrest : node.rest = rest)
    (hs : Multimap.Sorted ((node.key, node.value) :: rest)) (hclean : ∀ entry ∈ rest, 0 ∉ entry.1.bytes) :
    Visits (some node) (node.value :: Multimap.values (rest.takeWhile fun entry => entry.1 = node.key)) := by
  induction rest generalizing node with
  | nil =>
    apply Visits.node
    rcases next_list node with ⟨next, -, hcons⟩ | ⟨hnone, -⟩
    · rw [hrest] at hcons
      cases hcons
    · rw [rnsXmlNodeNext, hnone]
      exact .null
  | cons entry rest ih =>
    apply Visits.node
    rcases next_list node with ⟨next, hnext, hcons⟩ | ⟨-, hnil⟩
    · rw [hrest] at hcons
      obtain ⟨rfl, htail⟩ := List.cons.inj hcons
      obtain ⟨hle, hs'⟩ := List.pairwise_cons.mp hs
      have hstep : node.key ≤ next.key := hle _ (List.mem_cons_self ..)
      rw [rnsXmlNodeNext, hnext, Option.filter_some]
      by_cases hkey : next.key = node.key
      · have hsame : strncmpEq next.key.bytes node.key.bytes next.key.bytes.length = true :=
          (strncmp_begins (hclean _ (List.mem_cons_self ..))).mpr (hkey ▸ List.prefix_refl _)
        rw [if_pos hsame, List.takeWhile_cons_of_pos (by simpa using hkey)]
        have hvisits := ih htail.symm hs' fun entry hm => hclean entry (List.mem_cons_of_mem _ hm)
        rw [hkey] at hvisits
        exact hvisits
      · have hother : ¬ strncmpEq next.key.bytes node.key.bytes next.key.bytes.length = true := by
          intro hsame
          have hfront := (strncmp_begins (hclean _ (List.mem_cons_self ..))).mp hsame
          exact hkey (le_antisymm (prefix_le hfront) hstep)
        rw [if_neg hother, List.takeWhile_cons_of_neg (by simpa using hkey)]
        exact .null
    · rw [hrest] at hnil
      cases hnil

/-- In a list in order, what is behind an entry with a key and has the key comes first. -/
theorem take_while_key {key : Str} {rest : List (Str × Nat)} (hs : (rest.map Prod.fst).Pairwise (· ≤ ·))
    (hle : ∀ entry ∈ rest, key ≤ entry.1) {e : Nat} :
    e ∈ Multimap.values (rest.takeWhile fun entry => entry.1 = key) ↔ (key, e) ∈ rest := by
  induction rest with
  | nil => simp [Multimap.values]
  | cons entry rest ih =>
    obtain ⟨hfirst, hs'⟩ := List.pairwise_cons.mp hs
    by_cases hkey : entry.1 = key
    · have hih := ih hs' fun entry hm => hle entry (List.mem_cons_of_mem _ hm)
      rw [List.takeWhile_cons_of_pos (by simpa using hkey), Multimap.values, List.map_cons, List.mem_cons,
        List.mem_cons, Prod.ext_iff, hkey]
      exact or_congr (by simp) hih
    · rw [List.takeWhile_cons_of_neg (by simpa using hkey)]
      refine iff_of_false (by simp [Multimap.values]) ?_
      intro hm
      have hlt : key < entry.1 := lt_of_le_of_ne (hle entry (List.mem_cons_self ..)) (Ne.symm hkey)
      rcases List.mem_cons.mp hm with rfl | hm
      · exact hkey rfl
      · exact not_le.mpr hlt (hfirst key (List.mem_map_of_mem (f := Prod.fst) hm))

/-- The names lead to this node, or there are none and it is the root. -/
def Leads (xml : Xml) (names : List Str) (e : Nat) : Prop :=
  names = [] ∧ e = 0 ∨ ∃ node, rnsXmlNode xml names = some node ∧ node.value = e

theorem below_append (xml : Xml) (node : Place Str Nat) (names : List Str) (name : Str) :
    nodeBelow xml node.value (some node) (names ++ [name]) =
      (nodeBelow xml node.value (some node) names).bind fun last =>
        rbtSearchStr (xml.children last.value) name := by
  induction names generalizing node with
  | nil =>
    rw [List.nil_append, nodeBelow, nodeBelow, Option.bind_some]
    cases rbtSearchStr (xml.children node.value) name <;> rfl
  | cons first names ih =>
    rw [List.cons_append, nodeBelow, nodeBelow]
    cases rbtSearchStr (xml.children node.value) first with
    | none => rfl
    | some next => exact ih next

/-- The last of the names is searched among the children of the node that the others lead to. -/
theorem node_append {xml : Xml} {names : List Str} {e : Nat} (h : Leads xml names e) (name : Str) :
    rnsXmlNode xml (names ++ [name]) = rbtSearchStr (xml.children e) name := by
  rcases h with ⟨rfl, rfl⟩ | ⟨node, hnode, rfl⟩
  · rw [rnsXmlNode, List.nil_append, nodeBelow]
    cases rbtSearchStr (xml.children 0) name <;> rfl
  · cases names with
    | nil => cases hnode
    | cons first names =>
      rw [rnsXmlNode, nodeBelow] at hnode
      rw [rnsXmlNode, List.cons_append, nodeBelow]
      cases hfirst : rbtSearchStr (xml.children 0) first with
      | none =>
        rw [hfirst] at hnode
        cases hnode
      | some next =>
        rw [hfirst, Option.bind_some] at hnode
        rw [Option.bind_some, below_append, hnode, Option.bind_some]

/-- A search among the children of an element leads to one of them. -/
theorem search_child {xml : Xml} {e : Nat} {inside : Content} {name : Str} {node : Place Str Nat}
    (h : Holds xml e (inside.children (e + 1))) (hnode : rbtSearchStr (xml.children e) name = some node) :
    ∃ inside', (node.value, inside') ∈ inside.elements (e + 1) := by
  rcases search_front strcmp_less name [] h.2.sorted with
    ⟨hnone, -⟩ | ⟨node', front, hfound, -, hplug, -⟩
  · rw [rbtSearchStr, hnone] at hnode
    cases hnode
  · rw [rbtSearchStr, hfound] at hnode
    cases hnode
    have hlist := place_list node
    rw [hplug, plug] at hlist
    have hmem : (node.key, node.value) ∈ (xml.children e).toList := by
      rw [hlist]
      simp
    apply Content.child_element
    exact List.mem_map_of_mem (f := Prod.snd) (h.2.perm.mem_iff.mp hmem)

theorem below_element {doc : Content} {xml : Xml}
    (hbuilt : ∀ e inside, (e, inside) ∈ doc.all → Holds xml e (inside.children (e + 1))) {names : List Str} {e : Nat}
    {inside : Content} {start : Option (Place Str Nat)} {node : Place Str Nat} (h : (e, inside) ∈ doc.all)
    (hstart : ∀ first, start = some first → first.value = e)
    (hnode : nodeBelow xml e start names = some node) : ∃ inside', (node.value, inside') ∈ doc.all := by
  induction names generalizing e inside start with
  | nil =>
    rw [nodeBelow] at hnode
    exact ⟨inside, hstart node hnode ▸ h⟩
  | cons name names ih =>
    rw [nodeBelow] at hnode
    obtain ⟨next, hnext, hnode⟩ := Option.bind_eq_some_iff.mp hnode
    obtain ⟨inside', hm⟩ := search_child (hbuilt e inside h) hnext
    refine ih (Content.all_inside h hm) ?_ hnode
    intro first hfirst
    cases hfirst
    rfl

/-- Names lead to elements of the document. -/
theorem leads_element {doc : Content} {xml : Xml}
    (hbuilt : ∀ e inside, (e, inside) ∈ doc.all → Holds xml e (inside.children (e + 1))) {names : List Str} {e : Nat}
    (h : Leads xml names e) : ∃ inside, (e, inside) ∈ doc.all := by
  rcases h with ⟨-, rfl⟩ | ⟨node, hnode, rfl⟩
  · exact ⟨doc, List.mem_cons_self ..⟩
  · refine below_element hbuilt (List.mem_cons_self ..) ?_ hnode
    intro first hfirst
    cases hfirst

/-- Where a loop over a name comes to, from what `rns_xml_node` finds on. -/
theorem visits_children {root : Tree Str Nat} {linked : List (Str × Nat)} (h : Ordered root linked)
    (hclean : ∀ entry ∈ linked, 0 ∉ entry.1.bytes) (name : Str) :
    ∃ nodes, Visits (rbtSearchStr root name) nodes ∧ nodes.Nodup ∧
      ((∀ e, e ∈ nodes ↔ (name, e) ∈ linked) ↔ ¬ Hides name root) := by
  have hlinked : ∀ e, (name, e) ∈ root.toList ↔ (name, e) ∈ linked := fun e => h.perm.mem_iff
  rcases search_front strcmp_less name [] h.sorted with
    ⟨hnone, hnot⟩ | ⟨node, front, hnode, rfl, hplug, hfront, hiff⟩
  · refine ⟨[], by rw [rbtSearchStr, hnone]; exact .null, List.nodup_nil, ?_⟩
    refine iff_of_true ?_ fun hides => hnot (hides_mem hides)
    intro e
    apply iff_of_false List.not_mem_nil
    rw [← hlinked]
    intro hm
    exact hnot (List.mem_map_of_mem (f := Prod.fst) hm)
  · have hlist := place_list node
    rw [hplug, plug] at hlist
    rw [before_nil, List.nil_append] at hfront
    rw [hfront] at hlist
    have hsorted := h.sorted
    rw [hlist, Multimap.Sorted, List.map_append, List.pairwise_append] at hsorted
    obtain ⟨-, htail, -⟩ := hsorted
    have hnodup := h.nodup
    rw [hlist, Multimap.values, List.map_append, List.nodup_append] at hnodup
    obtain ⟨-, hnodup, hdisjoint⟩ := hnodup
    obtain ⟨hle, hrest⟩ := List.pairwise_cons.mp htail
    have hclean' : ∀ entry ∈ node.rest, 0 ∉ entry.1.bytes := by
      intro entry hm
      apply hclean entry
      rw [← h.perm.mem_iff, hlist]
      exact List.mem_append_right _ (List.mem_cons_of_mem _ hm)
    have hbehind : ∀ e, e ∈ Multimap.values (node.rest.takeWhile fun entry => entry.1 = node.key) ↔
        (node.key, e) ∈ node.rest := fun e =>
      take_while_key hrest fun entry hm => hle _ (List.mem_map_of_mem (f := Prod.fst) hm)
    refine ⟨_, by rw [rbtSearchStr, hnode]; exact visits_rest rfl htail hclean', ?_, ?_⟩
    · refine hnodup.sublist (List.Sublist.cons_cons _ ?_)
      exact List.Sublist.map _ (List.takeWhile_sublist _)
    · rw [← hiff]
      constructor
      · intro hall hmem
        obtain ⟨entry, hm, hkey⟩ := List.mem_map.mp hmem
        have hin : (node.key, entry.2) ∈ linked := by
          rw [← hlinked, hlist]
          exact List.mem_append_left _ (by rw [← hkey]; exact hm)
        rcases List.mem_cons.mp ((hall entry.2).mpr hin) with he | he
        · exact hdisjoint _ (List.mem_map_of_mem hm) _ (List.mem_cons_self ..) he
        · exact hdisjoint _ (List.mem_map_of_mem hm) _
            (List.mem_cons_of_mem _ (List.mem_map_of_mem (f := Prod.snd) ((hbehind _).mp he))) rfl
      · intro hnot e
        rw [← hlinked, hlist, List.mem_append, List.mem_cons, List.mem_cons, hbehind]
        have hnone : (node.key, e) ∉ front := fun hm => hnot (List.mem_map_of_mem (f := Prod.fst) hm)
        simp [hnone]

/-- The loop over the children of a name comes to each of them once. -/
def EachOnce (xml : Xml) (names : List Str) (linked : List (Str × Nat)) (name : Str) : Prop :=
  ∃ nodes, Visits (rnsXmlNode xml (names ++ [name])) nodes ∧ nodes.Nodup ∧
    ∀ e, e ∈ nodes ↔ (name, e) ∈ linked

theorem visits_unique {start : Option (Place Str Nat)} {nodes nodes' : List Nat} (h : Visits start nodes)
    (h' : Visits start nodes') : nodes = nodes' := by
  induction h generalizing nodes' with
  | null =>
    cases h'
    rfl
  | node _ ih =>
    cases h' with
    | node h' => rw [ih h']

theorem each_once_iff {doc : Content} {xml : Xml}
    (hbuilt : ∀ e inside, (e, inside) ∈ doc.all → Holds xml e (inside.children (e + 1))) {names : List Str} {e : Nat}
    {inside : Content} (hleads : Leads xml names e) (hm : (e, inside) ∈ doc.all) (name : Str) :
    EachOnce xml names (inside.children (e + 1)) name ↔ ¬ Hides name (xml.children e) := by
  obtain ⟨nodes, hvisits, hnodup, hiff⟩ :=
    visits_children (hbuilt e inside hm).2 (fun _ h => children_clean h) name
  rw [EachOnce, node_append hleads, ← hiff]
  constructor
  · intro h
    obtain ⟨nodes', hvisits', -, hall⟩ := h
    rwa [visits_unique hvisits hvisits']
  · intro h
    exact ⟨nodes, hvisits, hnodup, h⟩

/-- In every document, of every element that names lead to, the loop over the children of a name comes
to each of them once and to its end if and only if none of them is hidden in the tree of the children. -/
theorem siblings_visited (doc : Content) (names : List Str) (name : Str) :
    ∃ xml, rnsXmlCreate doc.events = some xml ∧ ∀ e, Leads xml names e →
      ∃ inside, (e, inside) ∈ doc.all ∧
        (EachOnce xml names (inside.children (e + 1)) name ↔ ¬ Hides name (xml.children e)) := by
  obtain ⟨xml, hcreate, hbuilt, -⟩ := document_built doc
  refine ⟨xml, hcreate, ?_⟩
  intro e hleads
  obtain ⟨inside, hm⟩ := leads_element hbuilt hleads
  exact ⟨inside, hm, each_once_iff hbuilt hleads hm name⟩

def nameA : Name := ⟨⟨[97]⟩, by decide⟩
def nameB : Name := ⟨⟨[98]⟩, by decide⟩
def nameR : Name := ⟨⟨[114]⟩, by decide⟩

/-- `<b/><b/><b/><a/><a/>`. -/
def mixed : Content :=
  .element nameB [] .nothing (.element nameB [] .nothing (.element nameB [] .nothing
    (.element nameA [] .nothing (.element nameA [] .nothing .nothing))))

/-- The first of three children is left out where two of another name follow. -/
theorem first_sibling_skipped :
    ∃ xml, rnsXmlCreate (Content.element nameR [] mixed .nothing).events = some xml ∧
      Leads xml [nameR.key] 1 ∧ (nameB.key, 2) ∈ mixed.children 2 ∧
      ¬ EachOnce xml [nameR.key] (mixed.children 2) nameB.key := by
  obtain ⟨xml, hcreate, hbuilt, -⟩ := document_built (.element nameR [] mixed .nothing)
  have hleads : (rnsXmlCreate (Content.element nameR [] mixed .nothing).events).bind
      (fun xml => (rnsXmlNode xml [nameR.key]).map Place.value) = some 1 := rfl
  have htree : (rnsXmlCreate (Content.element nameR [] mixed .nothing).events).map (fun xml => xml.children 1) =
      some (.node .black
        (.node .black (.node .red .null nameA.key 5 .null) nameA.key 6 (.node .red .null nameB.key 2 .null))
        nameB.key 3 (.node .black .null nameB.key 4 .null)) := rfl
  rw [hcreate, Option.bind_some] at hleads
  rw [hcreate, Option.map_some] at htree
  have hleads' : Leads xml [nameR.key] 1 := .inr (Option.map_eq_some_iff.mp hleads)
  have hm : (1, mixed) ∈ (Content.element nameR [] mixed .nothing).all := by
    simp [Content.all, Content.elements]
  refine ⟨xml, hcreate, hleads', List.mem_cons_self .., ?_⟩
  rw [each_once_iff hbuilt hleads' hm, Option.some.inj htree, not_not]
  left
  simp [Tree.rootKey, Tree.keys, nameA, nameB]

end Yclib.Info
