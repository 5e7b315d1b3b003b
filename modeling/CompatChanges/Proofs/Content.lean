import CompatChanges.Proofs.Derivation
import CompatChanges.Proofs.Verbatim

/-!
# The kinds of content

The kind of an element's content says what is in it. Only such content is made out of nodes, and its own
nodes make it again; every element among the nodes keeps its place, and of the texts all are kept or none.
-/

namespace CompatChanges.Xml

open Text

/-- The content holds what its kind says. -/
def Content.IsProper : Content → Prop
  | .empty => True
  | .elements children => children ≠ []
  | .text string _ => hasInk string = true
  | .mixed nodes => 2 ≤ nodes.length ∧ ∃ node ∈ nodes, node.isInk = true

namespace Content

variable {nodes : List Node}

theorem ofNodes_of_ink (hink : nodes.any Node.isInk = true) : ofNodes nodes = classify nodes := by
  rw [ofNodes, withoutLayout, if_pos hink]

theorem classify_elements {children : List Element} (hne : children ≠ []) :
    classify (children.map .element) = .elements children := by
  have hmany (string : String) (span : Span) : children.map Node.element ≠ [.text string span] := by
    intro heq
    obtain ⟨child, -, hchild⟩ := List.map_eq_singleton_iff.mp heq
    cases hchild
  have hall : (children.map Node.element).all Node.isElement = true := by
    simp [Node.isElement]
  rw [classify_eq_ite (by simpa using hne) hmany, if_pos hall, filterMap_element?_map_element]

theorem classify_mixed (hmany : 2 ≤ nodes.length) (hink : nodes.any Node.isInk = true) :
    classify nodes = .mixed nodes := by
  have hne : nodes ≠ [] := by
    rintro rfl
    cases hink
  have hsingle (string : String) (span : Span) : nodes ≠ [.text string span] := by
    rintro rfl
    simp at hmany
  have hall : ¬nodes.all Node.isElement = true := by
    intro hall
    obtain ⟨node, hmem, hnode⟩ := List.any_eq_true.mp hink
    have helement := List.all_eq_true.mp hall node hmem
    cases node with
    | element child => cases hnode
    | text string span => cases helement
  rw [classify_eq_ite hne hsingle, if_neg hall]

/-- Layout is gone before the kind is decided, so that the kind fits what is left. -/
theorem isProper_ofNodes (nodes : List Node) : (ofNodes nodes).IsProper := by
  by_cases hink : nodes.any Node.isInk = true
  · rw [ofNodes_of_ink hink]
    obtain ⟨node, hmem, hnode⟩ := List.any_eq_true.mp hink
    by_cases hmany : 2 ≤ nodes.length
    · rw [classify_mixed hmany hink]
      exact ⟨hmany, node, hmem, hnode⟩
    · have hone : nodes.length = 1 := by
        have hpos := List.length_pos_of_mem hmem
        omega
      obtain ⟨only, rfl⟩ := List.length_eq_one_iff.mp hone
      obtain rfl := List.mem_singleton.mp hmem
      cases node with
      | element child => cases hnode
      | text string span => exact hnode
  · rw [ofNodes_of_not_ink hink]
    by_cases hnone : nodes.filterMap Node.element? = []
    · rw [hnone]
      trivial
    · rw [classify_elements hnone]
      exact hnone

theorem IsProper.ofNodes_nodes {content : Content} (hproper : content.IsProper) :
    ofNodes content.nodes = content := by
  cases content with
  | empty => rfl
  | elements children =>
    have hink : ¬(children.map Node.element).any Node.isInk = true := by
      rw [any_isInk_map_element]
      exact Bool.false_ne_true
    rw [nodes, ofNodes_of_not_ink hink, filterMap_element?_map_element, classify_elements hproper]
  | text string span =>
    have hink : [Node.text string span].any Node.isInk = true := by
      simpa [IsProper, Node.isInk, hasInk] using hproper
    rw [nodes, ofNodes_of_ink hink]
    rfl
  | mixed nodes =>
    have hink : nodes.any Node.isInk = true := List.any_eq_true.mpr hproper.2
    rw [Content.nodes, ofNodes_of_ink hink, classify_mixed hproper.1 hink]

/-- Content holds what its kind says if and only if it is what its nodes make. -/
theorem isProper_iff {content : Content} : content.IsProper ↔ ofNodes content.nodes = content := by
  constructor
  · exact IsProper.ofNodes_nodes
  · intro hmade
    rw [← hmade]
    exact isProper_ofNodes _

theorem nodes_ofNodes_of_not_ink (hink : ¬nodes.any Node.isInk = true) :
    (ofNodes nodes).nodes = nodes.filter Node.isElement := by
  rw [ofNodes, nodes_classify, withoutLayout, if_neg hink]

/-- No element is lost or moved, and texts are kept together. -/
theorem nodes_ofNodes (nodes : List Node) :
    (ofNodes nodes).nodes.filter Node.isElement = nodes.filter Node.isElement ∧
      (nodes.any Node.isInk = true ∧ (ofNodes nodes).nodes = nodes ∨
        nodes.any Node.isInk = false ∧ ∀ node ∈ (ofNodes nodes).nodes, node.isElement = true) := by
  by_cases hink : nodes.any Node.isInk = true
  · rw [ofNodes_of_ink hink, nodes_classify]
    exact ⟨rfl, .inl ⟨hink, rfl⟩⟩
  · rw [nodes_ofNodes_of_not_ink hink, List.filter_filter]
    simp only [Bool.and_self, true_and]
    refine .inr ⟨by simpa using hink, ?_⟩
    intro node hmem
    exact (List.mem_filter.mp hmem).2

end Content

/-- Every element that was read has attributes of different names, and content that holds what its
kind says. Such content is made again by its own nodes; and whatever the nodes, their elements are
kept in order, with all texts if one has ink and with none if not. -/
theorem isProper_of_parse :
    (∀ source document, parse source = .ok document → ∀ element ∈ document.root.subtree,
      (element.attributes.map Attribute.name).Nodup ∧ element.content.IsProper) ∧
    (∀ content : Content, content.IsProper ↔ Content.ofNodes content.nodes = content) ∧
    ∀ nodes : List Node,
      (Content.ofNodes nodes).nodes.filter Node.isElement = nodes.filter Node.isElement ∧
        (nodes.any Node.isInk = true ∧ (Content.ofNodes nodes).nodes = nodes ∨
          nodes.any Node.isInk = false ∧
            ∀ node ∈ (Content.ofNodes nodes).nodes, node.isElement = true) := by
  refine ⟨?_, fun content => Content.isProper_iff, Content.nodes_ofNodes⟩
  intro source document hparse element hmem
  obtain ⟨before, own, after, -, hforms⟩ := exists_forms_of_parse hparse hmem
  constructor
  · exact (namesRead_of_parse hparse hmem).distinct
  · cases hforms with
    | emptyTag => trivial
    | tags => exact Content.isProper_ofNodes _

/-- A document with every kind of content. -/
def assortedSource : String :=
  "<r a='1' b='2'>\n<e> <![CDATA[]]> </e><t>x</t><m>x<!----><![CDATA[]]> <i/></m></r>"

theorem isProper_of_parse_assorted :
    ∃ document, parse assortedSource = .ok document ∧
      document.root.subtree.map (fun element => (element.name, element.content.nodes.length)) =
        [("r", 3), ("e", 0), ("t", 1), ("m", 4), ("i", 0)] ∧
      ∀ element ∈ document.root.subtree,
        (element.attributes.map Attribute.name).Nodup ∧ element.content.IsProper := by
  have hread : (parse assortedSource).toOption.map (fun document =>
      document.root.subtree.map fun element => (element.name, element.content.nodes.length)) =
        some [("r", 3), ("e", 0), ("t", 1), ("m", 4), ("i", 0)] := by
    decide +kernel
  obtain ⟨document, hdocument, hsubtree⟩ := Option.map_eq_some_iff.mp hread
  have hparse := toOption_eq_some_iff.mp hdocument
  exact ⟨document, hparse, hsubtree, isProper_of_parse.1 assortedSource document hparse⟩

end CompatChanges.Xml
