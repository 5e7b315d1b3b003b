import CompatChanges.Xml.Document

/-!
# Trees with other spans

A function on spans is applied to every span in a tree. Which content nodes make does not depend on
spans, so the function may as well be applied before the kind of content is decided.
-/

namespace CompatChanges.Xml

def Node.span : Node → Span
  | .element child => child.span
  | .text _ span => span

variable (f : Span → Span)

def Attribute.mapSpan (a : Attribute) : Attribute := { a with span := f a.span }

mutual

def Element.mapSpans : Element → Element
  | .mk name attributes content span =>
    .mk name (attributes.map (Attribute.mapSpan f)) content.mapSpans (f span)

def Content.mapSpans : Content → Content
  | .empty => .empty
  | .elements children => .elements (mapSpansOfElements children)
  | .text string span => .text string (f span)
  | .mixed nodes => .mixed (mapSpansOfNodes nodes)

def mapSpansOfElements : List Element → List Element
  | [] => []
  | element :: rest => element.mapSpans :: mapSpansOfElements rest

def mapSpansOfNodes : List Node → List Node
  | [] => []
  | .element element :: rest => .element element.mapSpans :: mapSpansOfNodes rest
  | .text string span :: rest => .text string (f span) :: mapSpansOfNodes rest

end

def Node.mapSpans : Node → Node
  | .element child => .element (child.mapSpans f)
  | .text string span => .text string (f span)

theorem mapSpansOfElements_eq (elements : List Element) :
    mapSpansOfElements f elements = elements.map (Element.mapSpans f) := by
  induction elements with
  | nil => rfl
  | cons element rest ih => rw [mapSpansOfElements, ih, List.map_cons]

theorem mapSpansOfNodes_eq (nodes : List Node) :
    mapSpansOfNodes f nodes = nodes.map (Node.mapSpans f) := by
  induction nodes with
  | nil => rfl
  | cons node rest ih =>
    cases node with
    | element child =>
      rw [mapSpansOfNodes, ih]
      rfl
    | text string span =>
      rw [mapSpansOfNodes, ih]
      rfl

@[simp]
theorem Node.isInk_mapSpans (node : Node) : (node.mapSpans f).isInk = node.isInk := by
  cases node <;> rfl

@[simp]
theorem Node.isElement_mapSpans (node : Node) : (node.mapSpans f).isElement = node.isElement := by
  cases node <;> rfl

theorem filterMap_element?_map_mapSpans (nodes : List Node) :
    (nodes.map (Node.mapSpans f)).filterMap Node.element? =
      (nodes.filterMap Node.element?).map (Element.mapSpans f) := by
  have hcomp : Node.element? ∘ Node.mapSpans f =
      fun node => node.element?.map (Element.mapSpans f) := by
    funext node
    cases node <;> rfl
  rw [List.filterMap_map, List.map_filterMap, hcomp]

namespace Content

theorem nodes_mapSpans (content : Content) :
    (content.mapSpans f).nodes = content.nodes.map (Node.mapSpans f) := by
  cases content with
  | empty => rfl
  | elements children =>
    rw [mapSpans, mapSpansOfElements_eq]
    simp [nodes, Node.mapSpans]
  | text string span => rfl
  | mixed nodes =>
    rw [mapSpans, mapSpansOfNodes_eq]
    rfl

theorem withoutLayout_map_mapSpans (nodes : List Node) :
    withoutLayout (nodes.map (Node.mapSpans f)) = (withoutLayout nodes).map (Node.mapSpans f) := by
  have hink : (nodes.map (Node.mapSpans f)).any Node.isInk = nodes.any Node.isInk := by
    simp [List.any_map, Function.comp_def]
  have hfilter : (nodes.map (Node.mapSpans f)).filter Node.isElement =
      (nodes.filter Node.isElement).map (Node.mapSpans f) := by
    simp [List.filter_map, Function.comp_def]
  unfold withoutLayout
  rw [hink, hfilter]
  split <;> rfl

/-- Content that is not a single text: elements alone, or a mixture. -/
theorem classify_eq_ite {nodes : List Node} (hne : nodes ≠ [])
    (hmany : ∀ string span, nodes ≠ [.text string span]) :
    classify nodes =
      if nodes.all Node.isElement then .elements (nodes.filterMap Node.element?) else .mixed nodes := by
  unfold classify
  split
  · exact absurd rfl hne
  · next string span => exact absurd rfl (hmany string span)
  · rfl

theorem classify_map_mapSpans (nodes : List Node) :
    classify (nodes.map (Node.mapSpans f)) = (classify nodes).mapSpans f := by
  by_cases hnil : nodes = []
  · subst hnil
    rfl
  by_cases htext : ∃ string span, nodes = [.text string span]
  · obtain ⟨string, span, rfl⟩ := htext
    rfl
  have hmany : ∀ string span, nodes ≠ [.text string span] := fun string span heq =>
    htext ⟨string, span, heq⟩
  have hmanyMapped : ∀ string span, nodes.map (Node.mapSpans f) ≠ [.text string span] := by
    intro string span heq
    obtain ⟨node, rfl, hnode⟩ := List.map_eq_singleton_iff.mp heq
    cases node with
    | element _ => simp [Node.mapSpans] at hnode
    | text inner place => exact htext ⟨inner, place, rfl⟩
  have hall : (nodes.map (Node.mapSpans f)).all Node.isElement = nodes.all Node.isElement := by
    simp [List.all_map, Function.comp_def]
  rw [classify_eq_ite (by simpa using hnil) hmanyMapped, classify_eq_ite hnil hmany, hall,
    filterMap_element?_map_mapSpans]
  split
  · rw [mapSpans, mapSpansOfElements_eq]
  · rw [mapSpans, mapSpansOfNodes_eq]

/-- The kind of content is decided without spans. -/
theorem ofNodes_map_mapSpans (nodes : List Node) :
    ofNodes (nodes.map (Node.mapSpans f)) = (ofNodes nodes).mapSpans f := by
  rw [ofNodes, withoutLayout_map_mapSpans, classify_map_mapSpans, ofNodes]

end Content

end CompatChanges.Xml
