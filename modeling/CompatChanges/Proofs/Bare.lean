import CompatChanges.Proofs.Spans

/-!
# Trees without spans

Two trees are the same up to spans when their bare forms are equal. A bare form is a tree in which
every span was replaced by the empty one.
-/

namespace CompatChanges.Xml

def Attribute.bare (a : Attribute) : Attribute := { a with span := {} }

mutual

/-- The element with every span in it replaced by the empty one. -/
def Element.bare : Element → Element
  | .mk name attributes content _ => .mk name (attributes.map Attribute.bare) content.bare {}

def Content.bare : Content → Content
  | .empty => .empty
  | .elements children => .elements (bareElements children)
  | .text string _ => .text string {}
  | .mixed nodes => .mixed (bareNodes nodes)

def Node.bare : Node → Node
  | .element element => .element element.bare
  | .text string _ => .text string {}

def bareElements : List Element → List Element
  | [] => []
  | element :: rest => element.bare :: bareElements rest

def bareNodes : List Node → List Node
  | [] => []
  | node :: rest => node.bare :: bareNodes rest

end

theorem bareElements_eq_map (elements : List Element) :
    bareElements elements = elements.map Element.bare := by
  induction elements with
  | nil => rfl
  | cons element rest ih => rw [bareElements, ih, List.map_cons]

/-! ### Bare forms as trees with other spans -/

def emptySpan : Span → Span := fun _ => {}

mutual

theorem Element.mapSpans_emptySpan : (element : Element) → element.mapSpans emptySpan = element.bare
  | .mk name attributes content span => by
    rw [Element.mapSpans, Element.bare, content.mapSpans_emptySpan]
    rfl

theorem Content.mapSpans_emptySpan : (content : Content) → content.mapSpans emptySpan = content.bare
  | .empty => rfl
  | .elements children => by
    rw [Content.mapSpans, Content.bare, mapSpansOfElements_emptySpan children]
  | .text _ _ => rfl
  | .mixed nodes => by
    rw [Content.mapSpans, Content.bare, mapSpansOfNodes_emptySpan nodes]

theorem mapSpansOfElements_emptySpan :
    (elements : List Element) → mapSpansOfElements emptySpan elements = bareElements elements
  | [] => rfl
  | element :: rest => by
    rw [mapSpansOfElements, bareElements, element.mapSpans_emptySpan,
      mapSpansOfElements_emptySpan rest]

theorem mapSpansOfNodes_emptySpan :
    (nodes : List Node) → mapSpansOfNodes emptySpan nodes = bareNodes nodes
  | [] => rfl
  | .element element :: rest => by
    rw [mapSpansOfNodes, bareNodes, element.mapSpans_emptySpan, mapSpansOfNodes_emptySpan rest,
      Node.bare]
  | .text string span :: rest => by
    rw [mapSpansOfNodes, bareNodes, mapSpansOfNodes_emptySpan rest]
    rfl

end

mutual

/-- Trees that differ in spans alone have one bare form. -/
theorem Element.bare_mapSpans (f : Span → Span) :
    (element : Element) → (element.mapSpans f).bare = element.bare
  | .mk name attributes content span => by
    rw [Element.mapSpans, Element.bare, Element.bare, content.bare_mapSpans f, List.map_map]
    rfl

theorem Content.bare_mapSpans (f : Span → Span) :
    (content : Content) → (content.mapSpans f).bare = content.bare
  | .empty => rfl
  | .elements children => by
    rw [Content.mapSpans, Content.bare, Content.bare, bareElements_mapSpansOfElements f children]
  | .text _ _ => rfl
  | .mixed nodes => by
    rw [Content.mapSpans, Content.bare, Content.bare, bareNodes_mapSpansOfNodes f nodes]

theorem bareElements_mapSpansOfElements (f : Span → Span) :
    (elements : List Element) →
      bareElements (mapSpansOfElements f elements) = bareElements elements
  | [] => rfl
  | element :: rest => by
    rw [mapSpansOfElements, bareElements, bareElements, element.bare_mapSpans f,
      bareElements_mapSpansOfElements f rest]

theorem bareNodes_mapSpansOfNodes (f : Span → Span) :
    (nodes : List Node) → bareNodes (mapSpansOfNodes f nodes) = bareNodes nodes
  | [] => rfl
  | .element element :: rest => by
    rw [mapSpansOfNodes, bareNodes, bareNodes, Node.bare, Node.bare, element.bare_mapSpans f,
      bareNodes_mapSpansOfNodes f rest]
  | .text string span :: rest => by
    rw [mapSpansOfNodes, bareNodes, bareNodes, Node.bare, Node.bare,
      bareNodes_mapSpansOfNodes f rest]

end

theorem Node.mapSpans_emptySpan (node : Node) : node.mapSpans emptySpan = node.bare := by
  cases node with
  | element child => rw [mapSpans, child.mapSpans_emptySpan, bare]
  | text string span => rfl

theorem Node.mapSpans_emptySpan_eq : Node.mapSpans emptySpan = Node.bare :=
  funext Node.mapSpans_emptySpan

@[simp]
theorem Element.bare_mk (name : String) (attributes : List Attribute) (content : Content)
    (span : Span) :
    (mk name attributes content span).bare =
      mk name (attributes.map Attribute.bare) content.bare {} := rfl

@[simp]
theorem Node.isInk_bare (node : Node) : node.bare.isInk = node.isInk := by
  cases node <;> rfl

theorem filterMap_element?_map_bare (nodes : List Node) :
    (nodes.map Node.bare).filterMap Node.element? =
      (nodes.filterMap Node.element?).map Element.bare := by
  rw [← Node.mapSpans_emptySpan_eq, filterMap_element?_map_mapSpans]
  exact List.map_congr_left fun element _ => element.mapSpans_emptySpan

namespace Content

theorem nodes_bare (content : Content) : content.bare.nodes = content.nodes.map Node.bare := by
  rw [← content.mapSpans_emptySpan, nodes_mapSpans, Node.mapSpans_emptySpan_eq]

theorem ofNodes_map_bare (nodes : List Node) : ofNodes (nodes.map Node.bare) = (ofNodes nodes).bare := by
  rw [← Node.mapSpans_emptySpan_eq, ofNodes_map_mapSpans, mapSpans_emptySpan]

end Content

end CompatChanges.Xml
