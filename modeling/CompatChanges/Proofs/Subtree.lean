import CompatChanges.Proofs.Bare

/-!
# The elements in an element

A tree is taken apart by its child elements, whatever kind of content holds them.
-/

namespace CompatChanges.Xml

@[simp]
theorem Content.mem_children {content : Content} {child : Element} :
    child ∈ content.children ↔ .element child ∈ content.nodes := by
  unfold children
  rw [List.mem_filterMap]
  constructor
  · rintro ⟨node, hmem, hnode⟩
    cases node with
    | element element =>
      cases hnode
      exact hmem
    | text string span => cases hnode
  · intro hmem
    exact ⟨.element child, hmem, rfl⟩

theorem Content.sizeOf_child_lt {content : Content} {child : Element}
    (hmem : .element child ∈ content.nodes) : sizeOf child < 1 + sizeOf content := by
  cases content with
  | empty => cases hmem
  | elements children =>
    obtain ⟨element, helement, heq⟩ := List.mem_map.mp hmem
    cases heq
    have hsize := List.sizeOf_lt_of_mem helement
    simp only [elements.sizeOf_spec]
    omega
  | text string span => simp [nodes] at hmem
  | mixed nodes =>
    have hnode : Node.element child ∈ nodes := hmem
    have hsize := List.sizeOf_lt_of_mem hnode
    simp only [Node.element.sizeOf_spec] at hsize
    simp only [mixed.sizeOf_spec]
    omega

/-- The nodes that are elements, and nothing else. -/
theorem filter_isElement (nodes : List Node) :
    nodes.filter Node.isElement = (nodes.filterMap Node.element?).map .element := by
  induction nodes with
  | nil => rfl
  | cons node rest ih =>
    cases node with
    | element child =>
      rw [List.filter_cons_of_pos rfl, ih]
      rfl
    | text string span =>
      rw [List.filter_cons_of_neg Bool.false_ne_true, ih]
      rfl

theorem any_isInk_map_element (elements : List Element) :
    (elements.map Node.element).any Node.isInk = false := by
  simp [Node.isInk]

/-- What holds of an element when it holds of its children holds of every element. -/
@[elab_as_elim]
theorem Element.childInduction {motive : Element → Prop}
    (mk : ∀ name attributes content span,
      (∀ child, .element child ∈ Content.nodes content → motive child) →
        motive (.mk name attributes content span))
    (element : Element) : motive element := by
  obtain ⟨name, attributes, content, span⟩ := element
  refine mk name attributes content span fun child hmem => ?_
  have hsize := Content.sizeOf_child_lt hmem
  exact childInduction mk child
termination_by sizeOf element
decreasing_by
  simp only [Element.mk.sizeOf_spec]
  omega

mutual

/-- The element and all elements in it, in document order. -/
def Element.subtree : Element → List Element
  | .mk name attributes content span => .mk name attributes content span :: content.subtree

def Content.subtree : Content → List Element
  | .empty => []
  | .elements children => subtreeOfElements children
  | .text _ _ => []
  | .mixed nodes => subtreeOfNodes nodes

def subtreeOfElements : List Element → List Element
  | [] => []
  | element :: rest => element.subtree ++ subtreeOfElements rest

def subtreeOfNodes : List Node → List Element
  | [] => []
  | .element element :: rest => element.subtree ++ subtreeOfNodes rest
  | .text _ _ :: rest => subtreeOfNodes rest

end

theorem subtreeOfElements_eq (elements : List Element) :
    subtreeOfElements elements = elements.flatMap Element.subtree := by
  induction elements with
  | nil => rfl
  | cons element rest ih => rw [subtreeOfElements, ih, List.flatMap_cons]

theorem subtreeOfNodes_eq (nodes : List Node) :
    subtreeOfNodes nodes = (nodes.filterMap Node.element?).flatMap Element.subtree := by
  induction nodes with
  | nil => rfl
  | cons node rest ih =>
    cases node with
    | element element =>
      rw [subtreeOfNodes, ih]
      rfl
    | text string span =>
      rw [subtreeOfNodes, ih]
      rfl

theorem Content.subtree_eq (content : Content) :
    content.subtree = content.children.flatMap Element.subtree := by
  cases content with
  | empty => rfl
  | elements children =>
    have hchildren : (Content.elements children).children = children :=
      filterMap_element?_map_element children
    rw [hchildren]
    exact subtreeOfElements_eq children
  | text string span => rfl
  | mixed nodes => exact subtreeOfNodes_eq nodes

theorem Element.subtree_mk (name : String) (attributes : List Attribute) (content : Content)
    (span : Span) :
    (mk name attributes content span).subtree =
      mk name attributes content span :: content.children.flatMap subtree := by
  rw [subtree, content.subtree_eq]

theorem Element.self_mem_subtree (element : Element) : element ∈ element.subtree := by
  cases element
  simp [subtree_mk]

theorem Element.mem_subtree_of_child {element child inner : Element}
    (hchild : .element child ∈ element.content.nodes) (hinner : inner ∈ child.subtree) :
    inner ∈ element.subtree := by
  obtain ⟨name, attributes, content, span⟩ := element
  rw [subtree_mk, List.mem_cons, List.mem_flatMap]
  exact .inr ⟨child, Content.mem_children.mpr hchild, hinner⟩

theorem Content.children_bare (content : Content) :
    content.bare.children = content.children.map Element.bare := by
  rw [children, children, nodes_bare, filterMap_element?_map_bare]

end CompatChanges.Xml
