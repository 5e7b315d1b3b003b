import CompatChanges.Text.Blank
import CompatChanges.Xml.Span

/-!
Element trees. Names are kept as written, attributes and children in order. The content of an
element is one of four kinds; `Content.ofNodes` decides which, and drops layout.
-/

namespace CompatChanges.Xml

structure Attribute where
  name : String
  value : String
  span : Span := {}
  deriving Repr, DecidableEq

mutual

inductive Element where
  | mk (name : String) (attributes : List Attribute) (content : Content) (span : Span)

inductive Content where
  | empty
  | elements (children : List Element)
  | text (string : String) (span : Span)
  | mixed (nodes : List Node)

inductive Node where
  | element (element : Element)
  | text (string : String) (span : Span)

end

instance : Inhabited Element := ⟨.mk "" [] .empty {}⟩

def Node.element? : Node → Option Element
  | .element e => some e
  | .text _ _ => none

def Node.isElement : Node → Bool
  | .element _ => true
  | .text _ _ => false

/-- Whether the node is text with a character that is not blank. -/
def Node.isInk : Node → Bool
  | .element _ => false
  | .text string _ => !string.toList.all Text.isBlank

theorem filterMap_element?_map_element (elements : List Element) :
    (elements.map Node.element).filterMap Node.element? = elements := by
  rw [List.filterMap_map]
  exact List.filterMap_some

namespace Content

def nodes : Content → List Node
  | .empty => []
  | .elements children => children.map .element
  | .text string span => [.text string span]
  | .mixed nodes => nodes

def children (content : Content) : List Element := content.nodes.filterMap Node.element?

/-- The child elements, taken out of content of which nothing else is needed. -/
def detachChildren : Content → List Element
  | .empty | .text _ _ => []
  | .elements children => children
  | .mixed nodes => nodes.filterMap Node.element?

/-- What is taken out is what stands there, in the same order. -/
theorem detachChildren_eq_children (content : Content) : content.detachChildren = content.children := by
  cases content with
  | empty => rfl
  | elements children => exact (filterMap_element?_map_element children).symm
  | text string span => rfl
  | mixed nodes => rfl

/-- The nodes that count as content: blank text is layout unless some text is not blank. -/
def withoutLayout (nodes : List Node) : List Node :=
  if nodes.any Node.isInk then nodes else nodes.filter Node.isElement

/-- The kind of content that `nodes` make as they stand. -/
def classify (nodes : List Node) : Content :=
  match nodes with
  | [] => .empty
  | [.text string span] => .text string span
  | nodes => if nodes.all Node.isElement then .elements (nodes.filterMap Node.element?) else .mixed nodes

/-- The content of an element with these nodes between its tags. -/
def ofNodes (nodes : List Node) : Content := classify (withoutLayout nodes)

end Content

namespace Element

def name : Element → String
  | .mk name _ _ _ => name

def attributes : Element → List Attribute
  | .mk _ attributes _ _ => attributes

def content : Element → Content
  | .mk _ _ content _ => content

def span : Element → Span
  | .mk _ _ _ span => span

def ofAttributes (name : String) (attributes : List Attribute) : Element :=
  .mk name attributes .empty {}

/-- An element that holds only elements, and nothing if there are none. -/
def ofChildren (name : String) (children : List Element) : Element :=
  .mk name [] (if children.isEmpty then .empty else .elements children) {}

def attribute? (element : Element) (name : String) : Option String :=
  (element.attributes.find? (·.name = name)).map (·.value)

def children (element : Element) : List Element := element.content.children

def detachChildren (element : Element) : List Element := element.content.detachChildren

theorem detachChildren_eq_children (element : Element) : element.detachChildren = element.children :=
  element.content.detachChildren_eq_children

def childrenNamed (element : Element) (name : String) : List Element :=
  element.children.filter (·.name = name)

@[simp] theorem name_mk (name attributes content span) : (mk name attributes content span).name = name := rfl

@[simp] theorem attributes_mk (name attributes content span) :
    (mk name attributes content span).attributes = attributes := rfl

@[simp] theorem content_mk (name attributes content span) :
    (mk name attributes content span).content = content := rfl

@[simp] theorem span_mk (name attributes content span) : (mk name attributes content span).span = span := rfl

end Element

end CompatChanges.Xml
