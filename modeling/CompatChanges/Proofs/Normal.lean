import CompatChanges.Proofs.Subtree
import Mathlib.Data.List.Basic

/-!
# Normal trees

A document does not tell texts apart that stand next to each other, nor a text without characters
from none. The normal form of a tree is what remains to be told. What it leaves out is layout: each
element keeps its name, its attributes and its text if that is not blank.
-/

namespace CompatChanges.Xml

open Text

/-- `nodes` with a text before them, which becomes one with a text at their beginning. -/
def joinText (string : String) (span : Span) (nodes : List Node) : List Node :=
  if string = "" then nodes
  else
    match nodes with
    | .text next _ :: rest => .text (string ++ next) span :: rest
    | nodes => .text string span :: nodes

/-- `nodes` without empty texts, and with texts that stand next to each other in one. -/
def joinTexts : List Node → List Node
  | [] => []
  | .element element :: rest => .element element :: joinTexts rest
  | .text string span :: rest => joinText string span (joinTexts rest)

mutual

def Element.normal : Element → Element
  | .mk name attributes content span =>
    .mk name attributes (.ofNodes (joinTexts content.normalNodes)) span

/-- The children with each element among them in normal form. -/
def Content.normalNodes : Content → List Node
  | .empty => []
  | .elements children => normalElements children
  | .text string span => [.text string span]
  | .mixed nodes => normalNodes nodes

def normalElements : List Element → List Node
  | [] => []
  | element :: rest => .element element.normal :: normalElements rest

def normalNodes : List Node → List Node
  | [] => []
  | .element element :: rest => .element element.normal :: normalNodes rest
  | .text string span :: rest => .text string span :: normalNodes rest

end

def Node.normal : Node → Node
  | .element child => .element child.normal
  | .text string span => .text string span

theorem normalElements_eq (elements : List Element) :
    normalElements elements = (elements.map Node.element).map Node.normal := by
  induction elements with
  | nil => rfl
  | cons element rest ih =>
    rw [normalElements, ih]
    rfl

theorem normalNodes_eq (nodes : List Node) : normalNodes nodes = nodes.map Node.normal := by
  induction nodes with
  | nil => rfl
  | cons node rest ih =>
    cases node with
    | element element =>
      rw [normalNodes, ih]
      rfl
    | text string span =>
      rw [normalNodes, ih]
      rfl

theorem Content.normalNodes_eq (content : Content) :
    content.normalNodes = content.nodes.map Node.normal := by
  cases content with
  | empty => rfl
  | elements children => exact normalElements_eq children
  | text string span => rfl
  | mixed nodes => exact CompatChanges.Xml.normalNodes_eq nodes

theorem Element.normal_mk (name : String) (attributes : List Attribute) (content : Content)
    (span : Span) :
    (mk name attributes content span).normal =
      mk name attributes (.ofNodes (joinTexts (content.nodes.map Node.normal))) span := by
  rw [normal, content.normalNodes_eq]

/-! ## Joined texts -/

@[simp]
theorem joinText_empty (span : Span) (nodes : List Node) : joinText "" span nodes = nodes := rfl

theorem joinText_element (string : String) (span : Span) (child : Element) (nodes : List Node) :
    joinText string span (.element child :: nodes) =
      joinText string span [] ++ .element child :: nodes := by
  unfold joinText
  split <;> rfl

theorem joinText_joinText (left right : String) (span : Span) (nodes : List Node) :
    joinText left span (joinText right span nodes) = joinText (left ++ right) span nodes := by
  by_cases hleft : left = ""
  · subst hleft
    simp
  by_cases hright : right = ""
  · subst hright
    simp
  have hboth : left ++ right ≠ "" := by
    intro hnil
    exact hleft (String.append_eq_empty_iff.mp hnil).1
  unfold joinText
  rw [if_neg hleft, if_neg hright, if_neg hboth]
  cases nodes with
  | nil => rfl
  | cons node rest =>
    cases node with
    | element element => rfl
    | text next place => simp [String.append_assoc]

section

variable {f : Node → Node} {g : Span → Span}

theorem joinText_map (htext : ∀ string span, f (.text string span) = .text string (g span))
    (helement : ∀ child, (f (.element child)).isElement = true) (string : String) (span : Span)
    (nodes : List Node) :
    (joinText string span nodes).map f = joinText string (g span) (nodes.map f) := by
  unfold joinText
  by_cases hempty : string = ""
  · rw [if_pos hempty, if_pos hempty]
  rw [if_neg hempty, if_neg hempty]
  cases nodes with
  | nil => rw [List.map_singleton, htext, List.map_nil]
  | cons node rest =>
    cases node with
    | element child =>
      have hchild := helement child
      rw [List.map_cons, htext, List.map_cons]
      cases hnode : f (.element child) with
      | element other => rfl
      | text inner place =>
        rw [hnode] at hchild
        cases hchild
    | text inner place =>
      rw [List.map_cons, htext, List.map_cons, htext]

/-- Texts are joined whatever becomes of elements and spans. -/
theorem joinTexts_map (htext : ∀ string span, f (.text string span) = .text string (g span))
    (helement : ∀ child, (f (.element child)).isElement = true) (nodes : List Node) :
    (joinTexts nodes).map f = joinTexts (nodes.map f) := by
  induction nodes with
  | nil => rfl
  | cons node rest ih =>
    cases node with
    | element child =>
      have hchild := helement child
      rw [joinTexts, List.map_cons, List.map_cons, ih]
      cases hnode : f (.element child) with
      | element other => rfl
      | text inner place =>
        rw [hnode] at hchild
        cases hchild
    | text string span =>
      rw [joinTexts, joinText_map htext helement, ih, List.map_cons, htext]
      rfl

end

theorem joinTexts_map_bare (nodes : List Node) :
    (joinTexts nodes).map Node.bare = joinTexts (nodes.map Node.bare) :=
  joinTexts_map (fun _ _ => rfl) (fun _ => rfl) nodes

/-! ## What is kept -/

def Node.chars : Node → List Char
  | .element _ => []
  | .text string _ => string.toList

/-- The text in `nodes` if it is not blank. -/
def inkOf (nodes : List Node) : List Char :=
  if nodes.any Node.isInk then nodes.flatMap Node.chars else []

/-- What an element says apart from the elements in it. -/
def Element.heading (element : Element) : String × List (String × String) × List Char :=
  (element.name, element.attributes.map fun a => (a.name, a.value), inkOf element.content.nodes)

@[simp]
theorem Content.nodes_classify (nodes : List Node) : (classify nodes).nodes = nodes := by
  unfold classify
  split
  · rfl
  · rfl
  · next hall =>
    split
    · next helements =>
      have hkept : ∀ node ∈ nodes, (node.element?.map Node.element) = some node := by
        intro node hmem
        have hnode := List.all_eq_true.mp helements node hmem
        cases node with
        | element child => rfl
        | text string span => cases hnode
      change (nodes.filterMap Node.element?).map Node.element = nodes
      rw [List.map_filterMap]
      exact (List.filterMap_congr hkept).trans List.filterMap_some
    · rfl

theorem Content.children_ofNodes (nodes : List Node) :
    (ofNodes nodes).children = nodes.filterMap Node.element? := by
  unfold ofNodes children withoutLayout
  rw [nodes_classify]
  split
  · rfl
  · rw [filter_isElement, filterMap_element?_map_element]

theorem inkOf_ofNodes (nodes : List Node) : inkOf (Content.ofNodes nodes).nodes = inkOf nodes := by
  unfold Content.ofNodes Content.withoutLayout
  rw [Content.nodes_classify]
  by_cases hink : nodes.any Node.isInk = true
  · rw [if_pos hink]
  · have hnone : ((nodes.filter Node.isElement).any Node.isInk) = false := by
      rw [filter_isElement, any_isInk_map_element]
    rw [if_neg hink, inkOf, inkOf, hnone, if_neg hink]
    rfl

theorem filterMap_element?_joinText (string : String) (span : Span) (nodes : List Node) :
    (joinText string span nodes).filterMap Node.element? = nodes.filterMap Node.element? := by
  unfold joinText
  split
  · rfl
  · split <;> rfl

theorem filterMap_element?_joinTexts (nodes : List Node) :
    (joinTexts nodes).filterMap Node.element? = nodes.filterMap Node.element? := by
  induction nodes with
  | nil => rfl
  | cons node rest ih =>
    cases node with
    | element child =>
      rw [joinTexts, List.filterMap_cons, ih]
      rfl
    | text string span =>
      rw [joinTexts, filterMap_element?_joinText, ih]
      rfl

theorem any_isInk_joinText (string : String) (span : Span) (nodes : List Node) :
    (joinText string span nodes).any Node.isInk =
      ((Node.text string span).isInk || nodes.any Node.isInk) := by
  unfold joinText
  split
  · next hempty =>
    subst hempty
    rfl
  · split
    · simp [Node.isInk, Bool.not_and, Bool.or_assoc]
    · rfl

theorem flatMap_chars_joinText (string : String) (span : Span) (nodes : List Node) :
    (joinText string span nodes).flatMap Node.chars = string.toList ++ nodes.flatMap Node.chars := by
  unfold joinText
  split
  · next hempty =>
    subst hempty
    rfl
  · split
    · simp [Node.chars]
    · rfl

theorem any_isInk_joinTexts (nodes : List Node) :
    (joinTexts nodes).any Node.isInk = nodes.any Node.isInk := by
  induction nodes with
  | nil => rfl
  | cons node rest ih =>
    cases node with
    | element child => simp [joinTexts, ih]
    | text string span =>
      rw [joinTexts, any_isInk_joinText, ih]
      rfl

theorem flatMap_chars_joinTexts (nodes : List Node) :
    (joinTexts nodes).flatMap Node.chars = nodes.flatMap Node.chars := by
  induction nodes with
  | nil => rfl
  | cons node rest ih =>
    cases node with
    | element child => simp [joinTexts, ih]
    | text string span =>
      rw [joinTexts, flatMap_chars_joinText, ih]
      rfl

theorem inkOf_joinTexts (nodes : List Node) : inkOf (joinTexts nodes) = inkOf nodes := by
  rw [inkOf, inkOf, any_isInk_joinTexts, flatMap_chars_joinTexts]

theorem any_map_of_eq {p : Node → Bool} {f : Node → Node} (hsame : ∀ node, p (f node) = p node)
    (nodes : List Node) : (nodes.map f).any p = nodes.any p := by
  rw [List.any_map]
  exact congrArg (nodes.any ·) (funext hsame)

theorem any_isInk_map_normal (nodes : List Node) :
    (nodes.map Node.normal).any Node.isInk = nodes.any Node.isInk :=
  any_map_of_eq (fun node => by cases node <;> rfl) nodes

theorem inkOf_map {f : Node → Node} (hink : ∀ node, (f node).isInk = node.isInk)
    (hchars : ∀ node, (f node).chars = node.chars) (nodes : List Node) :
    inkOf (nodes.map f) = inkOf nodes := by
  simp [inkOf, any_map_of_eq hink, List.flatMap_map, hchars]

theorem inkOf_map_normal (nodes : List Node) : inkOf (nodes.map Node.normal) = inkOf nodes :=
  inkOf_map (fun node => by cases node <;> rfl) (fun node => by cases node <;> rfl) nodes

theorem inkOf_map_bare (nodes : List Node) : inkOf (nodes.map Node.bare) = inkOf nodes :=
  inkOf_map Node.isInk_bare (fun node => by cases node <;> rfl) nodes

theorem filterMap_element?_map_normal (nodes : List Node) :
    (nodes.map Node.normal).filterMap Node.element? =
      (nodes.filterMap Node.element?).map Element.normal := by
  rw [List.filterMap_map, List.map_filterMap]
  refine List.filterMap_congr fun node _ => ?_
  cases node <;> rfl

/-- In the normal form of a tree every element says what it said. -/
theorem Element.heading_subtree_normal (element : Element) :
    element.normal.subtree.map heading = element.subtree.map heading := by
  induction element using childInduction with
  | mk name attributes content span ih =>
    have hheading : (mk name attributes (.ofNodes (joinTexts (content.nodes.map Node.normal)))
        span).heading = (mk name attributes content span).heading := by
      simp only [heading, name_mk, attributes_mk, content_mk, inkOf_ofNodes, inkOf_joinTexts,
        inkOf_map_normal]
    rw [normal_mk, subtree_mk, subtree_mk, List.map_cons, List.map_cons, hheading,
      Content.children_ofNodes, filterMap_element?_joinTexts, filterMap_element?_map_normal,
      List.flatMap_map, List.map_flatMap, List.map_flatMap]
    refine congrArg _ (List.flatMap_congr fun child hmem => ?_)
    exact ih child (Content.mem_children.mp hmem)

theorem Element.subtree_bare (element : Element) : element.bare.subtree = element.subtree.map bare := by
  induction element using childInduction with
  | mk name attributes content span ih =>
    rw [bare_mk, subtree_mk, subtree_mk, List.map_cons, content.children_bare, List.flatMap_map,
      List.map_flatMap]
    refine congrArg _ (List.flatMap_congr fun child hmem => ?_)
    exact ih child (Content.mem_children.mp hmem)

/-- What elements say does not depend on spans. -/
theorem Element.heading_subtree_bare (element : Element) :
    element.bare.subtree.map heading = element.subtree.map heading := by
  induction element using childInduction with
  | mk name attributes content span ih =>
    have hheading : (mk name (attributes.map Attribute.bare) content.bare {}).heading =
        (mk name attributes content span).heading := by
      simp [heading, Content.nodes_bare, inkOf_map_bare, Attribute.bare]
    rw [bare_mk, subtree_mk, subtree_mk, List.map_cons, List.map_cons, hheading,
      content.children_bare, List.flatMap_map, List.map_flatMap, List.map_flatMap]
    refine congrArg _ (List.flatMap_congr fun child hmem => ?_)
    exact ih child (Content.mem_children.mp hmem)

end CompatChanges.Xml
