import CompatChanges.Proofs.RoundTrip
import CompatChanges.Proofs.Spelling

/-!
# Line breaks are text

A layout puts line breaks and spaces between tags. To a reader they are text like any other, so what is
written with this layout is what is written without breaks for a tree that has these texts in it.
-/

namespace CompatChanges.Xml

open Text

/-! ## A tree with its line breaks -/

/-- The line break before a tag at `depth`; there is none after text. -/
def gapBefore (spaces depth : Nat) (afterText : Bool) : List Char :=
  if afterText then [] else lineBreak spaces depth

def gapNodes (spaces depth : Nat) (afterText : Bool) : List Node :=
  if afterText then [] else [.text (String.ofList (lineBreak spaces depth)) {}]

/-- What stands in an element at `depth`, with line breaks before the elements and before the end
tag. -/
def withBreaks (spaces depth : Nat) : (afterText : Bool) → List Node → List Node
  | afterText, [] => gapNodes spaces depth afterText
  | afterText, .element element :: rest =>
    gapNodes spaces (depth + 1) afterText ++ .element element :: withBreaks spaces depth false rest
  | _, .text string span :: rest => .text string span :: withBreaks spaces depth true rest

mutual

/-- The element with the line breaks that are written in it when it stands at `depth`. -/
def Element.spaced (spaces depth : Nat) : Element → Element
  | .mk name attributes content span => .mk name attributes (content.spaced spaces depth) span

def Content.spaced (spaces depth : Nat) : Content → Content
  | .empty => .empty
  | .elements children =>
    .mixed (withBreaks spaces depth false (spacedElements spaces (depth + 1) children))
  | .text string span => .text string span
  | .mixed nodes => .mixed (withBreaks spaces depth false (spacedNodes spaces (depth + 1) nodes))

def spacedElements (spaces depth : Nat) : List Element → List Node
  | [] => []
  | element :: rest => .element (element.spaced spaces depth) :: spacedElements spaces depth rest

def spacedNodes (spaces depth : Nat) : List Node → List Node
  | [] => []
  | .element element :: rest =>
    .element (element.spaced spaces depth) :: spacedNodes spaces depth rest
  | .text string span :: rest => .text string span :: spacedNodes spaces depth rest

end

def Node.spaced (spaces depth : Nat) : Node → Node
  | .element child => .element (child.spaced spaces depth)
  | .text string span => .text string span

theorem spacedElements_eq (spaces depth : Nat) (elements : List Element) :
    spacedElements spaces depth elements =
      (elements.map Node.element).map (Node.spaced spaces depth) := by
  induction elements with
  | nil => rfl
  | cons element rest ih =>
    rw [spacedElements, ih]
    rfl

theorem spacedNodes_eq (spaces depth : Nat) (nodes : List Node) :
    spacedNodes spaces depth nodes = nodes.map (Node.spaced spaces depth) := by
  induction nodes with
  | nil => rfl
  | cons node rest ih =>
    cases node with
    | element element =>
      rw [spacedNodes, ih]
      rfl
    | text string span =>
      rw [spacedNodes, ih]
      rfl

variable {spaces depth : Nat}

theorem Content.spaced_ne_empty {content : Content} (hcontent : content ≠ .empty) :
    content.spaced spaces depth ≠ .empty := by
  cases content with
  | empty => exact absurd rfl hcontent
  | elements | text | mixed => simp [spaced]

theorem Content.nodes_spaced {content : Content} (hcontent : content ≠ .empty) :
    (content.spaced spaces depth).nodes =
      withBreaks spaces depth false (content.nodes.map (Node.spaced spaces (depth + 1))) := by
  cases content with
  | empty => exact absurd rfl hcontent
  | elements children =>
    rw [spaced, spacedElements_eq]
    rfl
  | text string span => rfl
  | mixed nodes =>
    rw [spaced, spacedNodes_eq]
    rfl

theorem filterMap_element?_withBreaks (afterText : Bool) (nodes : List Node) :
    (withBreaks spaces depth afterText nodes).filterMap Node.element? =
      nodes.filterMap Node.element? := by
  have hgap (depth : Nat) (afterText : Bool) :
      (gapNodes spaces depth afterText).filterMap Node.element? = [] := by
    cases afterText <;> rfl
  induction nodes generalizing afterText with
  | nil => exact hgap depth afterText
  | cons node rest ih =>
    cases node with
    | element child => simp [withBreaks, hgap, ih, Node.element?]
    | text string span =>
      rw [withBreaks, List.filterMap_cons_none rfl, ih, List.filterMap_cons_none rfl]

theorem filterMap_element?_map_spaced (nodes : List Node) :
    (nodes.map (Node.spaced spaces depth)).filterMap Node.element? =
      (nodes.filterMap Node.element?).map (Element.spaced spaces depth) := by
  rw [List.filterMap_map, List.map_filterMap]
  refine List.filterMap_congr fun node _ => ?_
  cases node <;> rfl

theorem Content.children_spaced (content : Content) :
    (content.spaced spaces depth).children =
      content.children.map (Element.spaced spaces (depth + 1)) := by
  by_cases hcontent : content = .empty
  · subst hcontent
    rfl
  · rw [children, nodes_spaced hcontent, filterMap_element?_withBreaks,
      filterMap_element?_map_spaced]
    rfl

/-- What the tags of an element say. -/
def Element.label (element : Element) : String × List Attribute := (element.name, element.attributes)

/-- Line breaks change no tag. -/
theorem Element.label_subtree_spaced (element : Element) :
    (element.spaced spaces depth).subtree.map label = element.subtree.map label := by
  induction element using childInduction generalizing depth with
  | mk name attributes content span ih =>
    rw [spaced, subtree_mk, subtree_mk, List.map_cons, List.map_cons, Content.children_spaced,
      List.flatMap_map, List.map_flatMap, List.map_flatMap]
    refine congrArg _ (List.flatMap_congr fun child hmem => ?_)
    exact ih child (Content.mem_children.mp hmem)

/-! ## Writing line breaks -/

theorem escapeText_lineBreak (spaces depth : Nat) :
    escapeText (lineBreak spaces depth) = lineBreak spaces depth := by
  have hspaces (n : Nat) : (List.replicate n ' ').flatMap escapeChar = List.replicate n ' ' := by
    induction n with
    | zero => rfl
    | succ n ih =>
      rw [List.replicate_succ, List.flatMap_cons, ih]
      rfl
  unfold lineBreak escapeText
  rw [List.flatMap_cons, hspaces]
  rfl

theorem nodeTokens_cons (node : Node) (rest : List Node) :
    nodeTokens (node :: rest) = node.tokens ++ nodeTokens rest := List.flatMap_cons

theorem nodeTokens_append (left right : List Node) :
    nodeTokens (left ++ right) = nodeTokens left ++ nodeTokens right := List.flatMap_append

theorem flatMap_source_gapNodes (depth : Nat) (afterText : Bool) :
    (nodeTokens (gapNodes spaces depth afterText)).flatMap Token.source =
      gapBefore spaces depth afterText := by
  cases afterText with
  | true => rfl
  | false => simp [gapNodes, gapBefore, nodeTokens, Node.tokens, Token.source, escapeText_lineBreak]

/-- An element at its place among the tokens is written with the line breaks that are in it. -/
def Element.Indents (spaces : Nat) (element : Element) : Prop :=
  ∀ (depth : Nat) (afterText : Bool) (after : List Token),
    (indentFrom spaces depth afterText (element.tokens ++ after)).flatten =
      gapBefore spaces depth afterText ++
        (element.spaced spaces depth).tokens.flatMap Token.source ++
          (indentFrom spaces depth false after).flatten

theorem flatten_indentFrom_nodes {nodes : List Node}
    (hindents : ∀ child, .element child ∈ nodes → child.Indents spaces) (depth : Nat)
    (afterText : Bool) (name : String) (after : List Token) :
    (indentFrom spaces (depth + 1) afterText (nodeTokens nodes ++ .endTag name :: after)).flatten =
      (nodeTokens (withBreaks spaces depth afterText
        (nodes.map (Node.spaced spaces (depth + 1))))).flatMap Token.source ++
          (Token.endTag name).source ++ (indentFrom spaces depth false after).flatten := by
  induction nodes generalizing afterText with
  | nil =>
    have hgap : (nodeTokens (gapNodes spaces depth afterText)).flatMap Token.source =
        gapBefore spaces depth afterText := flatMap_source_gapNodes depth afterText
    rw [List.map_nil, withBreaks, hgap]
    simp [nodeTokens, indentFrom, gapBefore]
  | cons node rest ih =>
    have hrest : ∀ child, Node.element child ∈ rest → child.Indents spaces := fun child hmem =>
      hindents child (by simp [hmem])
    cases node with
    | element child =>
      have hchild := hindents child (by simp) (depth + 1) afterText
        (nodeTokens rest ++ .endTag name :: after)
      have hgap : (nodeTokens (gapNodes spaces (depth + 1) afterText)).flatMap Token.source =
          gapBefore spaces (depth + 1) afterText := flatMap_source_gapNodes (depth + 1) afterText
      have hnodes := ih hrest false
      rw [nodeTokens_cons, List.append_assoc, Node.tokens, hchild, hnodes, List.map_cons, Node.spaced,
        withBreaks, nodeTokens_append, List.flatMap_append, hgap, nodeTokens_cons, Node.tokens]
      simp only [List.flatMap_append, List.append_assoc]
    | text string span =>
      have hnodes := ih hrest true
      rw [List.map_cons, Node.spaced, withBreaks, nodeTokens_cons, nodeTokens_cons]
      simp only [Node.tokens, List.nil_append, List.cons_append, List.flatMap_cons, indentFrom,
        List.flatten_cons, hnodes, List.append_assoc]

theorem Element.indents (element : Element) (spaces : Nat) : element.Indents spaces := by
  induction element using childInduction with
  | mk name attributes content span ih =>
    intro depth afterText after
    by_cases hcontent : content = .empty
    · subst hcontent
      rw [tokens_empty]
      simp [Element.spaced, Content.spaced, indentFrom, gapBefore, tokens_empty]
    have hnodes := flatten_indentFrom_nodes ih depth false name after
    rw [tokens_mk hcontent, spaced, tokens_mk (Content.spaced_ne_empty hcontent),
      Content.nodes_spaced hcontent]
    rw [List.cons_append, indentFrom]
    simp only [List.append_assoc, List.singleton_append, List.flatten_cons, hnodes,
      List.flatMap_cons, List.flatMap_append, List.flatMap_nil, List.append_nil]
    rfl

/-! ## Documents with a layout -/

/-- The element with the line breaks of a layout. -/
def Element.laidOut (element : Element) : Layout → Element
  | .compact => element
  | .indented spaces => element.spaced spaces 0

theorem Element.label_subtree_laidOut (element : Element) (layout : Layout) :
    (element.laidOut layout).subtree.map label = element.subtree.map label := by
  cases layout with
  | compact => rfl
  | indented spaces => exact element.label_subtree_spaced

theorem Element.Legible.laidOut {element : Element} (hlegible : element.Legible) (layout : Layout) :
    (element.laidOut layout).Legible := by
  intro inner hinner
  have hlabel : inner.label ∈ element.subtree.map label := by
    rw [← element.label_subtree_laidOut layout]
    exact List.mem_map_of_mem hinner
  obtain ⟨other, hother, hsame⟩ := List.mem_map.mp hlabel
  have htag := hlegible other hother
  simp only [label, Prod.mk.injEq] at hsame
  rwa [hsame.1, hsame.2] at htag

/-- To lay a document out is to write line breaks as text. -/
theorem render_eq_render_compact (root : Element) (layout : Layout) :
    render root layout = render (root.laidOut layout) .compact := by
  cases layout with
  | compact => rfl
  | indented spaces =>
    have hroot := root.indents spaces 0 false []
    rw [List.append_nil] at hroot
    have hgap : gapBefore spaces 0 false = ['\n'] := by simp [gapBefore, lineBreak]
    rw [hgap] at hroot
    unfold render Layout.parts
    apply congrArg String.ofList
    simp only [List.cons_append, List.flatten_cons, List.flatten_append, hroot, List.nil_append,
      indentFrom, List.flatten_nil, List.append_nil, List.flatMap_def]
    rfl

/-- A legible tree that is written and read comes back with its line breaks, in normal form. -/
theorem exists_parse_render_laidOut {root : Element} (hlegible : root.Legible) (layout : Layout) :
    ∃ document, parse (render root layout) = .ok document ∧
      document.root.bare = (root.laidOut layout).normal.bare := by
  rw [render_eq_render_compact]
  exact exists_parse_render (hlegible.laidOut layout)

/-- What a tag says once it is read: its name, and the names and values of its attributes. -/
def Element.tag (element : Element) : String × List (String × String) :=
  (element.name, element.attributes.map fun a => (a.name, a.value))

/-- Every tag comes back as it was, whatever the layout. -/
theorem Element.tag_subtree_of_bare_eq {read root : Element} {layout : Layout}
    (hread : read.bare = (root.laidOut layout).normal.bare) :
    read.subtree.map tag = root.subtree.map tag := by
  have hheading (element : Element) : element.subtree.map tag =
      (element.subtree.map heading).map fun (name, pairs, _) => (name, pairs) := by
    rw [List.map_map]
    rfl
  have hlabel (element : Element) : element.subtree.map tag =
      (element.subtree.map label).map fun (name, attributes) =>
        (name, attributes.map fun a => (a.name, a.value)) := by
    rw [List.map_map]
    rfl
  calc
    read.subtree.map tag = (root.laidOut layout).subtree.map tag := by
      rw [hheading, ← heading_subtree_bare, hread, heading_subtree_bare, heading_subtree_normal,
        ← hheading]
    _ = root.subtree.map tag := by rw [hlabel, label_subtree_laidOut, ← hlabel]

end CompatChanges.Xml
