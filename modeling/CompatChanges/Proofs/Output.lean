import CompatChanges.Proofs.LineBreak
import CompatChanges.Text.Utf8.Lemmas

/-!
# The bytes of a written document

The bytes that a document is written in are read as the text that was written. They do not depend on
spans, and the children of the root are read back one by one, whatever the layout put between them.
-/

namespace CompatChanges.Xml

open Text

/-! ## Writing without spans -/

def Token.bare : Token → Token
  | .startTag name attributes => .startTag name (attributes.map Attribute.bare)
  | .emptyTag name attributes => .emptyTag name (attributes.map Attribute.bare)
  | .endTag name => .endTag name
  | .text string => .text string

theorem tagSource_map_bare (name : String) (attributes : List Attribute) :
    tagSource name (attributes.map Attribute.bare) = tagSource name attributes := by
  unfold tagSource
  rw [List.flatMap_map]
  rfl

@[simp]
theorem Token.source_bare (token : Token) : token.bare.source = token.source := by
  cases token <;> simp [bare, source, tagSource_map_bare]

theorem Element.tokens_bare (element : Element) : element.bare.tokens = element.tokens.map Token.bare := by
  induction element using childInduction with
  | mk name attributes content span ih =>
    by_cases hcontent : content = .empty
    · subst hcontent
      rfl
    have hbare : content.bare ≠ .empty := by
      cases content with
      | empty => exact absurd rfl hcontent
      | elements | text | mixed => simp [Content.bare]
    have hnodes : nodeTokens (content.nodes.map Node.bare) =
        (nodeTokens content.nodes).map Token.bare := by
      rw [nodeTokens, nodeTokens, List.flatMap_map, List.map_flatMap]
      refine List.flatMap_congr fun node hmem => ?_
      cases node with
      | element child => exact ih child hmem
      | text string place => rfl
    rw [bare_mk, tokens_mk hbare, tokens_mk hcontent, content.nodes_bare, hnodes]
    simp [Token.bare]

theorem indentFrom_map_bare (spaces depth : Nat) (afterText : Bool) (tokens : List Token) :
    indentFrom spaces depth afterText (tokens.map Token.bare) =
      indentFrom spaces depth afterText tokens := by
  induction tokens generalizing depth afterText with
  | nil => rfl
  | cons token rest ih =>
    have hsource := token.source_bare
    cases token with
    | startTag | emptyTag | endTag | text =>
      rw [Token.bare] at hsource
      rw [List.map_cons, Token.bare, indentFrom, indentFrom]
      simp only [hsource, ih]

/-- Spans are not written. -/
theorem Layout.parts_bare (layout : Layout) (root : Element) :
    layout.parts root.bare = layout.parts root := by
  cases layout with
  | compact =>
    unfold parts
    rw [root.tokens_bare, List.map_map]
    simp [Function.comp_def]
  | indented spaces =>
    unfold parts
    dsimp only
    rw [root.tokens_bare, indentFrom_map_bare]

/-! ## Bytes -/

theorem encode_flatten (parts : List (List Char)) :
    (parts.map Utf8.encode).flatten = Utf8.encode parts.flatten := by
  induction parts with
  | nil => rfl
  | cons part rest ih => rw [List.map_cons, List.flatten_cons, List.flatten_cons, ih, Utf8.encode_append]

theorem write_unlimited (root : Element) (layout : Layout) :
    (write root layout Sink.unlimited).2 = .ok () ∧
      (write root layout Sink.unlimited).1.bytes = Utf8.encode (render root layout).toList := by
  obtain ⟨houtcome, hbytes, -⟩ :=
    Sink.acceptsAll_unlimited.writeAndFlush ((layout.parts root).map Utf8.encode)
  refine ⟨houtcome, hbytes.trans ?_⟩
  rw [encode_flatten, render, String.toList_ofList]
  rfl

/-- A document that was written begins with its declaration, not with a byte order mark. -/
theorem parseBytes_render (root : Element) (layout : Layout) :
    parseBytes (Utf8.encode (render root layout).toList) = parse (render root layout) := by
  have hmark : dropMark (render root layout).toList = (render root layout).toList := by
    rw [render, String.toList_ofList]
    cases layout <;> rfl
  unfold parseBytes
  rw [Utf8.decode_encode]
  dsimp only
  rw [hmark]
  rfl

/-! ## The children of a root -/

theorem Element.children_ofChildren (name : String) (children : List Element) :
    (ofChildren name children).children = children := by
  cases children with
  | nil => rfl
  | cons child rest => exact filterMap_element?_map_element (child :: rest)

theorem Element.children_normal (element : Element) :
    element.normal.children = element.children.map normal := by
  obtain ⟨name, attributes, content, span⟩ := element
  rw [normal_mk, children, content_mk, Content.children_ofNodes, filterMap_element?_joinTexts,
    filterMap_element?_map_normal]
  rfl

theorem Element.children_bare (element : Element) : element.bare.children = element.children.map bare := by
  obtain ⟨name, attributes, content, span⟩ := element
  exact content.children_bare

/-- A child of the root with the line breaks of a layout. -/
def Layout.inRoot (layout : Layout) (child : Element) : Element :=
  match layout with
  | .compact => child
  | .indented spaces => child.spaced spaces 1

theorem Element.children_laidOut (element : Element) (layout : Layout) :
    (element.laidOut layout).children = element.children.map layout.inRoot := by
  obtain ⟨name, attributes, content, span⟩ := element
  cases layout with
  | compact => exact (List.map_id _).symm
  | indented spaces => exact content.children_spaced

theorem Content.eq_empty_of_bare {content : Content} (hbare : content.bare = .empty) :
    content = .empty := by
  cases content with
  | empty => rfl
  | elements | text | mixed => cases hbare

theorem Element.attributes_bare (element : Element) :
    element.bare.attributes = element.attributes.map Attribute.bare := by
  obtain ⟨name, attributes, content, span⟩ := element
  rfl

@[simp]
theorem Element.tag_bare (element : Element) : element.bare.tag = element.tag := by
  obtain ⟨name, attributes, content, span⟩ := element
  simp [tag, Attribute.bare]

/-- The tag of a child comes back as it was. -/
theorem tag_normal_inRoot (layout : Layout) (child : Element) :
    (layout.inRoot child).normal.bare.tag = child.tag := by
  obtain ⟨name, attributes, content, span⟩ := child
  rw [Element.tag_bare]
  cases layout with
  | compact => rfl
  | indented spaces => rfl

theorem Element.legible_ofChildren {name : String} {children : List Element}
    (hname : LegibleTag name []) (hchildren : ∀ child ∈ children, child.Legible) :
    (ofChildren name children).Legible := by
  intro inner hinner
  have hsubtree : (ofChildren name children).subtree =
      ofChildren name children :: (ofChildren name children).children.flatMap subtree :=
    subtree_mk ..
  rw [hsubtree, children_ofChildren, List.mem_cons, List.mem_flatMap] at hinner
  rcases hinner with rfl | ⟨child, hmem, hinner⟩
  · exact hname
  · exact hchildren child hmem inner hinner

end CompatChanges.Xml
