import CompatChanges.Proofs.Normal
import CompatChanges.Proofs.Written

/-!
# Reading a written tree

The tokens of a tree are read one by one. An element that was written is complete again at its last
token, in normal form, and whatever comes after it is read as if it had stood alone.
-/

namespace CompatChanges.Xml

open Text

def Element.WellNamed (element : Element) : Prop :=
  ∀ inner ∈ element.subtree, NamesTag inner.name inner.attributes

instance (element : Element) : Decidable element.WellNamed :=
  inferInstanceAs (Decidable (∀ inner ∈ element.subtree, NamesTag inner.name inner.attributes))

theorem nodeTokens_map_element (elements : List Element) :
    nodeTokens (elements.map .element) = elementTokens elements := by
  rw [nodeTokens, List.flatMap_map]
  rfl

/-- Apart from an empty one, an element is a tag, the tokens of its children and a tag. -/
theorem Element.tokens_mk {content : Content} (hcontent : content ≠ .empty) (name : String)
    (attributes : List Attribute) (span : Span) :
    (mk name attributes content span).tokens =
      .startTag name attributes :: (nodeTokens content.nodes ++ [.endTag name]) := by
  cases content with
  | empty => exact absurd rfl hcontent
  | elements children =>
    rw [Content.nodes, nodeTokens_map_element]
    exact tokens_elements ..
  | text string inner => rfl
  | mixed nodes => exact tokens_mixed ..

/-- What holds of the tags of every element in a tree, and of every text, holds of all its tokens. -/
theorem Element.forall_tokens {motive : Token → Prop} (text : ∀ string, motive (.text string))
    {element : Element}
    (startTag : ∀ inner ∈ element.subtree, motive (.startTag inner.name inner.attributes))
    (emptyTag : ∀ inner ∈ element.subtree, motive (.emptyTag inner.name inner.attributes))
    (endTag : ∀ inner ∈ element.subtree, motive (.endTag inner.name)) :
    ∀ token ∈ element.tokens, motive token := by
  induction element using childInduction with
  | mk name attributes content span ih =>
    have hself := (mk name attributes content span).self_mem_subtree
    have hinner {child inner : Element} (hmem : Node.element child ∈ content.nodes)
        (hinner : inner ∈ child.subtree) : inner ∈ (mk name attributes content span).subtree :=
      mem_subtree_of_child hmem hinner
    by_cases hcontent : content = .empty
    · subst hcontent
      intro token htoken
      rw [tokens_empty, List.mem_singleton] at htoken
      subst htoken
      exact emptyTag _ hself
    intro token htoken
    rw [tokens_mk hcontent, List.mem_cons, List.mem_append, List.mem_singleton] at htoken
    rcases htoken with rfl | hinside | rfl
    · exact startTag _ hself
    · obtain ⟨node, hmem, hnode⟩ := List.mem_flatMap.mp hinside
      cases node with
      | element child =>
        apply ih child hmem _ _ _ token hnode
        · exact fun inner hchild => startTag inner (hinner hmem hchild)
        · exact fun inner hchild => emptyTag inner (hinner hmem hchild)
        · exact fun inner hchild => endTag inner (hinner hmem hchild)
      | text string place =>
        rw [List.mem_singleton.mp hnode]
        exact text string
    · exact endTag _ hself

theorem Element.WellNamed.tokens {element : Element} (hnamed : element.WellNamed) :
    ∀ token ∈ element.tokens, token.Named :=
  forall_tokens (fun _ => trivial) hnamed hnamed fun inner hmem => (hnamed inner hmem).isName

/-- A tree whose tags are read as they were written. -/
def Element.Legible (element : Element) : Prop :=
  ∀ inner ∈ element.subtree, LegibleTag inner.name inner.attributes

theorem Element.Legible.tokens {element : Element} (hlegible : element.Legible) :
    ∀ token ∈ element.tokens, token.Legible :=
  forall_tokens (fun _ => trivial) hlegible hlegible fun inner hmem =>
    (hlegible inner hmem).isTagName.toIsEndName

/-! ## Building -/

def OpenElement.pushAll (element : OpenElement) (nodes : List Node) : OpenElement :=
  { element with children := nodes.reverse ++ element.children }

theorem OpenElement.pushAll_append (element : OpenElement) (left right : List Node) :
    element.pushAll (left ++ right) = (element.pushAll left).pushAll right := by
  simp [pushAll]

/-- The element is complete after its tokens, whatever text waits before and whatever comes after. -/
def Element.Builds (element : Element) : Prop :=
  ∀ (assembly : Assembly) (text : String) (after : List Token),
    assembly.takeAll? (eventsFrom text (element.tokens ++ after)) =
      (assembly.takeAll? (textEvents text)).bind fun next =>
        (next.complete element.normal.bare).toOption.bind fun next =>
          next.takeAll? (eventsFrom "" after)

/-- The children of an element as they are read back. -/
def readNodes (nodes : List Node) : List Node :=
  joinTexts ((nodes.map Node.normal).map Node.bare)

theorem readNodes_element (child : Element) (rest : List Node) :
    readNodes (.element child :: rest) = .element child.normal.bare :: readNodes rest := rfl

theorem readNodes_text (string : String) (span : Span) (rest : List Node) :
    readNodes (.text string span :: rest) = joinText string {} (readNodes rest) := rfl

theorem bare_normal_mk (name : String) (attributes : List Attribute) (content : Content)
    (span : Span) :
    (Element.mk name attributes content span).normal.bare =
      .mk name (attributes.map Attribute.bare) (.ofNodes (readNodes content.nodes)) {} := by
  rw [readNodes, Element.normal_mk, Element.bare_mk, ← joinTexts_map_bare,
    Content.ofNodes_map_bare]

theorem takeAll?_textEvents (element : OpenElement) (outer : List OpenElement)
    (root : Option Element) (text : String) :
    Assembly.takeAll? ⟨element :: outer, root⟩ (textEvents text) =
      some ⟨element.pushAll (joinText text {} []) :: outer, root⟩ := by
  unfold textEvents joinText
  split <;> rfl

/-- Children that build are all in the innermost open element when its end tag comes. -/
theorem takeAll?_nodes {nodes : List Node}
    (hbuilds : ∀ child, .element child ∈ nodes → child.Builds) (element : OpenElement)
    (outer : List OpenElement) (root : Option Element) (text : String) (name : String)
    (after : List Token) :
    Assembly.takeAll? ⟨element :: outer, root⟩
        (eventsFrom text (nodeTokens nodes ++ .endTag name :: after)) =
      Assembly.takeAll? ⟨element.pushAll (joinText text {} (readNodes nodes)) :: outer, root⟩
        (.stop name :: eventsFrom "" after) := by
  -- Text waits until a tag comes, so the induction is for any text that waits.
  induction nodes generalizing element text with
  | nil =>
    change Assembly.takeAll? _ (textEvents text ++ (.stop name :: eventsFrom "" after)) = _
    rw [Assembly.takeAll?_append, takeAll?_textEvents]
    rfl
  | cons node rest ih =>
    have hrest : ∀ child, Node.element child ∈ rest → child.Builds := fun child hmem =>
      hbuilds child (by simp [hmem])
    cases node with
    | element child =>
      let filled := (element.pushAll (joinText text {} [])).push (.element child.normal.bare)
      have hfilled : filled.pushAll (readNodes rest) =
          element.pushAll (joinText text {} (readNodes (.element child :: rest))) := by
        rw [readNodes_element, joinText_element, OpenElement.pushAll_append]
        simp [filled, OpenElement.pushAll, OpenElement.push]
      have hchild := hbuilds child (by simp) ⟨element :: outer, root⟩ text
        (nodeTokens rest ++ .endTag name :: after)
      rw [takeAll?_textEvents, Option.bind_some] at hchild
      have hnodes := ih hrest filled ""
      rw [joinText_empty, hfilled] at hnodes
      rw [nodeTokens, List.flatMap_cons, List.append_assoc]
      exact hchild.trans hnodes
    | text string span =>
      have hnodes := ih hrest element (text ++ string)
      rw [← joinText_joinText, ← readNodes_text string span rest] at hnodes
      exact hnodes

theorem takeAll?_stop (element : OpenElement) (outer : List OpenElement) (root : Option Element)
    (events : List Event) :
    Assembly.takeAll? ⟨element :: outer, root⟩ (.stop element.name :: events) =
      (Assembly.complete ⟨outer, root⟩ (element.close 0)).toOption.bind fun next =>
        next.takeAll? events := by
  simp [Assembly.takeAll?, Assembly.take?]

theorem close_pushAll (name : String) (attributes : List Attribute) (nodes : List Node) :
    (OpenElement.pushAll ⟨name, attributes, 0, []⟩ nodes).close 0 =
      .mk name attributes (.ofNodes nodes) {} := by
  simp [OpenElement.close, OpenElement.pushAll]

/-- Every element builds: the induction is on the tree, and the children are in place when the end
tag comes. -/
theorem Element.builds (element : Element) : element.Builds := by
  induction element using childInduction with
  | mk name attributes content span ih =>
    intro assembly text after
    by_cases hcontent : content = .empty
    · subst hcontent
      rw [tokens_empty, List.singleton_append, eventsFrom_tag rfl, Assembly.takeAll?_append]
      refine congrArg _ (funext fun next => ?_)
      exact takeAll?_stop ⟨name, attributes.map Attribute.bare, 0, []⟩ next.pending next.root _
    -- The start tag opens the element, the children go into it, and the end tag completes it.
    rw [tokens_mk hcontent, List.cons_append, List.append_assoc, List.singleton_append,
      eventsFrom_tag rfl, Assembly.takeAll?_append]
    refine congrArg _ (funext fun next => ?_)
    have hnodes := takeAll?_nodes ih ⟨name, attributes.map Attribute.bare, 0, []⟩ next.pending
      next.root "" name after
    rw [joinText_empty] at hnodes
    have hstop := takeAll?_stop (OpenElement.pushAll ⟨name, attributes.map Attribute.bare, 0, []⟩
      (readNodes content.nodes)) next.pending next.root (eventsFrom "" after)
    rw [close_pushAll, ← bare_normal_mk name attributes content span] at hstop
    exact hnodes.trans hstop

/-! ## Documents -/

/-- The line breaks around the root are texts of their own. -/
theorem toList_render_compact (root : Element) :
    (render root .compact).toList =
      declarationSource ++
        (.text "\n" :: (root.tokens ++ [.text "\n"])).flatMap Token.source := by
  have hbreak : (Token.text "\n").source = ['\n'] := by decide
  unfold render Layout.parts
  simp [hbreak, List.flatMap_def]

/-- Blank text around the root is no part of the document. -/
theorem takeAll?_document (root : Element) :
    ((Assembly.empty.takeAll? (eventsFrom "" (.text "\n" :: (root.tokens ++ [.text "\n"])))).bind
      fun assembly => assembly.finish.toOption) = some root.normal.bare := by
  have hbreak (assembly : Assembly) (hpending : assembly.pending = []) :
      assembly.takeAll? (textEvents "\n") = some assembly := by
    obtain ⟨pending, root⟩ := assembly
    cases hpending
    rfl
  change ((Assembly.empty.takeAll? (eventsFrom "\n" (root.tokens ++ [.text "\n"]))).bind _) = _
  rw [root.builds, hbreak .empty rfl]
  change ((Assembly.takeAll? ⟨[], some root.normal.bare⟩ (textEvents "\n")).bind _) = _
  rw [hbreak ⟨[], some root.normal.bare⟩ rfl]
  rfl

/-- A tree that is legible as it is written is read in normal form. -/
theorem exists_parse_render {root : Element} (hlegible : root.Legible) :
    ∃ document, parse (render root .compact) = .ok document ∧
      document.root.bare = root.normal.bare := by
  have htokens : ∀ token ∈ (.text "\n" :: (root.tokens ++ [.text "\n"])), token.Legible := by
    intro token htoken
    simp only [List.mem_cons, List.mem_append, List.not_mem_nil, or_false] at htoken
    rcases htoken with rfl | hinside | rfl
    · trivial
    · exact hlegible.tokens token hinside
    · trivial
  have hevents := eventsOf?_legible htokens
  rw [← toList_render_compact] at hevents
  obtain ⟨last, htake, hfinish⟩ := Option.bind_eq_some_iff.mp (takeAll?_document root)
  exact exists_parseChars_iff.mpr
    ⟨_, last, hevents, htake, toOption_eq_some_iff.mp hfinish⟩

/-- A tree with ordinary names that is written compactly and read comes back in normal form, and
every element in it says what it said. -/
theorem parse_render_compact {root : Element} (hnamed : root.WellNamed) :
    ∃ document, parse (render root .compact) = .ok document ∧
      document.root.bare = root.normal.bare ∧
      document.root.subtree.map Element.heading = root.subtree.map Element.heading := by
  have htokens : ∀ token ∈ (.text "\n" :: (root.tokens ++ [.text "\n"])), token.Named := by
    intro token htoken
    simp only [List.mem_cons, List.mem_append, List.not_mem_nil, or_false] at htoken
    rcases htoken with rfl | hinside | rfl
    · trivial
    · exact hnamed.tokens token hinside
    · trivial
  have hread := toOption_parseRoot (render root .compact).toList
  rw [toList_render_compact, eventsOf?_document htokens, Option.bind_some, takeAll?_document,
    ← toList_render_compact] at hread
  unfold parse parseChars
  cases hroot : parseRoot (render root .compact).toList with
  | error error =>
    rw [hroot] at hread
    cases hread
  | ok result =>
    rw [hroot] at hread
    have hbare : result.bare = root.normal.bare := Option.some.inj hread
    refine ⟨_, rfl, hbare, ?_⟩
    calc
      result.subtree.map Element.heading = result.bare.subtree.map Element.heading :=
        result.heading_subtree_bare.symm
      _ = root.normal.bare.subtree.map Element.heading := by rw [hbare]
      _ = root.normal.subtree.map Element.heading := root.normal.heading_subtree_bare
      _ = root.subtree.map Element.heading := root.heading_subtree_normal

/-- A tree with texts that join, with texts that vanish and with marks in a value. -/
def specimen : Element :=
  .mk "p" [⟨"k", "\"<&>\t\n", {}⟩, ⟨"a", "", {}⟩]
    (.mixed [.text "x" {}, .text "" {}, .text " <" {}, .element (.mk "b" [] (.elements []) {}),
      .text " " {}, .element (.mk "c" [] (.text " " {}) {})]) {}

theorem parse_render_specimen :
    specimen.WellNamed ∧
      ∃ document, parse (render specimen .compact) = .ok document ∧
        document.root.bare =
          .mk "p" [⟨"k", "\"<&>\t\n", {}⟩, ⟨"a", "", {}⟩]
            (.mixed [.text "x <" {}, .element (.mk "b" [] .empty {}), .text " " {},
              .element (.mk "c" [] .empty {})]) {} ∧
        document.root.subtree.map Element.heading = specimen.subtree.map Element.heading := by
  have hnamed : specimen.WellNamed := by decide +kernel
  have hnormal : specimen.normal.bare =
      .mk "p" [⟨"k", "\"<&>\t\n", {}⟩, ⟨"a", "", {}⟩]
        (.mixed [.text "x <" {}, .element (.mk "b" [] .empty {}), .text " " {},
          .element (.mk "c" [] .empty {})]) {} := by rfl
  obtain ⟨document, hparse, hbare, hheadings⟩ := parse_render_compact hnamed
  exact ⟨hnamed, document, hparse, hbare.trans hnormal, hheadings⟩

end CompatChanges.Xml
