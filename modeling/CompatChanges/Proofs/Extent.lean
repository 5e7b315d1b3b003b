import CompatChanges.Proofs.Cut
import CompatChanges.Proofs.Derivation

/-!
# Where nodes stand

The spans in a tree that was read tell where its nodes were found: each is the stretch of the source
from which the node can be read again by itself. Spans count from the first byte of the source, so a
stretch that is read by itself gives the same spans, moved to the left.
-/

namespace CompatChanges.Xml

open Text

def Span.moved (offset : Nat) (span : Span) : Span := ⟨span.start + offset, span.stop + offset⟩

/-- The element with all spans in it moved to the right. -/
def Element.moved (offset : Nat) (element : Element) : Element := element.mapSpans (Span.moved offset)

/-! ### Reading elsewhere -/

theorem placeAttributes_moved (base offset : Nat) (cursor : Option Cursor)
    (raws : List (Except AttributeFault RawAttribute)) :
    placeAttributes (base + offset) cursor raws =
      (placeAttributes base cursor raws).map (List.map (Attribute.mapSpan (Span.moved offset))) := by
  induction raws generalizing cursor with
  | nil => rfl
  | cons raw rest ih =>
    cases raw with
    | error fault => rfl
    | ok raw =>
      rw [placeAttributes, placeAttributes]
      cases unescape raw.value with
      | error fault => rfl
      | ok value =>
        cases cursor.bind fun c => Cursor.find? raw.key c.offset c.rest with
        | none =>
          dsimp only
          rw [ih]
          cases placeAttributes base cursor rest with
          | error fault => rfl
          | ok attributes => simp [Except.map, Attribute.mapSpan, Span.moved, Nat.add_right_comm]
        | some found =>
          dsimp only
          rw [ih]
          cases placeAttributes base (found.pass? raw) rest with
          | error fault => rfl
          | ok attributes => simp [Except.map, Attribute.mapSpan, Span.moved, Nat.add_right_comm]

theorem readAttributes_moved (content : List Char) (base offset : Nat) :
    readAttributes content (base + offset) =
      (readAttributes content base).map (List.map (Attribute.mapSpan (Span.moved offset))) :=
  placeAttributes_moved base offset _ _

variable {start offset : Nat} {pieces own : List Piece} {nodes : List Node} {element : Element}

theorem Row.exists_moved
    (hrow : Row (fun place own element => ∀ start, place = start + offset →
      ∃ unmoved, Forms start own unmoved ∧ unmoved.moved offset = element) (start + offset) pieces nodes) :
    ∃ unmoved, Row Forms start pieces unmoved ∧
      unmoved.map (Node.mapSpans (Span.moved offset)) = nodes := by
  generalize hplace : start + offset = place at hrow
  induction hrow generalizing start with
  | nil => exact ⟨[], .nil start, rfl⟩
  | @silent place piece item rest nodes item_eq silent tail ih =>
    have hrest : start + piece.size + offset = place + piece.size := by omega
    obtain ⟨unmoved, hunmoved, rfl⟩ := ih hrest
    exact ⟨unmoved, .silent item_eq silent hunmoved, rfl⟩
  | @text place piece item chars rest nodes item_eq chars_eq tail ih =>
    have hrest : start + piece.size + offset = place + piece.size := by omega
    obtain ⟨unmoved, hunmoved, rfl⟩ := ih hrest
    refine ⟨_, .text item_eq chars_eq hunmoved, ?_⟩
    simp [Node.mapSpans, Span.moved, ← hplace, Nat.add_right_comm]
  | @element place own rest element nodes head tail ih =>
    have hrest : start + extent own + offset = place + extent own := by omega
    obtain ⟨child, hchild, rfl⟩ := head start hplace.symm
    obtain ⟨unmoved, hunmoved, rfl⟩ := ih hrest
    exact ⟨.element child :: unmoved, .element hchild hunmoved, rfl⟩

/-- Pieces that form an element at one byte form it at every byte. -/
theorem Forms.exists_moved (hforms : Forms (start + offset) own element) :
    ∃ unmoved, Forms start own unmoved ∧ unmoved.moved offset = element := by
  generalize hplace : start + offset = place at hforms
  induction hforms using Forms.treeInduction generalizing start with
  | @emptyTag place piece content attributes item_eq attributes_eq =>
    rw [← hplace, Nat.add_right_comm, readAttributes_moved] at attributes_eq
    obtain ⟨unmoved, hread, rfl⟩ := exists_of_map_eq_ok attributes_eq
    refine ⟨_, .emptyTag item_eq hread, ?_⟩
    simp [Element.moved, Element.mapSpans, Content.mapSpans, Span.moved, ← hplace, Nat.add_right_comm]
  | @tags place first last content attributes inside children first_eq attributes_eq row last_eq ih =>
    rw [← hplace, Nat.add_right_comm, readAttributes_moved] at attributes_eq
    obtain ⟨unmoved, hread, rfl⟩ := exists_of_map_eq_ok attributes_eq
    have hrow := row.mono fun place own child hmem hchild start (hstart : place = start + offset) =>
      ih place own child hmem hchild hstart.symm
    rw [← hplace, Nat.add_right_comm] at hrow
    obtain ⟨inner, hinner, rfl⟩ := hrow.exists_moved
    refine ⟨_, .tags first_eq hread hinner last_eq, ?_⟩
    rw [Element.moved, Element.mapSpans, Content.ofNodes_map_mapSpans, Span.moved]
    simp [← hplace, Nat.add_right_comm]

/-! ### What stands there -/

theorem Piece.eq_markup_of_item {piece : Piece} {item : Item} (hitem : piece.item = .ok item)
    (htext : ∀ raw, item ≠ .text raw) :
    ∃ content, piece = .markup content ∧ markupItem content = .ok item := by
  cases piece with
  | text chars =>
    cases hitem
    exact absurd rfl (htext chars)
  | markup content => exact ⟨content, rfl, hitem⟩
  | unclosed content => exact absurd hitem (Piece.item_unclosed_ne_ok content item)

theorem exists_closer_of_tag {piece : Piece} {content : List Char}
    (hitem : piece.item = .ok (.startTag content) ∨ piece.item = .ok (.emptyTag content)) :
    ∃ closer, piece.source = '<' :: (content ++ closer) ∧ (closer = ['>'] ∨ closer = ['/', '>']) := by
  have hmarkup : ∃ raw, piece = .markup raw ∧
      (markupItem raw = .ok (.startTag content) ∨ markupItem raw = .ok (.emptyTag content)) := by
    rcases hitem with hitem | hitem
    · obtain ⟨raw, rfl, hraw⟩ := Piece.eq_markup_of_item hitem nofun
      exact ⟨raw, rfl, .inl hraw⟩
    · obtain ⟨raw, rfl, hraw⟩ := Piece.eq_markup_of_item hitem nofun
      exact ⟨raw, rfl, .inr hraw⟩
  obtain ⟨raw, rfl, hraw⟩ := hmarkup
  obtain ⟨-, -, hcontent⟩ := markupItem_eq_tag hraw
  rcases hcontent with rfl | rfl
  · exact ⟨['>'], rfl, .inl rfl⟩
  · refine ⟨['/', '>'], ?_, .inr rfl⟩
    simp [Piece.source]

theorem exists_source_of_tag {piece : Piece} {content : List Char}
    (hitem : piece.item = .ok (.startTag content) ∨ piece.item = .ok (.emptyTag content)) :
    ∃ rest, piece.source = '<' :: (tagName content ++ rest ++ ['>']) := by
  obtain ⟨closer, hsource, hcloser⟩ := exists_closer_of_tag hitem
  obtain ⟨rest, hname, -⟩ := exists_tagName_append content
  rw [hsource]
  rcases hcloser with rfl | rfl
  · exact ⟨rest, by rw [← hname]⟩
  · refine ⟨rest ++ ['/'], ?_⟩
    rw [← List.append_assoc, ← hname]
    simp

theorem Forms.exists_source (hforms : Forms start own element) :
    ∃ inside, own.flatMap Piece.source = '<' :: (element.name.toList ++ inside ++ ['>']) := by
  cases hforms with
  | emptyTag item_eq attributes_eq =>
    obtain ⟨rest, hsource⟩ := exists_source_of_tag (.inr item_eq)
    exact ⟨rest, by simp [hsource]⟩
  | @tags _ first last content attributes inside children first_eq attributes_eq row last_eq =>
    obtain ⟨rest, hsource⟩ := exists_source_of_tag (.inl first_eq)
    obtain ⟨raw, rfl, -⟩ := Piece.eq_markup_of_item last_eq nofun
    have hlast : (Piece.markup raw).source = '<' :: raw ++ ['>'] := rfl
    exact ⟨rest ++ ['>'] ++ inside.flatMap Piece.source ++ '<' :: raw, by simp [hsource, hlast]⟩

def Item.isTextual : Item → Bool
  | .text _ | .cdata _ => true
  | _ => false

theorem Item.isTextual_of_chars? {item : Item} {chars : List Char}
    (hchars : item.chars? = some chars) : item.isTextual = true := by
  cases item with
  | text | cdata => rfl
  | startTag | emptyTag | endTag | declaration | instruction | comment | doctype => cases hchars

/-- Markup that is text is a section. -/
theorem markupItem_eq_cdata {content : List Char} {item : Item}
    (hitem : markupItem content = .ok item) (htext : item.isTextual = true) :
    MarkupKind.of? content = some .cdata ∧
      ∃ rest, content = cdataStart ++ rest ∧ item = .cdata rest.dropLast.dropLast := by
  have htag (content : List Char) : (tagItem content).isTextual = false := by
    unfold tagItem
    split
    · rfl
    · split <;> rfl
  have hinstruction (inside : List Char) : (instructionItem inside).isTextual = false := by
    unfold instructionItem
    split <;> rfl
  unfold markupItem at hitem
  split at hitem
  · cases hitem
  · cases hitem
    rw [htag] at htext
    cases htext
  · split at hitem
    · cases hitem
      rw [hinstruction] at htext
      cases htext
    · cases hitem
  · split at hitem <;> cases hitem
    cases htext
  · next hkind =>
    split at hitem
    · next hprefix =>
      cases hitem
      obtain ⟨rest, rfl⟩ := List.isPrefixOf_iff_prefix.mp hprefix
      refine ⟨hkind, rest, rfl, ?_⟩
      rw [List.drop_left]
    · cases hitem
  · split at hitem
    · cases hitem
    · split at hitem <;> cases hitem
      cases htext

theorem Piece.eq_text_of_item {piece : Piece} {raw : List Char}
    (hitem : piece.item = .ok (.text raw)) : piece = .text raw := by
  cases piece with
  | text chars =>
    cases hitem
    rfl
  | markup content =>
    obtain ⟨-, rest, -, hsection⟩ := markupItem_eq_cdata hitem rfl
    cases hsection
  | unclosed content => exact absurd hitem (Piece.item_unclosed_ne_ok content (.text raw))

/-- A section that has ended has its two brackets after what it holds. -/
theorem eq_append_brackets {rest : List Char} (hends : [']', ']'] <:+ cdataStart ++ rest) :
    rest = rest.dropLast.dropLast ++ [']', ']'] := by
  have hopen : '[' :: rest <:+ cdataStart ++ rest := ⟨"![CDATA".toList, rfl⟩
  by_cases hlong : 2 ≤ rest.length
  · obtain ⟨front, rfl⟩ := List.suffix_of_suffix_length_le hends (List.suffix_append _ _) hlong
    simp
  · have hshort : ('[' :: rest).length ≤ [']', ']'].length := by
      simp only [List.length_cons, List.length_nil]
      omega
    have hmem : '[' ∈ [']', ']'] :=
      (List.suffix_of_suffix_length_le hopen hends hshort).subset List.mem_cons_self
    exact absurd hmem (by decide)

/-- A piece that is text is a run of characters, or it is a section that holds the text as it is. -/
theorem Piece.eq_of_chars? {piece : Piece} (hwhole : piece.IsWhole) {item : Item} {chars : List Char}
    (hitem : piece.item = .ok item) (hchars : item.chars? = some chars) :
    (∃ raw, piece = .text raw ∧ unescape raw = .ok chars) ∨
      piece = .markup (cdataStart ++ chars ++ [']', ']']) := by
  cases piece with
  | text raw =>
    cases hitem
    exact .inl ⟨raw, rfl, toOption_eq_some_iff.mp hchars⟩
  | markup content =>
    right
    obtain ⟨hkind, rest, rfl, rfl⟩ := markupItem_eq_cdata hitem (Item.isTextual_of_chars? hchars)
    cases hchars
    have hcloses : closes (cdataStart ++ rest) = true := hwhole.1
    rw [closes, hkind] at hcloses
    have hrest := eq_append_brackets (List.isSuffixOf_iff_suffix.mp hcloses)
    rw [List.append_assoc, ← hrest]
  | unclosed content => exact hwhole.elim

/-! ### Side by side -/

theorem Piece.size_pos {piece : Piece} (hwhole : piece.IsWhole) : 0 < piece.size := by
  have hpos {c : Char} {rest : List Char} : 0 < Utf8.size (c :: rest) := by
    have hc := c.utf8Size_pos
    rw [Utf8.size_cons]
    omega
  cases piece with
  | text chars =>
    cases chars with
    | nil => exact absurd rfl hwhole.1
    | cons c rest => exact hpos
  | markup content => exact hpos
  | unclosed content => exact hpos

theorem extent_pos (hcut : WellCut own) (hne : own ≠ []) : 0 < extent own := by
  obtain ⟨first, rest, rfl⟩ := List.exists_cons_of_ne_nil hne
  have hfirst := Piece.size_pos (hcut.whole first List.mem_cons_self)
  rw [extent_cons]
  omega

theorem Node.IsOwn.span_eq {node : Node} (hown : node.IsOwn Forms start own) :
    node.span = ⟨start, start + extent own⟩ := by
  cases node with
  | element child => exact Forms.span_eq hown
  | text string span =>
    obtain ⟨piece, item, rfl, -, -, rfl⟩ := hown
    simp [Node.span]

theorem Node.IsOwn.ne_nil {node : Node} (hown : node.IsOwn Forms start own) : own ≠ [] := by
  cases node with
  | element child => cases hown <;> simp
  | text string span =>
    obtain ⟨piece, item, rfl, -, -, rfl⟩ := hown
    simp

namespace Row

theorem span_bounds (hrow : Row Forms start pieces nodes) (hcut : WellCut pieces) {node : Node}
    (hmem : node ∈ nodes) :
    start ≤ node.span.start ∧ node.span.start < node.span.stop ∧
      node.span.stop ≤ start + extent pieces := by
  obtain ⟨before, own, after, rfl, hown⟩ := hrow.exists_own hmem
  have hpos := extent_pos (hcut.stretch ⟨before, after, rfl⟩) hown.ne_nil
  rw [hown.span_eq]
  simp only [extent_append]
  omega

theorem pairwise_span (hrow : Row Forms start pieces nodes) (hcut : WellCut pieces) :
    nodes.Pairwise fun left right => left.span.stop ≤ right.span.start := by
  induction hrow with
  | nil => exact .nil
  | @silent start piece item rest nodes item_eq silent tail ih =>
    exact ih (hcut.stretch (List.suffix_cons piece rest).isInfix)
  | @text start piece item chars rest nodes item_eq chars_eq tail ih =>
    have hrest : WellCut rest := hcut.stretch (List.suffix_cons piece rest).isInfix
    rw [List.pairwise_cons]
    refine ⟨?_, ih hrest⟩
    intro node hmem
    exact (tail.span_bounds hrest hmem).1
  | @element start own rest element nodes head tail ih =>
    have hrest : WellCut rest := hcut.stretch (List.suffix_append own rest).isInfix
    rw [List.pairwise_cons]
    refine ⟨?_, ih hrest⟩
    intro node hmem
    have hstart := (tail.span_bounds hrest hmem).1
    rwa [Node.span, head.span_eq]

end Row

theorem Content.nodes_ofNodes_sublist (nodes : List Node) :
    (ofNodes nodes).nodes.Sublist nodes := by
  rw [ofNodes, nodes_classify]
  unfold withoutLayout
  split
  · exact .refl _
  · exact List.filter_sublist

theorem Piece.source_section (chars : List Char) :
    (Piece.markup (cdataStart ++ chars ++ [']', ']'])).source =
      "<![CDATA[".toList ++ chars ++ "]]>".toList := by
  have hfirst : "<![CDATA[".toList = '<' :: cdataStart := by decide
  have hlast : "]]>".toList = [']', ']'] ++ ['>'] := by decide
  rw [hfirst, hlast, Piece.source]
  simp only [List.cons_append, List.append_assoc]

/-- An element has no children, or it has them between two tags. -/
theorem Forms.nodes_eq_nil_or_row (hforms : Forms start own element) :
    element.content.nodes = [] ∨
      ∃ first inside last children, own = first :: (inside ++ [last]) ∧
        Row Forms (start + first.size) inside children ∧
        element.content.nodes.Sublist children := by
  cases hforms with
  | emptyTag => exact .inl rfl
  | @tags _ first last content attributes inside children first_eq attributes_eq row last_eq =>
    exact .inr ⟨first, inside, last, children, rfl, row, Content.nodes_ofNodes_sublist children⟩

theorem Forms.span_inside (hforms : Forms start own element) (hcut : WellCut own) {node : Node}
    (hmem : node ∈ element.content.nodes) :
    start < node.span.start ∧ node.span.start < node.span.stop ∧
      node.span.stop < start + extent own := by
  rcases hforms.nodes_eq_nil_or_row with hnil | ⟨first, inside, last, children, rfl, row, hkept⟩
  · rw [hnil] at hmem
    cases hmem
  · have hinside : WellCut inside := hcut.stretch ⟨[first], [last], by simp⟩
    obtain ⟨hlow, hpos, hhigh⟩ := row.span_bounds hinside (hkept.subset hmem)
    have hfirst := Piece.size_pos (hcut.whole first (by simp))
    have hlast := Piece.size_pos (hcut.whole last (by simp))
    simp only [extent_cons, extent_append, extent_nil]
    omega

theorem Forms.pairwise_span (hforms : Forms start own element) (hcut : WellCut own) :
    element.content.nodes.Pairwise fun left right => left.span.stop ≤ right.span.start := by
  rcases hforms.nodes_eq_nil_or_row with hnil | ⟨first, inside, last, children, rfl, row, hkept⟩
  · rw [hnil]
    exact .nil
  · have hinside : WellCut inside := hcut.stretch ⟨[first], [last], by simp⟩
    exact (row.pairwise_span hinside).sublist hkept

theorem Forms.exists_text (hforms : Forms start own element) (hcut : WellCut own) {string : String}
    {span : Span} (hmem : .text string span ∈ element.content.nodes) :
    ∃ before piece after, own = before ++ [piece] ++ after ∧
      span = ⟨start + extent before, start + extent before + piece.size⟩ ∧
      ((∃ raw, piece = .text raw ∧ unescape raw = .ok string.toList) ∨
        piece = .markup (cdataStart ++ string.toList ++ [']', ']'])) := by
  rcases hforms.nodes_eq_nil_or_row with hnil | ⟨first, inside, last, children, rfl, row, hkept⟩
  · rw [hnil] at hmem
    cases hmem
  · obtain ⟨before, _, after, rfl, piece, item, rfl, hitem, hchars, rfl⟩ :=
      row.exists_own (hkept.subset hmem)
    have hwhole : piece.IsWhole := hcut.whole piece (by simp)
    refine ⟨first :: before, piece, after ++ [last], by simp, ?_, Piece.eq_of_chars? hwhole hitem hchars⟩
    simp [Nat.add_assoc]

/-! ### Slices -/

/-- The characters of `source` from the first byte of the span up to its last are `text`. -/
def Span.Delimits (span : Span) (source text : List Char) : Prop :=
  ∃ before after, source = before ++ text ++ after ∧
    span.start = Utf8.size before ∧ span.stop = Utf8.size (before ++ text)

theorem Span.delimits_stretch (before own after : List Piece) :
    Span.Delimits ⟨extent before, extent before + extent own⟩
      ((before ++ own ++ after).flatMap Piece.source) (own.flatMap Piece.source) := by
  refine ⟨before.flatMap Piece.source, after.flatMap Piece.source, ?_, ?_, ?_⟩
  · rw [List.flatMap_append, List.flatMap_append]
  · rfl
  · rw [Utf8.size_append]
    rfl

/-- The spans in an element are what they claim to be in `source`. -/
structure Element.Delimited (source : List Char) (element : Element) : Prop where
  start_lt_stop : element.span.start < element.span.stop
  stop_le_size : element.span.stop ≤ Utf8.size source
  /-- What stands there is the element from its first tag on, and reads as the element by itself. -/
  slice : ∃ text inside document, element.span.Delimits source text ∧
    text = '<' :: (element.name.toList ++ inside ++ ['>']) ∧
    parse (String.ofList text) = .ok document ∧ document.root.moved element.span.start = element
  inside : ∀ node ∈ element.content.nodes,
    element.span.start < node.span.start ∧ node.span.start < node.span.stop ∧
      node.span.stop < element.span.stop
  ordered : element.content.nodes.Pairwise fun left right => left.span.stop ≤ right.span.start
  /-- A text is written with references, or in a section that has none. -/
  text : ∀ string span, .text string span ∈ element.content.nodes →
    ∃ raw, span.Delimits source raw ∧
      (unescape raw = .ok string.toList ∨
        raw = "<![CDATA[".toList ++ string.toList ++ "]]>".toList)

/-- A stretch that forms an element is read as the element by itself. -/
theorem Forms.exists_parse (hforms : Forms start own element) (hcut : WellCut own) :
    ∃ document, parse (String.ofList (own.flatMap Piece.source)) = .ok document ∧
      document.root.moved start = element := by
  obtain ⟨inside, hsource⟩ := hforms.exists_source
  have hmark : dropMark (own.flatMap Piece.source) = own.flatMap Piece.source := by
    rw [hsource, dropMark]
    exact if_neg (by decide)
  have hstart : Forms (0 + start) own element := by rwa [Nat.zero_add]
  obtain ⟨alone, halone, rfl⟩ := hstart.exists_moved
  have hroot : parseRoot (own.flatMap Piece.source) = .ok alone := by
    rw [parseRoot_eq_ok_iff, hmark, hcut.pieces_source]
    exact ⟨[], own, [], by simp, List.forall_mem_nil _, halone⟩
  refine ⟨⟨alone, .ofText (own.flatMap Piece.source)⟩, ?_, rfl⟩
  rw [parse, String.toList_ofList, parseChars, hroot]
  rfl

theorem Assembly.exists_item_of_addPieces {assembly last : Assembly} {offset : Nat}
    (hadd : assembly.addPieces offset pieces = .ok last) :
    ∀ piece ∈ pieces, ∃ item, piece.item = .ok item := by
  induction pieces generalizing assembly offset with
  | nil => exact List.forall_mem_nil _
  | cons piece rest ih =>
    rw [addPieces] at hadd
    split at hadd
    · cases hadd
    · next next hpiece =>
      rw [List.forall_mem_cons]
      refine ⟨?_, ih hadd⟩
      rw [addPiece] at hpiece
      split at hpiece
      · cases hpiece
      · next item hitem => exact ⟨item, hitem⟩

theorem wellCut_of_parseRoot {source : List Char} {root : Element}
    (hroot : parseRoot source = .ok root) :
    WellCut (CompatChanges.Xml.pieces (dropMark source)) := by
  apply wellCut_pieces
  intro content hmem
  unfold parseRoot at hroot
  split at hroot
  · cases hroot
  · next last hlast =>
    obtain ⟨item, hitem⟩ := Assembly.exists_item_of_addPieces hlast _ hmem
    exact Piece.item_unclosed_ne_ok content item hitem

/-- A stretch that forms an element has the spans of the element, wherever it stands. -/
theorem Forms.delimited {before after : List Piece} (hcut : WellCut (before ++ own ++ after))
    (hforms : Forms (extent before) own element) :
    element.Delimited ((before ++ own ++ after).flatMap Piece.source) := by
  have hown : WellCut own := hcut.stretch ⟨before, after, rfl⟩
  have hspan := hforms.span_eq
  have hnode : Node.IsOwn Forms (extent before) own (.element element) := hforms
  have hpos := extent_pos hown hnode.ne_nil
  have hslice := Span.delimits_stretch before own after
  rw [← hspan] at hslice
  have hstart : element.span.start = extent before := by rw [hspan]
  have hstop : element.span.stop = extent before + extent own := by rw [hspan]
  constructor
  · omega
  · change _ ≤ extent (before ++ own ++ after)
    rw [extent_append, extent_append]
    omega
  · obtain ⟨inside, hsource⟩ := hforms.exists_source
    obtain ⟨document, hparse, hmoved⟩ := hforms.exists_parse hown
    exact ⟨_, inside, document, hslice, hsource, hparse, hstart ▸ hmoved⟩
  · intro node hmem
    rw [hstart, hstop]
    exact hforms.span_inside hown hmem
  · exact hforms.pairwise_span hown
  · intro string span hmem
    obtain ⟨front, piece, back, rfl, rfl, hpiece⟩ := hforms.exists_text hown hmem
    refine ⟨piece.source, ?_, ?_⟩
    · have htext := Span.delimits_stretch (before ++ front) [piece] (back ++ after)
      simpa using htext
    · rcases hpiece with ⟨raw, rfl, hread⟩ | rfl
      · exact .inl hread
      · exact .inr (Piece.source_section string.toList)

/-- Every element of a document that has no mark before it is where its span says, and so are the
nodes in it. -/
theorem delimited_of_parse {source : String} {document : Document}
    (hmark : source.toList.head? ≠ some byteOrderMark) (hparse : parse source = .ok document)
    {element : Element} (hmem : element ∈ document.root.subtree) :
    element.Delimited source.toList := by
  have hdrop := dropMark_eq_self hmark
  have hroot := parseRoot_of_parse hparse
  have hcut := wellCut_of_parseRoot hroot
  obtain ⟨before, own, after, hpieces, -, hforms⟩ := parseRoot_eq_ok_iff.mp hroot
  obtain ⟨front, part, back, rfl, hpart⟩ := hforms.exists_own hmem
  have hwhole : pieces source.toList = before ++ front ++ part ++ (back ++ after) := by
    rw [← hdrop, hpieces]
    simp
  rw [hdrop, hwhole] at hcut
  rw [← extent_append] at hpart
  rw [← pieces_source source.toList, hwhole]
  exact hpart.delimited hcut

/-- Characters of several bytes, a `>` in a value, a comment and a section. -/
def placedSource : String := "<?xml version='1.0'?>\n<p k='>é'>é&lt;<!-- > --><b a='1'/><![CDATA[<]]></p>\n"

theorem delimited_placedSource :
    placedSource.toList.head? ≠ some byteOrderMark ∧
      ∃ document, parse placedSource = .ok document ∧
        document.root.subtree.map (fun inner => (inner.name, inner.span)) =
          [("p", ⟨22, 76⟩), ("b", ⟨49, 59⟩)] ∧
        ∀ element ∈ document.root.subtree, element.Delimited placedSource.toList := by
  have hmark : placedSource.toList.head? ≠ some byteOrderMark := by decide +kernel
  have hread : (parse placedSource).toOption.map
      (fun document => document.root.subtree.map fun inner => (inner.name, inner.span)) =
        some [("p", ⟨22, 76⟩), ("b", ⟨49, 59⟩)] := by
    decide +kernel
  obtain ⟨document, hdocument, hspans⟩ := Option.map_eq_some_iff.mp hread
  have hparse : parse placedSource = .ok document := toOption_eq_some_iff.mp hdocument
  exact ⟨hmark, document, hparse, hspans, fun _ hmem => delimited_of_parse hmark hparse hmem⟩

end CompatChanges.Xml
