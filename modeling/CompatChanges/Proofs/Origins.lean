import CompatChanges.Proofs.Accepted
import CompatChanges.Proofs.Commit
import CompatChanges.Proofs.Lines
import CompatChanges.Text.Utf8.Lemmas

/-!
# Where changes come from

Each change of a fragment is a child of the root, with the line on which it starts. Which children
there are can be told from the tags alone: one starts wherever a tag opens an element while exactly
one is open, whatever else stands in the root.
-/

namespace CompatChanges

namespace Xml

open Text

/-! ### Tags of children -/

/-- The bytes at which an element starts while exactly one other is open, when elements with the names
`opened` are open at byte `offset`. -/
def childStarts (opened : List (List Char)) (offset : Nat) : List Piece → List Nat
  | [] => []
  | piece :: rest =>
    match piece.item with
    | .error _ => []
    | .ok item =>
      (if opened.length = 1 ∧ item.opens = true then [offset] else []) ++
        childStarts (item.namesAfter opened) (offset + piece.size) rest

/-- What a stretch that forms the element has of the starts. -/
def Element.startsUnder (opened : List (List Char)) (element : Element) : List Nat :=
  match opened with
  | [] => element.children.map (·.span.start)
  | [_] => [element.span.start]
  | _ :: _ :: _ => []

variable {start : Nat} {own pieces : List Piece} {nodes : List Node} {element : Element}

theorem childStarts_cons {piece : Piece} {item : Item} (hitem : piece.item = .ok item)
    (opened : List (List Char)) (offset : Nat) (rest : List Piece) :
    childStarts opened offset (piece :: rest) =
      (if opened.length = 1 ∧ item.opens = true then [offset] else []) ++
        childStarts (item.namesAfter opened) (offset + piece.size) rest := by
  rw [childStarts, hitem]

theorem Item.level_of_isSilent (item : Item) (hsilent : item.IsSilent) (opened : List (List Char)) :
    item.opens = false ∧ item.namesAfter opened = opened := by
  cases item with
  | declaration | instruction | comment | doctype => exact ⟨rfl, rfl⟩
  | text | cdata | startTag | emptyTag | endTag => exact hsilent.elim

theorem Item.level_of_chars? (item : Item) {chars : List Char} (hchars : item.chars? = some chars)
    (opened : List (List Char)) : item.opens = false ∧ item.namesAfter opened = opened := by
  cases item with
  | text | cdata => exact ⟨rfl, rfl⟩
  | startTag | emptyTag | endTag | declaration | instruction | comment | doctype => cases hchars

/-- An item that neither opens nor closes an element has no part in the starts. -/
theorem childStarts_of_level {piece : Piece} {item : Item} (hitem : piece.item = .ok item)
    {opened : List (List Char)} (hlevel : item.opens = false ∧ item.namesAfter opened = opened)
    (offset : Nat) (rest : List Piece) :
    childStarts opened offset (piece :: rest) = childStarts opened (offset + piece.size) rest := by
  obtain ⟨hopens, hnames⟩ := hlevel
  rw [childStarts_cons hitem, if_neg (by simp [hopens]), List.nil_append, hnames]

/-- An element and what stands in it leave open what was open before, so that a stretch has the same
starts whatever comes after it. -/
def HasStarts (start : Nat) (own : List Piece) (element : Element) : Prop :=
  ∀ opened rest, childStarts opened start (own ++ rest) =
    element.startsUnder opened ++ childStarts opened (start + extent own) rest

theorem Row.childStarts_append (hrow : Row HasStarts start pieces nodes) (opened : List (List Char))
    (rest : List Piece) :
    childStarts opened start (pieces ++ rest) =
      (nodes.filterMap Node.element?).flatMap (Element.startsUnder opened) ++
        childStarts opened (start + extent pieces) rest := by
  induction hrow with
  | nil => rfl
  | @silent start piece item others nodes item_eq silent tail ih =>
    rw [List.cons_append, childStarts_of_level item_eq (item.level_of_isSilent silent opened), ih,
      extent_cons, Nat.add_assoc]
  | @text start piece item chars others nodes item_eq chars_eq tail ih =>
    rw [List.cons_append, childStarts_of_level item_eq (item.level_of_chars? chars_eq opened), ih,
      extent_cons, Nat.add_assoc]
    rfl
  | @element start own others element nodes head tail ih =>
    rw [List.append_assoc, head, ih, extent_append, Nat.add_assoc, ← List.append_assoc]
    rfl

theorem Element.startsUnder_mk (opened : List (List Char)) (name : List Char)
    (attributes : List Attribute) (content : Content) (span : Span) :
    (Element.mk (String.ofList name) attributes content span).startsUnder opened =
      (if opened.length = 1 then [span.start] else []) ++
        content.children.flatMap (startsUnder (name :: opened)) := by
  match opened with
  | [] => exact (List.flatMap_singleton' _).symm.trans (List.flatMap_map ..)
  | [_] => simp [startsUnder]
  | _ :: _ :: _ => simp [startsUnder]

theorem Forms.hasStarts (hforms : Forms start own element) : HasStarts start own element := by
  induction hforms using Forms.treeInduction with
  | @emptyTag start piece content attributes item_eq attributes_eq =>
    intro opened rest
    rw [Element.startsUnder_mk, List.singleton_append, childStarts_cons item_eq]
    simp [Item.opens, Item.namesAfter, Content.children, Content.nodes]
  | @tags start first last content attributes inside children first_eq attributes_eq row last_eq ih =>
    intro opened rest
    have hinside := (row.mono ih).childStarts_append (tagName content :: opened) (last :: rest)
    have hlast : childStarts (tagName content :: opened) (start + first.size + extent inside)
        (last :: rest) = childStarts opened (start + extent (first :: (inside ++ [last]))) rest := by
      rw [childStarts_cons last_eq]
      simp [Item.opens, Item.namesAfter, Nat.add_assoc]
    rw [Element.startsUnder_mk, Content.children_ofNodes, List.cons_append, List.append_assoc,
      List.singleton_append, childStarts_cons first_eq, Item.namesAfter, hinside, hlast,
      List.append_assoc]
    simp [Item.opens]

theorem childStarts_of_isOutside (houtside : ∀ piece ∈ pieces, piece.IsOutside) (offset : Nat)
    (rest : List Piece) :
    childStarts [] offset (pieces ++ rest) = childStarts [] (offset + extent pieces) rest := by
  induction pieces generalizing offset with
  | nil => rfl
  | cons piece others ih =>
    obtain ⟨⟨item, hitem, hout⟩, hothers⟩ := List.forall_mem_cons.mp houtside
    have hpiece : childStarts [] offset (piece :: (others ++ rest)) =
        childStarts [] (offset + piece.size) (others ++ rest) := by
      rcases hout with hsilent | ⟨raw, chars, rfl, hread, -⟩
      · exact childStarts_of_level hitem (item.level_of_isSilent hsilent []) ..
      · exact childStarts_of_level hitem ⟨rfl, rfl⟩ ..
    rw [List.cons_append, hpiece, ih hothers, extent_cons, Nat.add_assoc]

/-- The children of the root start at the tags that open an element while exactly one is open. -/
theorem childStarts_of_parseRoot {source : List Char} {root : Element}
    (hroot : parseRoot source = .ok root) :
    childStarts [] 0 (CompatChanges.Xml.pieces (dropMark source)) =
      root.children.map (·.span.start) := by
  obtain ⟨before, own, after, hpieces, houtside, hforms⟩ := parseRoot_eq_ok_iff.mp hroot
  have hbefore : ∀ piece ∈ before, piece.IsOutside := fun piece hmem =>
    houtside piece (List.mem_append_left _ hmem)
  have hafter : ∀ piece ∈ after, piece.IsOutside := fun piece hmem =>
    houtside piece (List.mem_append_right _ hmem)
  have hnone := childStarts_of_isOutside hafter (extent before + extent own) []
  rw [List.append_nil] at hnone
  rw [hpieces, childStarts_of_isOutside hbefore, Nat.zero_add, hforms.hasStarts, hnone]
  exact List.append_nil _

/-- The nodes of an element that are elements are its children. -/
theorem Element.filter_isElement_nodes (element : Element) :
    element.content.nodes.filter Node.isElement = element.children.map .element :=
  filter_isElement element.content.nodes

end Xml

namespace Merger

open Xml Text

variable {σ : Type} [ByteSink σ]

/-- Once the changes of a fragment are accepted, only reporting conflicts can fail. -/
theorem exists_report_of_accept {merger : Merger σ} {bytes : List UInt8} {label : String}
    {changes : List Change} (haccept : accept merger.options bytes label = .ok changes)
    {error : MergeError} (herror : (merger.mergeBytes bytes label).2 = .error error) :
    ∃ fault, error = .report fault := by
  rw [mergeBytes_of_ok haccept, take_outcome] at herror
  cases hwritten : (ByteSink.writeAndFlush merger.reports (merger.reportChunks changes)).2 with
  | ok _ =>
    rw [hwritten] at herror
    cases herror
  | error fault =>
    rw [hwritten] at herror
    cases herror
    exact ⟨fault, rfl⟩

/-- A fragment that is not refused adds one change for each child of the root, in order. Each has the
label of the fragment, and the line on which it stands in the text after a byte order mark. The call
may still fail to report conflicts. -/
theorem mergeBytes_origins (merger : Merger σ) {bytes : List UInt8} {label : String}
    {chars : List Char} (hdecode : Utf8.decode bytes = .ok chars)
    (hmark : (dropMark chars).head? ≠ some byteOrderMark)
    (hcommits : ∀ error, (merger.mergeBytes bytes label).2 = .error error →
      ∃ fault, error = .report fault) :
    let text := dropMark chars
    ∃ document fresh, parseChars text = .ok document ∧
      (merger.mergeBytes bytes label).1.changes = merger.changes ++ fresh ∧
      fresh.length = document.root.children.length ∧
      fresh.map (fun change => .element change.element) =
        document.root.content.nodes.filter Node.isElement ∧
      fresh.map (·.element.span.start) = childStarts [] 0 (pieces text) ∧
      ∀ change ∈ fresh, ∃ before own after inside alone,
        text = before ++ own ++ after ∧
          change.element.span = ⟨Utf8.size before, Utf8.size (before ++ own)⟩ ∧
          own = '<' :: (change.element.name.toList ++ inside ++ ['>']) ∧
          parseChars own = .ok alone ∧
          alone.root.moved change.element.span.start = change.element ∧
          change.origin = ⟨label, 1 + before.count '\n'⟩ := by
  intro text
  obtain ⟨document, hparse, hchanges⟩ : ∃ document, parseBytes bytes = .ok document ∧
      (merger.mergeBytes bytes label).1.changes = merger.changes ++ changesOf document label := by
    cases haccept : accept merger.options bytes label with
    | error error =>
      -- An error of the sink comes only after the fragment was accepted.
      rw [mergeBytes_of_error haccept] at hcommits
      obtain ⟨fault, rfl⟩ := hcommits error rfl
      have hrefusal : Refusal merger.options ⟨bytes, false⟩ label (.report fault) :=
        refusal_of_accept rfl haccept
      exact hrefusal.elim
    | ok changes =>
      obtain ⟨document, hparse, rfl⟩ := readChanges_eq_ok (accept_eq_ok_iff.mp haccept).1
      exact ⟨document, hparse, by rw [mergeBytes_of_ok haccept, take_changes]⟩
  have htext : parseChars text = .ok document := by
    rwa [parseBytes, hdecode] at hparse
  have hsource : parse (String.ofList text) = .ok document := by
    rwa [parse, String.toList_ofList]
  have hroot : parseRoot text = .ok document.root := by
    have hparsed := parseRoot_of_parse hsource
    rwa [String.toList_ofList] at hparsed
  have hstarts := childStarts_of_parseRoot hroot
  rw [dropMark_eq_self hmark] at hstarts
  refine ⟨document, changesOf document label, htext, hchanges, ?_, ?_, ?_, ?_⟩
  · rw [changesOf_eq_map, List.length_map]
  · rw [Element.filter_isElement_nodes, changesOf_eq_map, List.map_map]
    rfl
  · rw [hstarts, changesOf_eq_map, List.map_map]
    rfl
  · intro change hmem
    obtain ⟨child, hchild, rfl⟩ := mem_changesOf.mp hmem
    have hinner : child ∈ document.root.subtree :=
      Element.mem_subtree_of_child (Content.mem_children.mp hchild) child.self_mem_subtree
    have hplain : (String.ofList text).toList.head? ≠ some byteOrderMark := by
      rwa [String.toList_ofList]
    obtain ⟨own, inside, alone, ⟨before, after, hsplit, hstart, hstop⟩, hown, halone, hmoved⟩ :=
      (delimited_of_parse hplain hsource hinner).slice
    have hline := lineOf_of_start hsource (List.append_assoc before own after ▸ hsplit) hstart
    rw [String.toList_ofList] at hsplit
    rw [parse, String.toList_ofList] at halone
    refine ⟨before, own, after, inside, alone, hsplit, ?_, hown, halone, hmoved, ?_⟩
    · rw [← hstart, ← hstop]
    · rw [hline, Nat.add_comm]

/-- After a mark, a comment over two lines and text beside elements; the last element is no child of
the root, and an id is shared. -/
def scatteredSource : String :=
  "\ufeff<!--\n-->\n<r>é\n<a id='1' name='A'/>\n<b id='1' name='B'>\n<c/></b></r>"

def scatteredBytes : List UInt8 := Utf8.encode scatteredSource.toList

/-- A merger with a sink that cannot hold the report. -/
def narrowMerger : Merger := new ⟨true, .compact⟩ (Sink.limited 10 false)

theorem mergeBytes_origins_scattered :
    Utf8.decode scatteredBytes = .ok scatteredSource.toList ∧
      (dropMark scatteredSource.toList).head? ≠ some byteOrderMark ∧
      (∀ error, (narrowMerger.mergeBytes scatteredBytes "x.xml").2 = .error error →
        ∃ fault, error = .report fault) ∧
      (narrowMerger.mergeBytes scatteredBytes "x.xml").1.changes.map
          (fun change => (change.element.name, change.element.span, change.origin)) =
        [("a", ⟨15, 35⟩, ⟨"x.xml", 4⟩), ("b", ⟨36, 64⟩, ⟨"x.xml", 5⟩)] ∧
      (narrowMerger.mergeBytes scatteredBytes "x.xml").1.changes.map (·.element.span.start) =
        childStarts [] 0 (pieces (dropMark scatteredSource.toList)) := by
  have hdecode : Utf8.decode scatteredBytes = .ok scatteredSource.toList := by
    rw [scatteredBytes, Utf8.decode_encode]
  have hmark : (dropMark scatteredSource.toList).head? ≠ some byteOrderMark := by decide +kernel
  have hread : (accept narrowMerger.options scatteredBytes "x.xml").toOption.map
      (List.map fun change => (change.element.name, change.element.span, change.origin)) =
        some [("a", ⟨15, 35⟩, ⟨"x.xml", 4⟩), ("b", ⟨36, 64⟩, ⟨"x.xml", 5⟩)] := by
    decide +kernel
  obtain ⟨changes, hchanges, hplaces⟩ := Option.map_eq_some_iff.mp hread
  have haccept : accept narrowMerger.options scatteredBytes "x.xml" = .ok changes :=
    toOption_eq_some_iff.mp hchanges
  have hcommits : ∀ error, (narrowMerger.mergeBytes scatteredBytes "x.xml").2 = .error error →
      ∃ fault, error = .report fault :=
    fun error herror => exists_report_of_accept haccept herror
  have htaken : (narrowMerger.mergeBytes scatteredBytes "x.xml").1.changes = changes := by
    rw [mergeBytes_of_ok haccept, take_changes]
    exact List.nil_append _
  obtain ⟨document, fresh, -, hmerged, -, -, hstarts, -⟩ :=
    narrowMerger.mergeBytes_origins hdecode hmark hcommits
  have hfresh : (narrowMerger.mergeBytes scatteredBytes "x.xml").1.changes = fresh :=
    hmerged.trans (List.nil_append _)
  refine ⟨hdecode, hmark, hcommits, ?_, ?_⟩
  · rw [htaken, hplaces]
  · rw [hfresh, hstarts]

end Merger

end CompatChanges
