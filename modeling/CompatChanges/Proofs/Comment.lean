import CompatChanges.Proofs.AttributeSearch
import CompatChanges.Proofs.Lines

/-!
# Comments

A comment that is put between two pieces of a source is one more piece, and nothing of it comes into
the tree. What comes after it stands further to the right: a reader that goes on behind the comment does
what it did before, with all spans moved by as many bytes as the comment has. Spans of what was read in
front of it stay, and an element that is open there only ends later.
-/

namespace CompatChanges.Xml

open Text

/-! ### Spans with a gap -/

/-- The span when `size` bytes are put in at byte `place`. -/
def Span.shifted (place size : Nat) (span : Span) : Span :=
  if span.stop ≤ place then span
  else if place ≤ span.start then span.moved size
  else ⟨span.start, span.stop + size⟩

theorem Span.shifted_of_le {place : Nat} {span : Span} (hle : place ≤ span.start)
    (hpos : span.start < span.stop) (size : Nat) : span.shifted place size = span.moved size := by
  rw [shifted, if_neg (by omega), if_pos hle]

theorem Span.start_shifted_of_lt {place : Nat} {span : Span} (hlt : span.start < place) (size : Nat) :
    (span.shifted place size).start = span.start := by
  rw [shifted, if_neg (Nat.not_le.mpr hlt)]
  split <;> rfl

/-- Where something that starts at byte `start` starts when `size` bytes are put in at byte `place`. -/
def shiftedStart (place size start : Nat) : Nat := if start < place then start else start + size

/-- The bytes from `start` to `stop` are in front of the gap, or they are behind it and are moved by
as many bytes as it has. -/
def Misses (place size start stop offset : Nat) : Prop :=
  offset = 0 ∧ stop ≤ place ∨ offset = size ∧ place ≤ start

section

variable {place size start stop offset : Nat}

/-- A span in the bytes. It may be empty, but not at their start, where it would be on both sides. -/
theorem Misses.shifted_eq (hmisses : Misses place size start stop offset) {span : Span}
    (hlow : start ≤ span.start) (hpos : start < span.stop) (hhigh : span.stop ≤ stop) :
    span.shifted place size = span.moved offset := by
  unfold Span.shifted
  rcases hmisses with ⟨rfl, hfront⟩ | ⟨rfl, hback⟩
  · rw [if_pos (by omega)]
    rfl
  · rw [if_neg (by omega), if_pos (by omega)]

theorem Misses.shifted_self {span : Span}
    (hmisses : Misses place size span.start span.stop offset) (hpos : span.start < span.stop) :
    span.shifted place size = span.moved offset :=
  hmisses.shifted_eq (Nat.le_refl _) hpos (Nat.le_refl _)

theorem Misses.shiftedStart_eq (hmisses : Misses place size start stop offset) (hpos : start < stop) :
    shiftedStart place size start = start + offset := by
  unfold shiftedStart
  rcases hmisses with ⟨rfl, hfront⟩ | ⟨rfl, hback⟩
  · rw [if_pos (by omega), Nat.add_zero]
  · rw [if_neg (by omega)]

/-- What starts anywhere and stops where the bytes do. -/
theorem Misses.shifted_mk (hmisses : Misses place size start stop offset) (hpos : start < stop)
    {sooner : Nat} (hsooner : sooner < stop) :
    Span.shifted place size ⟨sooner, stop⟩ = ⟨shiftedStart place size sooner, stop + offset⟩ := by
  unfold Span.shifted shiftedStart
  rcases hmisses with ⟨rfl, hfront⟩ | ⟨rfl, hback⟩
  · rw [if_pos hfront, if_pos (Nat.lt_of_lt_of_le hsooner hfront)]
    rfl
  · rw [if_neg (Nat.not_le.mpr (Nat.lt_of_le_of_lt hback hpos))]
    dsimp only
    split
    · rw [if_neg (by omega)]
      rfl
    · rw [if_pos (by omega)]

theorem Misses.of_le (hmisses : Misses place size start stop offset) {first last : Nat}
    (hfirst : start ≤ first) (hlast : last ≤ stop) : Misses place size first last offset := by
  rcases hmisses with ⟨rfl, hfront⟩ | ⟨rfl, hback⟩
  · exact .inl ⟨rfl, by omega⟩
  · exact .inr ⟨rfl, by omega⟩

end

/-! ### Reading with a gap -/

/-- The content of a tag is in the tag, after its `<`. -/
def Item.IsWithin (span : Span) : Item → Prop
  | .startTag content | .emptyTag content => span.start + 1 + Utf8.size content ≤ span.stop
  | _ => True

theorem Piece.isWithin {piece : Piece} {item : Item} (hitem : piece.item = .ok item) (start : Nat) :
    item.IsWithin ⟨start, start + piece.size⟩ := by
  have htag {content : List Char}
      (htag : piece.item = .ok (.startTag content) ∨ piece.item = .ok (.emptyTag content)) :
      1 + Utf8.size content ≤ piece.size := by
    obtain ⟨closer, hsource, -⟩ := exists_closer_of_tag htag
    have hopen : '<'.utf8Size = 1 := rfl
    rw [Piece.size, hsource, Utf8.size_cons, Utf8.size_append, hopen]
    omega
  cases item with
  | startTag content =>
    have hsize := htag (.inl hitem)
    change start + 1 + Utf8.size content ≤ start + piece.size
    omega
  | emptyTag content =>
    have hsize := htag (.inr hitem)
    change start + 1 + Utf8.size content ≤ start + piece.size
    omega
  | text | cdata | endTag | declaration | instruction | comment | doctype => trivial

section

variable (place size : Nat)

def OpenElement.shifted (element : OpenElement) : OpenElement where
  name := element.name
  attributes := element.attributes.map (Attribute.mapSpan (Span.shifted place size))
  start := shiftedStart place size element.start
  children := element.children.map (Node.mapSpans (Span.shifted place size))

def Assembly.shifted (assembly : Assembly) : Assembly where
  pending := assembly.pending.map (OpenElement.shifted place size)
  root := assembly.root.map (Element.mapSpans (Span.shifted place size))

end

section

variable {place size offset : Nat}

/-- The attributes of a tag from `span.start` to `span.stop`, which is not across the gap. -/
theorem readAttributes_shifted {span : Span} (hmisses : Misses place size span.start span.stop offset)
    {content : List Char} (hfits : span.start + 1 + Utf8.size content ≤ span.stop)
    {attributes : List Attribute} (hread : readAttributes content (span.start + 1) = .ok attributes) :
    readAttributes content ((span.moved offset).start + 1) =
      .ok (attributes.map (Attribute.mapSpan (Span.shifted place size))) := by
  have hmoved : (span.moved offset).start + 1 = span.start + 1 + offset := Nat.add_right_comm ..
  have hshifted : attributes.map (Attribute.mapSpan (Span.shifted place size)) =
      attributes.map (Attribute.mapSpan (Span.moved offset)) := by
    apply List.map_congr_left
    intro a hmem
    obtain ⟨hlow, hle, hhigh⟩ := bounds_of_readAttributes hread hmem
    rw [Attribute.mapSpan, Attribute.mapSpan,
      hmisses.shifted_eq (by omega) (by omega) (by omega)]
  rw [hshifted, hmoved, readAttributes_moved, hread]
  rfl

theorem OpenElement.shifted_close {span : Span}
    (hmisses : Misses place size span.start span.stop offset) (hpos : span.start < span.stop)
    {element : OpenElement} (hstart : element.start < span.stop) :
    (element.close span.stop).mapSpans (Span.shifted place size) =
      (element.shifted place size).close (span.stop + offset) := by
  rw [close, Element.mapSpans, hmisses.shifted_mk hpos hstart, ← Content.ofNodes_map_mapSpans,
    List.map_reverse]
  rfl

/-- Open elements start before what comes next. -/
theorem Makes.start_lt {done : List Piece} {assembly : Assembly} (hmakes : Makes done assembly)
    (hwhole : ∀ piece ∈ done, piece.IsWhole) {element : OpenElement}
    (hmem : element ∈ assembly.pending) : element.start < extent done := by
  induction hmakes with
  | before | after => cases hmem
  | @inside done inside first content attributes children outer root makes first_eq attributes_eq row ih =>
    have hfirst := Piece.size_pos (hwhole first (by simp))
    rw [extent_append, extent_cons]
    rcases List.mem_cons.mp hmem with rfl | houter
    · dsimp only
      omega
    · have := ih (fun piece hpiece => hwhole piece (List.mem_append_left _ hpiece)) houter
      omega

namespace Assembly

variable {assembly next : Assembly}

theorem complete_shifted (place size : Nat) {element : Element}
    (hnext : assembly.complete element = .ok next) :
    (assembly.shifted place size).complete (element.mapSpans (Span.shifted place size)) =
      .ok (next.shifted place size) := by
  obtain ⟨pending, root⟩ := assembly
  cases pending with
  | cons parent outer =>
    cases hnext
    rfl
  | nil =>
    cases root with
    | some root => cases hnext
    | none =>
      cases hnext
      rfl

section

variable {span : Span} (hmisses : Misses place size span.start span.stop offset)
  (hpos : span.start < span.stop)

include hmisses hpos

theorem openTag_shifted {content : List Char}
    (hfits : span.start + 1 + Utf8.size content ≤ span.stop)
    (hnext : assembly.openTag content span = .ok next) :
    (assembly.shifted place size).openTag content (span.moved offset) =
      .ok (next.shifted place size) := by
  rw [openTag] at hnext
  split at hnext
  · cases hnext
  · next attributes hread =>
    cases hnext
    have hstart : shiftedStart place size span.start = (span.moved offset).start :=
      hmisses.shiftedStart_eq hpos
    rw [openTag, readAttributes_shifted hmisses hfits hread, ← hstart]
    rfl

theorem emptyTag_shifted {content : List Char}
    (hfits : span.start + 1 + Utf8.size content ≤ span.stop)
    (hnext : assembly.emptyTag content span = .ok next) :
    (assembly.shifted place size).emptyTag content (span.moved offset) =
      .ok (next.shifted place size) := by
  rw [emptyTag] at hnext
  split at hnext
  · cases hnext
  · next attributes hread =>
    rw [emptyTag, readAttributes_shifted hmisses hfits hread, ← hmisses.shifted_self hpos]
    exact complete_shifted place size hnext

theorem closeTag_shifted {name : List Char}
    (hstarts : ∀ element ∈ assembly.pending, element.start < span.stop)
    (hnext : assembly.closeTag name span = .ok next) :
    (assembly.shifted place size).closeTag name (span.moved offset) =
      .ok (next.shifted place size) := by
  obtain ⟨pending, root⟩ := assembly
  cases pending with
  | nil => cases hnext
  | cons element outer =>
    rw [closeTag] at hnext
    dsimp only at hnext
    split at hnext
    · next hname =>
      have hclosed := complete_shifted place size hnext
      rw [OpenElement.shifted_close hmisses hpos (hstarts element List.mem_cons_self)] at hclosed
      exact (if_pos hname).trans hclosed
    · cases hnext

theorem addText_shifted {raw : List Char} (hnext : assembly.addText raw span = .ok next) :
    (assembly.shifted place size).addText raw (span.moved offset) = .ok (next.shifted place size) := by
  obtain ⟨pending, root⟩ := assembly
  rw [addText] at hnext ⊢
  cases hread : unescape raw with
  | error fault =>
    rw [hread] at hnext
    cases hnext
  | ok chars =>
    rw [hread] at hnext
    cases pending with
    | nil =>
      dsimp only at hnext
      split at hnext
      · next hblank =>
        cases hnext
        exact if_pos hblank
      · cases hnext
    | cons element outer =>
      cases hnext
      rw [← hmisses.shifted_self hpos]
      rfl

theorem addCdata_shifted {chars : List Char} (hnext : assembly.addCdata chars span = .ok next) :
    (assembly.shifted place size).addCdata chars (span.moved offset) =
      .ok (next.shifted place size) := by
  obtain ⟨pending, root⟩ := assembly
  cases pending with
  | nil => cases hnext
  | cons element outer =>
    cases hnext
    rw [← hmisses.shifted_self hpos]
    rfl

theorem addItem_shifted {item : Item} (hwithin : item.IsWithin span)
    (hstarts : ∀ element ∈ assembly.pending, element.start < span.stop)
    (hnext : assembly.addItem span item = .ok next) :
    (assembly.shifted place size).addItem (span.moved offset) item =
      .ok (next.shifted place size) := by
  cases item with
  | text raw => exact addText_shifted hmisses hpos hnext
  | cdata chars => exact addCdata_shifted hmisses hpos hnext
  | startTag content => exact openTag_shifted hmisses hpos hwithin hnext
  | emptyTag content => exact emptyTag_shifted hmisses hpos hwithin hnext
  | endTag name => exact closeTag_shifted hmisses hpos hstarts hnext
  | declaration content =>
    rw [addItem] at hnext ⊢
    obtain ⟨_, hcheck, rfl⟩ := exists_of_map_eq_ok hnext
    rw [hcheck]
    rfl
  | instruction | comment | doctype =>
    cases hnext
    rfl

end

theorem addPiece_shifted {piece : Piece} (hwhole : piece.IsWhole) {start : Nat}
    (hmisses : Misses place size start (start + piece.size) offset)
    (hstarts : ∀ element ∈ assembly.pending, element.start < start + piece.size)
    (hnext : assembly.addPiece ⟨start, start + piece.size⟩ piece = .ok next) :
    (assembly.shifted place size).addPiece ⟨start + offset, start + offset + piece.size⟩ piece =
      .ok (next.shifted place size) := by
  have hpos : start < start + piece.size := Nat.lt_add_of_pos_right (Piece.size_pos hwhole)
  rw [addPiece] at hnext ⊢
  split at hnext
  · cases hnext
  · next item hitem =>
    rw [Nat.add_right_comm]
    exact addItem_shifted hmisses hpos (Piece.isWithin hitem start) hstarts hnext

/-- A reader with a gap in front of it, or behind it, does the same with other spans. -/
theorem addPieces_shifted {done rest : List Piece} {last : Assembly}
    (hwhole : ∀ piece ∈ done ++ rest, piece.IsWhole) (hmakes : Makes done assembly)
    (hmisses : Misses place size (extent done) (extent done + extent rest) offset)
    (hlast : assembly.addPieces (extent done) rest = .ok last) :
    (assembly.shifted place size).addPieces (extent done + offset) rest =
      .ok (last.shifted place size) := by
  induction rest generalizing done assembly with
  | nil =>
    cases hlast
    rfl
  | cons piece rest ih =>
    have hpiece : piece.IsWhole := hwhole piece (by simp)
    have hpos := Piece.size_pos hpiece
    have hstarts : ∀ element ∈ assembly.pending, element.start < extent done + piece.size := by
      intro element hmem
      have hstart := hmakes.start_lt (fun first hfirst => hwhole first (by simp [hfirst])) hmem
      omega
    rw [extent_cons] at hmisses
    rw [addPieces] at hlast ⊢
    split at hlast
    · cases hlast
    · next reached hreached =>
      have hown : Misses place size (extent done) (extent done + piece.size) offset :=
        hmisses.of_le (Nat.le_refl _) (by omega)
      have hstop : extent done + piece.size = extent (done ++ [piece]) := by simp
      rw [addPiece_shifted hpiece hown hstarts hreached, Nat.add_right_comm, hstop]
      rw [hstop] at hlast
      refine ih (by simpa using hwhole) (hmakes.addPiece hreached) (hmisses.of_le ?_ ?_) hlast
      · omega
      · omega

theorem finish_shifted (place size : Nat) {root : Element} (hfinish : assembly.finish = .ok root) :
    (assembly.shifted place size).finish = .ok (root.mapSpans (Span.shifted place size)) := by
  obtain ⟨pending, found⟩ := assembly
  cases pending with
  | cons element outer => cases hfinish
  | nil =>
    cases found with
    | none => cases hfinish
    | some found =>
      cases hfinish
      rfl

end Assembly

end

/-! ### A silent piece more -/

theorem WellCut.insert {before after : List Piece} (hcut : WellCut (before ++ after)) {piece : Piece}
    (hwhole : piece.IsWhole) (htext : piece.isText = false) :
    WellCut (before ++ piece :: after) where
  whole other hmem := by
    rcases List.mem_append.mp hmem with hbefore | hrest
    · exact hcut.whole other (List.mem_append_left _ hbefore)
    · rcases List.mem_cons.mp hrest with rfl | hafter
      · exact hwhole
      · exact hcut.whole other (List.mem_append_right _ hafter)
  apart := by
    obtain ⟨hbefore, hafter, -⟩ := List.isChain_append.mp hcut.apart
    refine List.isChain_append.mpr ⟨hbefore, List.isChain_cons.mpr ⟨?_, hafter⟩, ?_⟩
    · intro next _ hpiece
      rw [htext] at hpiece
      cases hpiece
    · intro last _ next hnext _
      cases hnext
      exact htext

/-- What was read in front of the gap stays as it is. -/
theorem Assembly.shifted_eq_self {before : List Piece} (hwhole : ∀ piece ∈ before, piece.IsWhole)
    {reached : Assembly} (hreached : empty.addPieces 0 before = .ok reached) (size : Nat) :
    reached.shifted (extent before) size = reached := by
  have hmisses : Misses (extent before) size (extent []) (extent [] + extent before) 0 :=
    .inl ⟨rfl, by simp⟩
  -- In front of the gap nothing is moved, so that the same pieces lead to both assemblies.
  have hshifted := addPieces_shifted hwhole (.before (List.forall_mem_nil _)) hmisses hreached
  have hsame : empty.addPieces 0 before = .ok (reached.shifted (extent before) size) := hshifted
  rw [hreached] at hsame
  exact (Except.ok.inj hsame).symm

theorem Assembly.addPieces_insert {before after : List Piece}
    (hwhole : ∀ piece ∈ before ++ after, piece.IsWhole) {last : Assembly}
    (hlast : empty.addPieces 0 (before ++ after) = .ok last) {piece : Piece} {item : Item}
    (hitem : piece.item = .ok item) (hsilent : item.IsSilent) :
    empty.addPieces 0 (before ++ piece :: after) =
      .ok (last.shifted (extent before) piece.size) := by
  rw [addPieces_append, Nat.zero_add] at hlast ⊢
  cases hreached : empty.addPieces 0 before with
  | error error =>
    rw [hreached] at hlast
    cases hlast
  | ok reached =>
    rw [hreached] at hlast
    have hbefore : ∀ piece ∈ before, piece.IsWhole := fun piece hmem =>
      hwhole piece (List.mem_append_left _ hmem)
    have hmakes : Makes ([] ++ before) reached :=
      Makes.addPieces (.before (List.forall_mem_nil _)) hreached
    have hmisses : Misses (extent before) piece.size (extent before) (extent before + extent after)
        piece.size := .inr ⟨rfl, Nat.le_refl _⟩
    dsimp only [Except.bind] at hlast ⊢
    rw [addPieces_cons_of_item hitem (addItem_of_isSilent hsilent _ _)]
    have hafter := addPieces_shifted hwhole hmakes hmisses hlast
    rwa [shifted_eq_self hbefore hreached] at hafter

/-- A piece of markup that no element has anything of can be put between two pieces. -/
theorem parseRoot_insert {source : List Char} {root : Element} (hroot : parseRoot source = .ok root)
    {before after : List Piece} (hpieces : pieces (dropMark source) = before ++ after) {piece : Piece}
    {item : Item} (hwhole : piece.IsWhole) (htext : piece.isText = false)
    (hitem : piece.item = .ok item) (hsilent : item.IsSilent) {other : List Char}
    (hother : dropMark other = (before ++ piece :: after).flatMap Piece.source) :
    parseRoot other = .ok (root.mapSpans (Span.shifted (extent before) piece.size)) := by
  have hcut := wellCut_of_parseRoot hroot
  rw [hpieces] at hcut
  unfold parseRoot at hroot ⊢
  rw [hpieces] at hroot
  split at hroot
  · cases hroot
  · next last hlast =>
    rw [hother, (hcut.insert hwhole htext).pieces_source,
      Assembly.addPieces_insert hcut.whole hlast hitem hsilent]
    exact Assembly.finish_shifted _ _ hroot

/-! ### A comment more -/

/-- The characters of a comment. -/
def commentSource (comment : List Char) : List Char :=
  "<!--".toList ++ comment ++ "-->".toList

def commentPiece (comment : List Char) : Piece := .markup (commentStart ++ comment ++ ['-', '-'])

theorem source_commentPiece (comment : List Char) :
    (commentPiece comment).source = commentSource comment := by
  have hfirst : "<!--".toList = '<' :: commentStart := by decide
  have hlast : "-->".toList = ['-', '-'] ++ ['>'] := by decide
  rw [commentSource, hfirst, hlast, commentPiece, Piece.source]
  simp only [List.cons_append, List.append_assoc]

theorem item_commentPiece (comment : List Char) : (commentPiece comment).item = .ok .comment := by
  have hprefix : commentStart.isPrefixOf (commentStart ++ comment ++ ['-', '-']) = true := by
    simp [List.append_assoc]
  have hkind : MarkupKind.of? (commentStart ++ comment ++ ['-', '-']) = some .comment := rfl
  rw [commentPiece, Piece.item]
  unfold markupItem
  rw [hkind]
  exact if_pos hprefix

/-- A `c` that is neither in `left` nor in `right` is between them. -/
theorem exists_of_append_eq {left middle right front back : List Char} {c : Char} (hleft : c ∉ left)
    (hright : c ∉ right) (hsame : left ++ (middle ++ right) = front ++ c :: back) :
    ∃ lead tail, front = left ++ lead ∧ middle = lead ++ c :: tail := by
  obtain ⟨lead, rfl, hrest⟩ : ∃ lead, front = left ++ lead ∧ middle ++ right = lead ++ c :: back := by
    rcases List.append_eq_append_iff.mp hsame with ⟨lead, hfront, hrest⟩ | ⟨rest, rfl, hback⟩
    · exact ⟨lead, hfront, hrest⟩
    · cases rest with
      | nil => exact ⟨[], by simp, hback.symm⟩
      | cons d more =>
        obtain ⟨rfl, -⟩ := List.cons.inj hback
        exact absurd (by simp) hleft
  rcases List.append_eq_append_iff.mp hrest with ⟨more, rfl, hmore⟩ | ⟨tail, rfl, hback⟩
  · exact absurd (hmore ▸ by simp) hright
  · cases tail with
    | nil =>
      rw [List.nil_append] at hback
      exact absurd (hback ▸ List.mem_cons_self) hright
    | cons d tail =>
      obtain ⟨rfl, -⟩ := List.cons.inj hback
      exact ⟨lead, tail, rfl, rfl⟩

/-- A comment ends with its last `>` if there is no end of a comment in it. -/
theorem isWhole_commentPiece {comment : List Char} (hcomment : ¬"-->".toList <:+: comment) :
    (commentPiece comment).IsWhole := by
  have hkind (rest : List Char) : MarkupKind.of? (commentStart ++ rest) = some .comment := rfl
  constructor
  · rw [closes, List.append_assoc, hkind]
    have hlength : commentStart.length = 3 := rfl
    simp only [List.length_append, hlength, List.length_cons, List.length_nil, Bool.and_eq_true,
      decide_eq_true_eq, List.isSuffixOf_iff_suffix]
    refine ⟨by omega, ?_⟩
    rw [← List.append_assoc]
    exact List.suffix_append _ _
  · intro front back hfront
    rw [List.append_assoc] at hfront
    obtain ⟨lead, tail, rfl, rfl⟩ := exists_of_append_eq (by decide) (by decide) hfront
    rw [closes, hkind, Bool.and_eq_false_imp, decide_eq_true_eq]
    intro hlong
    have hlead : 2 ≤ lead.length := by
      have hlength : commentStart.length = 3 := rfl
      rw [List.length_append, hlength] at hlong
      omega
    rw [← Bool.not_eq_true, List.isSuffixOf_iff_suffix]
    intro hends
    obtain ⟨inside, rfl⟩ := List.suffix_of_suffix_length_le hends (List.suffix_append _ _) hlead
    exact hcomment ⟨inside, tail, by simp⟩

/-- The pieces of `left` and `right` together are those of `left` and then those of `right`. -/
def IsBoundary (left right : List Char) : Prop :=
  ∃ before after, pieces (left ++ right) = before ++ after ∧ before.flatMap Piece.source = left

theorem head?_insert_ne {left right : List Char} {c mark : Char}
    (hleft : (left ++ right).head? ≠ some mark) (hc : c ≠ mark) (rest : List Char) :
    (left ++ c :: rest).head? ≠ some mark := by
  cases left with
  | nil => simpa using hc
  | cons d more => simpa using hleft

theorem parse_insert_comment {left right comment : List Char} {document : Document}
    (hmark : (left ++ right).head? ≠ some byteOrderMark)
    (hparse : parseChars (left ++ right) = .ok document) (hboundary : IsBoundary left right)
    (hcomment : ¬"-->".toList <:+: comment) :
    ∃ commented, parseChars (left ++ commentSource comment ++ right) = .ok commented ∧
      commented.root = document.root.mapSpans
        (Span.shifted (Utf8.size left) (Utf8.size (commentSource comment))) := by
  obtain ⟨before, after, hpieces, rfl⟩ := hboundary
  obtain ⟨root, hroot, rfl⟩ := exists_of_map_eq_ok hparse
  have hafter : after.flatMap Piece.source = right := by
    have hsource := pieces_source (before.flatMap Piece.source ++ right)
    rw [hpieces, List.flatMap_append] at hsource
    exact List.append_cancel_left hsource
  have hother : dropMark (before.flatMap Piece.source ++ commentSource comment ++ right) =
      (before ++ commentPiece comment :: after).flatMap Piece.source := by
    have hhead : (before.flatMap Piece.source ++ commentSource comment ++ right).head? ≠
        some byteOrderMark := by
      rw [List.append_assoc]
      exact head?_insert_ne hmark (by decide) _
    rw [dropMark_eq_self hhead, ← hafter, ← source_commentPiece]
    simp
  rw [← dropMark_eq_self hmark] at hpieces
  have hinsert := parseRoot_insert hroot hpieces (isWhole_commentPiece hcomment) rfl
    (item_commentPiece comment) trivial hother
  rw [parseChars, hinsert]
  refine ⟨_, rfl, ?_⟩
  rw [← source_commentPiece]
  rfl

section

variable {left right comment : String} {document commented : Document}

/-- The line of what starts in front of the comment. -/
theorem lineOf_shifted_of_lt (hparse : parse (left ++ right) = .ok document)
    (hcommented : parse (left ++ "<!--" ++ comment ++ "-->" ++ right) = .ok commented)
    {before after : List Char} (hsource : (left ++ right).toList = before ++ after) {span other : Span}
    (hstart : span.start = Utf8.size before) (hother : other.start = span.start)
    (hlt : span.start < Utf8.size left.toList) :
    commented.lineOf other = document.lineOf span := by
  rw [String.toList_append] at hsource
  obtain ⟨middle, hleft, -⟩ := Utf8.exists_append_of_size_le hsource.symm (by omega)
  have hplace : (left ++ "<!--" ++ comment ++ "-->" ++ right).toList =
      before ++ (middle ++ (commentSource comment.toList ++ right.toList)) := by
    simp only [String.toList_append, commentSource, hleft, List.append_assoc]
  rw [← String.toList_append] at hsource
  rw [lineOf_of_start hparse hsource hstart, lineOf_of_start hcommented hplace (hother.trans hstart)]

/-- The line of what starts behind the comment. -/
theorem lineOf_moved_of_le (hparse : parse (left ++ right) = .ok document)
    (hcommented : parse (left ++ "<!--" ++ comment ++ "-->" ++ right) = .ok commented)
    {before after : List Char} (hsource : (left ++ right).toList = before ++ after) {span : Span}
    (hstart : span.start = Utf8.size before) (hle : Utf8.size left.toList ≤ span.start) :
    commented.lineOf (span.moved (Utf8.size (commentSource comment.toList))) =
      document.lineOf span + comment.toList.count '\n' := by
  rw [String.toList_append] at hsource
  obtain ⟨middle, hbefore, hright⟩ := Utf8.exists_append_of_size_le hsource (by omega)
  have hplace : (left ++ "<!--" ++ comment ++ "-->" ++ right).toList =
      left.toList ++ commentSource comment.toList ++ middle ++ after := by
    simp only [String.toList_append, commentSource, hright, List.append_assoc]
  have hmoved : (span.moved (Utf8.size (commentSource comment.toList))).start =
      Utf8.size (left.toList ++ commentSource comment.toList ++ middle) := by
    have hsize := congrArg Utf8.size hbefore
    simp only [Utf8.size_append, Span.moved] at hsize ⊢
    omega
  have hcount : (commentSource comment.toList).count '\n' = comment.toList.count '\n' := by
    have hopen : "<!--".toList.count '\n' = 0 := by decide
    have hclose : "-->".toList.count '\n' = 0 := by decide
    rw [commentSource, List.count_append, List.count_append, hopen, hclose, Nat.zero_add, Nat.add_zero]
  rw [← String.toList_append] at hsource
  rw [lineOf_of_start hparse hsource hstart, lineOf_of_start hcommented hplace hmoved, hbefore]
  simp only [List.count_append, hcount]
  omega

end

/-- A comment between two pieces of a source does not show in the tree. The spans of what is in front of
it stay, those of what is behind it are moved by as many bytes as it has, and what is behind it is as
many lines further down as the comment has line feeds. -/
theorem parse_commented {left right comment : String} {document : Document}
    (hmark : (left ++ right).toList.head? ≠ some byteOrderMark)
    (hparse : parse (left ++ right) = .ok document)
    (hboundary : IsBoundary left.toList right.toList)
    (hcomment : ¬"-->".toList <:+: comment.toList) :
    let place := Utf8.size left.toList
    let size := Utf8.size ("<!--" ++ comment ++ "-->").toList
    ∃ commented, parse (left ++ "<!--" ++ comment ++ "-->" ++ right) = .ok commented ∧
      commented.root.bare = document.root.bare ∧
      commented.root = document.root.mapSpans (Span.shifted place size) ∧
      ∀ element ∈ document.root.subtree,
        (element.span.start < place →
          commented.lineOf (element.span.shifted place size) = document.lineOf element.span) ∧
        (place ≤ element.span.start →
          element.span.shifted place size = element.span.moved size ∧
          commented.lineOf (element.span.moved size) =
            document.lineOf element.span + comment.toList.count '\n') := by
  intro place size
  have hsize : size = Utf8.size (commentSource comment.toList) := by
    simp only [size, String.toList_append, commentSource]
  have hchars : parseChars (left.toList ++ right.toList) = .ok document := by
    rwa [← String.toList_append]
  obtain ⟨commented, hparsed, hroot⟩ :=
    parse_insert_comment (by rwa [← String.toList_append]) hchars hboundary hcomment
  have hcommented : parse (left ++ "<!--" ++ comment ++ "-->" ++ right) = .ok commented := by
    rw [parse, ← hparsed]
    simp only [String.toList_append, commentSource, List.append_assoc]
  rw [hsize]
  refine ⟨commented, hcommented, by rw [hroot, Element.bare_mapSpans], hroot, ?_⟩
  intro element hmem
  have hdelimited := delimited_of_parse hmark hparse hmem
  have hpos := hdelimited.start_lt_stop
  obtain ⟨text, -, -, ⟨before, after, hsource, hstart, -⟩, -⟩ := hdelimited.slice
  rw [List.append_assoc] at hsource
  constructor
  · intro hlt
    exact lineOf_shifted_of_lt hparse hcommented hsource hstart (Span.start_shifted_of_lt hlt _) hlt
  · intro hle
    exact ⟨Span.shifted_of_le hle hpos _, lineOf_moved_of_le hparse hcommented hsource hstart hle⟩

/-- A text of which the first two signs could be the end of a comment, next to a text and a section. -/
def notedLeft : String := "<?xml version='1.0'?>\n<p>é"

def notedRight : String := "<![CDATA[b]]><q\nk='1'/></p>"

def notedComment : String := "->\n--\n<q>"

theorem parse_commented_noted :
    (notedLeft ++ notedRight).toList.head? ≠ some byteOrderMark ∧
      IsBoundary notedLeft.toList notedRight.toList ∧
      ¬"-->".toList <:+: notedComment.toList ∧
      ∃ document commented, parse (notedLeft ++ notedRight) = .ok document ∧
        parse (notedLeft ++ "<!--" ++ notedComment ++ "-->" ++ notedRight) = .ok commented ∧
        commented.root.bare = document.root.bare ∧
        document.root.subtree.map
            (fun inner => (inner.name, inner.span, document.lineOf inner.span)) =
          [("p", ⟨22, 54⟩, 2), ("q", ⟨40, 50⟩, 2)] ∧
        commented.root.subtree.map
            (fun inner => (inner.name, inner.span, commented.lineOf inner.span)) =
          [("p", ⟨22, 70⟩, 2), ("q", ⟨56, 66⟩, 4)] := by
  have hmark : (notedLeft ++ notedRight).toList.head? ≠ some byteOrderMark := by decide +kernel
  have hboundary : IsBoundary notedLeft.toList notedRight.toList := by
    refine ⟨(pieces (notedLeft.toList ++ notedRight.toList)).take 4, _,
      (List.take_append_drop 4 _).symm, ?_⟩
    decide +kernel
  have hcomment : ¬"-->".toList <:+: notedComment.toList := by decide +kernel
  have hread : (parse (notedLeft ++ notedRight)).toOption.map (fun document =>
      document.root.subtree.map fun inner => (inner.name, inner.span, document.lineOf inner.span)) =
        some [("p", ⟨22, 54⟩, 2), ("q", ⟨40, 50⟩, 2)] := by
    decide +kernel
  have hreadAgain : (parse (notedLeft ++ "<!--" ++ notedComment ++ "-->" ++ notedRight)).toOption.map
      (fun document =>
        document.root.subtree.map fun inner => (inner.name, inner.span, document.lineOf inner.span)) =
        some [("p", ⟨22, 70⟩, 2), ("q", ⟨56, 66⟩, 4)] := by
    decide +kernel
  obtain ⟨document, hdocument, hplaces⟩ := Option.map_eq_some_iff.mp hread
  obtain ⟨again, hagain, hmoved⟩ := Option.map_eq_some_iff.mp hreadAgain
  have hparse := toOption_eq_some_iff.mp hdocument
  obtain ⟨commented, hcommented, hbare, -⟩ := parse_commented hmark hparse hboundary hcomment
  obtain rfl : commented = again :=
    Except.ok.inj (hcommented.symm.trans (toOption_eq_some_iff.mp hagain))
  exact ⟨hmark, hboundary, hcomment, document, commented, hparse, hcommented, hbare, hplaces, hmoved⟩

end CompatChanges.Xml
