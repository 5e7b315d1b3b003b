import CompatChanges.Proofs.Accepted
import CompatChanges.Proofs.Extent

/-!
# What errors are about

Reading stops at the first piece that does not go with what was read before it, or it comes to the
end of the source. What an error says about the source is different for each kind of error: which
piece it is about, what stands before that piece, and which bytes are named.
-/

namespace CompatChanges.Xml

open Text

/-- Reading comes to `stretch` without a fault, with `assembly` made. -/
structure ComesTo (source : List Char) (before : List Piece) (assembly : Assembly)
    (stretch after : List Piece) : Prop where
  pieces_eq : pieces source = before ++ stretch ++ after
  makes : Makes before assembly

/-- What an error is about, and that it is there. -/
def Error.Blames (source : List Char) : Error → Prop
  | .malformed (.markup fault) offset =>
    ∃ before assembly piece after, ComesTo source before assembly [piece] after ∧
      piece.item = .error fault ∧
      offset = fault.offset (extent before) (extent before + piece.size)
  | .malformed (.tag fault) offset =>
    ∃ before assembly piece after content rest, ComesTo source before assembly [piece] after ∧
      (piece.item = .ok (.startTag content) ∨ piece.item = .ok (.emptyTag content)) ∧
      ¬HasAttributes content ∧ readAttributes content (offset + 1) = .error fault ∧
      offset = extent before ∧
      Span.Delimits ⟨offset, offset + piece.size⟩ source ('<' :: (tagName content ++ rest ++ ['>']))
  | .malformed (.text fault) offset =>
    ∃ before assembly raw after, ComesTo source before assembly [.text raw] after ∧
      unescape raw = .error fault ∧ offset = extent before ∧
      Span.Delimits ⟨offset, offset + Utf8.size raw⟩ source raw
  | .malformed (.wrongEndTag expected found) offset =>
    ∃ before element outer root piece after,
      ComesTo source before ⟨element :: outer, root⟩ [piece] after ∧
      piece.item = .ok (.endTag found.toList) ∧ element.name = expected ∧ expected ≠ found ∧
      offset = extent before
  | .malformed (.strayEndTag name) offset =>
    ∃ before root piece after, ComesTo source before ⟨[], root⟩ [piece] after ∧
      piece.item = .ok (.endTag name.toList) ∧ offset = extent before
  | .badDeclaration fault =>
    ∃ before assembly piece after content, ComesTo source before assembly [piece] after ∧
      piece.item = .ok (.declaration content) ∧
      declared? "encoding".toList (rawAttributes false content) = .error fault
  | .foreignEncoding name =>
    ∃ before assembly piece after content, ComesTo source before assembly [piece] after ∧
      piece.item = .ok (.declaration content) ∧
      declared? "encoding".toList (rawAttributes false content) = .ok (some name.toList) ∧
      equalIgnoringCase name.toList "utf-8".toList = false ∧
      equalIgnoringCase name.toList "utf8".toList = false
  -- All that comes after the tag is complete, so that no element in this one is open.
  | .unfinished name span =>
    ∃ before assembly first inside content children,
      ComesTo source before assembly (first :: inside) [] ∧
      first.item = .ok (.startTag content) ∧ tagName content = name.toList ∧
      Row Forms (extent before + first.size) inside children ∧
      span.start = extent before + 1 ∧ span.Delimits source name.toList ∧
      (Error.unfinished name span).message =
        "Unexpected end of input, expected closing tag </" ++ name ++ ">"
  | .textOutsideRoot span =>
    ∃ before root raw chars after, ComesTo source before ⟨[], root⟩ [.text raw] after ∧
      unescape raw = .ok chars ∧ chars.all isBlank = false ∧
      span.start = extent before ∧ span.Delimits source raw
  | .cdataOutsideRoot span =>
    ∃ before root chars after,
      ComesTo source before ⟨[], root⟩ [.markup (cdataStart ++ chars ++ [']', ']'])] after ∧
      span.start = extent before ∧
      span.Delimits source ("<![CDATA[".toList ++ chars ++ "]]>".toList)
  | .noRoot => ∀ piece ∈ pieces source, piece.IsOutside
  | .secondRoot span =>
    ∃ before root own second inside after, ComesTo source before ⟨[], some root⟩ own after ∧
      Forms (extent before) own second ∧ span = second.span ∧
      span.Delimits source ('<' :: (second.name.toList ++ inside ++ ['>']))
  | .notUtf8 _ => False

/-- The bytes that an error names are among `size` bytes. -/
def Error.Within (size : Nat) : Error → Prop
  | .malformed _ offset => offset < size
  | .unfinished _ span | .textOutsideRoot span | .cdataOutsideRoot span | .secondRoot span =>
    span.start ≤ span.stop ∧ span.stop ≤ size
  | .badDeclaration _ | .noRoot | .notUtf8 _ | .foreignEncoding _ => True

variable {source : List Char} {before stretch after : List Piece} {piece : Piece} {item : Item}
  {assembly : Assembly} {error : Error}

/-! ### The place -/

theorem Span.Delimits.bounds {span : Span} {text : List Char} (hspan : span.Delimits source text) :
    span.start ≤ span.stop ∧ span.stop ≤ Utf8.size source := by
  obtain ⟨front, back, rfl, hstart, hstop⟩ := hspan
  simp only [Utf8.size_append] at hstop ⊢
  omega

namespace ComesTo

/-- A text within the stretch is as far from the start of the source as what stands before it is
long. -/
theorem delimits (hcomes : ComesTo source before assembly stretch after)
    {front text back : List Char} (hsource : stretch.flatMap Piece.source = front ++ text ++ back) :
    Span.Delimits
      ⟨extent before + Utf8.size front, extent before + Utf8.size front + Utf8.size text⟩ source text := by
  refine ⟨before.flatMap Piece.source ++ front, back ++ after.flatMap Piece.source, ?_, ?_, ?_⟩
  · rw [← pieces_source source, hcomes.pieces_eq]
    simp [hsource]
  · simp [extent]
  · simp [extent, Nat.add_assoc]

theorem delimits_stretch (hcomes : ComesTo source before assembly stretch after) :
    Span.Delimits ⟨extent before, extent before + extent stretch⟩ source
      (stretch.flatMap Piece.source) := by
  have hsource : stretch.flatMap Piece.source = [] ++ stretch.flatMap Piece.source ++ [] := by simp
  exact hcomes.delimits hsource

theorem delimits_piece (hcomes : ComesTo source before assembly [piece] after) :
    Span.Delimits ⟨extent before, extent before + piece.size⟩ source piece.source := by
  simpa using hcomes.delimits_stretch

theorem piece_mem (hcomes : ComesTo source before assembly [piece] after) :
    piece ∈ pieces source := by
  rw [hcomes.pieces_eq]
  simp

theorem isWhole (hcomes : ComesTo source before assembly [piece] after)
    (hitem : piece.item = .ok item) : piece.IsWhole := by
  apply Piece.isWhole_of_mem hcomes.piece_mem
  rintro content rfl
  exact Piece.item_unclosed_ne_ok content item hitem

theorem size_pos (hcomes : ComesTo source before assembly [piece] after) : 0 < piece.size := by
  cases piece with
  | text chars => exact Piece.size_pos (Piece.isWhole_of_mem hcomes.piece_mem nofun)
  | markup content => exact Piece.size_pos (Piece.isWhole_of_mem hcomes.piece_mem nofun)
  | unclosed content =>
    have hopen : '<'.utf8Size = 1 := rfl
    rw [Piece.size, Piece.source, Utf8.size_cons, hopen]
    omega

theorem stop_le_size (hcomes : ComesTo source before assembly [piece] after) :
    extent before + piece.size ≤ Utf8.size source :=
  hcomes.delimits_piece.bounds.2

theorem start_lt_size (hcomes : ComesTo source before assembly [piece] after) :
    extent before < Utf8.size source := by
  have hpos := hcomes.size_pos
  have hstop := hcomes.stop_le_size
  omega

end ComesTo

theorem Error.Blames.within (hblames : error.Blames source) : error.Within (Utf8.size source) := by
  cases error with
  | malformed fault offset =>
    cases fault with
    | markup fault =>
      obtain ⟨before, assembly, piece, after, hcomes, -, rfl⟩ := hblames
      have hpos := hcomes.size_pos
      have hstop := hcomes.stop_le_size
      cases fault <;> simp only [Error.Within, MarkupFault.offset] <;> omega
    | tag fault =>
      obtain ⟨before, assembly, piece, after, content, rest, hcomes, -, -, -, rfl, -⟩ := hblames
      exact hcomes.start_lt_size
    | text fault =>
      obtain ⟨before, assembly, raw, after, hcomes, -, rfl, -⟩ := hblames
      exact hcomes.start_lt_size
    | wrongEndTag expected found =>
      obtain ⟨before, element, outer, root, piece, after, hcomes, -, -, -, rfl⟩ := hblames
      exact hcomes.start_lt_size
    | strayEndTag name =>
      obtain ⟨before, root, piece, after, hcomes, -, rfl⟩ := hblames
      exact hcomes.start_lt_size
  | unfinished name span =>
    obtain ⟨_, _, _, _, _, _, -, -, -, -, -, hspan, -⟩ := hblames
    exact hspan.bounds
  | textOutsideRoot span =>
    obtain ⟨_, _, _, _, _, -, -, -, -, hspan⟩ := hblames
    exact hspan.bounds
  | cdataOutsideRoot span =>
    obtain ⟨_, _, _, _, -, -, hspan⟩ := hblames
    exact hspan.bounds
  | secondRoot span =>
    obtain ⟨_, _, _, _, _, _, -, -, -, hspan⟩ := hblames
    exact hspan.bounds
  | badDeclaration | noRoot | notUtf8 | foreignEncoding => trivial

/-! ### The piece at which reading stops -/

theorem not_hasAttributes_of_readAttributes {content : List Char} {base : Nat} {fault : TagFault}
    (hread : readAttributes content base = .error fault) : ¬HasAttributes content := by
  rw [← isSome_bareAttributes?_rawAttributes_iff, ← toOption_readAttributes content base, hread]
  exact Bool.false_ne_true

namespace ComesTo

theorem blames_of_readAttributes (hcomes : ComesTo source before assembly [piece] after)
    {content : List Char}
    (hitem : piece.item = .ok (.startTag content) ∨ piece.item = .ok (.emptyTag content))
    {fault : TagFault} (hread : readAttributes content (extent before + 1) = .error fault) :
    (Error.malformed (.tag fault) (extent before)).Blames source := by
  obtain ⟨rest, hsource⟩ := exists_source_of_tag hitem
  have hspan := hcomes.delimits_piece
  rw [hsource] at hspan
  exact ⟨before, assembly, piece, after, content, rest, hcomes, hitem,
    not_hasAttributes_of_readAttributes hread, hread, rfl, hspan⟩

/-- Outside all others, an element is one too many if there is a root. -/
theorem blames_of_complete (hcomes : ComesTo source before assembly stretch after)
    {element : Element} (hforms : Forms (extent before) stretch element)
    (herror : assembly.complete element = .error error) : error.Blames source := by
  obtain ⟨pending, root⟩ := assembly
  cases pending with
  | cons parent outer => cases herror
  | nil =>
    cases root with
    | none => cases herror
    | some root =>
      cases herror
      obtain ⟨inside, hsource⟩ := hforms.exists_source
      have hspan := hcomes.delimits_stretch
      rw [← hforms.span_eq, hsource] at hspan
      exact ⟨before, root, stretch, element, inside, after, hcomes, hforms, rfl, hspan⟩

theorem blames_of_closeTag (hcomes : ComesTo source before assembly [piece] after)
    {name : List Char} (hitem : piece.item = .ok (.endTag name))
    (herror : assembly.closeTag name ⟨extent before, extent before + piece.size⟩ = .error error) :
    error.Blames source := by
  obtain ⟨pending, root⟩ := assembly
  have hname : piece.item = .ok (.endTag (String.ofList name).toList) := by
    rwa [String.toList_ofList]
  cases pending with
  | nil =>
    cases herror
    exact ⟨before, root, piece, after, hcomes, hname, rfl⟩
  | cons element outer =>
    dsimp only [Assembly.closeTag] at herror
    split at herror
    · next hsame =>
      obtain ⟨earlier, own, hdone, hmakes, hforms⟩ :=
        hcomes.makes.exists_forms_of_close hitem hsame
      have hpieces : pieces source = earlier ++ own ++ after := by rw [hcomes.pieces_eq, hdone]
      have hearlier : ComesTo source earlier ⟨outer, root⟩ own after := ⟨hpieces, hmakes⟩
      exact hearlier.blames_of_complete hforms herror
    · next hother =>
      cases herror
      exact ⟨before, element, outer, root, piece, after, hcomes, hname, rfl, hother, rfl⟩

theorem blames_of_addText {raw : List Char}
    (hcomes : ComesTo source before assembly [.text raw] after)
    (herror : assembly.addText raw ⟨extent before, extent before + Utf8.size raw⟩ = .error error) :
    error.Blames source := by
  obtain ⟨pending, root⟩ := assembly
  have hspan : Span.Delimits ⟨extent before, extent before + Utf8.size raw⟩ source raw :=
    hcomes.delimits_piece
  rw [Assembly.addText] at herror
  split at herror
  · next fault hread =>
    cases herror
    exact ⟨before, _, raw, after, hcomes, hread, rfl, hspan⟩
  · cases herror
  · next chars hread hpending =>
    obtain rfl : pending = [] := hpending
    split at herror
    · cases herror
    · next hink =>
      cases herror
      exact ⟨before, root, raw, chars, after, hcomes, hread, Bool.eq_false_iff.mpr hink, rfl, hspan⟩

theorem blames_of_addCdata (hcomes : ComesTo source before assembly [piece] after)
    {chars : List Char} (hitem : piece.item = .ok (.cdata chars))
    (herror : assembly.addCdata chars ⟨extent before, extent before + piece.size⟩ = .error error) :
    error.Blames source := by
  obtain ⟨pending, root⟩ := assembly
  cases pending with
  | cons element outer => cases herror
  | nil =>
    cases herror
    rcases Piece.eq_of_chars? (hcomes.isWhole hitem) hitem rfl with ⟨raw, rfl, -⟩ | rfl
    · cases hitem
    · have hspan := hcomes.delimits_piece
      rw [Piece.source_section] at hspan
      exact ⟨before, root, chars, after, hcomes, rfl, hspan⟩

theorem blames_of_checkDeclaration (hcomes : ComesTo source before assembly [piece] after)
    {content : List Char} (hitem : piece.item = .ok (.declaration content))
    (herror : checkDeclaration content = .error error) : error.Blames source := by
  unfold checkDeclaration at herror
  split at herror
  · next fault hdeclared =>
    cases herror
    exact ⟨before, assembly, piece, after, content, hcomes, hitem, hdeclared⟩
  · cases herror
  · next encoding hdeclared =>
    split at herror
    · cases herror
    · next hforeign =>
      cases herror
      rw [Bool.or_eq_true, not_or, Bool.not_eq_true, Bool.not_eq_true] at hforeign
      have hencoding : (String.ofList encoding).toList = encoding := String.toList_ofList
      refine ⟨before, assembly, piece, after, content, hcomes, hitem, ?_⟩
      rw [hencoding]
      exact ⟨hdeclared, hforeign⟩

theorem blames_of_addPiece (hcomes : ComesTo source before assembly [piece] after)
    (herror : assembly.addPiece ⟨extent before, extent before + piece.size⟩ piece = .error error) :
    error.Blames source := by
  rw [Assembly.addPiece] at herror
  split at herror
  · next fault hitem =>
    cases herror
    exact ⟨before, assembly, piece, after, hcomes, hitem, rfl⟩
  · next item hitem =>
    cases item with
    | text raw =>
      obtain rfl := Piece.eq_text_of_item hitem
      exact hcomes.blames_of_addText herror
    | cdata chars => exact hcomes.blames_of_addCdata hitem herror
    | startTag content =>
      rw [Assembly.addItem, Assembly.openTag] at herror
      split at herror
      · next fault hread =>
        cases herror
        exact hcomes.blames_of_readAttributes (.inl hitem) hread
      · cases herror
    | emptyTag content =>
      rw [Assembly.addItem, Assembly.emptyTag] at herror
      split at herror
      · next fault hread =>
        cases herror
        exact hcomes.blames_of_readAttributes (.inr hitem) hread
      · next attributes hread =>
        have hforms := Forms.emptyTag hitem hread
        exact hcomes.blames_of_complete hforms herror
    | endTag name => exact hcomes.blames_of_closeTag hitem herror
    | declaration content =>
      apply hcomes.blames_of_checkDeclaration hitem
      rw [Assembly.addItem] at herror
      cases hcheck : checkDeclaration content with
      | error fault =>
        rw [hcheck] at herror
        cases herror
        rfl
      | ok _ =>
        rw [hcheck] at herror
        cases herror
    | instruction | comment | doctype => cases herror

end ComesTo

/-! ### The whole source -/

/-- If pieces cannot all be added, there is one that cannot be added to those before it. -/
theorem Makes.exists_comesTo {done rest : List Piece} (hmakes : Makes done assembly)
    (hpieces : pieces source = done ++ rest)
    (herror : assembly.addPieces (extent done) rest = .error error) :
    ∃ before reached piece after, ComesTo source before reached [piece] after ∧
      reached.addPiece ⟨extent before, extent before + piece.size⟩ piece = .error error := by
  induction rest generalizing done assembly with
  | nil => cases herror
  | cons piece rest ih =>
    have hcomes : ComesTo source done assembly [piece] rest := ⟨by simpa using hpieces, hmakes⟩
    rw [Assembly.addPieces] at herror
    split at herror
    · next fault hpiece =>
      cases herror
      exact ⟨done, assembly, piece, rest, hcomes, hpiece⟩
    · next next hpiece =>
      have hstop : extent done + piece.size = extent (done ++ [piece]) := by simp
      rw [hstop] at herror
      exact ih (hmakes.addPiece hpiece) hcomes.pieces_eq herror

theorem Makes.blames_of_finish (hmakes : Makes (pieces source) assembly)
    (herror : assembly.finish = .error error) : error.Blames source := by
  generalize hpieces : pieces source = all at hmakes
  cases hmakes with
  | before outside =>
    cases herror
    rw [← hpieces] at outside
    exact outside
  | after outside forms => cases herror
  | @inside done inside first content _ children outer root makes first_eq attributes_eq row =>
    cases herror
    have hcomes : ComesTo source done ⟨outer, root⟩ (first :: inside) [] :=
      ⟨by simpa using hpieces, makes⟩
    obtain ⟨rest, hfirst⟩ := exists_source_of_tag (.inl first_eq)
    have hsource : (first :: inside).flatMap Piece.source =
        ['<'] ++ tagName content ++ (rest ++ ['>'] ++ inside.flatMap Piece.source) := by
      simp [hfirst]
    refine ⟨done, _, first, inside, content, children, hcomes, first_eq, ?_, row, rfl, ?_, rfl⟩
    · rw [String.toList_ofList]
    · have hspan := hcomes.delimits hsource
      have hopen : '<'.utf8Size = 1 := rfl
      simpa [OpenElement.nameSpan, hopen] using hspan

/-- Every error is about the first fault of the source, and the bytes that it names are those of what
it is about. -/
theorem blames_of_parse {source : String} {error : Error}
    (hmark : source.toList.head? ≠ some byteOrderMark) (hparse : parse source = .error error) :
    error.Blames source.toList ∧ error.Within (Utf8.size source.toList) := by
  have hblames : error.Blames source.toList := by
    rw [parse, parseChars, parseRoot, dropMark_eq_self hmark] at hparse
    have hempty : Makes [] Assembly.empty := .before (List.forall_mem_nil _)
    cases hadd : Assembly.empty.addPieces 0 (pieces source.toList) with
    | error fault =>
      rw [hadd] at hparse
      cases hparse
      obtain ⟨before, reached, piece, after, hcomes, hpiece⟩ := hempty.exists_comesTo rfl hadd
      exact hcomes.blames_of_addPiece hpiece
    | ok last =>
      have hmakes : Makes (pieces source.toList) last := hempty.addPieces hadd
      rw [hadd] at hparse
      dsimp only at hparse
      cases hfinish : last.finish with
      | error fault =>
        rw [hfinish] at hparse
        cases hparse
        exact hmakes.blames_of_finish hfinish
      | ok root =>
        rw [hfinish] at hparse
        cases hparse
  exact ⟨hblames, hblames.within⟩

def error? (source : String) : Option Error :=
  match parse source with
  | .error error => some error
  | .ok _ => none

theorem error?_eq_some_iff {source : String} {error : Error} :
    error? source = some error ↔ parse source = .error error := by
  unfold error?
  cases parse source <;> simp

example :
    ["<é><b/>é", "<a/><![CDATA[é]]>&nope;", "<a/>\n<b>é</b></c>", "<r><a é='1' é='2'>&nope;</b>",
        "<é>é&nope;<b c></a>"].map error? =
      [some (.unfinished "é" ⟨1, 3⟩), some (.cdataOutsideRoot ⟨4, 18⟩), some (.secondRoot ⟨5, 14⟩),
        some (.malformed (.tag (.malformed (.duplicated 9 2))) 3),
        some (.malformed (.text (.unknownName 3 7 "nope")) 4)] := by
  decide +kernel

/-- Text after the root, and more faults after it: an end tag that is not that of the open element, and
a section. -/
def faultySource : String := "<a/> é<b></c><![CDATA[x]]>"

theorem blames_faultySource :
    faultySource.toList.head? ≠ some byteOrderMark ∧
      parse faultySource = .error (.textOutsideRoot ⟨4, 7⟩) ∧
      (Error.textOutsideRoot ⟨4, 7⟩).Blames faultySource.toList ∧
      (Error.textOutsideRoot ⟨4, 7⟩).Within (Utf8.size faultySource.toList) := by
  have hmark : faultySource.toList.head? ≠ some byteOrderMark := by decide +kernel
  have herror : error? faultySource = some (.textOutsideRoot ⟨4, 7⟩) := by decide +kernel
  have hparse := error?_eq_some_iff.mp herror
  exact ⟨hmark, hparse, blames_of_parse hmark hparse⟩

end CompatChanges.Xml
