import CompatChanges.Xml.Error

/-!
Documents. The pieces of a source are taken in order; each opens, fills or closes an element, and
what remains at the end is the root. The first piece at which no document can come about decides
the error.
-/

namespace CompatChanges.Xml

open CompatChanges.Text

/-- A root element, and where the lines of its source begin. -/
structure Document where
  root : Element
  lines : LineIndex

def Document.locate (document : Document) (offset : Nat) : Location := document.lines.locate offset

/-- The number, counted from one, of the line on which `span` starts. -/
def Document.lineOf (document : Document) (span : Span) : Nat := (document.locate span.start).line

/-- An element whose end tag is still to come; the latest child comes first. -/
structure OpenElement where
  name : String
  attributes : List Attribute
  start : Nat
  children : List Node

/-- Where the name of the element stands in the source. -/
def OpenElement.nameSpan (element : OpenElement) : Span :=
  ⟨element.start + 1, element.start + 1 + Utf8.size element.name.toList⟩

def OpenElement.push (element : OpenElement) (node : Node) : OpenElement :=
  { element with children := node :: element.children }

/-- The element, if its end tag ends before byte `stop`. -/
def OpenElement.close (element : OpenElement) (stop : Nat) : Element :=
  .mk element.name element.attributes (.ofNodes element.children.reverse) ⟨element.start, stop⟩

/-- A declaration may name no encoding but UTF-8. -/
def checkDeclaration (content : List Char) : Except Error Unit :=
  match declared? "encoding".toList (rawAttributes false content) with
  | .error fault => .error (.badDeclaration fault)
  | .ok none => .ok ()
  | .ok (some encoding) =>
    if equalIgnoringCase encoding "utf-8".toList || equalIgnoringCase encoding "utf8".toList then .ok ()
    else .error (.foreignEncoding (String.ofList encoding))

/-- A document under way: the elements that are open, the innermost first, and the root once it
is complete. -/
structure Assembly where
  pending : List OpenElement
  root : Option Element

namespace Assembly

def empty : Assembly := ⟨[], none⟩

/-- A complete element goes to the innermost open one, or becomes the root. -/
def complete (assembly : Assembly) (element : Element) : Except Error Assembly :=
  match assembly.pending, assembly.root with
  | parent :: outer, root => .ok ⟨parent.push (.element element) :: outer, root⟩
  | [], none => .ok ⟨[], some element⟩
  | [], some _ => .error (.secondRoot element.span)

def openTag (assembly : Assembly) (content : List Char) (span : Span) : Except Error Assembly :=
  match readAttributes content (span.start + 1) with
  | .error fault => .error (.malformed (.tag fault) span.start)
  | .ok attributes =>
    let opened := ⟨String.ofList (tagName content), attributes, span.start, []⟩
    .ok { assembly with pending := opened :: assembly.pending }

def emptyTag (assembly : Assembly) (content : List Char) (span : Span) : Except Error Assembly :=
  match readAttributes content (span.start + 1) with
  | .error fault => .error (.malformed (.tag fault) span.start)
  | .ok attributes =>
    assembly.complete (.mk (String.ofList (tagName content)) attributes .empty span)

def closeTag (assembly : Assembly) (name : List Char) (span : Span) : Except Error Assembly :=
  let name := String.ofList name
  match assembly.pending with
  | [] => .error (.malformed (.strayEndTag name) span.start)
  | element :: outer =>
    if element.name = name then
      { assembly with pending := outer }.complete (element.close span.stop)
    else .error (.malformed (.wrongEndTag element.name name) span.start)

/-- Text in an element is kept as it is; around the root only blanks may stand. -/
def addText (assembly : Assembly) (raw : List Char) (span : Span) : Except Error Assembly :=
  match unescape raw, assembly.pending with
  | .error fault, _ => .error (.malformed (.text fault) span.start)
  | .ok chars, element :: outer =>
    .ok { assembly with pending := element.push (.text (String.ofList chars) span) :: outer }
  | .ok chars, [] => if chars.all isBlank then .ok assembly else .error (.textOutsideRoot span)

def addCdata (assembly : Assembly) (chars : List Char) (span : Span) : Except Error Assembly :=
  match assembly.pending with
  | [] => .error (.cdataOutsideRoot span)
  | element :: outer =>
    .ok { assembly with pending := element.push (.text (String.ofList chars) span) :: outer }

def addItem (assembly : Assembly) (span : Span) : Item → Except Error Assembly
  | .text raw => assembly.addText raw span
  | .cdata content => assembly.addCdata content span
  | .startTag content => assembly.openTag content span
  | .emptyTag content => assembly.emptyTag content span
  | .endTag name => assembly.closeTag name span
  | .declaration content => (checkDeclaration content).map fun _ => assembly
  | .instruction | .comment | .doctype => .ok assembly

def addPiece (assembly : Assembly) (span : Span) (piece : Piece) : Except Error Assembly :=
  match piece.item with
  | .error fault => .error (.malformed (.markup fault) (fault.offset span.start span.stop))
  | .ok item => assembly.addItem span item

def addPieces (assembly : Assembly) (offset : Nat) : List Piece → Except Error Assembly
  | [] => .ok assembly
  | piece :: rest =>
    match assembly.addPiece ⟨offset, offset + piece.size⟩ piece with
    | .error error => .error error
    | .ok assembly => assembly.addPieces (offset + piece.size) rest

def finish (assembly : Assembly) : Except Error Element :=
  match assembly.pending, assembly.root with
  | element :: _, _ => .error (.unfinished element.name element.nameSpan)
  | [], none => .error .noRoot
  | [], some root => .ok root

end Assembly

def byteOrderMark : Char := '\ufeff'

def dropMark : List Char → List Char
  | c :: rest => if c = byteOrderMark then rest else c :: rest
  | [] => []

/-- The root element of a source; offsets count from after a byte order mark. -/
def parseRoot (source : List Char) : Except Error Element :=
  match Assembly.empty.addPieces 0 (pieces (dropMark source)) with
  | .error error => .error error
  | .ok assembly => assembly.finish

def parseChars (source : List Char) : Except Error Document :=
  (parseRoot source).map fun root => ⟨root, .ofText source⟩

def parse (source : String) : Except Error Document := parseChars source.toList

/-- The document that bytes are, which must be UTF-8; a byte order mark does not count. -/
def parseBytes (bytes : List UInt8) : Except Error Document :=
  match Utf8.decode bytes with
  | .error fault => .error (.notUtf8 fault)
  | .ok chars => parseChars (dropMark chars)

end CompatChanges.Xml
