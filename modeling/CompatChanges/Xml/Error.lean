import CompatChanges.Xml.Tag

/-!
Why a source is no document. Offsets and spans are bytes of the source.
-/

namespace CompatChanges.Xml

open CompatChanges.Text

/-- What is wrong with a tag, a run of text or another piece of markup. -/
inductive Fault where
  | markup (fault : MarkupFault)
  | wrongEndTag (expected found : String)
  | strayEndTag (name : String)
  | tag (fault : TagFault)
  | text (fault : ReferenceFault)
  deriving Repr, DecidableEq

def Fault.message : Fault → String
  | .markup fault => fault.message
  | .wrongEndTag expected found =>
    s!"ill-formed document: expected `</{expected}>`, but `</{found}>` was found"
  | .strayEndTag name => s!"ill-formed document: close tag `</{name}>` does not match any open tag"
  | .tag fault => fault.message
  | .text fault => s!"Invalid text content: {fault.message}"

inductive Error where
  | malformed (fault : Fault) (offset : Nat)
  | badDeclaration (fault : AttributeFault)
  /-- The input ends before the end tag of the element whose name is at `span`. -/
  | unfinished (name : String) (span : Span)
  | textOutsideRoot (span : Span)
  | cdataOutsideRoot (span : Span)
  | noRoot
  | secondRoot (span : Span)
  | notUtf8 (fault : Utf8.Fault)
  | foreignEncoding (name : String)
  deriving Repr, DecidableEq

def Error.message : Error → String
  | .malformed fault offset => s!"XML syntax error: {fault.message} at byte {offset}"
  | .badDeclaration fault => s!"XML syntax error: Invalid XML declaration: {fault.message}"
  | .unfinished name _ => s!"Unexpected end of input, expected closing tag </{name}>"
  | .textOutsideRoot _ => "Invalid XML structure: text outside the root element"
  | .cdataOutsideRoot _ => "Invalid XML structure: CDATA section outside the root element"
  | .noRoot => "Empty XML document: no root element found"
  | .secondRoot _ => "Invalid XML: multiple root elements"
  | .notUtf8 fault => s!"Unsupported encoding: input is not valid UTF-8: {fault.message}"
  | .foreignEncoding name =>
    s!"Unsupported encoding: document declares encoding '{name}', only UTF-8 is supported"

end CompatChanges.Xml
