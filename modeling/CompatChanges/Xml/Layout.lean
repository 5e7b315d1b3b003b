import CompatChanges.Sink
import CompatChanges.Xml.Reference
import CompatChanges.Xml.Tree

/-!
Written documents. An element is a sequence of tags and texts; the layout says what line breaks and
spaces stand between them. Names are written as they are, whatever characters they hold.
-/

namespace CompatChanges.Xml

open CompatChanges.Text

inductive Token where
  | startTag (name : String) (attributes : List Attribute)
  | emptyTag (name : String) (attributes : List Attribute)
  | endTag (name : String)
  | text (string : String)
  deriving Repr, DecidableEq

def Attribute.source (a : Attribute) : List Char :=
  ' ' :: a.name.toList ++ '=' :: '"' :: escapeValue a.value.toList ++ ['"']

def tagSource (name : String) (attributes : List Attribute) : List Char :=
  name.toList ++ attributes.flatMap Attribute.source

def Token.source : Token → List Char
  | .startTag name attributes => '<' :: tagSource name attributes ++ ['>']
  | .emptyTag name attributes => '<' :: tagSource name attributes ++ ['/', '>']
  | .endTag name => '<' :: '/' :: name.toList ++ ['>']
  | .text string => escapeText string.toList

mutual

/-- The tags and texts of an element, in order, and `after`. -/
def Element.tokensThen (after : List Token) : Element → List Token
  | .mk name attributes .empty _ => .emptyTag name attributes :: after
  | .mk name attributes (.elements children) _ =>
    .startTag name attributes :: elementTokensThen (.endTag name :: after) children
  | .mk name attributes (.text string _) _ =>
    .startTag name attributes :: .text string :: .endTag name :: after
  | .mk name attributes (.mixed nodes) _ =>
    .startTag name attributes :: nodeTokensThen (.endTag name :: after) nodes

def elementTokensThen (after : List Token) : List Element → List Token
  | [] => after
  | element :: rest => element.tokensThen (elementTokensThen after rest)

def nodeTokensThen (after : List Token) : List Node → List Token
  | [] => after
  | .element element :: rest => element.tokensThen (nodeTokensThen after rest)
  | .text string _ :: rest => .text string :: nodeTokensThen after rest

end

def Element.tokens (element : Element) : List Token := element.tokensThen []

def elementTokens (elements : List Element) : List Token := elements.flatMap Element.tokens

def Node.tokens : Node → List Token
  | .element e => e.tokens
  | .text string _ => [.text string]

def nodeTokens (nodes : List Node) : List Token := nodes.flatMap Node.tokens

mutual

theorem Element.tokensThen_eq (after : List Token) :
    (element : Element) → element.tokensThen after = element.tokens ++ after
  | .mk _ _ .empty _ => rfl
  | .mk _ _ (.elements children) _ => by
    simp [Element.tokens, Element.tokensThen, elementTokensThen_eq (_ :: _) children]
  | .mk _ _ (.text _ _) _ => rfl
  | .mk _ _ (.mixed nodes) _ => by
    simp [Element.tokens, Element.tokensThen, nodeTokensThen_eq (_ :: _) nodes]

theorem elementTokensThen_eq (after : List Token) :
    (elements : List Element) → elementTokensThen after elements = elementTokens elements ++ after
  | [] => rfl
  | element :: rest => by
    simp [elementTokens, elementTokensThen, element.tokensThen_eq, elementTokensThen_eq after rest]

theorem nodeTokensThen_eq (after : List Token) :
    (nodes : List Node) → nodeTokensThen after nodes = nodeTokens nodes ++ after
  | [] => rfl
  | .element element :: rest => by
    simp [nodeTokens, nodeTokensThen, Node.tokens, element.tokensThen_eq, nodeTokensThen_eq after rest]
  | .text string span :: rest => by
    simp [nodeTokens, nodeTokensThen, Node.tokens, nodeTokensThen_eq after rest]

end

theorem Element.tokens_empty (name : String) (attributes : List Attribute) (span : Span) :
    (Element.mk name attributes .empty span).tokens = [.emptyTag name attributes] := rfl

theorem Element.tokens_elements (name : String) (attributes : List Attribute)
    (children : List Element) (span : Span) :
    (Element.mk name attributes (.elements children) span).tokens =
      .startTag name attributes :: elementTokens children ++ [.endTag name] := by
  simp [tokens, tokensThen, elementTokensThen_eq]

theorem Element.tokens_mixed (name : String) (attributes : List Attribute) (nodes : List Node)
    (span : Span) :
    (Element.mk name attributes (.mixed nodes) span).tokens =
      .startTag name attributes :: nodeTokens nodes ++ [.endTag name] := by
  simp [tokens, tokensThen, nodeTokensThen_eq]

/-- How a document is laid out: without breaks, or with each tag on a line of its own that begins
with `spaces` for each element around it. -/
inductive Layout where
  | compact
  | indented (spaces : Nat)
  deriving Repr, DecidableEq

def lineBreak (spaces depth : Nat) : List Char := '\n' :: List.replicate (depth * spaces) ' '

/-- The tokens at `depth` on lines of their own. Next to text nothing is put before or after it,
so a tag that follows text stays on its line. -/
def indentFrom (spaces : Nat) : (depth : Nat) → (afterText : Bool) → List Token → List (List Char)
  | _, _, [] => []
  | depth, afterText, token :: rest =>
    let gap (depth : Nat) := if afterText then [] else lineBreak spaces depth
    match token with
    | .text _ => token.source :: indentFrom spaces depth true rest
    | .startTag _ _ => (gap depth ++ token.source) :: indentFrom spaces (depth + 1) false rest
    | .emptyTag _ _ => (gap depth ++ token.source) :: indentFrom spaces depth false rest
    | .endTag _ =>
      (gap (depth - 1) ++ token.source) :: indentFrom spaces (depth - 1) false rest

def declarationSource : List Char := "<?xml version=\"1.0\" encoding=\"utf-8\"?>".toList

def Layout.parts (layout : Layout) (root : Element) : List (List Char) :=
  match layout with
  | .compact => declarationSource :: ['\n'] :: root.tokens.map Token.source ++ [['\n']]
  | .indented spaces => declarationSource :: indentFrom spaces 0 false root.tokens ++ [['\n']]

def render (root : Element) (layout : Layout) : String := String.ofList (layout.parts root).flatten

/-- Writes the document with this root part by part, up to the first fault. -/
def write {σ : Type} [ByteSink σ] (root : Element) (layout : Layout) (sink : σ) :
    σ × Except SinkFault Unit :=
  ByteSink.writeAndFlush sink ((layout.parts root).map Utf8.encode)

end CompatChanges.Xml
