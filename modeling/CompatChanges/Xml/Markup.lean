import CompatChanges.Text.Blank
import CompatChanges.Text.Case
import CompatChanges.Text.Utf8

/-!
Markup and text. `pieces` cuts a source into runs of text and pieces of markup, which together are
the source; `Piece.item` says what a piece is. Where a piece of markup ends depends only on what
stands in it: `closes` tells whether a `>` ends it, and `OpenMarkup` keeps count as the characters
come.
-/

namespace CompatChanges.Xml

open CompatChanges.Text

/-- What begins with `<`, by what follows it. -/
inductive MarkupKind where
  | tag
  | instruction
  | comment
  | cdata
  | doctype
  deriving Repr, DecidableEq

/-- The kind of markup with `content` after its `<`, if there is one. -/
def MarkupKind.of? : (content : List Char) → Option MarkupKind
  | '!' :: '[' :: _ => some .cdata
  | '!' :: '-' :: _ => some .comment
  | '!' :: 'D' :: _ => some .doctype
  | '!' :: 'd' :: _ => some .doctype
  | '!' :: _ => none
  | '?' :: _ => some .instruction
  | _ => some .tag

def isQuote (c : Char) : Bool := c = '"' || c = '\x27'

/-- The quote that is open after `c`, when `quote` was before it. -/
def quoteAfter (quote : Option Char) (c : Char) : Option Char :=
  match quote with
  | none => if isQuote c then some c else none
  | some q => if c = q then none else some q

def quotesClosed (chars : List Char) : Bool := (chars.foldl quoteAfter none).isNone

/-- Whether a `>` after `content` ends the markup. -/
def closes (content : List Char) : Bool :=
  match MarkupKind.of? content with
  | some .tag => quotesClosed content
  | some .instruction => ['?'].isSuffixOf content
  | some .comment => 5 ≤ content.length && ['-', '-'].isSuffixOf content
  | some .cdata => [']', ']'].isSuffixOf content
  | some .doctype => content.count '<' = content.count '>'
  | none => true

theorem MarkupKind.of?_concat {content : List Char} (two : 2 ≤ content.length) (c : Char) :
    MarkupKind.of? (content ++ [c]) = MarkupKind.of? content := by
  match content, two with
  | a :: b :: rest, _ =>
    simp only [List.cons_append]
    by_cases bang : a = '!'
    · subst bang
      by_cases bracket : b = '['
      · subst bracket; rfl
      by_cases dash : b = '-'
      · subst dash; rfl
      by_cases upper : b = 'D'
      · subst upper; rfl
      by_cases lower : b = 'd'
      · subst lower; rfl
      simp [MarkupKind.of?, bracket, dash, upper, lower]
    · by_cases mark : a = '?'
      · subst mark; rfl
      · simp [MarkupKind.of?, bang, mark]

/-- Markup under way: the characters after its `<`, the latest first, and what they come to as far
as the end of the markup depends on it. -/
structure OpenMarkup where
  seen : List Char
  kind : Option MarkupKind
  quote : Option Char
  opened : Nat
  closed : Nat
  kind_eq : kind = MarkupKind.of? seen.reverse
  quote_eq : quote = seen.reverse.foldl quoteAfter none
  opened_eq : opened = seen.count '<'
  closed_eq : closed = seen.count '>'

namespace OpenMarkup

def empty : OpenMarkup := ⟨[], some .tag, none, 0, 0, rfl, rfl, rfl, rfl⟩

def content (markup : OpenMarkup) : List Char := markup.seen.reverse

/-- The kind is settled by two characters. -/
def kindAfter (markup : OpenMarkup) (c : Char) : Option MarkupKind :=
  match markup.seen with
  | [] => MarkupKind.of? [c]
  | [b] => MarkupKind.of? [b, c]
  | _ :: _ :: _ => markup.kind

theorem kindAfter_eq (markup : OpenMarkup) (c : Char) :
    markup.kindAfter c = MarkupKind.of? (c :: markup.seen).reverse := by
  unfold kindAfter
  split <;> rename_i seen
  · simp [seen]
  · simp [seen]
  · rw [markup.kind_eq, List.reverse_cons, MarkupKind.of?_concat (by simp [seen])]

def push (markup : OpenMarkup) (c : Char) : OpenMarkup where
  seen := c :: markup.seen
  kind := markup.kindAfter c
  quote := quoteAfter markup.quote c
  opened := if c = '<' then markup.opened + 1 else markup.opened
  closed := if c = '>' then markup.closed + 1 else markup.closed
  kind_eq := markup.kindAfter_eq c
  quote_eq := by simp [markup.quote_eq]
  opened_eq := by by_cases h : c = '<' <;> simp [h, markup.opened_eq]
  closed_eq := by by_cases h : c = '>' <;> simp [h, markup.closed_eq]

@[simp] theorem seen_push (markup : OpenMarkup) (c : Char) : (markup.push c).seen = c :: markup.seen := rfl

/-- Whether a `>` that comes next ends the markup. -/
def ends (markup : OpenMarkup) : Bool :=
  match markup.kind with
  | some .tag => markup.quote.isNone
  | some .instruction => ['?'].isPrefixOf markup.seen
  | some .comment => !(markup.seen.drop 4).isEmpty && ['-', '-'].isPrefixOf markup.seen
  | some .cdata => [']', ']'].isPrefixOf markup.seen
  | some .doctype => markup.opened = markup.closed
  | none => true

/-- Markup under way ends where its content says that it does. -/
theorem ends_eq_closes (markup : OpenMarkup) : markup.ends = closes markup.content := by
  have long : (!(markup.seen.drop 4).isEmpty) = decide (5 ≤ markup.seen.length) := by
    by_cases five : 5 ≤ markup.seen.length
    · have : markup.seen.drop 4 ≠ [] := by
        rw [ne_eq, List.drop_eq_nil_iff]
        omega
      simp [five, this]
    · have : markup.seen.drop 4 = [] := by
        rw [List.drop_eq_nil_iff]
        omega
      simp [five, this]
  unfold ends closes content
  rw [← markup.kind_eq]
  split <;>
    simp_all [quotesClosed, markup.quote_eq, markup.opened_eq, markup.closed_eq, List.isSuffixOf]

end OpenMarkup

inductive Piece where
  | text (chars : List Char)
  /-- `<`, `content` and the `>` that ends it. -/
  | markup (content : List Char)
  /-- `<` and `content`, which lasts to the end of the input. -/
  | unclosed (content : List Char)
  deriving Repr, DecidableEq

/-- The characters that the piece was cut from. -/
def Piece.source : Piece → List Char
  | .text chars => chars
  | .markup content => '<' :: content ++ ['>']
  | .unclosed content => '<' :: content

def Piece.size (piece : Piece) : Nat := Utf8.size piece.source

/-- A piece under way; the characters of a text come with the latest first. -/
inductive OpenPiece where
  | text (seen : List Char)
  | markup (markup : OpenMarkup)

def OpenPiece.source : OpenPiece → List Char
  | .text seen => seen.reverse
  | .markup unfinished => '<' :: unfinished.content

/-- A run of text, if it has any characters; they come with the latest first. -/
def textPiece (seen : List Char) : List Piece :=
  if seen.isEmpty then [] else [.text seen.reverse]

/-- The pieces of what is still to come, the one under way first. -/
def piecesFrom : OpenPiece → List Char → List Piece
  | .text seen, [] => textPiece seen
  | .markup markup, [] => [.unclosed markup.content]
  | .text seen, c :: rest =>
    if c = '<' then textPiece seen ++ piecesFrom (.markup .empty) rest
    else piecesFrom (.text (c :: seen)) rest
  | .markup markup, c :: rest =>
    if c = '>' && markup.ends then .markup markup.content :: piecesFrom (.text []) rest
    else piecesFrom (.markup (markup.push c)) rest

def pieces (source : List Char) : List Piece := piecesFrom (.text []) source

theorem textPiece_source (seen : List Char) : (textPiece seen).flatMap Piece.source = seen.reverse := by
  unfold textPiece
  cases seen <;> simp [Piece.source]

theorem piecesFrom_source (piece : OpenPiece) (rest : List Char) :
    (piecesFrom piece rest).flatMap Piece.source = piece.source ++ rest := by
  induction rest generalizing piece with
  | nil => cases piece <;> simp [piecesFrom, textPiece_source, Piece.source, OpenPiece.source]
  | cons c rest ih =>
    cases piece with
    | text seen =>
      by_cases opens : c = '<'
      · simp [piecesFrom, opens, textPiece_source, ih, OpenPiece.source, OpenMarkup.empty, OpenMarkup.content]
      · simp [piecesFrom, opens, ih, OpenPiece.source]
    | markup markup =>
      by_cases ends : (c = '>' && markup.ends) = true
      · simp only [piecesFrom, ends, if_true, List.flatMap_cons, ih]
        simp only [Bool.and_eq_true, decide_eq_true_eq] at ends
        simp [Piece.source, OpenPiece.source, ends.1]
      · simp [piecesFrom, ends, ih, OpenPiece.source, OpenMarkup.content]

/-- The pieces of a source are the source: nothing is lost or reordered. -/
theorem pieces_source (source : List Char) : (pieces source).flatMap Piece.source = source := by
  simp [pieces, piecesFrom_source, OpenPiece.source]

inductive Item where
  | text (raw : List Char)
  | cdata (content : List Char)
  /-- The content of a tag starts with the name of the element; attributes follow. -/
  | startTag (content : List Char)
  | emptyTag (content : List Char)
  | endTag (name : List Char)
  | declaration (content : List Char)
  | instruction
  | comment
  | doctype
  deriving Repr, DecidableEq

inductive MarkupFault where
  | unclosed (kind : MarkupKind)
  | unknown
  | unnamedDoctype
  deriving Repr, DecidableEq

def MarkupFault.message : MarkupFault → String
  | .unclosed .tag => "syntax error: tag not closed: `>` not found before end of input"
  | .unclosed .instruction =>
    "syntax error: processing instruction or xml declaration not closed: `?>` not found before end of input"
  | .unclosed .comment => "syntax error: comment not closed: `-->` not found before end of input"
  | .unclosed .cdata => "syntax error: CDATA not closed: `]]>` not found before end of input"
  | .unclosed .doctype => "syntax error: DOCTYPE not closed: `>` not found before end of input"
  | .unknown => "syntax error: unknown or missed symbol in markup"
  | .unnamedDoctype =>
    "ill-formed document: `<!DOCTYPE>` declaration does not contain a name of a document type"

/-- The name in an end tag: separators after it do not count, unless there is nothing else. -/
def endTagName (chars : List Char) : List Char :=
  let name := dropTrailing isSeparator chars
  if name.isEmpty then chars else name

def tagItem (content : List Char) : Item :=
  match content with
  | '/' :: name => .endTag (endTagName name)
  | content => if ['/'].isSuffixOf content then .emptyTag content.dropLast else .startTag content

/-- Whether the inside of an instruction makes it a declaration. -/
def isDeclaration : List Char → Bool
  | 'x' :: 'm' :: 'l' :: rest => rest.head?.all isSeparator
  | _ => false

/-- What the inside of `<?` and `?>` is. -/
def instructionItem (inside : List Char) : Item :=
  if isDeclaration inside then .declaration inside else .instruction

def commentStart : List Char := "!--".toList
def cdataStart : List Char := "![CDATA[".toList
def doctypeStart : List Char := "!DOCTYPE".toList

/-- What markup with this content is. It may have been cut by rules that are laxer than those for
its start. -/
def markupItem (content : List Char) : Except MarkupFault Item :=
  match MarkupKind.of? content with
  | none => .error .unknown
  | some .tag => .ok (tagItem content)
  | some .instruction =>
    match content with
    | '?' :: inside@(_ :: _) => .ok (instructionItem inside.dropLast)
    | _ => .error (.unclosed .instruction)
  | some .comment =>
    if commentStart.isPrefixOf content then .ok .comment else .error (.unclosed .comment)
  | some .cdata =>
    if cdataStart.isPrefixOf content then
      .ok (.cdata (content.drop cdataStart.length).dropLast.dropLast)
    else .error (.unclosed .cdata)
  | some .doctype =>
    if !startsIgnoringCase doctypeStart content then .error (.unclosed .doctype)
    else if (content.drop doctypeStart.length).all isSeparator then .error .unnamedDoctype
    else .ok .doctype

def Piece.item : Piece → Except MarkupFault Item
  | .text chars => .ok (.text chars)
  | .markup content => markupItem content
  | .unclosed content =>
    match MarkupKind.of? content with
    | some kind => .error (.unclosed kind)
    | none => .error .unknown

/-- The byte at which a fault of a piece is reported: its first, and its last for the name that a
doctype lacks. -/
def MarkupFault.offset (fault : MarkupFault) (start stop : Nat) : Nat :=
  match fault with
  | .unnamedDoctype => stop - 1
  | .unclosed _ | .unknown => start

end CompatChanges.Xml
