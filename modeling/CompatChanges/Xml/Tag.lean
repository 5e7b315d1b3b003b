import CompatChanges.Xml.Markup
import CompatChanges.Xml.Reference
import CompatChanges.Xml.Tree

/-!
The inside of a start tag: the name of the element up to the first separator, then attributes.
Offsets are bytes counted from just after the `<`.
-/

namespace CompatChanges.Xml

open CompatChanges.Text

structure RawAttribute where
  key : List Char
  value : List Char
  deriving Repr, DecidableEq

inductive AttributeFault where
  | noEquals (offset : Nat)
  | duplicated (offset first : Nat)
  | noValue (offset : Nat)
  | unquoted (offset : Nat)
  | unclosedQuote (offset : Nat) (quote : Char)
  deriving Repr, DecidableEq

def AttributeFault.message : AttributeFault → String
  | .noEquals offset => s!"position {offset}: attribute key must be directly followed by `=` or space"
  | .duplicated offset first =>
    s!"position {offset}: duplicated attribute, previous declaration at position {first}"
  | .noValue offset => s!"position {offset}: `=` must be followed by an attribute value"
  | .unquoted offset =>
    "position " ++ toString offset ++ ": attribute value must be enclosed in `\"` or `'`"
  | .unclosedQuote offset quote =>
    s!"position {offset}: missing closing quote `{quote}` in attribute value"

/-- A key and the offset at which it starts. -/
structure PlacedKey where
  key : List Char
  start : Nat
  deriving Repr, DecidableEq

/-- Where a reading of attributes stands; characters seen come with the latest first. -/
inductive AttributeStage where
  | beforeKey
  | inKey (start : Nat) (seen : List Char)
  | afterKey (key : PlacedKey)
  | beforeValue (key : PlacedKey)
  | inValue (key : PlacedKey) (quote : Char) (seen : List Char)

/-- What one more character does to a reading of attributes. -/
inductive AttributeStep where
  | next (stage : AttributeStage)
  /-- The `=` after a key. -/
  | keyed (key : PlacedKey)
  | complete (raw : RawAttribute)
  | refuse (fault : AttributeFault)

namespace AttributeStage

/-- A key runs to the next `=` or separator, whatever its first character is. -/
def step (stage : AttributeStage) (offset : Nat) (c : Char) : AttributeStep :=
  match stage with
  | .beforeKey => .next (if isSeparator c then .beforeKey else .inKey offset [c])
  | .inKey start seen =>
    if c = '=' then .keyed ⟨seen.reverse, start⟩
    else .next (if isSeparator c then .afterKey ⟨seen.reverse, start⟩ else .inKey start (c :: seen))
  | .afterKey key =>
    if isSeparator c then .next (.afterKey key)
    else if c = '=' then .keyed key
    else .refuse (.noEquals offset)
  | .beforeValue key =>
    if isSeparator c then .next (.beforeValue key)
    else if isQuote c then .next (.inValue key c [])
    else .refuse (.unquoted offset)
  | .inValue key quote seen =>
    if c = quote then .complete ⟨key.key, seen.reverse⟩ else .next (.inValue key quote (c :: seen))

/-- The fault when the tag ends at this stage. -/
def faultAtEnd? (stage : AttributeStage) (offset : Nat) : Option AttributeFault :=
  match stage with
  | .beforeKey => none
  | .inKey _ _ | .afterKey _ => some (.noEquals offset)
  | .beforeValue _ => some (.noValue offset)
  | .inValue _ quote _ => some (.unclosedQuote offset quote)

end AttributeStage

/-- The fault of a key that repeats one of `earlier`. -/
def duplicateOf? (earlier : List PlacedKey) (key : PlacedKey) : Option AttributeFault :=
  (earlier.find? (·.key = key.key)).map fun first => .duplicated key.start first.start

/-- The attributes from byte `offset` on, in order, up to the first fault. With `distinct` a key
that repeats one of `earlier` is a fault. -/
def attributesFrom (distinct : Bool) : (earlier : List PlacedKey) → AttributeStage →
    (offset : Nat) → List Char → List (Except AttributeFault RawAttribute)
  | _, stage, offset, [] => (stage.faultAtEnd? offset).toList.map .error
  | earlier, stage, offset, c :: rest =>
    match stage.step offset c with
    | .next stage => attributesFrom distinct earlier stage (offset + c.utf8Size) rest
    | .keyed key =>
      match if distinct then duplicateOf? earlier key else none with
      | some fault => [.error fault]
      | none =>
        attributesFrom distinct (key :: earlier) (.beforeValue key) (offset + c.utf8Size) rest
    | .complete raw =>
      .ok raw :: attributesFrom distinct earlier .beforeKey (offset + c.utf8Size) rest
    | .refuse fault => [.error fault]

/-- The name at the start of a tag's content; it may be empty. -/
def tagName (content : List Char) : List Char := content.takeWhile (!isSeparator ·)

/-- The attributes after the name, up to the first fault. -/
def rawAttributes (distinct : Bool) (content : List Char) : List (Except AttributeFault RawAttribute) :=
  let name := tagName content
  attributesFrom distinct [] .beforeKey (Utf8.size name) (content.drop name.length)

/-- Why the attributes of a tag cannot be read. -/
inductive TagFault where
  | malformed (fault : AttributeFault)
  | badValue (fault : ReferenceFault)
  deriving Repr, DecidableEq

def TagFault.message : TagFault → String
  | .malformed fault => s!"Attribute error: {fault.message}"
  | .badValue fault => s!"Invalid attribute value: {fault.message}"

/-- A place between two characters of a text: its offset, and what stands from there on. -/
structure Cursor where
  offset : Nat
  rest : List Char
  deriving Repr, DecidableEq

/-- The cursor after the first `size` bytes of `rest`, which starts at `offset`. There is none inside
a character, nor past the end. -/
def Cursor.after? (size offset : Nat) (rest : List Char) : Option Cursor :=
  match rest with
  | [] => if size = 0 then some ⟨offset, []⟩ else none
  | c :: later =>
    if size = 0 then some ⟨offset, c :: later⟩
    else if size < c.utf8Size then none
    else Cursor.after? (size - c.utf8Size) (offset + c.utf8Size) later

/-- Where `target` occurs first in `rest`, which starts at `offset`. -/
def Cursor.find? (target : List Char) (offset : Nat) (rest : List Char) : Option Cursor :=
  if target.isPrefixOf rest then some ⟨offset, rest⟩
  else
    match rest with
    | [] => none
    | c :: later => Cursor.find? target (offset + c.utf8Size) later

/-- Where the search for the next attribute starts when `raw` was found: as many bytes later as its
name and value have. -/
def Cursor.pass? (found : Cursor) (raw : RawAttribute) : Option Cursor :=
  Cursor.after? (Utf8.size raw.key + Utf8.size raw.value) found.offset found.rest

/-- The attributes of a tag whose content starts at byte `base` of the source. The span of each is
where its name occurs first from the cursor on, or the first byte of the content if it does not. -/
def placeAttributes (base : Nat) : (cursor : Option Cursor) →
    List (Except AttributeFault RawAttribute) → Except TagFault (List Attribute)
  | _, [] => .ok []
  | _, .error fault :: _ => .error (.malformed fault)
  | cursor, .ok raw :: rest =>
    match unescape raw.value with
    | .error fault => .error (.badValue fault)
    | .ok value =>
      let (span, cursor) := match cursor.bind fun c => Cursor.find? raw.key c.offset c.rest with
        | some found =>
          (Span.mk (base + found.offset) (base + found.offset + Utf8.size raw.key), found.pass? raw)
        | none => (Span.mk base (base + 1), cursor)
      (placeAttributes base cursor rest).map
        (⟨String.ofList raw.key, String.ofList value, span⟩ :: ·)

/-- The attributes of a tag whose content starts at byte `base` of the source. -/
def readAttributes (content : List Char) (base : Nat) : Except TagFault (List Attribute) :=
  let name := tagName content
  placeAttributes base (some ⟨Utf8.size name, content.drop name.length⟩) (rawAttributes true content)

/-- The value of the first attribute of a declaration that is called `key`, references and all. -/
def declared? (key : List Char) :
    List (Except AttributeFault RawAttribute) → Except AttributeFault (Option (List Char))
  | [] => .ok none
  | .error fault :: _ => .error fault
  | .ok raw :: rest => if raw.key = key then .ok (some raw.value) else declared? key rest

end CompatChanges.Xml
