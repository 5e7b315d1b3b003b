import CompatChanges.Text.Case
import CompatChanges.Text.Numeral
import CompatChanges.Xml.Tree

/-!
Compat changes. A change is the element it was read from, with its origin; what is known about it
is read off its attributes, and no attribute is ever refused.
-/

namespace CompatChanges

open CompatChanges.Text CompatChanges.Xml

/-- Where a change was read: the label of its fragment, and its line there, counted from one. -/
structure Origin where
  label : String
  line : Nat
  deriving Repr, DecidableEq

def Origin.text (origin : Origin) : String := s!"{origin.label}:{origin.line}"

inductive Key where
  | id
  | name
  deriving Repr, DecidableEq

def Key.attributeName : Key → String
  | .id => "id"
  | .name => "name"

/-- Notes for developers, which devices do not get. -/
structure Metadata where
  definedIn : Option String
  sourcePosition : Option String
  deriving Repr, DecidableEq

structure Change where
  element : Element
  origin : Origin

namespace Change

/-- The name of the element of a change in what is written for devices. -/
def elementName : String := "compat-change"

def metadataName : String := "meta-data"

def attributes (change : Change) : List Attribute := change.element.attributes

def key? (change : Change) (key : Key) : Option String := change.element.attribute? key.attributeName

def id? (change : Change) : Option String := change.key? .id

def name? (change : Change) : Option String := change.key? .name

/-- The value of an attribute as a number of at most `bits` bits, blanks around it aside. -/
def number? (change : Change) (attributeName : String) (bits : Nat) : Option Nat := do
  let value ← change.element.attribute? attributeName
  readUnsigned (maxOfBits bits) (trim value.toList)

def numericId? (change : Change) : Option Nat := change.number? "id" 64

def enableAfterTargetSdk? (change : Change) : Option Nat := change.number? "enableAfterTargetSdk" 32

/-- Whether an attribute says `true`, in any case and with any blanks around it. -/
def flag (change : Change) (attributeName : String) : Bool :=
  (change.element.attribute? attributeName).any fun value =>
    equalIgnoringCase (trim value.toList) "true".toList

def isDisabled (change : Change) : Bool := change.flag "disabled"

def isLoggingOnly (change : Change) : Bool := change.flag "loggingOnly"

def description? (change : Change) : Option String := change.element.attribute? "description"

def metadata? (change : Change) : Option Metadata :=
  (change.element.childrenNamed metadataName).head?.map fun child =>
    ⟨child.attribute? "definedIn", child.attribute? "sourcePosition"⟩

end Change

end CompatChanges
