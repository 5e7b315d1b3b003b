import CompatChanges.Change
import CompatChanges.Xml.Document

/-!
Fragments: the documents that changes are read from. Every child element of the root is a change,
whatever its name; text beside them does not matter.
-/

namespace CompatChanges

open CompatChanges.Xml

/-- The line on which each child element of the root starts, in order. -/
def originsOf (document : Document) (label : String) : List Origin :=
  document.root.children.map fun child => ⟨label, document.lineOf child.span⟩

/-- The changes of a document, in order. The origins are found first, and given to the elements once
these have been taken out of the document. -/
def changesOf (document : Document) (label : String) : List Change :=
  (document.root.detachChildren.zip (originsOf document label)).map fun (element, origin) =>
    ⟨element, origin⟩

/-- Each change has the origin of its own element. -/
theorem changesOf_eq_map (document : Document) (label : String) :
    changesOf document label = document.root.children.map fun child =>
      ⟨child, label, document.lineOf child.span⟩ := by
  rw [changesOf, originsOf, Element.detachChildren_eq_children, List.map_zip_eq_zipWith,
    List.zipWith_map_right, List.zipWith_self]
  rfl

theorem mem_changesOf {document : Document} {label : String} {change : Change} :
    change ∈ changesOf document label ↔
      ∃ child ∈ document.root.children, ⟨child, label, document.lineOf child.span⟩ = change := by
  rw [changesOf_eq_map, List.mem_map]

def readChanges (bytes : List UInt8) (label : String) : Except Xml.Error (List Change) :=
  (parseBytes bytes).map (changesOf · label)

/-- A key that a change lacks, the id before the name. -/
def Change.missingKey? (change : Change) : Option Key :=
  if change.id?.isNone then some .id
  else if change.name?.isNone then some .name
  else none

end CompatChanges
