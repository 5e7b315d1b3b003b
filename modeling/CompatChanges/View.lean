import CompatChanges.Change

/-!
The two documents that a sequence of changes gives: the merged view, which holds each change as it
was read, and the device view, which holds the attributes alone.
-/

namespace CompatChanges

open CompatChanges.Xml

inductive View where
  | merged
  | device
  deriving Repr, DecidableEq

def configName : String := "config"

/-- The element that stands for `change` in the view. -/
def View.element (view : View) (change : Change) : Element :=
  match view with
  | .merged => change.element
  | .device => .ofAttributes Change.elementName change.attributes

/-- The root of the view's document, with an element for each change in order. -/
def View.project (view : View) (changes : List Change) : Element :=
  .ofChildren configName (changes.map view.element)

end CompatChanges
