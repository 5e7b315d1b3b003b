/-!
Comparison up to the case of ASCII letters. All other characters stand for themselves.
-/

namespace CompatChanges.Text

def equalIgnoringCase (left right : List Char) : Bool :=
  left.map Char.toLower = right.map Char.toLower

def startsIgnoringCase (start chars : List Char) : Bool :=
  equalIgnoringCase start (chars.take start.length)

end CompatChanges.Text
