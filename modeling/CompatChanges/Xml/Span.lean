/-!
Places in a source text: byte ranges, and the line and column of a byte offset.
-/

namespace CompatChanges.Xml

/-- The bytes from `start` up to but not including `stop`; a node built in memory has the empty
range at zero. -/
structure Span where
  start : Nat := 0
  stop : Nat := 0
  deriving Repr, DecidableEq, Inhabited

/-- The line and column of a byte offset, both counted from zero, the column in bytes. -/
structure Location where
  offset : Nat
  row : Nat
  column : Nat
  deriving Repr, DecidableEq

/-- The line number shown to users, which counts from one. -/
def Location.line (location : Location) : Nat := location.row + 1

/-- The offsets at which the lines after the first begin, for a text that begins at `offset`. -/
def laterLines : (offset : Nat) → List Char → List Nat
  | _, [] => []
  | offset, c :: rest =>
    let next := offset + c.utf8Size
    if c = '\n' then next :: laterLines next rest else laterLines next rest

/-- Where the lines of a text begin, in ascending order. -/
structure LineIndex where
  starts : Array Nat
  deriving Repr, DecidableEq

namespace LineIndex

def ofText (chars : List Char) : LineIndex := ⟨(0 :: laterLines 0 chars).toArray⟩

/-- Where the line with number `row` begins, counted from zero. -/
def start (index : LineIndex) (row : Nat) : Nat := index.starts.getD row 0

/-- The last of `count` lines, the first of which is `first`, that begins at or before `offset`. -/
def rowFrom (index : LineIndex) (offset first count : Nat) : Nat :=
  if 1 < count then
    let half := count / 2
    if index.start (first + half) ≤ offset then index.rowFrom offset (first + half) (count - half)
    else index.rowFrom offset first half
  else first
termination_by count

/-- The location of `offset`; past the end of the text it is on the last line. -/
def locate (index : LineIndex) (offset : Nat) : Location :=
  let row := index.rowFrom offset 0 index.starts.size
  { offset, row, column := offset - index.start row }

/-- Lines up to the one found begin at or before the offset if the first does, and later ones after
it. -/
theorem rowFrom_bounds (index : LineIndex) {offset first count : Nat}
    (ascending : ∀ i j, i ≤ j → j < first + count → index.start i ≤ index.start j)
    (reached : index.start first ≤ offset) (nonempty : 0 < count) :
    index.rowFrom offset first count < first + count ∧
      index.start (index.rowFrom offset first count) ≤ offset ∧
      ∀ later, index.rowFrom offset first count < later → later < first + count →
        offset < index.start later := by
  fun_induction rowFrom index offset first count with
  | case1 first count many half begun ih =>
    obtain ⟨below, begins, after⟩ := ih (fun i j le lt => ascending i j le (by omega)) begun (by omega)
    exact ⟨by omega, begins, fun later past lt => after later past (by omega)⟩
  | case2 first count many half begun ih =>
    obtain ⟨below, begins, after⟩ := ih (fun i j le lt => ascending i j le (by omega)) reached (by omega)
    refine ⟨by omega, begins, fun later past lt => ?_⟩
    by_cases near : later < first + half
    · exact after later past near
    · have := ascending (first + half) later (by omega) lt
      omega
  | case3 first count few =>
    exact ⟨by omega, reached, fun later past lt => by omega⟩

end LineIndex

end CompatChanges.Xml
