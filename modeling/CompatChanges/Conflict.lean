import CompatChanges.Change

/-!
Conflicts: two changes with the same id, or with the same name. The tracker keeps where each id and
each name was defined first; every later definition is a conflict with that one.
-/

namespace CompatChanges

structure Conflict where
  key : Key
  value : String
  /-- Where the value was defined first. -/
  first : Origin
  /-- Where it is defined again. -/
  duplicate : Origin
  deriving Repr, DecidableEq

def Key.label : Key → String
  | .id => "ID"
  | .name => "name"

namespace Conflict

def summary (conflict : Conflict) : String :=
  s!"Duplicate definitions for compat change with {conflict.key.label} {conflict.value}"

/-- The lines that report the conflict, each with its line feed. -/
def report (conflict : Conflict) : List String :=
  [s!"ERROR: {conflict.summary}\n",
    s!"  first defined at {conflict.first.text}\n",
    s!"  redefined at {conflict.duplicate.text}\n"]

end Conflict

/-- The first origin of every value of a key, and how many conflicts there were. -/
structure Tracker where
  ids : List (String × Origin)
  names : List (String × Origin)
  count : Nat
  deriving Repr, DecidableEq

namespace Tracker

def empty : Tracker := ⟨[], [], 0⟩

def first? (tracker : Tracker) (key : Key) (value : String) : Option Origin :=
  match key with
  | .id => tracker.ids.lookup value
  | .name => tracker.names.lookup value

def define (tracker : Tracker) (key : Key) (value : String) (origin : Origin) : Tracker :=
  match key with
  | .id => { tracker with ids := (value, origin) :: tracker.ids }
  | .name => { tracker with names := (value, origin) :: tracker.names }

/-- Takes note of a definition, which is a conflict if there was one of the same value. -/
def check (tracker : Tracker) (key : Key) (value : String) (origin : Origin) :
    Tracker × Option Conflict :=
  match tracker.first? key value with
  | none => (tracker.define key value origin, none)
  | some first => ({ tracker with count := tracker.count + 1 }, some ⟨key, value, first, origin⟩)

def checkKey (tracker : Tracker) (change : Change) (key : Key) : Tracker × Option Conflict :=
  match change.key? key with
  | none => (tracker, none)
  | some value => tracker.check key value change.origin

def checkChange (tracker : Tracker) (change : Change) : Tracker × List Conflict :=
  let (tracker, onId) := tracker.checkKey change .id
  let (tracker, onName) := tracker.checkKey change .name
  (tracker, onId.toList ++ onName.toList)

def checkChanges (tracker : Tracker) : List Change → Tracker × List Conflict
  | [] => (tracker, [])
  | change :: rest =>
    let (tracker, found) := tracker.checkChange change
    let (tracker, later) := tracker.checkChanges rest
    (tracker, found ++ later)

end Tracker

end CompatChanges
