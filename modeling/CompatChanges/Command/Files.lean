import CompatChanges.Text.Utf8

/-!
Files. The command reads and writes files as a whole, by path; `FileTree` is a tree of files in
memory with the same access as a disk.
-/

namespace CompatChanges.Command

open CompatChanges.Text

inductive FileFault where
  | notFound
  | notDirectory
  | isDirectory
  | nameTooLong
  | other (message : String)
  deriving Repr, DecidableEq

def FileFault.message : FileFault → String
  | .notFound => "No such file or directory (os error 2)"
  | .notDirectory => "Not a directory (os error 20)"
  | .isDirectory => "Is a directory (os error 21)"
  | .nameTooLong => "File name too long (os error 36)"
  | .other message => message

structure FileAccess (m : Type → Type) where
  read : (path : String) → m (Except FileFault (List UInt8))
  write : (path : String) → List UInt8 → m (Except FileFault Unit)

/-- A directory that is there whatever the tree holds. -/
inductive Base where
  | root
  /-- The directory `levels` above the working directory. -/
  | above (levels : Nat)
  deriving Repr, DecidableEq

/-- A file or directory by the names that lead to it from a base, the last name first. -/
structure Place where
  base : Base
  way : List String
  deriving Repr, DecidableEq

namespace Place

def child (place : Place) (name : String) : Place := { place with way := name :: place.way }

/-- The directory around a place; that around the root is the root. -/
def parent : Place → Place
  | ⟨base, _ :: way⟩ => ⟨base, way⟩
  | ⟨.root, []⟩ => ⟨.root, []⟩
  | ⟨.above levels, []⟩ => ⟨.above (levels + 1), []⟩

end Place

structure Path where
  base : Base
  names : List String
  /-- Whether a slash ends the path, which then stands for a directory. -/
  slashed : Bool
  deriving Repr, DecidableEq

namespace Path

def maxName : Nat := 255

def maxLength : Nat := 4095

/-- The texts between slashes, after the characters `seen` of the first one, the latest of which
comes first. -/
def splitFrom (seen : List Char) : List Char → List String
  | [] => [String.ofList seen.reverse]
  | c :: rest =>
    if c = '/' then String.ofList seen.reverse :: splitFrom [] rest else splitFrom (c :: seen) rest

def parse (path : String) : Except FileFault Path :=
  let chars := path.toList
  if chars.isEmpty then .error .notFound
  else if maxLength < Utf8.size chars then .error .nameTooLong
  else .ok {
    base := if ['/'].isPrefixOf chars then .root else .above 0
    names := (splitFrom [] chars).filter (· ≠ "")
    slashed := ['/'].isSuffixOf chars }

end Path

inductive FileNode where
  | file (contents : List UInt8)
  | directory
  deriving Repr, DecidableEq

structure FileTree where
  nodes : List (Place × FileNode)

namespace FileTree

def empty : FileTree := ⟨[]⟩

def node? (tree : FileTree) (place : Place) : Option FileNode :=
  if place.way.isEmpty then some .directory else tree.nodes.lookup place

def put (tree : FileTree) (place : Place) (node : FileNode) : FileTree :=
  ⟨(place, node) :: tree.nodes.filter (·.1 ≠ place)⟩

/-- Refuses a place where there is no directory. -/
def enter (tree : FileTree) (place : Place) : Except FileFault Unit :=
  match tree.node? place with
  | none => .error .notFound
  | some (.file _) => .error .notDirectory
  | some .directory => .ok ()

/-- Where a name leads from a directory, whether there is anything or not. -/
def step (place : Place) (name : String) : Except FileFault Place :=
  if name = "." then .ok place
  else if name = ".." then .ok place.parent
  else if Path.maxName < Utf8.size name.toList then .error .nameTooLong
  else .ok (place.child name)

/-- Follows names. All but the last must lead to directories. -/
def follow (tree : FileTree) (place : Place) : (names : List String) → Except FileFault Place
  | [] => .ok place
  | name :: rest => do
    tree.enter place
    tree.follow (← step place name) rest

def read (tree : FileTree) (path : String) : Except FileFault (List UInt8) := do
  let path ← Path.parse path
  let place ← tree.follow ⟨path.base, []⟩ path.names
  match tree.node? place with
  | none => .error .notFound
  | some .directory => .error .isDirectory
  | some (.file contents) => if path.slashed then .error .notDirectory else .ok contents

/-- The directory that holds what is at a path, and the last name of the path, if it has any. -/
def locate (tree : FileTree) (path : Path) : Except FileFault (Place × Option String) := do
  let around ← tree.follow ⟨path.base, []⟩ path.names.dropLast
  tree.enter around
  return (around, path.names.getLast?)

/-- The tree with `contents` at `path`, where a file may be but no directory. -/
def write (tree : FileTree) (path : String) (contents : List UInt8) : Except FileFault FileTree := do
  let path ← Path.parse path
  match ← tree.locate path with
  | (_, none) => .error .isDirectory
  | (around, some name) =>
    if path.slashed then .error .isDirectory
    else
      let place ← step around name
      if tree.node? place = some .directory then .error .isDirectory
      else .ok (tree.put place (.file contents))

/-- The tree with directories wherever `names` lead, where there is nothing yet. -/
def makeDirectories (tree : FileTree) (place : Place) : (names : List String) → Except FileFault FileTree
  | [] => .ok tree
  | name :: rest => do
    tree.enter place
    let place ← step place name
    let tree := if (tree.node? place).isSome then tree else tree.put place .directory
    tree.makeDirectories place rest

/-- The tree with a directory at `path`, if nothing is there yet, and with those that lead to it. -/
def makeDirectory (tree : FileTree) (path : String) : Except FileFault FileTree := do
  let path ← Path.parse path
  tree.makeDirectories ⟨path.base, []⟩ path.names

/-- The tree with `contents` at `path`, and with the directories that lead to it. -/
def add (tree : FileTree) (path : String) (contents : List UInt8) : Except FileFault FileTree := do
  let parsed ← Path.parse path
  let tree ← tree.makeDirectories ⟨parsed.base, []⟩ parsed.names.dropLast
  tree.write path contents

def access : FileAccess (StateM FileTree) where
  read path := do return (← get).read path
  write path contents := do
    match (← get).write path contents with
    | .error fault => return .error fault
    | .ok tree =>
      set tree
      return .ok ()

end FileTree

end CompatChanges.Command
