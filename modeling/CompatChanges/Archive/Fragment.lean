import CompatChanges.Archive.Entry

/-!
The fragments in an archive: the entries that have a fragment's name, wherever they are, with their
contents. Every entry of the archive must open, but only fragments are read.
-/

namespace CompatChanges.Archive

structure Fragment where
  entryName : String
  contents : List UInt8
  deriving Repr, DecidableEq

def fragmentEnding : String := "_compat_config.xml"

def isFragmentName (name : String) : Bool := fragmentEnding.toList.isSuffixOf name.toList

/-- The label of a fragment of the archive that is itself called `archive`. -/
def Fragment.label (fragment : Fragment) (archive : String) : String := s!"{archive}:{fragment.entryName}"

/-- The fragments among entries, in order, up to the first entry that cannot be opened or read. -/
def fragmentsOf : List Entry → Except Error (List Fragment)
  | [] => .ok []
  | entry :: rest => do
    entry.opening
    if entry.isDirectory || !isFragmentName entry.name then fragmentsOf rest
    else
      let contents ← entry.reading ()
      let later ← fragmentsOf rest
      return ⟨entry.name, contents⟩ :: later

def readFragments (bytes : List UInt8) : Except Error (List Fragment) := do
  fragmentsOf (← entries bytes)

end CompatChanges.Archive
