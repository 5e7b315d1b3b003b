import CompatChanges.Archive.Fragment
import CompatChanges.Conflict
import CompatChanges.Fragment
import CompatChanges.Sink
import CompatChanges.View
import CompatChanges.Xml.Layout

/-!
Merging. A merger takes fragments, each as a whole or not at all, and gives the views of the changes
taken so far. With detection on, conflicts are reported as soon as a fragment is taken, and once
there is one no view is written.
-/

namespace CompatChanges

open CompatChanges.Text CompatChanges.Xml

structure Options where
  detectConflicts : Bool
  layout : Layout
  deriving Repr, DecidableEq

inductive MergeError where
  | parse (label : String) (cause : Xml.Error)
  | missingKey (key : Key) (origin : Origin)
  | conflicts (count : Nat)
  | archive (cause : Archive.Error)
  /-- A view could not be written. -/
  | output (fault : SinkFault)
  /-- Conflicts could not be reported. -/
  | report (fault : SinkFault)
  /-- The fragment could not be read to its end. -/
  | input
  deriving Repr, DecidableEq

def SinkFault.ioMessage (fault : SinkFault) : String := s!"I/O error: {fault.message}"

def MergeError.message : MergeError → String
  | .parse label _ => s!"Failed to parse compat config fragment {label}"
  | .missingKey key origin =>
    s!"Compat change at {origin.text} is missing required attribute '{key.attributeName}'"
  | .conflicts count =>
    let noun := if count = 1 then "error" else "errors"
    s!"Failed to merge compat config: {count} {noun}"
  | .archive cause => cause.message
  | .output fault => s!"Failed to write compat config: {fault.ioMessage}"
  | .report fault => fault.ioMessage
  | .input => "I/O error: read failed"

def MergeError.trail (error : MergeError) : List String :=
  match error with
  | .parse _ cause => [error.message, cause.message]
  | .archive cause => cause.trail
  | .output fault => [error.message, fault.ioMessage, fault.message]
  | .report fault => [error.message, fault.message]
  | .input => [error.message, "read failed"]
  | .missingKey _ _ | .conflicts _ => [error.message]

/-- A merger that reports conflicts to a sink of type `σ`. -/
structure Merger (σ : Type := Sink) where
  options : Options
  changes : List Change
  tracker : Tracker
  reports : σ

/-- What a reader delivers: bytes, and whether it fails after them. -/
structure Stream where
  bytes : List UInt8
  fails : Bool

namespace Merger

variable {σ : Type}

def new (options : Options) (reports : σ) : Merger σ := ⟨options, [], .empty, reports⟩

/-- The number of conflicts found so far, which is zero without detection. -/
def conflictCount (merger : Merger σ) : Nat := merger.tracker.count

/-- The changes of a fragment. With detection on, each must have an id and a name. -/
def accept (options : Options) (bytes : List UInt8) (label : String) :
    Except MergeError (List Change) :=
  match readChanges bytes label with
  | .error error => .error (.parse label error)
  | .ok changes =>
    let missing := changes.findSome? fun change =>
      change.missingKey?.map fun key => MergeError.missingKey key change.origin
    match if options.detectConflicts then missing else none with
    | some error => .error error
    | none => .ok changes

/-- Takes the changes of a fragment, and tells the conflicts that they bring. -/
def commit (merger : Merger σ) (changes : List Change) : Merger σ × List Conflict :=
  let taken := { merger with changes := merger.changes ++ changes }
  if merger.options.detectConflicts then
    let (tracker, found) := merger.tracker.checkChanges changes
    ({ taken with tracker }, found)
  else (taken, [])

variable [ByteSink σ]

/-- Reports conflicts in order, up to the first line that the sink does not take. -/
def report (merger : Merger σ) (found : List Conflict) : Merger σ × Except MergeError Unit :=
  let lines := found.flatMap Conflict.report
  let (reports, outcome) :=
    ByteSink.writeAndFlush merger.reports (lines.map fun line => Utf8.encode line.toList)
  ({ merger with reports }, outcome.mapError .report)

def mergeBytes (merger : Merger σ) (bytes : List UInt8) (label : String) :
    Merger σ × Except MergeError Unit :=
  match accept merger.options bytes label with
  | .error error => (merger, .error error)
  | .ok changes =>
    let (merger, found) := merger.commit changes
    merger.report found

/-- Merges the fragment that a reader delivers, if the reader does not fail. -/
def merge (merger : Merger σ) (stream : Stream) (label : String) : Merger σ × Except MergeError Unit :=
  if stream.fails then (merger, .error .input) else merger.mergeBytes stream.bytes label

/-- Merges fragments in order, each under its label, up to the first that fails. -/
def mergeAll (merger : Merger σ) : List (List UInt8 × String) → Merger σ × Except MergeError Unit
  | [] => (merger, .ok ())
  | (bytes, label) :: rest =>
    match merger.mergeBytes bytes label with
    | (merger, .ok ()) => merger.mergeAll rest
    | (merger, .error error) => (merger, .error error)

/-- Merges the fragments of an archive that is already read. -/
def mergeFragments (merger : Merger σ) (fragments : List Archive.Fragment) (label : String) :
    Merger σ × Except MergeError Unit :=
  merger.mergeAll (fragments.map fun fragment => (fragment.contents, fragment.label label))

/-- Merges every fragment of an archive, and tells how many there were. -/
def mergeArchive (merger : Merger σ) (bytes : List UInt8) (label : String) :
    Merger σ × Except MergeError Nat :=
  match Archive.readFragments bytes with
  | .error error => (merger, .error (.archive error))
  | .ok fragments =>
    let (merger, outcome) := merger.mergeFragments fragments label
    (merger, outcome.map fun _ => fragments.length)

def ensureNoConflicts (merger : Merger σ) : Except MergeError Unit :=
  if merger.options.detectConflicts && 0 < merger.conflictCount then .error (.conflicts merger.conflictCount)
  else .ok ()

/-- Writes a view of the changes, unless there are conflicts. -/
def writeView {τ : Type} [ByteSink τ] (merger : Merger σ) (view : View) (sink : τ) :
    τ × Except MergeError Unit :=
  match merger.ensureNoConflicts with
  | .error error => (sink, .error error)
  | .ok () =>
    let (sink, outcome) := Xml.write (view.project merger.changes) merger.options.layout sink
    (sink, outcome.mapError .output)

end Merger

end CompatChanges
