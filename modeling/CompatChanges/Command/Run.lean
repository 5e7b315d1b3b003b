import CompatChanges.Command.Arguments
import CompatChanges.Command.Files
import CompatChanges.Merge

/-!
Runs of the command: all inputs are merged, jars before single fragments, and then the outputs that
were asked for are written, each of them whole.
-/

namespace CompatChanges.Command

open CompatChanges.Text CompatChanges.Xml

/-- Why the fragments of a jar are not at hand. -/
inductive JarFault where
  | file (fault : FileFault)
  | archive (error : Archive.Error)

/-- The message and those of its causes. A directory can be opened, and fails as an archive. -/
def JarFault.trail : JarFault → List String
  | .file .isDirectory =>
    ["Invalid archive: i/o error", "i/o error", FileFault.isDirectory.message]
  | .file fault => [s!"Failed to read archive: {fault.message}", fault.message]
  | .archive error => error.trail

inductive Failure where
  | openJar (path : String) (fault : JarFault)
  | readXml (path : String) (fault : FileFault)
  | merge (error : MergeError)
  | writeOutput (path : String) (fault : FileFault)

def Failure.trail : Failure → List String
  | .openJar path fault => s!"Failed to open jar: {path}" :: fault.trail
  | .readXml path fault => [s!"Failed to read XML file: {path}", fault.message]
  | .merge error => error.trail
  | .writeOutput path fault => [s!"Failed to write output file: {path}", fault.message]

def Failure.line (failure : Failure) : String :=
  let text := ": ".intercalate failure.trail
  s!"Error: {text}\n"

/-- What is seen of a run, its files aside. -/
structure Outcome where
  exitCode : Nat
  stdout : String
  stderr : List UInt8
  deriving Repr, DecidableEq

def bytesOf (text : String) : List UInt8 := Utf8.encode text.toList

def commandName : String := "process-compat-config"

def versionLine : String := s!"{commandName} 0.1.0\n"

def helpText : String :=
  "Merge compat change config fragments from jars and XML files\n\n" ++
  "Usage: process-compat-config [OPTIONS]\n\n" ++
  "Options:\n" ++
  "      --jar <FILE>               Jar file to extract `*_compat_config.xml` fragments from (repeatable)\n" ++
  "      --xml <FILE>               Raw compat config XML fragment (repeatable)\n" ++
  "      --device-config <FILE>     Write the device config (attributes only) to FILE\n" ++
  "      --merged-config <FILE>     Write the merged config (metadata included) to FILE\n" ++
  "      --allow-duplicate-changes  Do not fail on changes that reuse an id or name\n" ++
  "      --indent <N>               Pretty-print outputs with N spaces per level\n" ++
  "  -h, --help                     Print help\n" ++
  "  -V, --version                  Print version\n"

def Request.options (request : Request) : Options where
  detectConflicts := !request.allowDuplicateChanges
  layout := match request.indent with
    | none => .compact
    | some spaces => .indented spaces

section

variable {m : Type → Type} [Monad m] (files : FileAccess m)

def jarFragments (path : String) : m (Except Failure (List Archive.Fragment)) := do
  match ← files.read path with
  | .error fault => return .error (.openJar path (.file fault))
  | .ok bytes =>
    match Archive.readFragments bytes with
    | .error error => return .error (.openJar path (.archive error))
    | .ok fragments => return .ok fragments

def mergeJars (merger : Merger) : (paths : List String) → m (Merger × Except Failure Unit)
  | [] => return (merger, .ok ())
  | path :: rest => do
    match ← jarFragments files path with
    | .error failure => return (merger, .error failure)
    | .ok fragments =>
      match merger.mergeFragments fragments path with
      | (merger, .error error) => return (merger, .error (.merge error))
      | (merger, .ok ()) => mergeJars merger rest

def mergeXmls (merger : Merger) : (paths : List String) → m (Merger × Except Failure Unit)
  | [] => return (merger, .ok ())
  | path :: rest => do
    match ← files.read path with
    | .error fault => return (merger, .error (.readXml path fault))
    | .ok bytes =>
      match merger.mergeBytes bytes path with
      | (merger, .error error) => return (merger, .error (.merge error))
      | (merger, .ok ()) => mergeXmls merger rest

def mergeInputs (request : Request) : m (Merger × Except Failure Unit) := do
  match ← mergeJars files (.new request.options .unlimited) request.jars with
  | (merger, .error failure) => return (merger, .error failure)
  | (merger, .ok ()) => mergeXmls files merger request.xmls

/-- Writes a view to `path`, if it is asked for. Nothing is touched before the view is complete. -/
def writeOutput (merger : Merger) (view : View) : (path : Option String) → m (Except Failure Unit)
  | none => return .ok ()
  | some path => do
    match merger.writeView view Sink.unlimited with
    | (_, .error error) => return .error (.merge error)
    | (rendered, .ok ()) =>
      match ← files.write path rendered.bytes with
      | .error fault => return .error (.writeOutput path fault)
      | .ok () => return .ok ()

/-- Writes the outputs that are asked for, the device config first. -/
def writeOutputs (merger : Merger) (request : Request) : m (Except Failure Unit) := do
  match ← writeOutput files merger .device request.deviceConfig with
  | .error failure => return .error failure
  | .ok () => writeOutput files merger .merged request.mergedConfig

def execute (request : Request) : m (Merger × Except Failure Unit) := do
  match ← mergeInputs files request with
  | (merger, .error failure) => return (merger, .error failure)
  | (merger, .ok ()) => return (merger, ← writeOutputs files merger request)

def run (arguments : List String) : m Outcome := do
  match parseArguments arguments with
  | .error error => return ⟨2, "", bytesOf s!"error: {error.message}\n"⟩
  | .ok .version => return ⟨0, versionLine, []⟩
  | .ok .help => return ⟨0, helpText, []⟩
  | .ok (.run request) =>
    match ← execute files request with
    | (merger, .error failure) => return ⟨1, "", merger.reports.bytes ++ bytesOf failure.line⟩
    | (merger, .ok ()) => return ⟨0, "", merger.reports.bytes⟩

end

end CompatChanges.Command
