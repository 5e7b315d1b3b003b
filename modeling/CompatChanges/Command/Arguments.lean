import CompatChanges.Text.Numeral

/-!
The command line. Arguments are taken in order; the first that is wrong decides, and a request for
the version or for help is met at once.
-/

namespace CompatChanges.Command

open CompatChanges.Text

inductive ValueOption where
  | jar
  | xml
  | deviceConfig
  | mergedConfig
  | indent
  deriving Repr, DecidableEq

inductive Switch where
  | allowDuplicateChanges
  | version
  | help
  deriving Repr, DecidableEq

def ValueOption.ofName? : String → Option ValueOption
  | "jar" => some .jar
  | "xml" => some .xml
  | "device-config" => some .deviceConfig
  | "merged-config" => some .mergedConfig
  | "indent" => some .indent
  | _ => none

def Switch.ofName? : String → Option Switch
  | "allow-duplicate-changes" => some .allowDuplicateChanges
  | "version" => some .version
  | "help" => some .help
  | _ => none

structure Request where
  jars : List String
  xmls : List String
  deviceConfig : Option String
  mergedConfig : Option String
  indent : Option Nat
  allowDuplicateChanges : Bool
  deriving Repr, DecidableEq

def Request.empty : Request := ⟨[], [], none, none, none, false⟩

inductive Invocation where
  | run (request : Request)
  | version
  | help
  deriving Repr, DecidableEq

inductive UsageError where
  | unexpected (argument : String)
  | repeated (argument : String)
  | missingValue (argument : String)
  | badValue (argument value : String)
  | needlessValue (argument value : String)
  deriving Repr, DecidableEq

def UsageError.message : UsageError → String
  | .unexpected argument => s!"unexpected argument '{argument}' found"
  | .repeated argument => s!"the argument '{argument}' cannot be used multiple times"
  | .missingValue argument => s!"a value is required for '{argument}' but none was supplied"
  | .badValue argument value => s!"invalid value '{value}' for '{argument}'"
  | .needlessValue argument value => s!"unexpected value '{value}' for '{argument}' found"

def setOnce {α : Type} (argument : String) (current : Option α) (value : α) : Except UsageError (Option α) :=
  match current with
  | none => .ok (some value)
  | some _ => .error (.repeated argument)

/-- The number of spaces that a value of the indent option asks for. -/
def readIndent (argument value : String) : Except UsageError Nat :=
  match readUnsigned (maxOfBits 64) value.toList with
  | some spaces => .ok spaces
  | none => .error (.badValue argument value)

def Request.set (request : Request) (option : ValueOption) (argument value : String) :
    Except UsageError Request := do
  if value.isEmpty then .error (.missingValue argument)
  match option with
  | .jar => return { request with jars := request.jars ++ [value] }
  | .xml => return { request with xmls := request.xmls ++ [value] }
  | .deviceConfig =>
    return { request with deviceConfig := ← setOnce argument request.deviceConfig value }
  | .mergedConfig =>
    return { request with mergedConfig := ← setOnce argument request.mergedConfig value }
  | .indent =>
    return { request with indent := ← setOnce argument request.indent (← readIndent argument value) }

inductive Argument where
  /-- `--name` or `--name=value`. -/
  | long (name : String) (value : Option String)
  /-- One dash, and letters. -/
  | short (letter : Char)
  | separator
  | plain

def Argument.read (argument : String) : Argument :=
  match argument.toList with
  | ['-', '-'] => .separator
  | '-' :: '-' :: rest =>
    match rest.dropWhile (· ≠ '=') with
    | [] => .long (String.ofList rest) none
    | _ :: value => .long (String.ofList (rest.takeWhile (· ≠ '='))) (some (String.ofList value))
  | '-' :: letter :: _ => .short letter
  | _ => .plain

/-- Whether an argument can be the value of the option before it: a dash must stand alone. -/
def canBeValue (argument : String) : Bool :=
  match argument.toList with
  | '-' :: _ :: _ => false
  | _ => true

def Request.parse (request : Request) : (arguments : List String) → Except UsageError Invocation
  | [] => .ok (.run request)
  | argument :: rest =>
    match Argument.read argument with
    | .plain => .error (.unexpected argument)
    | .separator =>
      match rest with
      | [] => .ok (.run request)
      | extra :: _ => .error (.unexpected extra)
    | .short 'V' => .ok .version
    | .short 'h' => .ok .help
    | .short _ => .error (.unexpected argument)
    | .long name attached =>
      match ValueOption.ofName? name, Switch.ofName? name, attached, rest with
      | some option, _, some value, rest =>
        match request.set option argument value with
        | .error error => .error error
        | .ok request => request.parse rest
      | some option, _, none, value :: rest =>
        if canBeValue value then
          match request.set option argument value with
          | .error error => .error error
          | .ok request => request.parse rest
        else .error (.missingValue argument)
      | some _, _, none, [] => .error (.missingValue argument)
      | none, some _, some value, _ => .error (.needlessValue argument value)
      | none, some .version, none, _ => .ok .version
      | none, some .help, none, _ => .ok .help
      | none, some .allowDuplicateChanges, none, rest =>
        if request.allowDuplicateChanges then .error (.repeated argument)
        else { request with allowDuplicateChanges := true }.parse rest
      | none, none, _, _ => .error (.unexpected argument)

def parseArguments (arguments : List String) : Except UsageError Invocation :=
  Request.empty.parse arguments

end CompatChanges.Command
