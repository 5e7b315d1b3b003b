import CompatChanges.Text.Numeral
import CompatChanges.Text.Utf8

/-!
References: how characters that mean something in markup are written in text and in attribute
values, and how `&name;` and `&#number;` are read back.
-/

namespace CompatChanges.Xml

open CompatChanges.Text

def escapeChar (c : Char) : List Char :=
  match c with
  | '<' => "&lt;".toList
  | '>' => "&gt;".toList
  | '&' => "&amp;".toList
  | '\x27' => "&apos;".toList
  | '"' => "&quot;".toList
  | c => [c]

def escapeText (chars : List Char) : List Char := chars.flatMap escapeChar

/-- Tabs and line breaks, which would not survive in an attribute value. -/
def isBreak (c : Char) : Bool := c = '\t' || c = '\n' || c = '\r'

def escapeBreak (c : Char) : List Char :=
  match c with
  | '\t' => "&#9;".toList
  | '\n' => "&#10;".toList
  | '\r' => "&#13;".toList
  | c => [c]

/-- An attribute value is written as a text is; only if that leaves breaks is it gone through again. -/
def escapeValue (chars : List Char) : List Char :=
  let escaped := escapeText chars
  if escaped.any isBreak then escaped.flatMap escapeBreak else escaped

inductive NumberFault where
  | signed
  | numeral (fault : NumeralFault)
  | zero
  | noCharacter (number : Nat)
  deriving Repr, DecidableEq

def NumberFault.message : NumberFault → String
  | .signed => "unexpected number sign"
  | .numeral fault => fault.message
  | .zero => "0x0 character is not permitted in XML"
  | .noCharacter number => s!"`{number}` is not a valid codepoint"

/-- Why a text with references cannot be read; offsets are bytes of that text. -/
inductive ReferenceFault where
  | unterminated (start stop : Nat)
  | unknownName (start stop : Nat) (name : String)
  | badNumber (fault : NumberFault)
  deriving Repr, DecidableEq

def ReferenceFault.message : ReferenceFault → String
  | .unterminated start stop =>
    s!"Error while escaping character at range {start}..{stop}: Cannot find ';' after '&'"
  | .unknownName start stop name => s!"at {start}..{stop}: unrecognized entity `{name}`"
  | .badNumber fault => s!"invalid character reference: {fault.message}"

/-- The number that follows `#`: 32 bits, hexadecimal after `x`. -/
def readNumber (base : Nat) (digits : List Char) : Except NumberFault Nat :=
  match digits.head? with
  | some '+' | some '-' => .error .signed
  | _ => (readNumeral base (maxOfBits 32) digits).mapError .numeral

/-- The character that the number after `#` stands for. -/
def charOfNumber (digits : List Char) : Except NumberFault Char := do
  let number ← match digits with
    | 'x' :: digits => readNumber 16 digits
    | digits => readNumber 10 digits
  if number = 0 then .error .zero
  else if number.isValidChar then .ok (Char.ofNat number)
  else .error (.noCharacter number)

def charOfName? : List Char → Option Char
  | ['l', 't'] => some '<'
  | ['g', 't'] => some '>'
  | ['a', 'm', 'p'] => some '&'
  | ['a', 'p', 'o', 's'] => some '\x27'
  | ['q', 'u', 'o', 't'] => some '"'
  | _ => none

/-- What the name from `start` to `stop`, between `&` and `;`, refers to. -/
def referent (start stop : Nat) (name : List Char) : Except ReferenceFault Char :=
  match name with
  | '#' :: digits => (charOfNumber digits).mapError .badNumber
  | name =>
    match charOfName? name with
    | some c => .ok c
    | none => .error (.unknownName start stop (String.ofList name))

/-- A reference under way: the offset of its `&`, and its name so far, the latest character first. -/
structure OpenReference where
  start : Nat
  name : List Char

/-- The text from byte `offset` on of a text of `total` bytes, after the characters in `done`,
the latest of which comes first. -/
def unescapeFrom (total : Nat) (done : List Char) :
    (offset : Nat) → Option OpenReference → List Char → Except ReferenceFault (List Char)
  | _, none, [] => .ok done.reverse
  | _, some reference, [] => .error (.unterminated reference.start total)
  | offset, none, c :: rest =>
    if c = '&' then unescapeFrom total done (offset + 1) (some ⟨offset, []⟩) rest
    else unescapeFrom total (c :: done) (offset + c.utf8Size) none rest
  | offset, some reference, c :: rest =>
    if c = '&' then .error (.unterminated reference.start total)
    else if c = ';' then
      match referent (reference.start + 1) offset reference.name.reverse with
      | .error fault => .error fault
      | .ok named => unescapeFrom total (named :: done) (offset + 1) none rest
    else
      unescapeFrom total done (offset + c.utf8Size) (some { reference with name := c :: reference.name }) rest

def unescape (chars : List Char) : Except ReferenceFault (List Char) :=
  unescapeFrom (Utf8.size chars) [] 0 none chars

end CompatChanges.Xml
