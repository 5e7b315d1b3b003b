/-!
Unsigned numerals of bounded value. Digits are read from the left, and the first one that is no
digit or takes the value past the bound decides the fault.
-/

namespace CompatChanges.Text

inductive NumeralFault where
  | empty
  | invalidDigit
  | tooLarge
  deriving Repr, DecidableEq

def NumeralFault.message : NumeralFault → String
  | .empty => "cannot parse integer from empty string"
  | .invalidDigit => "invalid digit found in string"
  | .tooLarge => "number too large to fit in target type"

/-- The value of `c` as a digit of `base`, which is at most sixteen. -/
def digitValue (base : Nat) (c : Char) : Option Nat :=
  let value :=
    if '0' ≤ c && c ≤ '9' then some (c.toNat - '0'.toNat)
    else if 'a' ≤ c && c ≤ 'f' then some (c.toNat - 'a'.toNat + 10)
    else if 'A' ≤ c && c ≤ 'F' then some (c.toNat - 'A'.toNat + 10)
    else none
  value.filter (· < base)

/-- The value of `value` followed by the digits given. -/
def readDigits (base bound : Nat) : (value : Nat) → List Char → Except NumeralFault Nat
  | value, [] => .ok value
  | value, c :: rest =>
    match digitValue base c with
    | none => .error .invalidDigit
    | some digit =>
      let next := value * base + digit
      if next ≤ bound then readDigits base bound next rest else .error .tooLarge

def readNumeral (base bound : Nat) (digits : List Char) : Except NumeralFault Nat :=
  if digits.isEmpty then .error .empty else readDigits base bound 0 digits

/-- The value of a decimal numeral that may begin with one `+`. -/
def readUnsigned (bound : Nat) : List Char → Option Nat
  | '+' :: digits => (readNumeral 10 bound digits).toOption
  | digits => (readNumeral 10 bound digits).toOption

def maxOfBits (bits : Nat) : Nat := 1 <<< bits - 1

end CompatChanges.Text
