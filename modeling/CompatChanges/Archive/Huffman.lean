import CompatChanges.Archive.Bits

/-!
Codes given by the lengths of their words. The words of each length follow one another in the order
of the symbols, after those of the shorter lengths.
-/

namespace CompatChanges.Archive

inductive Code where
  | unused
  | symbol (value : Nat)
  | branch (zero one : Code)
  deriving Repr, DecidableEq

namespace Code

def maxLength : Nat := 15

def insert (value : Nat) : (word : Bits) → Code → Code
  | [], _ => .symbol value
  | b :: word, .branch zero one =>
    if b then .branch zero (insert value word one) else .branch (insert value word zero) one
  | b :: word, _ =>
    if b then .branch .unused (insert value word .unused)
    else .branch (insert value word .unused) .unused

/-- The symbols with words of this length, in order; symbol `i` has the length at `i`. -/
def symbolsOfLength (lengths : List Nat) (length : Nat) : List Nat :=
  (lengths.zipIdx.filter (·.1 = length)).map (·.2)

/-- The word of `length` bits whose value, highest bit first, is `value`. -/
def word (length value : Nat) : Bits := (List.range length).reverse.map value.testBit

/-- Adds the symbols with words of `length` bits. The first word still free comes with the code. -/
def addLength (lengths : List Nat) (state : Code × Nat) (length : Nat) : Code × Nat :=
  let symbols := symbolsOfLength lengths length
  let (code, first) := state
  let code := symbols.zipIdx.foldl (fun code (value, i) => code.insert value (word length (first + i))) code
  (code, 2 * (first + symbols.length))

/-- How many words of the greatest length would fill the code. -/
def weight (lengths : List Nat) : Nat :=
  (lengths.filter (· ≠ 0)).foldr (fun length rest => 1 <<< (maxLength - length) + rest) 0

/-- Whether the words of these lengths leave no bits without a meaning and none with two. -/
def isComplete (lengths : List Nat) : Bool := weight lengths = 1 <<< maxLength

/-- Whether no symbol has a word, or just one, of one bit. -/
def isTrivial (lengths : List Nat) : Bool :=
  match lengths.filter (· ≠ 0) with
  | [] => true
  | [length] => length = 1
  | _ => false

def ofLengths (lengths : List Nat) : Code :=
  ((List.range' 1 maxLength).foldl (addLength lengths) (.unused, 0)).1

/-- The part of the code for words that begin with `b`. -/
def after (code : Code) (b : Bool) : Code :=
  match code with
  | .branch zero one => if b then one else zero
  | .unused | .symbol _ => .unused

/-- Reads the rest of a word. Bits without a meaning are a fault. -/
def read : (code : Code) → (bits : Bits) →
    Except DataFault (Nat × { rest : Bits // rest.length ≤ bits.length })
  | .symbol value, bits => .ok (value, ⟨bits, Nat.le_refl _⟩)
  | .unused, _ => .error .corrupt
  | .branch _ _, [] => .error .incomplete
  | .branch zero one, b :: bits =>
    match b with
    | false =>
      match read zero bits with
      | .error fault => .error fault
      | .ok (value, ⟨rest, shorter⟩) => .ok (value, ⟨rest, Nat.le_succ_of_le shorter⟩)
    | true =>
      match read one bits with
      | .error fault => .error fault
      | .ok (value, ⟨rest, shorter⟩) => .ok (value, ⟨rest, Nat.le_succ_of_le shorter⟩)

/-- Reads a word, which has one bit at least. -/
def reader (code : Code) : Reader Nat := do
  let b ← Reader.bit
  (code.after b).read

end Code

end CompatChanges.Archive
