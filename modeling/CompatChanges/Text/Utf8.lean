/-!
UTF-8. `pieces` splits any bytes into characters and the shortest prefixes at which a sequence is
known to be ill formed. The strict reader refuses at the first such prefix, the lenient one puts
U+FFFD in its place.
-/

namespace CompatChanges.Text.Utf8

def size (chars : List Char) : Nat := chars.foldr (fun c rest => c.utf8Size + rest) 0

def encode (chars : List Char) : List UInt8 := chars.flatMap String.utf8EncodeChar

@[simp] theorem size_nil : size [] = 0 := rfl

@[simp] theorem size_cons (c : Char) (chars : List Char) :
    size (c :: chars) = c.utf8Size + size chars := rfl

@[simp] theorem size_append (left right : List Char) : size (left ++ right) = size left + size right := by
  induction left with
  | nil => simp
  | cons c rest ih => simp [ih, Nat.add_assoc]

@[simp] theorem encode_nil : encode [] = [] := rfl

@[simp] theorem encode_append (left right : List Char) :
    encode (left ++ right) = encode left ++ encode right := by
  simp [encode]

inductive Piece where
  | char (c : Char)
  /-- `length` bytes after which no byte that follows continues a character. -/
  | illFormed (length : Nat)
  /-- The start of a character, `length` bytes long, at the end of the input. -/
  | cut (length : Nat)
  deriving Repr, DecidableEq

/-- A character of which `taken` bytes are read and `missing` are to come, the next of them from
`low` to `high`; `value` holds the bits so far. -/
structure Partial where
  value : Nat
  taken : Nat
  missing : Nat
  low : UInt8
  high : UInt8

def lead (b : UInt8) : Piece ⊕ Partial :=
  if b < 0x80 then .inl (.char (Char.ofNat b.toNat))
  else if b < 0xC2 then .inl (.illFormed 1)
  else if b < 0xE0 then .inr ⟨b.toNat - 0xC0, 1, 1, 0x80, 0xBF⟩
  else if b < 0xF0 then
    .inr ⟨b.toNat - 0xE0, 1, 2, if b = 0xE0 then 0xA0 else 0x80, if b = 0xED then 0x9F else 0xBF⟩
  else if b < 0xF5 then
    .inr ⟨b.toNat - 0xF0, 1, 3, if b = 0xF0 then 0x90 else 0x80, if b = 0xF4 then 0x8F else 0xBF⟩
  else .inl (.illFormed 1)

def Partial.extend (p : Partial) (b : UInt8) : Piece ⊕ Partial :=
  let value := p.value * 64 + (b.toNat - 0x80)
  if p.missing ≤ 1 then .inl (.char (Char.ofNat value))
  else .inr ⟨value, p.taken + 1, p.missing - 1, 0x80, 0xBF⟩

/-- A reading of bytes under way: the pieces found, the latest first, and the character that the
next byte may continue. -/
structure Reading where
  found : List Piece
  unfinished : Option Partial

def Reading.take (reading : Reading) : Piece ⊕ Partial → Reading
  | .inl piece => ⟨piece :: reading.found, none⟩
  | .inr p => ⟨reading.found, some p⟩

/-- A byte that does not continue the unfinished character ends it, and begins another. -/
def Reading.step (reading : Reading) (b : UInt8) : Reading :=
  match reading.unfinished with
  | none => reading.take (lead b)
  | some p =>
    if p.low ≤ b && b ≤ p.high then reading.take (p.extend b)
    else Reading.take ⟨.illFormed p.taken :: reading.found, none⟩ (lead b)

/-- All pieces of a reading whose input has ended, in order. -/
def Reading.finish (reading : Reading) : List Piece :=
  match reading.unfinished with
  | none => reading.found.reverse
  | some p => (.cut p.taken :: reading.found).reverse

def pieces (bytes : List UInt8) : List Piece :=
  (bytes.foldl Reading.step ⟨[], none⟩).finish

/-- Why bytes are no UTF-8: the index of the first fault, and the length of the ill-formed prefix
there unless the input ends inside a character. -/
structure Fault where
  index : Nat
  length : Option Nat
  deriving Repr, DecidableEq

def Fault.message (fault : Fault) : String :=
  match fault.length with
  | some length => s!"invalid utf-8 sequence of {length} bytes from index {fault.index}"
  | none => s!"incomplete utf-8 byte sequence from index {fault.index}"

def faultFrom? (index : Nat) : List Piece → Option Fault
  | [] => none
  | .char c :: rest => faultFrom? (index + c.utf8Size) rest
  | .illFormed length :: _ => some ⟨index, some length⟩
  | .cut _ :: _ => some ⟨index, none⟩

def Piece.char? : Piece → Option Char
  | .char c => some c
  | .illFormed _ | .cut _ => none

def decode (bytes : List UInt8) : Except Fault (List Char) :=
  match faultFrom? 0 (pieces bytes) with
  | some fault => .error fault
  | none => .ok ((pieces bytes).filterMap Piece.char?)

def Piece.orReplacement : Piece → Char
  | .char c => c
  | .illFormed _ | .cut _ => '\ufffd'

/-- The characters of `bytes`, with U+FFFD for each ill-formed piece. -/
def decodeLenient (bytes : List UInt8) : List Char := (pieces bytes).map Piece.orReplacement

end CompatChanges.Text.Utf8
