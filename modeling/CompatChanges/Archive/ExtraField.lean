import CompatChanges.Archive.Crc32
import CompatChanges.Archive.Header
import CompatChanges.Text.Utf8

/-!
Extra fields, which amend a header. A field has a number for its kind, a length, and as many bytes.
A field that is against its format makes the header useless. One that is cut short does no harm:
it ends the reading of fields, and what was read so far counts.
-/

namespace CompatChanges.Archive

open CompatChanges.Text

inductive FieldKind where
  /-- Sizes and offset in 64 bits. -/
  | wide
  | ntfsTimes
  | unixTimes
  | unicodeComment
  | unicodeName
  | aes
  deriving Repr, DecidableEq

def FieldKind.ofNumber? : Nat → Option FieldKind
  | 0x0001 => some .wide
  | 0x000a => some .ntfsTimes
  | 0x5455 => some .unixTimes
  | 0x6375 => some .unicodeComment
  | 0x7075 => some .unicodeName
  | 0x9901 => some .aes
  | _ => none

inductive FieldOutcome where
  /-- The header with what the field says. -/
  | read (header : Header)
  /-- The bytes run out; the header has what was read of the field. -/
  | cutShort (header : Header)
  | refused
  deriving Repr, DecidableEq

def littleEndian (bytes : List UInt8) : Nat := bytes.foldr (fun byte rest => byte.toNat + 256 * rest) 0

def fewerThan (count : Nat) (bytes : List UInt8) : Bool := (bytes.take count).length < count

namespace Header

/-- The outcome of a field of `length` bytes that leaves the header as it is. -/
def passOver (header : Header) (length : Nat) (bytes : List UInt8) : FieldOutcome :=
  if fewerThan length bytes then .cutShort header else .read header

/-- The value that stands for one given in a field. -/
def elsewhere : Nat := 0xFFFFFFFF

/-- A value and the bytes left after it. The next eight bytes give it if the field gives `all`
values, or if the value is given elsewhere. -/
def wideValue? (all : Bool) (value : Nat) (bytes : List UInt8) : Option (Nat × List UInt8) :=
  if !all && value ≠ elsewhere then some (value, bytes)
  else if fewerThan 8 bytes then none
  else some (littleEndian (bytes.take 8), bytes.drop 8)

/-- A field that has room for all three values gives them all, else those that the header lacks. -/
def readWide (header : Header) (length : Nat) (bytes : List UInt8) : FieldOutcome :=
  let all : Bool := 24 ≤ length
  match wideValue? all header.size bytes with
  | none => .cutShort header
  | some (size, rest) =>
    let header := { header with size }
    match wideValue? all header.compressedSize rest with
    | none => .cutShort header
    | some (compressedSize, rest) =>
      let header := { header with compressedSize }
      match wideValue? all header.offset rest with
      | none => .cutShort header
      | some (offset, rest) =>
        let header := { header with offset }
        if length < bytes.length - rest.length then .refused else header.passOver length bytes

/-- Four bytes without a meaning, the number 1, the number 24, and three times. -/
def readNtfsTimes (header : Header) (length : Nat) (bytes : List UInt8) : FieldOutcome :=
  if length ≠ 32 then .refused
  else if fewerThan 6 bytes then .cutShort header
  else if littleEndian ((bytes.drop 4).take 2) ≠ 1 then .refused
  else if fewerThan 8 bytes then .cutShort header
  else if littleEndian ((bytes.drop 6).take 2) ≠ 24 then .refused
  else header.passOver length bytes

/-- A byte whose three lowest bits tell which times follow; a single time may follow whatever
they are. -/
def readUnixTimes (header : Header) (length : Nat) (bytes : List UInt8) : FieldOutcome :=
  match bytes with
  | [] => .cutShort header
  | flags :: _ =>
    let times := ((List.range 8).filter flags.toNat.testBit).length
    if length ≠ 5 && length ≠ 1 + 4 * times then .refused
    else if 8 ≤ flags then .refused
    else header.passOver length bytes

/-- The content, in UTF-8, of a field that takes the place of `current`: it follows a version and
the checksum of `current`. -/
def unicodeContent? (length : Nat) (bytes current : List UInt8) : Option String :=
  let content := (bytes.take length).drop 5
  if littleEndian ((bytes.drop 1).take 4) ≠ (Crc32.checksum current).toNat then none
  else (Utf8.decode content).toOption.map String.ofList

def readUnicode (header : Header) (length : Nat) (bytes current : List UInt8)
    (replace : String → Header) : FieldOutcome :=
  if fewerThan 5 bytes then .cutShort header
  else if length < 5 then .refused
  else if fewerThan length bytes then .cutShort header
  else
    match unicodeContent? length bytes current with
    | none => .refused
    | some content => .read (replace content)

/-- A version, the letters `AE`, the strength, and the real method. -/
def readAes (header : Header) (length : Nat) (bytes : List UInt8) : FieldOutcome :=
  if length ≠ 7 then .refused
  else
    match bytes with
    | version0 :: version1 :: vendor0 :: vendor1 :: strength :: method0 :: method1 :: _ =>
      let version := littleEndian [version0, version1]
      if littleEndian [vendor0, vendor1] ≠ 0x4541 then .refused
      else if version < 1 || 2 < version then .refused
      else if strength < 1 || 3 < strength then .refused
      else .read { header with aes := true, method := littleEndian [method0, method1] }
    | _ => .cutShort header

def readField (header : Header) (kind : Option FieldKind) (length : Nat) (bytes : List UInt8) :
    FieldOutcome :=
  match kind with
  | none => header.passOver length bytes
  | some .wide => header.readWide length bytes
  | some .ntfsTimes => header.readNtfsTimes length bytes
  | some .unixTimes => header.readUnixTimes length bytes
  | some .unicodeComment =>
    header.readUnicode length bytes (Utf8.encode header.comment.toList) fun comment =>
      { header with comment }
  | some .unicodeName =>
    header.readUnicode length bytes header.nameBytes fun name =>
      { header with name, nameBytes := Utf8.encode name.toList }
  | some .aes => header.readAes length bytes

/-- The header after all extra fields, if it is of use. -/
def readExtra (header : Header) : (extra : List UInt8) → Option Header
  | kind0 :: kind1 :: length0 :: length1 :: rest =>
    let length := littleEndian [length0, length1]
    match header.readField (FieldKind.ofNumber? (littleEndian [kind0, kind1])) length rest with
    | .refused => none
    | .cutShort header => some header
    | .read header => header.readExtra (rest.drop length)
  | _ => some header
termination_by extra => extra.length

end Header

end CompatChanges.Archive
