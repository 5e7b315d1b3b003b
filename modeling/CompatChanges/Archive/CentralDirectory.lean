import CompatChanges.Archive.CodePage437
import CompatChanges.Archive.EndRecord
import CompatChanges.Archive.ExtraField

/-!
The central directory, which has a header for each entry.
-/

namespace CompatChanges.Archive

open CompatChanges.Text

/-- The characters of a name or a comment. -/
def decodeText (utf8 : Bool) (bytes : List UInt8) : String :=
  String.ofList (if utf8 then Utf8.decodeLenient bytes else CodePage437.decode bytes)

/-- What is written at `position` of the directory, before the extra fields count. -/
def plainHeader (image : Array UInt8) (position nameLength : Nat) (comment : List UInt8) : Header :=
  let flags := fieldD image (position + 8) 2
  let name := slice image (position + 46) nameLength
  { name := decodeText (flags.testBit 11) name
    nameBytes := name
    comment := decodeText (flags.testBit 11) comment
    encrypted := flags.testBit 0
    aes := false
    method := fieldD image (position + 10) 2
    checksum := fieldD image (position + 16) 4
    compressedSize := fieldD image (position + 20) 4
    size := fieldD image (position + 24) 4
    offset := fieldD image (position + 42) 4 }

/-- The header, if it fits the directory, with its offset in the shifted archive. -/
def Header.placeIn? (header : Header) (directory : Directory) : Option Header :=
  let offset := header.offset + directory.base
  if header.method = Header.wrapped && !header.aes then none
  else if directory.start ≤ offset then none
  else some { header with offset }

/-- The header at `position` of the directory, and where the next one starts. -/
def header? (image : Array UInt8) (directory : Directory) (position : Nat) : Option (Header × Nat) := do
  let signature ← field? image position 4
  let nameLength := fieldD image (position + 28) 2
  let extraLength := fieldD image (position + 30) 2
  let commentLength := fieldD image (position + 32) 2
  let extraStart := position + 46 + nameLength
  let commentStart := extraStart + extraLength
  let next := commentStart + commentLength
  if signature ≠ headerSignature || image.size < position + 46 || image.size < next then none
  else
    let header := plainHeader image position nameLength (slice image commentStart commentLength)
    let header ← header.readExtra (slice image extraStart extraLength)
    let header ← header.placeIn? directory
    some (header, next)

def headersFrom? (image : Array UInt8) (directory : Directory) :
    (count : Nat) → (position : Nat) → Option (List Header)
  | 0, _ => some []
  | count + 1, position => do
    let (header, next) ← header? image directory position
    let later ← headersFrom? image directory count next
    return header :: later

def headers? (image : Array UInt8) (directory : Directory) : Option (List Header) :=
  if directory.consistent then headersFrom? image directory directory.count directory.start else none

/-- Adds a header, which takes the place of an earlier one with its name. -/
def place (headers : List Header) (header : Header) : List Header :=
  if headers.any (·.name = header.name) then
    headers.map fun earlier => if earlier.name = header.name then header else earlier
  else headers ++ [header]

/-- The headers of the first directory that can be read, starting with the end record that comes
first in `positions`. A refusal is the reason given if nothing better is found; it is forgotten
when a later record leads to a directory that turns out to be unreadable. -/
def headersAt (image : Array UInt8) (reason : Option Error) :
    (positions : List Nat) → Except Error (List Header)
  | [] => .error (reason.getD (.damaged .noEndRecord))
  | position :: earlier =>
    match judge image position with
    | .refused error => headersAt image (some error) earlier
    | .unreadable error => headersAt image (reason.or (some error)) earlier
    | .found directory =>
      match headers? image directory with
      | some headers => .ok (headers.foldl place [])
      | none => headersAt image none earlier

/-- The headers of an archive, in order. The end record is searched for from the end. -/
def headers (image : Array UInt8) : Except Error (List Header) :=
  headersAt image none (signatures image endSignature 0 image.size).reverse

end CompatChanges.Archive
