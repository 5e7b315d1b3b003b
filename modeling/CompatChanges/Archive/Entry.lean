import CompatChanges.Archive.CentralDirectory
import CompatChanges.Archive.Deflate

/-!
The entries of an archive, as its central directory lists them. An entry is opened before it is
read, and either may fail.
-/

namespace CompatChanges.Archive

/-- An entry: the outcome of opening it, and that of reading it to the end once it is open. -/
structure Entry where
  name : String
  isDirectory : Bool
  opening : Except Error Unit
  reading : Unit → Except Error (List UInt8)

/-- An entry whose name ends in a slash of either kind is a directory. -/
def isDirectoryName (name : String) : Bool :=
  match name.toList.getLast? with
  | some c => c = '/' || c = '\\'
  | none => false

/-- Where the data of an entry starts, by its local header. -/
def dataStart (image : Array UInt8) (header : Header) : Except Error Nat :=
  if image.size < header.offset + 30 then .error .cutShort
  else if field? image header.offset 4 ≠ some localSignature then .error (.damaged .localHeader)
  else
    .ok (header.offset + 30 + fieldD image (header.offset + 26) 2 + fieldD image (header.offset + 28) 2)

/-- Whether the entry can be read, and where its data starts. -/
def openEntry (image : Array UInt8) (header : Header) : Except Error Nat :=
  if header.encrypted then .error (.unsupported .encryption)
  else
    match dataStart image header with
    | .error error => .error error
    | .ok start =>
      if header.method ≠ Header.stored && header.method ≠ Header.deflated then .error (.unsupported .method)
      else if header.aes then .error .wrongPassword
      else .ok start

/-- The data of an entry from its compressed form, which must agree with the checksum. -/
def expand (header : Header) (compressed : List UInt8) : Except Error (List UInt8) :=
  match if header.method = Header.stored then .ok compressed else Deflate.inflate compressed with
  | .error fault => .error (.data fault)
  | .ok contents =>
    if (Crc32.checksum contents).toNat = header.checksum then .ok contents else .error (.data .checksum)

def entryOf (image : Array UInt8) (header : Header) : Entry where
  name := header.name
  isDirectory := isDirectoryName header.name
  opening := (openEntry image header).map fun _ => ()
  reading := fun () => do
    let start ← openEntry image header
    expand header (slice image start header.compressedSize)

def entries (bytes : List UInt8) : Except Error (List Entry) :=
  let image := bytes.toArray
  (headers image).map fun found => found.map (entryOf image)

end CompatChanges.Archive
