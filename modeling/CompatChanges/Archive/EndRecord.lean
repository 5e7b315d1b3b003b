import CompatChanges.Archive.Error

/-!
Finding the central directory. The records at the end of an archive say where it is; bytes put in
front of the archive shift all their offsets by the same amount.
-/

namespace CompatChanges.Archive

/-- The number in `width` bytes at `offset`, the lowest byte first, if they are there. -/
def field? (image : Array UInt8) (offset : Nat) : (width : Nat) → Option Nat
  | 0 => some 0
  | width + 1 => do
    let low ← image[offset]?
    let high ← field? image (offset + 1) width
    return low.toNat + 256 * high

/-- The number in `width` bytes at `offset`, which is zero past the end. -/
def fieldD (image : Array UInt8) (offset width : Nat) : Nat := (field? image offset width).getD 0

def slice (image : Array UInt8) (offset count : Nat) : List UInt8 :=
  (image.extract offset (offset + count)).toList

/-- The offsets from `start` up to but not including `stop` at which `signature` stands. -/
def signatures (image : Array UInt8) (signature start stop : Nat) : List Nat :=
  (List.range' start (stop - start)).filter fun offset => field? image offset 4 = some signature

def headerSignature : Nat := 0x02014b50
def localSignature : Nat := 0x04034b50
def endSignature : Nat := 0x06054b50
def endSignature64 : Nat := 0x06064b50
def locatorSignature : Nat := 0x07064b50

structure Directory where
  /-- How far the archive is shifted. -/
  base : Nat
  /-- The offset of the first header in the shifted archive. -/
  start : Nat
  count : Nat
  /-- Whether the records agree that everything is on this disk. -/
  consistent : Bool
  deriving Repr, DecidableEq

/-- What an end record tells. -/
inductive Verdict where
  | found (directory : Directory)
  /-- The record contradicts the archive. -/
  | refused (error : Error)
  /-- There is not even a whole record. -/
  | unreadable (error : Error)

/-- The locator of a 64-bit end record, `offset` bytes into the archive. -/
structure Locator where
  position : Nat
  directoryDisk : Nat
  offset : Nat
  disks : Nat

/-- The locator that stands just before the end record at `position`. -/
def locatorBefore? (image : Array UInt8) (position : Nat) : Option Locator :=
  let start := position - 20
  if position < 20 || field? image start 4 ≠ some locatorSignature then none
  else some ⟨start, fieldD image (start + 4) 4, fieldD image (start + 8) 8, fieldD image (start + 16) 4⟩

/-- The directory that the 64-bit end record at `position` gives. -/
def directory64 (image : Array UInt8) (locator : Locator) (position : Nat) : Except Error Directory :=
  let available := locator.position - position
  let size := fieldD image (position + 4) 8
  let madeBy := fieldD image (position + 12) 2
  let needed := fieldD image (position + 14) 2
  let disk := fieldD image (position + 16) 4
  let directoryDisk := fieldD image (position + 20) 4
  let countHere := fieldD image (position + 24) 8
  let count := fieldD image (position + 32) 8
  let offset := fieldD image (position + 48) 8
  let base := position - locator.offset
  if image.size < position + 56 then .error .cutShort
  else if size < 44 then .error (.damaged .endRecord64Short)
  else if available < size + 12 then .error (.damaged .endRecord64Overlap)
  else if directoryDisk ≠ locator.directoryDisk then .error (.damaged .endRecord64Disk)
  else if size + 12 ≠ available then .error (.damaged .endRecord64Length)
  else if position < count * 46 + offset then .error (.damaged .endRecord64Count)
  else .ok {
    base, start := base + offset, count
    consistent := disk = directoryDisk && countHere ≤ count && needed ≤ madeBy }

/-- The directory of the first 64-bit end record that can be read, else the last reason why none
can. -/
def findDirectory64 (image : Array UInt8) (locator : Locator) (reason : Error) :
    (positions : List Nat) → Except Error Directory
  | [] => .error reason
  | position :: later =>
    match directory64 image locator position with
    | .ok directory => .ok directory
    | .error reason => findDirectory64 image locator reason later

/-- What the end record at `position` tells when a locator stands before it. -/
def judge64 (image : Array UInt8) (locator : Locator) : Verdict :=
  if locator.position ≤ locator.offset then .refused (.damaged .locatorOffset)
  else if 1 < locator.disks then .refused (.damaged .severalDisks)
  else
    let positions := signatures image endSignature64 locator.offset locator.position
    match findDirectory64 image locator (.damaged .noEndRecord64) positions with
    | .ok directory => .found directory
    | .error error => .refused error

/-- What the end record at `position` tells by itself. -/
def judge32 (image : Array UInt8) (position : Nat) : Verdict :=
  let consistent := fieldD image (position + 4) 2 = fieldD image (position + 6) 2
  let countHere := fieldD image (position + 8) 2
  let offset := fieldD image (position + 16) 4
  if fieldD image (position + 10) 2 = 0 then
    .found ⟨position - offset, position - offset + offset, countHere, consistent⟩
  else if position ≤ offset then .refused (.damaged .directoryOffset)
  else
    match (signatures image headerSignature offset position).head? with
    | some start => .found ⟨start - offset, start, countHere, consistent⟩
    | none => .refused (.damaged .noDirectory)

def judge (image : Array UInt8) (position : Nat) : Verdict :=
  let extended := fieldD image (position + 10) 2 = 0xFFFF || fieldD image (position + 16) 4 = 0xFFFFFFFF
  if image.size < position + 22 then .unreadable .cutShort
  else if image.size < position + 22 + fieldD image (position + 20) 2 then
    .unreadable (.damaged .endComment)
  else
    match if extended then locatorBefore? image position else none with
    | some locator => judge64 image locator
    | none => judge32 image position

end CompatChanges.Archive
