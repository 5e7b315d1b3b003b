/-!
Why an archive, or an entry of it, cannot be read.
-/

namespace CompatChanges.Archive

inductive Damage where
  | noEndRecord
  | endComment
  | directoryOffset
  | noDirectory
  | locatorOffset
  | severalDisks
  | noEndRecord64
  | endRecord64Short
  | endRecord64Overlap
  | endRecord64Disk
  | endRecord64Length
  | endRecord64Count
  | localHeader
  deriving Repr, DecidableEq

def Damage.message : Damage → String
  | .noEndRecord => "Could not find EOCD"
  | .endComment => "EOCD comment exceeds file boundary"
  | .directoryOffset => "Invalid CDFH offset in EOCD"
  | .noDirectory => "No CDFH found"
  | .locatorOffset => "Invalid EOCD64 Locator CD offset"
  | .severalDisks => "Multi-disk ZIP files are not supported"
  | .noEndRecord64 => "Could not find EOCD64"
  | .endRecord64Short => "Low EOCD64 record size"
  | .endRecord64Overlap => "EOCD64 extends beyond EOCD64 locator"
  | .endRecord64Disk => "Invalid EOCD64: inconsistency with Locator data"
  | .endRecord64Length => "Invalid EOCD64: inconsistent length"
  | .endRecord64Count => "Invalid EOCD64: inconsistent number of files"
  | .localHeader => "Invalid local file header"

/-- What the format allows and is not read here. -/
inductive Unsupported where
  | encryption
  | method
  deriving Repr, DecidableEq

def Unsupported.message : Unsupported → String
  | .encryption => "Password required to decrypt file"
  | .method => "Compression method not supported"

inductive DataFault where
  | corrupt
  | incomplete
  | checksum
  deriving Repr, DecidableEq

def DataFault.message : DataFault → String
  | .corrupt => "corrupt deflate stream"
  | .incomplete => "incomplete deflate stream"
  | .checksum => "Invalid checksum"

inductive Error where
  /-- A record runs past the end of the archive. -/
  | cutShort
  | damaged (damage : Damage)
  | unsupported (what : Unsupported)
  /-- The entry is encrypted, though it is not marked as encrypted. -/
  | wrongPassword
  | data (fault : DataFault)
  deriving Repr, DecidableEq

namespace Error

/-- The message and those of its causes, the outermost first; a message may repeat its cause. -/
def trail : Error → List String
  | .cutShort => ["Invalid archive: i/o error", "i/o error", "failed to fill whole buffer"]
  | .damaged damage =>
    let cause := s!"invalid Zip archive: {damage.message}"
    [s!"Invalid archive: {cause}", cause]
  | .unsupported what =>
    let cause := s!"unsupported Zip archive: {what.message}"
    [s!"Invalid archive: {cause}", cause]
  | .wrongPassword =>
    let cause := "provided password is incorrect"
    [s!"Invalid archive: {cause}", cause]
  | .data fault => [s!"Failed to read archive: {fault.message}", fault.message]

def message (error : Error) : String := error.trail.headD ""

end Error

end CompatChanges.Archive
