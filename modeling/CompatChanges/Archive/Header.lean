/-!
Headers: what an archive says of one of its entries.
-/

namespace CompatChanges.Archive

structure Header where
  name : String
  /-- The bytes that the name is given by. -/
  nameBytes : List UInt8
  comment : String
  encrypted : Bool
  /-- Whether an AES field says how the entry is encrypted. -/
  aes : Bool
  method : Nat
  checksum : Nat
  size : Nat
  compressedSize : Nat
  /-- Where the local header of the entry starts. -/
  offset : Nat
  deriving Repr, DecidableEq

namespace Header

/-- The number of the method that leaves data as it is. -/
def stored : Nat := 0

def deflated : Nat := 8

/-- The method number of entries whose real method is given in an AES field. -/
def wrapped : Nat := 99

end Header

end CompatChanges.Archive
