import CompatChanges.Archive.Error

/-!
Reading bits. A byte gives its bits from the lowest. A reader never leaves more bits than it was
given, which its type records.
-/

namespace CompatChanges.Archive

abbrev Bits := List Bool

def bitsOfByte (byte : UInt8) : Bits := (List.range 8).map byte.toNat.testBit

def bitsOf (bytes : List UInt8) : Bits := bytes.flatMap bitsOfByte

/-- A reading of a value from the start of some bits, with the bits that it leaves. -/
def Reader (α : Type) : Type :=
  (bits : Bits) → Except DataFault (α × { rest : Bits // rest.length ≤ bits.length })

namespace Reader

instance : Monad Reader where
  pure a := fun bits => .ok (a, ⟨bits, Nat.le_refl _⟩)
  bind reader next := fun bits =>
    match reader bits with
    | .error fault => .error fault
    | .ok (a, ⟨rest, shorter⟩) =>
      match next a rest with
      | .error fault => .error fault
      | .ok (b, ⟨last, shortest⟩) => .ok (b, ⟨last, Nat.le_trans shortest shorter⟩)

def fail {α : Type} (fault : DataFault) : Reader α := fun _ => .error fault

def bit : Reader Bool
  | [] => .error .incomplete
  | b :: rest => .ok (b, ⟨rest, Nat.le_succ _⟩)

def number : (width : Nat) → Reader Nat
  | 0 => pure 0
  | width + 1 => do
    let low ← bit
    let high ← number width
    return low.toNat + 2 * high

/-- Skips to the next byte boundary: whole bytes are left. -/
def align : Reader Unit := fun bits =>
  .ok ((), ⟨bits.drop (bits.length % 8), by simp⟩)

end Reader

end CompatChanges.Archive
