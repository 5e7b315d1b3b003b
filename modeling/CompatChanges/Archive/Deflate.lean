import CompatChanges.Archive.Huffman

/-!
The deflate format. Decoding goes in steps, each of which takes at least one bit; what follows the
last block does not matter.
-/

namespace CompatChanges.Archive.Deflate

/-- The least length, and the number of extra bits, of the length symbols from 257 on. -/
def lengthTable : List (Nat × Nat) :=
  [(3, 0), (4, 0), (5, 0), (6, 0), (7, 0), (8, 0), (9, 0), (10, 0), (11, 1), (13, 1), (15, 1),
    (17, 1), (19, 2), (23, 2), (27, 2), (31, 2), (35, 3), (43, 3), (51, 3), (59, 3), (67, 4),
    (83, 4), (99, 4), (115, 4), (131, 5), (163, 5), (195, 5), (227, 5), (258, 0)]

/-- The least distance, and the number of extra bits, of the distance symbols. -/
def distanceTable : List (Nat × Nat) :=
  [(1, 0), (2, 0), (3, 0), (4, 0), (5, 1), (7, 1), (9, 2), (13, 2), (17, 3), (25, 3), (33, 4),
    (49, 4), (65, 5), (97, 5), (129, 6), (193, 6), (257, 7), (385, 7), (513, 8), (769, 8),
    (1025, 9), (1537, 9), (2049, 10), (3073, 10), (4097, 11), (6145, 11), (8193, 12), (12289, 12),
    (16385, 13), (24577, 13)]

/-- The order in which the lengths of the code for lengths are given. -/
def lengthOrder : List Nat := [16, 17, 18, 0, 8, 7, 9, 6, 10, 5, 11, 4, 12, 3, 13, 2, 14, 1, 15]

/-- The two codes of a compressed block: for literals and lengths, and for distances. -/
structure Codes where
  literal : Code
  distance : Code

def fixedCodes : Codes where
  literal := .ofLengths (List.replicate 144 8 ++ List.replicate 112 9 ++ List.replicate 24 7 ++
    List.replicate 8 8)
  distance := .ofLengths (List.replicate 32 5)

/-- A value from a table of least values and extra bits. -/
def tabled (table : List (Nat × Nat)) (index : Nat) : Reader Nat :=
  match table[index]? with
  | none => .fail .corrupt
  | some (least, extra) => do
    let more ← Reader.number extra
    return least + more

/-- The lengths of the code for lengths: `given` of them, in their own order. -/
def codeLengths (given : Nat) : Reader (List Nat) := do
  let lengths ← (List.range given).mapM fun _ => Reader.number 3
  let placed := lengthOrder.zip lengths
  return (List.range 19).map fun symbol => (placed.lookup symbol).getD 0

/-- Reads lengths of words until there are `total`; the latest comes first. A symbol from 16 on
repeats the latest length, or zero. -/
def wordLengths (code : Code) (total : Nat) (found : List Nat) : Reader (List Nat) :=
  if missing : found.length < total then do
    let symbol ← code.reader
    if symbol < 16 then wordLengths code total (symbol :: found)
    else if symbol = 16 then do
      let latest ← found.head?.elim (.fail .corrupt) pure
      let more ← Reader.number 2
      wordLengths code total (List.replicate (3 + more) latest ++ found)
    else do
      let more ← if symbol = 17 then Reader.number 3 else (8 + ·) <$> Reader.number 7
      wordLengths code total (List.replicate (3 + more) 0 ++ found)
  else if found.length = total then return found.reverse
  else .fail .corrupt
termination_by total - found.length
decreasing_by all_goals simp only [List.length_cons, List.length_append, List.length_replicate]; omega

/-- A code may be incomplete if it has one word at most, of one bit. -/
def codeOf (lengths : List Nat) : Reader Code :=
  if Code.isComplete lengths || Code.isTrivial lengths then return .ofLengths lengths
  else .fail .corrupt

/-- The codes at the start of a block that has codes of its own. -/
def ownCodes : Reader Codes := do
  let literals ← (257 + ·) <$> Reader.number 5
  let distances ← (1 + ·) <$> Reader.number 5
  let given ← (4 + ·) <$> Reader.number 4
  if 286 < literals || 30 < distances then .fail .corrupt
  else
    let lengths ← codeLengths given
    if !Code.isComplete lengths then .fail .corrupt
    else
      let lengths ← wordLengths (.ofLengths lengths) (literals + distances) []
      let distance ← codeOf (lengths.drop literals)
      let literal ← codeOf (lengths.take literals)
      return { literal, distance }

/-- Appends `count` bytes, each a copy of the one `distance` before it; before the start there are
zeros. -/
def copy (distance : Nat) : (count : Nat) → (output : Array UInt8) → Array UInt8
  | 0, output => output
  | count + 1, output =>
    let byte := if distance ≤ output.size then output.getD (output.size - distance) 0 else 0
    copy distance count (output.push byte)

inductive Stage where
  | blockStart
  /-- In a stored block with `left` bytes to come. -/
  | stored (last : Bool) (left : Nat)
  | compressed (last : Bool) (codes : Codes)

inductive Progress where
  | finished (output : Array UInt8)
  | going (stage : Stage) (output : Array UInt8)

def blockEnd (last : Bool) (output : Array UInt8) : Progress :=
  if last then .finished output else .going .blockStart output

/-- The rest of the start of a block whose first bit is `last`. -/
def startBlock (last : Bool) (output : Array UInt8) : Reader Progress := do
  match ← Reader.number 2 with
  | 0 =>
    Reader.align
    let count ← Reader.number 16
    let complement ← Reader.number 16
    if count + complement ≠ 0xFFFF then .fail .corrupt
    else if count = 0 then return blockEnd last output
    else return .going (.stored last count) output
  | 1 => return .going (.compressed last fixedCodes) output
  | 2 =>
    let codes ← ownCodes
    return .going (.compressed last codes) output
  | _ => .fail .corrupt

/-- The rest of a symbol whose first bit is `b`, and what it stands for. -/
def nextSymbol (last : Bool) (codes : Codes) (b : Bool) (output : Array UInt8) : Reader Progress := do
  let symbol ← (codes.literal.after b).read
  if symbol < 256 then return .going (.compressed last codes) (output.push (UInt8.ofNat symbol))
  else if symbol = 256 then return blockEnd last output
  else
    let count ← tabled lengthTable (symbol - 257)
    let distance ← tabled distanceTable (← codes.distance.reader)
    return .going (.compressed last codes) (copy distance count output)

/-- One step, which begins with the bit `b`. -/
def step (stage : Stage) (b : Bool) (output : Array UInt8) : Reader Progress :=
  match stage with
  | .blockStart => startBlock b output
  | .stored last left => do
    let high ← Reader.number 7
    let output := output.push (UInt8.ofNat (b.toNat + 2 * high))
    return if left ≤ 1 then blockEnd last output else .going (.stored last (left - 1)) output
  | .compressed last codes => nextSymbol last codes b output

def inflateFrom (stage : Stage) (output : Array UInt8) (bits : Bits) : Except DataFault (List UInt8) :=
  match bits with
  | [] => .error .incomplete
  | b :: bits =>
    match step stage b output bits with
    | .error fault => .error fault
    | .ok (.finished output, _) => .ok output.toList
    | .ok (.going stage output, ⟨rest, _⟩) => inflateFrom stage output rest
termination_by bits.length
decreasing_by simp only [List.length_cons]; omega

def inflate (bytes : List UInt8) : Except DataFault (List UInt8) :=
  inflateFrom .blockStart #[] (bitsOf bytes)

end CompatChanges.Archive.Deflate
