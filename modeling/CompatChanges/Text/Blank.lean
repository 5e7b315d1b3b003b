/-!
Blank characters. Two sets are in use: the separators of markup, which are four, and Unicode's
White_Space, which decides what text is mere layout.
-/

namespace CompatChanges.Text

/-- The characters that separate the parts of a tag: space, tab, carriage return and line feed. -/
def isSeparator (c : Char) : Bool :=
  c = ' ' || c = '\t' || c = '\n' || c = '\r'

def isBlank (c : Char) : Bool :=
  let n := c.toNat
  (0x09 ≤ n && n ≤ 0x0D) || n = 0x20 || n = 0x85 || n = 0xA0 || n = 0x1680 ||
    (0x2000 ≤ n && n ≤ 0x200A) || n = 0x2028 || n = 0x2029 || n = 0x202F || n = 0x205F || n = 0x3000

/-- `chars` without the longest run at its end that satisfies `p`. -/
def dropTrailing (p : Char → Bool) (chars : List Char) : List Char :=
  (chars.reverse.dropWhile p).reverse

def trim (chars : List Char) : List Char :=
  dropTrailing isBlank (chars.dropWhile isBlank)

end CompatChanges.Text
