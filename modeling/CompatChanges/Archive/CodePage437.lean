/-!
Code page 437, in which archives without a mark for UTF-8 write names. Bytes below 128 are ASCII.
-/

namespace CompatChanges.Archive.CodePage437

/-- The characters of the bytes from 128 on. -/
def upperHalf : Array Char :=
  ("ÇüéâäàåçêëèïîìÄÅÉæÆôöòûùÿÖÜ¢£¥₧ƒ" ++
    "áíóúñÑªº¿⌐¬½¼¡«»░▒▓│┤╡╢╖╕╣║╗╝╜╛┐" ++
    "└┴┬├─┼╞╟╚╔╩╦╠═╬╧╨╤╥╙╘╒╓╫╪┘┌█▄▌▐▀" ++
    "αßΓπΣσµτΦΘΩδ∞φε∩≡±≥≤⌠⌡÷≈°∙·√ⁿ²■\u00a0").toList.toArray

def decodeByte (byte : UInt8) : Char :=
  if byte < 128 then Char.ofNat byte.toNat else upperHalf.getD (byte.toNat - 128) '\ufffd'

def decode (bytes : List UInt8) : List Char := bytes.map decodeByte

end CompatChanges.Archive.CodePage437
