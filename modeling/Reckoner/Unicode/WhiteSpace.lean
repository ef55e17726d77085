/-
  Reckoner.Unicode.WhiteSpace

  The Unicode property White_Space: the characters that separate tokens and that are
  trimmed from the lines of the console.
-/
import Reckoner.Unicode.Ranges

namespace Reckoner.Unicode

/-- The code points with the property White_Space, as ascending ranges that do not touch. -/
def whiteSpaceRanges : List (Nat × Nat) :=
  [(0x9, 0xD), (0x20, 0x20), (0x85, 0x85), (0xA0, 0xA0), (0x1680, 0x1680), (0x2000, 0x200A),
   (0x2028, 0x2029), (0x202F, 0x202F), (0x205F, 0x205F), (0x3000, 0x3000)]

/-- Whether a character has the Unicode property White_Space. -/
def isWhiteSpace (c : Char) : Bool :=
  inRanges whiteSpaceRanges c

/-- A line without the white space at its two ends. -/
def trim (line : String) : String :=
  String.ofList
    ((line.toList.dropWhile isWhiteSpace).reverse.dropWhile isWhiteSpace).reverse

end Reckoner.Unicode
