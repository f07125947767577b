import ReturnCaptures.Text.CharRange

/-!
# Classes of characters

The classes that decide where a token ends.  Below code point 128 they are the familiar
ones; above, they follow Unicode.
-/

namespace ReturnCaptures

/-- Whitespace: the ASCII blanks and separators, and Unicode's space characters. -/
def isWhitespace (c : Char) : Bool :=
  let n := c.toNat
  (0x09 ≤ n && n ≤ 0x0D) || (0x1C ≤ n && n ≤ 0x20) ||
    inRanges
      [(0x85, 0x85), (0xA0, 0xA0), (0x1680, 0x1680), (0x2000, 0x200A), (0x2028, 0x2029),
       (0x202F, 0x202F), (0x205F, 0x205F), (0x3000, 0x3000)] n

/-- A letter. -/
def isLetter (c : Char) : Bool :=
  if c.toNat < 128 then c.isAlpha else inRanges letterRanges c.toNat

/-- A digit of any script, superscripts and subscripts included. -/
def isDigit (c : Char) : Bool :=
  if c.toNat < 128 then c.isDigit else inRanges digitRanges c.toNat

/-- A letter, a digit or another numeral. -/
def isAlphanumeric (c : Char) : Bool :=
  isLetter c || isDigit c || inRanges numeralRanges c.toNat

/-- A character that may start a word: a letter or an underscore. -/
def isWordStart (c : Char) : Bool :=
  isLetter c || c == '_'

/-- A character that may go on a word. -/
def isWordChar (c : Char) : Bool :=
  isAlphanumeric c || c == '_'

/-- A digit or the underscore that may separate digits. -/
def isDigitOrUnderscore (c : Char) : Bool :=
  isDigit c || c == '_'

/-- A character that prints as itself: the plain space, and every character that is neither a
control or format character, nor a separator, nor for private use, nor unassigned. -/
def isPrintable (c : Char) : Bool :=
  let n := c.toNat
  if n < 128 then 0x20 ≤ n && n < 0x7F else !inRanges unprintableRanges n

/-- Whether a text holds nothing but whitespace. -/
def isBlank (text : List Char) : Bool :=
  text.all isWhitespace

end ReturnCaptures
