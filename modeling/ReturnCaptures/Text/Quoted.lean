import ReturnCaptures.Text.CharClass

/-!
# Quoted text

Text shown in messages stands between quotes: single ones, unless the text holds a single
quote and no double one.  The backslash, the quote itself and every character that does
not print are escaped, so that the quoted text stays on its line.
-/

namespace ReturnCaptures.Quoted

/-- The lower-case hexadecimal digits of `n`, with zeros in front up to `width` of them. -/
def hex (width n : Nat) : List Char :=
  let digits := Nat.toDigits 16 n
  List.replicate (width - digits.length) '0' ++ digits

/-- One character of a text quoted with `quote`. -/
def encodeChar (quote c : Char) : List Char :=
  if c = quote || c = '\\' then ['\\', c]
  else if c = '\n' then ['\\', 'n']
  else if c = '\r' then ['\\', 'r']
  else if c = '\t' then ['\\', 't']
  else if isPrintable c then [c]
  else if c.toNat < 0x100 then '\\' :: 'x' :: hex 2 c.toNat
  else if c.toNat < 0x10000 then '\\' :: 'u' :: hex 4 c.toNat
  else '\\' :: 'U' :: hex 8 c.toNat

/-- The quote for a text. -/
def quoteFor (text : List Char) : Char :=
  if text.contains '\'' && !text.contains '"' then '"' else '\''

/-- A text between quotes. -/
def encode (text : List Char) : String :=
  let quote := quoteFor text
  String.ofList (quote :: (text.flatMap (encodeChar quote) ++ [quote]))

end ReturnCaptures.Quoted
