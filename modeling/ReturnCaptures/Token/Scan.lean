import ReturnCaptures.Text.CharClass
import ReturnCaptures.Token.Basic

/-!
# Scanning one lexeme

The functions of this module look at a text and say what stands at its start: a lexeme,
trivia that separates lexemes, or a fault, and how many characters it takes.  They measure
and never cut, so that a later stage can cut the text without losing any of it.
-/

namespace ReturnCaptures

/-- What is wrong with a piece of text that is no token. -/
inductive LexicalFault where
  | unexpected (c : Char)
  | unterminatedComment
  | unterminatedString
  | unterminatedRawString
  | unterminatedChar
deriving DecidableEq, Repr

/-- What a piece of a text is. -/
inductive Reading where
  /-- Whitespace, or a comment that documents nothing. -/
  | trivia
  | lexeme (lexeme : Lexeme)
  | fault (cause : LexicalFault)
deriving DecidableEq, Repr

/-- What stands at the start of a text, and the number of its characters. -/
structure Scan where
  reading : Reading
  length : Nat
deriving DecidableEq, Repr

/-- The text of the first `n` characters. -/
def leading (n : Nat) (s : List Char) : String := String.ofList (s.take n)

/-- The length of the longest start of `s` all of whose characters are in the class
`p`. -/
def runLength (p : Char → Bool) (s : List Char) : Nat := (s.takeWhile p).length

/-- Whether `s` starts with a character of the class `p`. -/
def startsWith (p : Char → Bool) : List Char → Bool
  | [] => false
  | c :: _ => p c

namespace Scan

/-- The lexeme made of the first `n` characters. -/
def ofLexeme (make : String → Lexeme) (n : Nat) (s : List Char) : Scan :=
  ⟨.lexeme (make (leading n s)), n⟩

/-! ### Comments -/

/-- The length of the rest of a line: up to a line feed or the carriage return before
it. -/
def lineLength : List Char → Nat
  | [] => 0
  | '\n' :: _ => 0
  | '\r' :: '\n' :: _ => 0
  | _ :: s => lineLength s + 1

/-- A comment that starts with two slashes.  A third slash or an exclamation mark makes it
a documentation comment, a fourth slash does not. -/
def lineComment (s : List Char) : Scan :=
  let n := lineLength s
  if s[2]? = some '!' then ofLexeme (.doc true) n s
  else if s[2]? = some '/' && s[3]? != some '/' then ofLexeme (.doc false) n s
  else ⟨.trivia, n⟩

/-- The length of what is left of a block comment inside which `depth` comments are open;
`none` if one of them never ends. -/
def blockLength? : Nat → List Char → Option Nat
  | 0, _ => some 0
  | _ + 1, [] => none
  | depth + 1, '/' :: '*' :: s => (blockLength? (depth + 2) s).map (· + 2)
  | depth + 1, '*' :: '/' :: s => (blockLength? depth s).map (· + 2)
  | depth + 1, _ :: s => (blockLength? (depth + 1) s).map (· + 1)

/-- A comment that starts with a slash and a star.  A second star or an exclamation mark
makes it a documentation comment, unless that star ends it or is followed by a third. -/
def blockComment (s : List Char) : Scan :=
  match blockLength? 1 (s.drop 2) with
  | none => ⟨.fault .unterminatedComment, s.length⟩
  | some n =>
    if s[2]? = some '!' then ofLexeme (.doc true) (n + 2) s
    else if s[2]? = some '*' && s[3]? != some '*' && s[3]? != some '/' then
      ofLexeme (.doc false) (n + 2) s
    else ⟨.trivia, n + 2⟩

/-! ### Strings and characters -/

/-- The length of the suffix that a literal carries: a word, if one follows directly. -/
def suffixLength (s : List Char) : Nat :=
  if startsWith isWordStart s then runLength isWordChar s else 0

/-- The literal whose closing delimiter ends after `n` characters, with its suffix. -/
def literal (kind : LiteralKind) (n : Nat) (s : List Char) : Scan :=
  ofLexeme (.literal kind) (n + suffixLength (s.drop n)) s

/-- The length of the rest of a string, its closing quote included; `none` if there is
none.  A backslash takes the character after it along. -/
def stringLength? : List Char → Option Nat
  | [] => none
  | '"' :: _ => some 1
  | '\\' :: _ :: s => (stringLength? s).map (· + 2)
  | _ :: s => (stringLength? s).map (· + 1)

/-- A string whose opening quote ends after `n` characters. -/
def string (kind : LiteralKind) (n : Nat) (s : List Char) : Scan :=
  match stringLength? (s.drop n) with
  | none => ⟨.fault .unterminatedString, s.length⟩
  | some m => literal kind (n + m) s

/-- The length of the rest of a raw string, its closing quote and the `hashes` hash signs
after it included; `none` if there is no such quote. -/
def rawLength? (hashes : Nat) : List Char → Option Nat
  | [] => none
  | c :: s =>
    if c = '"' && s.take hashes == List.replicate hashes '#' then some (hashes + 1)
    else (rawLength? hashes s).map (· + 1)

/-- A raw string whose opening quote ends after `n` characters. -/
def rawString (kind : LiteralKind) (hashes n : Nat) (s : List Char) : Scan :=
  match rawLength? hashes (s.drop n) with
  | none => ⟨.fault .unterminatedRawString, s.length⟩
  | some m => literal kind (n + m) s

/-- The length of what stands for one character between apostrophes: a character, a
backslash and the character after it, or a code point in braces. -/
def charLength : List Char → Nat
  | [] => 0
  | '\\' :: 'u' :: '{' :: s => 3 + min (runLength (· != '}') s + 1) s.length
  | '\\' :: s => 1 + min 1 s.length
  | c :: _ => if c = '\'' then 0 else 1

/-- A character literal whose opening apostrophe ends after `n` characters. -/
def char (kind : LiteralKind) (n : Nat) (s : List Char) : Scan :=
  let m := n + charLength (s.drop n)
  if (s.drop m).head? = some '\'' then literal kind (m + 1) s
  else ⟨.fault .unterminatedChar, m⟩

/-- What an apostrophe starts: a lifetime, when a word follows whose first character is
not followed by a closing apostrophe, and a character literal otherwise. -/
def apostrophe (s : List Char) : Scan :=
  let word := s.drop 1
  if startsWith isWordStart word && word[1]? != some '\'' then
    ofLexeme .lifetime (1 + runLength isWordChar word) s
  else char .char 1 s

/-- How a literal with letters in front of its opening delimiter starts. -/
inductive Opening where
  | byte
  | quoted (kind : LiteralKind)
  /-- A raw string, with the number of its letters and of its hash signs. -/
  | raw (kind : LiteralKind) (letters hashes : Nat)
deriving DecidableEq, Repr

/-- The number of hash signs before a double quote, if nothing else stands before one. -/
def hashesBeforeQuote? : List Char → Option Nat
  | '"' :: _ => some 0
  | '#' :: s => (hashesBeforeQuote? s).map (· + 1)
  | _ => none

/-- The opening of a literal with letters in front, if the text starts with one. -/
def opening? : List Char → Option Opening
  | 'b' :: '\'' :: _ => some .byte
  | 'b' :: '"' :: _ => some (.quoted .byteString)
  | 'c' :: '"' :: _ => some (.quoted .cString)
  | 'b' :: 'r' :: s => (hashesBeforeQuote? s).map (.raw .byteString 2)
  | 'c' :: 'r' :: s => (hashesBeforeQuote? s).map (.raw .cString 2)
  | 'r' :: s => (hashesBeforeQuote? s).map (.raw .rawString 1)
  | _ => none

/-- The literal with a given opening. -/
def opened : Opening → List Char → Scan
  | .byte, s => char .byte 2 s
  | .quoted kind, s => string kind 2 s
  | .raw kind letters hashes, s => rawString kind hashes (letters + hashes + 1) s

/-! ### Numbers -/

/-- The length of a fraction: a point and the digits after it.  A point before another
point or a word is none, for it stands for a range or a field. -/
def fractionLength : List Char → Nat
  | '.' :: s =>
    if startsWith (fun c => c == '.' || isWordStart c) s then 0
    else 1 + runLength isDigitOrUnderscore s
  | _ => 0

/-- The length of an exponent: the letter, a sign if there is one, and the digits, of
which there has to be one. -/
def exponentLength : List Char → Nat
  | e :: s =>
    if e = 'e' || e = 'E' then
      if startsWith isDigit s then 1 + runLength isDigitOrUnderscore s
      else if startsWith (fun c => c == '+' || c == '-') s && startsWith isDigit (s.drop 1) then
        2 + runLength isDigitOrUnderscore (s.drop 1)
      else 0
    else 0
  | [] => 0

/-- The length of a number with a base, if the text starts with one. -/
def basedLength? : List Char → Option Nat
  | '0' :: base :: s =>
    if base = 'x' || base = 'o' || base = 'b' then some (2 + runLength isWordChar s) else none
  | _ => none

/-- A number.  A fraction, an exponent or the suffix of a floating-point type makes it a
floating-point literal. -/
def number (s : List Char) : Scan :=
  match basedLength? s with
  | some n => ofLexeme (.literal .integer) n s
  | none =>
    let whole := runLength isDigitOrUnderscore s
    let fraction := fractionLength (s.drop whole)
    let exponent := exponentLength (s.drop (whole + fraction))
    let n := whole + fraction + exponent
    let suffix := suffixLength (s.drop n)
    let kind :=
      if fraction != 0 || exponent != 0 || leading suffix (s.drop n) == "f32" ||
          leading suffix (s.drop n) == "f64" then LiteralKind.float
      else LiteralKind.integer
    ofLexeme (.literal kind) (n + suffix) s

/-! ### Words and punctuation -/

/-- The lexeme that a word is. -/
def wordLexeme (word : String) : Lexeme :=
  if keywords.contains word then .keyword word else .ident word

/-- The length of the mark in front of a raw identifier, 0 for other words. -/
def rawMarkLength : List Char → Nat
  | 'r' :: '#' :: s => if startsWith isWordStart s then 2 else 0
  | _ => 0

/-- A word. -/
def word (s : List Char) : Scan :=
  let mark := rawMarkLength s
  ofLexeme wordLexeme (mark + runLength isWordChar (s.drop mark)) s

/-- Whether punctuation before `s` is joint: punctuation or an apostrophe follows, and not
a comment. -/
def joins : List Char → Bool
  | '/' :: '/' :: _ => false
  | '/' :: '*' :: _ => false
  | c :: _ => punctuation.contains c || c == '\''
  | [] => false

/-- The delimiters. -/
def isDelimiter (c : Char) : Bool :=
  c == '(' || c == ')' || c == '[' || c == ']' || c == '{' || c == '}'

/-- What stands at the start of the text `c :: rest`. -/
def start (c : Char) (rest : List Char) : Scan :=
  let s := c :: rest
  if isWhitespace c then ⟨.trivia, 1⟩
  else if c = '/' && rest.head? = some '/' then lineComment s
  else if c = '/' && rest.head? = some '*' then blockComment s
  else
    match opening? s with
    | some opening => opened opening s
    | none =>
      if c = '"' then string .string 1 s
      else if c = '\'' then apostrophe s
      else if isDigit c then number s
      else if isWordStart c then word s
      else if isDelimiter c then ⟨.lexeme (.punct c false), 1⟩
      else if punctuation.contains c then ⟨.lexeme (.punct c (joins rest)), 1⟩
      else ⟨.fault (.unexpected c), 1⟩

end Scan

end ReturnCaptures
