import ReturnCaptures.Settings.Document

/-!
# Reading settings documents

A settings document is written in TOML: lines that define values, and headers that open
tables and items of arrays of tables.  Values are strings of four kinds, numbers, truth
values, dates and times, arrays and tables.  A reader takes what it reads from the start of
a text, and as much of it as it can; what is left over is found where something else is
expected.
-/

namespace ReturnCaptures.Toml

/-- What a reader makes of the start of a text, and the text after it. -/
abbrev Reader (α : Type) := List Char → Option (α × List Char)

/-! ### Blanks and comments -/

/-- A blank: a space or a tab. -/
def isBlankChar (c : Char) : Bool := c == ' ' || c == '\t'

/-- The text after blanks. -/
def skipBlanks (text : List Char) : List Char := text.dropWhile isBlankChar

/-- Whether a character may not stand in a line. -/
def isControl (c : Char) : Bool :=
  (c.toNat < 0x20 && c != '\t') || c == '\x7f'

/-- The text after a comment; `none` if the comment holds a control character. -/
def skipComment : List Char → Option (List Char)
  | '#' :: text =>
    if (text.takeWhile (· != '\n')).any isControl then none
    else some (text.dropWhile (· != '\n'))
  | text => some text

/-- The text after the end of a line on which nothing but a comment is left. -/
def endLine (text : List Char) : Option (List Char) := do
  match ← skipComment (skipBlanks text) with
  | [] => some []
  | '\n' :: rest => some rest
  | _ => none

/-- The text after blanks, line ends and comments; the number of lines is at most
`bound`. -/
def skipLines : (bound : Nat) → List Char → Option (List Char)
  | 0, text => some text
  | bound + 1, text => do
    match ← skipComment (text.dropWhile fun c => isBlankChar c || c == '\n') with
    | '\n' :: rest => skipLines bound rest
    | rest => some rest

/-! ### Strings -/

/-- The value of a digit in a base up to sixteen. -/
def digit? (base : Nat) (c : Char) : Option Nat :=
  let value :=
    if c.isDigit then c.toNat - '0'.toNat
    else if 'a' ≤ c ∧ c ≤ 'f' then c.toNat - 'a'.toNat + 10
    else if 'A' ≤ c ∧ c ≤ 'F' then c.toNat - 'A'.toNat + 10
    else base
  if value < base then some value else none

/-- The character whose code point is written in hexadecimal digits. -/
def codePoint? (digits : List Char) : Option Char := do
  let n ← digits.foldlM (fun n c => do return 16 * n + (← digit? 16 c)) 0
  if n.isValidChar then some (Char.ofNat n) else none

/-- The character for the letter of a short escape. -/
def escape? : Char → Option Char
  | '"' => some '"'
  | '\\' => some '\\'
  | 'b' => some '\x08'
  | 't' => some '\t'
  | 'n' => some '\n'
  | 'f' => some '\x0c'
  | 'r' => some '\r'
  | _ => none

/-- Reads an escape, from after its backslash. -/
def escape : Reader Char
  | 'u' :: a :: b :: c :: d :: text => do return (← codePoint? [a, b, c, d], text)
  | 'U' :: a :: b :: c :: d :: e :: f :: g :: h :: text => do
    return (← codePoint? [a, b, c, d, e, f, g, h], text)
  | c :: text => do return (← escape? c, text)
  | [] => none

/-- Reads the rest of a basic string of at most `bound` characters, its closing quote
included. -/
def basicString : (bound : Nat) → Reader (List Char)
  | 0, _ => none
  | _, [] => none
  | _, '"' :: text => some ([], text)
  | bound + 1, '\\' :: text => do
    let (c, text) ← escape text
    let (rest, after) ← basicString bound text
    return (c :: rest, after)
  | bound + 1, c :: text =>
    if isControl c then none
    else do
      let (rest, after) ← basicString bound text
      return (c :: rest, after)

/-- Reads the rest of a literal string, its closing apostrophe included. -/
def literalString : Reader (List Char) := fun text =>
  match text.dropWhile (fun c => c != '\'' && !isControl c) with
  | '\'' :: after => some (text.takeWhile (fun c => c != '\'' && !isControl c), after)
  | _ => none

/-- Up to two delimiters that stand behind the three that close a string of several lines;
they belong to the string. -/
def extraDelimiters (delimiter : Char) : List Char → List Char × List Char
  | c :: d :: text =>
    if c = delimiter then
      if d = delimiter then ([c, d], text) else ([c], d :: text)
    else ([], c :: d :: text)
  | [c] => if c = delimiter then ([c], []) else ([], [c])
  | [] => ([], [])

/-- The text after a backslash at the end of a line and the blank start of the following
lines; `none` if the backslash is not the last character of its line. -/
def skipLineEnd (text : List Char) : Option (List Char) :=
  match skipBlanks text with
  | '\n' :: text => some (text.dropWhile fun c => isBlankChar c || c == '\n')
  | _ => none

/-- Reads the rest of a basic string of several lines and of at most `bound` characters, its
closing quotes included. -/
def basicLines : (bound : Nat) → Reader (List Char)
  | 0, _ => none
  | _, [] => none
  | _, '"' :: '"' :: '"' :: text => some (extraDelimiters '"' text)
  | bound + 1, '\\' :: text =>
    match skipLineEnd text with
    | some text => basicLines bound text
    | none => do
      let (c, text) ← escape text
      let (rest, after) ← basicLines bound text
      return (c :: rest, after)
  | bound + 1, c :: text =>
    if isControl c && c != '\n' then none
    else do
      let (rest, after) ← basicLines bound text
      return (c :: rest, after)

/-- Reads the rest of a literal string of several lines, its closing apostrophes
included. -/
def literalLines : Reader (List Char)
  | [] => none
  | '\'' :: '\'' :: '\'' :: text => some (extraDelimiters '\'' text)
  | c :: text =>
    if isControl c && c != '\n' then none
    else do
      let (rest, after) ← literalLines text
      return (c :: rest, after)

/-- The text without the line end it starts with. -/
def dropLineEnd : List Char → List Char
  | '\n' :: text => text
  | text => text

/-- Reads a string of one line. -/
def shortString : Reader (List Char)
  | '"' :: text => basicString (text.length + 1) text
  | '\'' :: text => literalString text
  | _ => none

/-- Reads a string. -/
def string : Reader (List Char)
  | '"' :: '"' :: '"' :: text => basicLines (text.length + 1) (dropLineEnd text)
  | '\'' :: '\'' :: '\'' :: text => literalLines (dropLineEnd text)
  | text => shortString text

/-! ### Names -/

/-- A character of a bare name. -/
def isNameChar (c : Char) : Bool := c.isAlphanum || c == '_' || c == '-'

/-- Reads a name, bare or as a string of one line. -/
def name : Reader String := fun text =>
  match text.takeWhile isNameChar with
  | [] => (shortString text).map fun (s, rest) => (String.ofList s, rest)
  | bare => some (String.ofList bare, text.dropWhile isNameChar)

/-- Reads at most `bound` names with dots between them, and the blanks behind them. -/
def path : (bound : Nat) → Reader (List String)
  | 0, _ => none
  | bound + 1, text => do
    let (first, rest) ← name text
    match skipBlanks rest with
    | '.' :: rest =>
      let (others, rest) ← path bound (skipBlanks rest)
      return (first :: others, rest)
    | rest => return ([first], rest)

/-! ### Dates and times -/

/-- Reads a number of two decimal digits that is not below `low` or above `high`. -/
def twoDigits (low high : Nat) : Reader Nat
  | c :: d :: text => do
    let n := 10 * (← digit? 10 c) + (← digit? 10 d)
    if low ≤ n ∧ n ≤ high then some (n, text) else none
  | _ => none

/-- The text after one of some characters. -/
def oneOf (characters : List Char) : List Char → Option (List Char)
  | c :: text => if characters.contains c then some text else none
  | [] => none

/-- The text after the fraction of a second, if there is one. -/
def skipFraction : List Char → List Char
  | '.' :: c :: text => if c.isDigit then text.dropWhile Char.isDigit else '.' :: c :: text
  | text => text

/-- The text after a time of the day. -/
def time (text : List Char) : Option (List Char) := do
  let (_, text) ← twoDigits 0 23 text
  let (_, text) ← twoDigits 0 59 (← oneOf [':'] text)
  let (_, text) ← twoDigits 0 59 (← oneOf [':'] text)
  return skipFraction text

/-- The text after the distance of a time from universal time. -/
def offset (text : List Char) : Option (List Char) :=
  oneOf ['Z', 'z'] text <|> do
    let (_, text) ← twoDigits 0 23 (← oneOf ['+', '-'] text)
    let (_, text) ← twoDigits 0 59 (← oneOf [':'] text)
    return text

/-- The number of days of a month. -/
def daysOf (year month : Nat) : Nat :=
  if month = 2 then
    if year % 4 = 0 ∧ (year % 100 ≠ 0 ∨ year % 400 = 0) then 29 else 28
  else if month = 4 ∨ month = 6 ∨ month = 9 ∨ month = 11 then 30
  else 31

/-- Reads a year, a month and a day, which need not exist. -/
def date : Reader (Nat × Nat × Nat) := fun text => do
  let (century, text) ← twoDigits 0 99 text
  let (year, text) ← twoDigits 0 99 text
  let (month, text) ← twoDigits 1 12 (← oneOf ['-'] text)
  let (day, text) ← twoDigits 1 31 (← oneOf ['-'] text)
  return ((100 * century + year, month, day), text)

/-- The text after a time behind a date, with its distance from universal time, as far as
they are given. -/
def skipTime (text : List Char) : List Char :=
  match (oneOf ['T', 't', ' '] text).bind time with
  | some rest => (offset rest).getD rest
  | none => text

/-! ### Numbers -/

/-- The digits behind a first one, between which single underscores may stand. -/
def moreDigits (base : Nat) : List Char → List Nat × List Char
  | '_' :: c :: text =>
    match digit? base c with
    | some n =>
      let (digits, rest) := moreDigits base text
      (n :: digits, rest)
    | none => ([], '_' :: c :: text)
  | c :: text =>
    match digit? base c with
    | some n =>
      let (digits, rest) := moreDigits base text
      (n :: digits, rest)
    | none => ([], c :: text)
  | [] => ([], [])

/-- Reads digits; single underscores may stand between two of them. -/
def digits (base : Nat) : Reader (List Nat)
  | c :: text => do
    let n ← digit? base c
    let (digits, rest) := moreDigits base text
    return (n :: digits, rest)
  | [] => none

/-- The number that digits write. -/
def valueOf (base : Nat) (digits : List Nat) : Nat := digits.foldl (fun n d => base * n + d) 0

/-- The base that a letter behind a zero stands for. -/
def base? : Char → Option Nat
  | 'x' => some 16
  | 'o' => some 8
  | 'b' => some 2
  | _ => none

/-- Reads an integer that is not written in decimal. -/
def basedInteger : Reader Nat
  | '0' :: letter :: text => do
    let base ← base? letter
    let (found, rest) ← digits base text
    return (valueOf base found, rest)
  | _ => none

/-- Whether a text starts with a minus, and the text after the sign it starts with. -/
def sign : List Char → Bool × List Char
  | '+' :: text => (false, text)
  | '-' :: text => (true, text)
  | text => (false, text)

/-- Reads the integer part of a decimal number; a zero may only stand alone. -/
def wholePart : Reader (List Nat)
  | '0' :: text => some ([0], text)
  | text => digits 10 text

/-- The digits behind a decimal point, if there are any. -/
def fraction (text : List Char) : List Nat × List Char :=
  ((oneOf ['.'] text).bind (digits 10)).getD ([], text)

/-- Reads an exponent. -/
def exponent : Reader Int := fun text => do
  let (isNegative, rest) := sign (← oneOf ['e', 'E'] text)
  let (found, rest) ← digits 10 rest
  let n := valueOf 10 found
  return (if isNegative then -n else n, rest)

/-- Whether the number that digits write at a power of ten is zero in double precision. -/
def isZero (digits : List Nat) (power : Int) : Bool :=
  let n := valueOf 10 digits
  n == 0 || digits.length + power < -400 ||
    (power < 0 && n.shiftLeft 1075 ≤ Nat.pow 10 power.natAbs)

/-- Reads a decimal number. -/
def decimal : Reader Node := fun text => do
  let (isNegative, rest) := sign text
  let (whole, rest) ← wholePart rest
  let (part, rest) := fraction rest
  match exponent rest with
  | some (e, rest) => return (.other !(isZero (whole ++ part) (e - part.length)), rest)
  | none =>
    if part.isEmpty then
      let n := valueOf 10 whole
      return (.scalar (.integer (if isNegative then -n else n)), rest)
    else return (.other !(isZero (whole ++ part) (-part.length)), rest)

/-- Reads a number. -/
def number : Reader Node := fun text =>
  match basedInteger text with
  | some (n, rest) => some (.scalar (.integer n), rest)
  | none =>
    match decimal text with
    | some found => some found
    | none =>
      match (sign text).2 with
      | 'i' :: 'n' :: 'f' :: rest => some (.other true, rest)
      | 'n' :: 'a' :: 'n' :: rest => some (.other true, rest)
      | _ => none

/-! ### Values -/

/-- Reads a value that is no array and no table. -/
def simple : Reader Node := fun text =>
  match text with
  | '"' :: _ | '\'' :: _ =>
    (string text).map fun (s, rest) => (.scalar (.string (String.ofList s)), rest)
  | 't' :: 'r' :: 'u' :: 'e' :: rest => some (.scalar (.boolean true), rest)
  | 'f' :: 'a' :: 'l' :: 's' :: 'e' :: rest => some (.scalar (.boolean false), rest)
  | _ =>
    match date text with
    | some ((year, month, day), rest) =>
      if 1 ≤ year ∧ day ≤ daysOf year month then some (.other true, skipTime rest) else none
    | none =>
      match time text with
      | some rest => some (.other true, rest)
      | none => number text

/-- A table between braces that is being read, and the paths of its values that are
closed. -/
abbrev Inline := Table × List (List String)

/-- Defines a value of a table between braces. -/
def Inline.define (table : Inline) (path : List String) (value : Node) : Option Inline :=
  if table.2.any (·.isPrefixOf path) then none
  else do
    let entries ← table.1.update false (Table.define (path.getLastD "") value) path.dropLast
    return (entries, if value.isCompound then path :: table.2 else table.2)

mutual

/-- Reads a value; `bound` is on the number of values, items and entries on the way to its
innermost part. -/
def value : (bound : Nat) → Reader Node
  | 0, _ => none
  | bound + 1, '[' :: text => (items bound text).map fun (items, rest) => (.array items, rest)
  | bound + 1, '\x7b' :: text =>
    match skipBlanks text with
    | '\x7d' :: rest => some (.table [], rest)
    | text => (entries bound ([], []) text).map fun (entries, rest) => (.table entries, rest)
  | _, text => simple text

/-- Reads the items of an array and its closing bracket; a comma may also follow the last
item. -/
def items : (bound : Nat) → Reader (List Node)
  | 0, _ => none
  | bound + 1, text => do
    match ← skipLines text.length text with
    | ']' :: after => return ([], after)
    | start =>
      let (item, rest) ← value bound start
      match ← skipLines rest.length rest with
      | ']' :: after => return ([item], after)
      | ',' :: rest =>
        let (others, after) ← items bound rest
        return (item :: others, after)
      | _ => none

/-- Reads the entries of a table between braces and its closing brace. -/
def entries : (bound : Nat) → Inline → Reader Table
  | 0, _, _ => none
  | bound + 1, table, text => do
    let (path, rest) ← path text.length text
    let (v, rest) ← value bound (skipBlanks (← oneOf ['='] rest))
    let table ← table.define path v
    match skipBlanks rest with
    | '\x7d' :: after => return (table.1, after)
    | ',' :: rest => entries bound table (skipBlanks rest)
    | _ => none

end

/-! ### Documents -/

/-- Reads the header of a table, from after its opening bracket. -/
def header (d : Draft) (text : List Char) : Option (Draft × List Char) := do
  let (path, rest) ← path text.length (skipBlanks text)
  return (← d.openTable path, ← oneOf [']'] rest)

/-- Reads the header of an item of an array of tables, from after its opening brackets. -/
def itemHeader (d : Draft) (text : List Char) : Option (Draft × List Char) := do
  let (path, rest) ← path text.length (skipBlanks text)
  return (← d.openItem path, ← oneOf [']'] (← oneOf [']'] rest))

/-- Reads the definition of a value. -/
def definition (d : Draft) (text : List Char) : Option (Draft × List Char) := do
  let (path, rest) ← path text.length text
  let (v, rest) ← value (2 * rest.length) (skipBlanks (← oneOf ['='] rest))
  return (← d.define path v, rest)

/-- Reads the lines of a document, of which `d` is what has been read; there are at most
`bound` of them. -/
def documentLines : (bound : Nat) → Draft → List Char → Option Document
  | 0, _, _ => none
  | bound + 1, d, text =>
    match skipBlanks text with
    | [] => some d.content
    | '\n' :: rest => documentLines bound d rest
    | '#' :: rest => do documentLines bound d (← endLine ('#' :: rest))
    | '[' :: '[' :: rest => do
      let (d, rest) ← itemHeader d rest
      documentLines bound d (← endLine rest)
    | '[' :: rest => do
      let (d, rest) ← header d rest
      documentLines bound d (← endLine rest)
    | start => do
      let (d, rest) ← definition d start
      documentLines bound d (← endLine rest)

/-- The text with a line feed for every carriage return and line feed. -/
def plainLineEnds : List Char → List Char
  | [] => []
  | '\r' :: '\n' :: text => '\n' :: plainLineEnds text
  | c :: text => c :: plainLineEnds text

/-- The document that a text holds; `none` if it is malformed. -/
def Document.ofText? (text : List Char) : Option Document :=
  documentLines (text.length + 1) .start (plainLineEnds text)

end ReturnCaptures.Toml
