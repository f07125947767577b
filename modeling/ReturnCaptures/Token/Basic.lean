import ReturnCaptures.Text.Position

/-!
# Tokens

A token is a lexeme together with the span it was read from.  Punctuation is read one
character at a time: an operator of several characters is a run of punctuation in which
every character but the last is *joint*, that is, directly followed by the next one.
-/

namespace ReturnCaptures

/-- The kinds of literals. -/
inductive LiteralKind where
  | integer
  | float
  | string
  | rawString
  | byteString
  | cString
  | char
  | byte
deriving DecidableEq, Repr

/-- What a token is, apart from where it stands. -/
inductive Lexeme where
  /-- An identifier; a raw one keeps its `r#`. -/
  | ident (name : String)
  | keyword (word : String)
  /-- A lifetime or label, with its apostrophe. -/
  | lifetime (name : String)
  /-- A literal as it is written, with its delimiters and its suffix. -/
  | literal (kind : LiteralKind) (text : String)
  | punct (symbol : Char) (joint : Bool)
  /-- A documentation comment; an inner one documents what it stands in, an outer one
  what it stands before. -/
  | doc (inner : Bool) (text : String)
deriving DecidableEq, Repr

/-- The text of a lexeme, exactly as in the source. -/
def Lexeme.text : Lexeme → String
  | .ident name => name
  | .keyword word => word
  | .lifetime name => name
  | .literal _ text => text
  | .punct symbol _ => String.singleton symbol
  | .doc _ text => text

/-- Whether a lexeme is punctuation that the next token follows directly. -/
def Lexeme.isJoint : Lexeme → Bool
  | .punct _ joint => joint
  | _ => false

/-- A lexeme and where it stands. -/
structure Token where
  lexeme : Lexeme
  span : Span
deriving DecidableEq, Repr

/-- The text of a token. -/
def Token.text (t : Token) : String := t.lexeme.text

/-- The words that are no identifiers. -/
def keywords : List String :=
  ["as", "async", "await", "break", "const", "continue", "crate", "dyn",
   "else", "enum", "extern", "false", "fn", "for", "if", "impl", "in",
   "let", "loop", "match", "mod", "move", "mut", "pub", "ref", "return",
   "self", "Self", "static", "struct", "super", "trait", "true", "type",
   "unsafe", "use", "where", "while"]

/-- The keywords that may stand in a path. -/
def pathKeywords : List String := ["self", "Self", "super", "crate"]

/-- The punctuation characters, delimiters apart. -/
def punctuation : List Char :=
  ['+', '-', '*', '/', '%', '^', '!', '&', '|', '=', '<', '>', '@', '.', ',', ';', ':',
   '#', '$', '?', '~']

/-- The operators of several characters. -/
def operators : List (List Char) :=
  [['<', '<', '='], ['>', '>', '='], ['.', '.', '.'], ['.', '.', '='],
   [':', ':'], ['-', '>'], ['=', '>'], ['=', '='], ['!', '='], ['<', '='], ['>', '='],
   ['&', '&'], ['|', '|'], ['<', '<'], ['>', '>'], ['.', '.'],
   ['+', '='], ['-', '='], ['*', '='], ['/', '='], ['%', '='], ['^', '='], ['&', '='],
   ['|', '=']]

namespace Lexeme

/-- Whether a lexeme is an identifier or a keyword that may stand in a path. -/
def isPathWord : Lexeme → Bool
  | .ident _ => true
  | .keyword word => pathKeywords.contains word
  | _ => false

/-- Whether a lexeme is the punctuation character `c`. -/
def isPunct (c : Char) : Lexeme → Bool
  | .punct symbol _ => symbol == c
  | _ => false

/-- Whether a lexeme is the keyword `word`. -/
def isKeyword (word : String) : Lexeme → Bool
  | .keyword w => w == word
  | _ => false

/-- Whether a lexeme is a literal, the truth values included. -/
def isLiteral : Lexeme → Bool
  | .literal _ _ => true
  | .keyword word => word == "true" || word == "false"
  | _ => false

end Lexeme

end ReturnCaptures
