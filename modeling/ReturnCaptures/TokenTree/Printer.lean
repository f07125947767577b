import ReturnCaptures.TokenTree.Basic

/-!
# Printing token trees

Trees are printed on one line.  Between two neighbouring tokens stands nothing or one
blank, and a line end after a documentation comment that takes up its line.  Joint
punctuation is never separated, and two tokens that would be read as one always are.
-/

namespace ReturnCaptures.Printer

/-- What is printed between separators: a token or a delimiter. -/
inductive Atom where
  | lexeme (lexeme : Lexeme)
  | opening (delimiter : Delimiter)
  | closing (delimiter : Delimiter)
deriving DecidableEq, Repr

/-- The text of an atom. -/
def Atom.text : Atom → List Char
  | .lexeme l => l.text.toList
  | .opening d => [d.opening]
  | .closing d => [d.closing]

mutual

/-- The atoms of a tree. -/
def atoms : TokenTree → List Atom
  | .token t => [.lexeme t.lexeme]
  | .group delimiter trees _ _ =>
    .opening delimiter :: (atomsAll trees ++ [.closing delimiter])

/-- The atoms of several trees. -/
def atomsAll : List TokenTree → List Atom
  | [] => []
  | tree :: trees => atoms tree ++ atomsAll trees

end

namespace Atom

/-- Whether an atom is the punctuation character `c`. -/
def isPunct (c : Char) : Atom → Bool
  | .lexeme l => l.isPunct c
  | _ => false

/-- Whether an atom is punctuation, delimiters apart. -/
def isAnyPunct : Atom → Bool
  | .lexeme (.punct _ _) => true
  | _ => false

/-- Whether an atom is a lifetime. -/
def isLifetime : Atom → Bool
  | .lexeme (.lifetime _) => true
  | _ => false

/-- Whether an atom is punctuation that the next token follows directly. -/
def isJoint : Atom → Bool
  | .lexeme l => l.isJoint
  | _ => false

/-- Whether an atom opens a group. -/
def opens : Atom → Bool
  | .opening _ => true
  | _ => false

/-- Whether an atom closes a group. -/
def closes : Atom → Bool
  | .closing _ => true
  | _ => false

/-- Whether an atom may stand in a path. -/
def isPathWord : Atom → Bool
  | .lexeme l => l.isPathWord
  | _ => false

/-- Whether an operator after this atom is a prefix operator. -/
def beforeOperand : Atom → Bool
  | .opening _ => true
  | .lexeme (.punct _ _) => true
  | .lexeme (.keyword word) => !pathKeywords.contains word
  | _ => false

/-- Whether this atom makes a `>` after it the tip of an arrow. -/
def isArrowShaft (a : Atom) : Bool :=
  a.isJoint && (a.isPunct '-' || a.isPunct '=')

/-- Whether two atoms printed together would start an operator. -/
def merges (a b : Atom) : Bool :=
  operators.any (a.text ++ b.text).isPrefixOf

end Atom

/-- What follows a documentation comment. -/
def afterDoc (text : String) : List Char :=
  if ['/', '/'].isPrefixOf text.toList then ['\n'] else [' ']

/-- Nothing if `glued`, and one blank otherwise. -/
def blankUnless (glued : Bool) : List Char :=
  if glued then [] else [' ']

/-- Whether `prev` and a colon after it are printed together. -/
def gluesColon (prev : Atom) : Bool :=
  prev.isPathWord || prev.isPunct '>' || prev.closes

/-- Whether an opening parenthesis or bracket is printed directly after `prev`, itself
preceded by `before`. -/
def gluesOpening (before : Option Atom) (prev : Atom) : Bool :=
  prev.isPathWord || prev.isPunct '#' || prev.isPunct '!' ||
    (match prev with
      | .closing d => d != .brace
      | _ => false) ||
    (prev.isPunct '>' && !before.any Atom.isArrowShaft) ||
    ((prev.isPunct '&' || prev.isPunct '*') && before.all Atom.beforeOperand)

/-- Whether `prev` ends a path separator. -/
def endsSeparator (before : Option Atom) : Bool :=
  before.any fun b => b.isPunct ':' && b.isJoint

/-- Whether `prev` is a floating-point literal that ends in its point. -/
def endsInPoint : Atom → Bool
  | .lexeme (.literal .float text) => text.toList.getLast? == some '.'
  | _ => false

/-- Whether `prev`, preceded by `before`, is a prefix operator. -/
def isPrefixOperator (before : Option Atom) (prev : Atom) : Bool :=
  (prev.isPunct '&' || prev.isPunct '*' || prev.isPunct '-' || prev.isPunct '!') &&
    before.all Atom.beforeOperand

/-- Whether two tokens between which no operator, separator or delimiter rule decides are
printed together: members, generic brackets and prefix operators. -/
def gluesPlain (before : Option Atom) (prev cur : Atom) : Bool :=
  if cur.isPunct '.' then !endsInPoint prev
  else if prev.isPunct '.' then true
  else if cur.isPunct '?' then true
  else if cur.isPunct '!' then prev.isPathWord
  else if cur.isPunct '<' then prev.isPathWord
  else if prev.isPunct '<' then true
  else if cur.isPunct '>' then true
  else if prev.isPunct '>' then false
  else isPrefixOperator before prev

/-- Whether the tokens on the two sides of a delimiter are printed together; the rule for
plain tokens where there is no delimiter. -/
def glues (before : Option Atom) (prev cur : Atom) : Bool :=
  match prev, cur with
  | .opening .brace, .closing _ => true
  | .opening .brace, _ => false
  | .opening _, _ => true
  | _, .closing .brace => false
  | _, .closing _ => true
  | _, .opening .brace => false
  | _, .opening _ => gluesOpening before prev
  | _, _ => gluesPlain before prev cur

/-- What stands between `prev`, itself preceded by `before`, and `cur`. -/
def separator (before : Option Atom) (prev cur : Atom) : List Char :=
  match prev with
  | .lexeme (.doc _ text) => afterDoc text
  | _ =>
    if prev.isJoint && (cur.isAnyPunct || cur.isLifetime) then []
    else if prev.isAnyPunct && cur.isAnyPunct && prev.merges cur then [' ']
    else if cur.isPunct ',' || cur.isPunct ';' then []
    else if prev.isPunct ':' then blankUnless (endsSeparator before)
    else if cur.isPunct ':' then blankUnless (gluesColon prev)
    else blankUnless (glues before prev cur)

/-- The text of atoms after `prev`, itself preceded by `before`. -/
def textAfter (before : Option Atom) (prev : Atom) : List Atom → List Char
  | [] => []
  | cur :: rest => separator before prev cur ++ cur.text ++ textAfter (some prev) cur rest

/-- The text of atoms. -/
def textOf : List Atom → List Char
  | [] => []
  | first :: rest => first.text ++ textAfter none first rest

/-- The text of trees. -/
def print (trees : List TokenTree) : List Char := textOf (atomsAll trees)

end ReturnCaptures.Printer
