import ReturnCaptures.TokenTree.Basic

/-!
# Looking at the start of a list of trees

The questions that the grammar asks before it decides how to read on.
-/

namespace ReturnCaptures.TokenTree

/-- Whether the first tree is a token whose lexeme satisfies `p`. -/
def atLexeme (p : Lexeme → Bool) : List TokenTree → Bool
  | .token t :: _ => p t.lexeme
  | _ => false

/-- Whether the first tree is the punctuation character `c`. -/
def atPunct (c : Char) (trees : List TokenTree) : Bool :=
  atLexeme (·.isPunct c) trees

/-- Whether the trees start with the punctuation of an operator, joint up to its last
character. -/
def atOperator : List Char → List TokenTree → Bool
  | [], _ => true
  | [c], trees => atPunct c trees
  | c :: cs, .token t :: trees => t.lexeme == .punct c true && atOperator cs trees
  | _ :: _, _ => false

/-- Whether the first tree is the punctuation character `c` and starts no operator of
several characters. -/
def atSingle (c : Char) (trees : List TokenTree) : Bool :=
  atPunct c trees && !operators.any fun op => op.head? == some c && atOperator op trees

/-- Whether the first tree is the keyword `word`. -/
def atKeyword (word : String) (trees : List TokenTree) : Bool :=
  atLexeme (·.isKeyword word) trees

/-- Whether the first tree is an identifier. -/
def atIdent : List TokenTree → Bool :=
  atLexeme fun
    | .ident _ => true
    | _ => false

/-- Whether the first tree is a lifetime. -/
def atLifetime : List TokenTree → Bool :=
  atLexeme fun
    | .lifetime _ => true
    | _ => false

/-- Whether the first tree is an integer literal. -/
def atInteger : List TokenTree → Bool :=
  atLexeme fun
    | .literal .integer _ => true
    | _ => false

/-- Whether the first tree may start a path. -/
def atPathStart : List TokenTree → Bool :=
  atLexeme Lexeme.isPathWord

/-- Whether the first tree is a literal or a truth value. -/
def atLiteral : List TokenTree → Bool :=
  atLexeme Lexeme.isLiteral

/-- Whether the first tree is a group with the given delimiter. -/
def atGroup (delimiter : Delimiter) : List TokenTree → Bool
  | .group d _ _ _ :: _ => d == delimiter
  | _ => false

/-- Whether the first tree is a group. -/
def atAnyGroup : List TokenTree → Bool
  | .group .. :: _ => true
  | _ => false

/-- Whether the trees start with a colon that is not the first half of a path
separator. -/
def atColon (trees : List TokenTree) : Bool :=
  atPunct ':' trees && !atOperator [':', ':'] trees

end ReturnCaptures.TokenTree
