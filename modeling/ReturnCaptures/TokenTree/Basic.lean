import ReturnCaptures.Token.Basic

/-!
# Token trees

A token tree is a token or a group: a list of trees between two delimiters that match.
Its *flat* form is the list of the texts of all its tokens, delimiters included.
-/

namespace ReturnCaptures

/-- The pairs of delimiters. -/
inductive Delimiter where
  | paren
  | bracket
  | brace
deriving DecidableEq, Repr

namespace Delimiter

/-- The opening character. -/
def opening : Delimiter → Char
  | paren => '('
  | bracket => '['
  | brace => '{'

/-- The closing character. -/
def closing : Delimiter → Char
  | paren => ')'
  | bracket => ']'
  | brace => '}'

/-- The pair that a character opens. -/
def ofOpening? : Char → Option Delimiter
  | '(' => some paren
  | '[' => some bracket
  | '{' => some brace
  | _ => none

/-- The pair that a character closes. -/
def ofClosing? : Char → Option Delimiter
  | ')' => some paren
  | ']' => some bracket
  | '}' => some brace
  | _ => none

end Delimiter

/-- A token, or trees between delimiters at the spans `opening` and `closing`. -/
inductive TokenTree where
  | token (token : Token)
  | group (delimiter : Delimiter) (trees : List TokenTree) (opening closing : Span)
deriving Repr

/-- The contents of a tree that is a group. -/
structure Group where
  delimiter : Delimiter
  trees : List TokenTree
  opening : Span
  closing : Span
deriving Repr

namespace Group

/-- A group as a tree. -/
def tree (g : Group) : TokenTree := .group g.delimiter g.trees g.opening g.closing

/-- The span of a group with its delimiters. -/
def span (g : Group) : Span := g.opening.through g.closing

end Group

namespace TokenTree

/-- The group that a tree is. -/
def group? : TokenTree → Option Group
  | .token _ => none
  | .group delimiter trees opening closing => some ⟨delimiter, trees, opening, closing⟩

/-- The lexeme that a tree is. -/
def lexeme? : TokenTree → Option Lexeme
  | .token t => some t.lexeme
  | .group .. => none

/-- The span of a tree. -/
def span : TokenTree → Span
  | .token t => t.span
  | .group _ _ opening closing => opening.through closing

mutual

/-- The texts of the tokens of a tree. -/
def flat : TokenTree → List String
  | .token t => [t.text]
  | .group delimiter trees _ _ =>
    String.singleton delimiter.opening ::
      (flatAll trees ++ [String.singleton delimiter.closing])

/-- The texts of the tokens of several trees. -/
def flatAll : List TokenTree → List String
  | [] => []
  | tree :: trees => tree.flat ++ flatAll trees

end

theorem flatAll_append (u v : List TokenTree) : flatAll (u ++ v) = flatAll u ++ flatAll v := by
  induction u with
  | nil => rfl
  | cons tree u ih => simp [flatAll, ih]

mutual

/-- The number of tokens and groups in a tree. -/
def size : TokenTree → Nat
  | .token _ => 1
  | .group _ trees _ _ => sizeAll trees + 1

/-- The number of tokens and groups in several trees. -/
def sizeAll : List TokenTree → Nat
  | [] => 0
  | tree :: trees => tree.size + sizeAll trees

end

mutual

/-- How many groups of a tree stand inside each other, at most. -/
def depth : TokenTree → Nat
  | .token _ => 0
  | .group _ trees _ _ => depthAll trees + 1

/-- How many groups of several trees stand inside each other, at most. -/
def depthAll : List TokenTree → Nat
  | [] => 0
  | tree :: trees => max tree.depth (depthAll trees)

end

end TokenTree

/-- A nonempty run of sibling trees and the span from the first to the last of them. -/
structure Run where
  trees : List TokenTree
  span : Span
deriving Repr

/-- The texts of the tokens of a run. -/
def Run.flat (run : Run) : List String := TokenTree.flatAll run.trees

/-- The run of a single tree. -/
def Run.single (tree : TokenTree) : Run := ⟨[tree], tree.span⟩

end ReturnCaptures
