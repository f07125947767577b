import ReturnCaptures.Token.Lexer
import ReturnCaptures.TokenTree.Basic

/-!
# Building token trees

Tokens become trees by matching delimiters.  While the tokens are read, the groups that
are still open are kept on a stack, the innermost first, each with the trees that stand
before it.
-/

namespace ReturnCaptures

/-- A group that is still open: its delimiter, where it was opened, and the trees read
before it, the last one first. -/
structure OpenGroup where
  delimiter : Delimiter
  opening : Span
  before : List TokenTree
deriving Repr

/-- What is wrong with the delimiters of a token list. -/
inductive DelimiterFault where
  /-- A closing delimiter while no group is open. -/
  | unopened (closing : Char)
  /-- A closing delimiter that does not match the innermost open group. -/
  | mismatched (closing : Char) (innermost : OpenGroup)
  /-- The tokens end while a group is open. -/
  | unclosed

/-- The diagnostic of a fault at a delimiter. -/
def DelimiterFault.diagnostic (span : Span) : DelimiterFault → Diagnostic
  | .unopened closing =>
    .located .delimiter ("unexpected closing delimiter `" ++ String.singleton closing ++ "`")
      span "unexpected closing delimiter" []
  | .mismatched closing innermost =>
    .located .delimiter ("mismatched closing delimiter: `" ++ String.singleton closing ++ "`")
      span "mismatched closing delimiter"
      ["unclosed delimiter `" ++ String.singleton innermost.delimiter.opening ++
        "` opened at " ++ innermost.opening.location]
  | .unclosed =>
    .located .delimiter "this file contains an unclosed delimiter" span "unclosed delimiter" []

namespace TokenTree

/-- Reads tokens into trees: `stack` holds the open groups, the innermost first, and
`current` the trees read inside the innermost one, the last one first. -/
def read (stack : List OpenGroup) (current : List TokenTree) :
    List Token → Except Diagnostic (List TokenTree)
  | [] =>
    match stack with
    | [] => .ok current.reverse
    | innermost :: _ => .error (DelimiterFault.unclosed.diagnostic innermost.opening)
  | t :: tokens =>
    match t.lexeme with
    | .punct symbol _ =>
      match Delimiter.ofOpening? symbol, Delimiter.ofClosing? symbol with
      | some delimiter, _ => read (⟨delimiter, t.span, current⟩ :: stack) [] tokens
      | none, some delimiter =>
        match stack with
        | [] => .error ((DelimiterFault.unopened symbol).diagnostic t.span)
        | innermost :: outer =>
          if innermost.delimiter = delimiter then
            read outer
              (.group delimiter current.reverse innermost.opening t.span :: innermost.before)
              tokens
          else .error ((DelimiterFault.mismatched symbol innermost).diagnostic t.span)
      | none, none => read stack (.token t :: current) tokens
    | _ => read stack (.token t :: current) tokens

/-- The trees of a token list. -/
def ofTokens (tokens : List Token) : Except Rejection (List TokenTree) :=
  (read [] [] tokens).mapError fun d => [d]

/-- The trees of a text. -/
def ofText (file : String) (text : List Char) : Except Rejection (List TokenTree) := do
  ofTokens (← tokensOf file text)

end TokenTree

end ReturnCaptures
