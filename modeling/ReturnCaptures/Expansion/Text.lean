import ReturnCaptures.Expansion.Basic
import ReturnCaptures.Expansion.Edit
import ReturnCaptures.Text.Lines

/-!
# Expansions as text

The text of an expanded function item is copied from the source wherever expansion changes
nothing, so that layout and comments survive.  Only the return clause is written anew, and
the declaration is inserted in front of the statements, on a line of its own if they start
on one.
-/

namespace ReturnCaptures

/-- The texts with a comma and a blank between them. -/
def commaList (texts : List (List Char)) : List Char :=
  [',', ' '].intercalate texts

/-- A single text alone, and several in parentheses. -/
def tupleText : List (List Char) → List Char
  | [text] => text
  | texts => '(' :: (commaList texts ++ [')'])

/-- The text of a declaration, with its patterns and types as they stand in the source. -/
def Declaration.textIn (source : List Char) (d : Declaration) : List Char :=
  ['l', 'e', 't', ' '] ++ tupleText (d.patterns.map (·.span.textIn source)) ++ [':', ' '] ++
    tupleText (d.types.map (·.run.span.textIn source)) ++ [';']

/-- The indentation of the line on which a margin of whitespace ends. -/
def indentation (margin : List Char) : List Char :=
  (margin.reverse.takeWhile (· != '\n')).reverse

/-- The statements of a body with a declaration in front of them.  If they start on a line
of their own, the declaration gets another, with their indentation. -/
def withDeclaration (declaration lineEnd statements : List Char) : List Char :=
  let margin := statements.takeWhile isWhitespace
  if isBlank statements then ' ' :: (declaration ++ [' '])
  else if margin.contains '\n' then lineEnd ++ indentation margin ++ declaration ++ statements
  else
    ' ' :: (declaration ++ ' ' :: statements.dropWhile (fun c => c == ' ' || c == '\t'))

namespace Expansion

/-- The offset at which the statements of a body start: after its inner attributes, or
after its opening brace. -/
def statementsStart (body : Group) : Nat :=
  match (splitInnerAttributes body.trees).1.getLast? with
  | some last => last.span.stop
  | none => body.opening.stop

/-- The trees of the body in which edits may stand: all of them, or only the statements if
a declaration is inserted in front of them. -/
def openTrees (x : Expansion) : List TokenTree :=
  match x.item.body?, x.declaration with
  | none, _ => []
  | some body, none => body.trees
  | some body, some _ => (splitInnerAttributes body.trees).2

/-- The text of the inside of the body, with edits applied. -/
def bodyText (source : List Char) (edits : List Edit) (x : Expansion) (body : Group) :
    List Char :=
  let start := body.opening.stop
  let stop := body.closing.start
  match x.declaration with
  | none => splice source start stop edits
  | some declaration =>
    let first := statementsStart body
    let lineEnd := if hasCarriageReturns (slice source start stop) then ['\r', '\n'] else ['\n']
    slice source start first ++
      withDeclaration (declaration.textIn source) lineEnd (splice source first stop edits)

/-- The text of the new return clause, and the offset in the source at which the old one
ends; `start` is the offset at which it starts. -/
def returnText (source : List Char) (x : Expansion) (start : Nat) : List Char × Nat :=
  match x.item.returns with
  | .absent => ([], start)
  | .plain _ _ span => (slice source start span.stop, span.stop)
  | .captures arrow items _ span =>
    if x.replaced then
      (if items.isEmpty then []
        else
          slice source start arrow.tip.span.stop ++
            ' ' :: tupleText (items.map (·.type.run.span.textIn source)),
        span.stop)
    else (slice source start span.stop, span.stop)

/-- The text of an expanded item, with edits applied inside its body. -/
def textWith (source : List Char) (edits : List Edit) (x : Expansion) : List Char :=
  let head := x.item.params.group.closing.stop
  let (returns, tail) := returnText source x head
  slice source x.item.span.start head ++ returns ++
    match x.item.ending with
    | .semicolon token => slice source tail token.span.stop
    | .body body =>
      slice source tail body.opening.stop ++ bodyText source edits x body ++
        slice source body.closing.start body.closing.stop

/-- The text of an expanded item whose body is copied as it stands. -/
def textIn (source : List Char) (x : Expansion) : List Char := textWith source [] x

end Expansion

end ReturnCaptures
