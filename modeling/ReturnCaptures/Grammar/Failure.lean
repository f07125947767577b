import ReturnCaptures.Diagnostic.Basic
import ReturnCaptures.TokenTree.Basic

/-!
# Failures of the grammar

A production that cannot read on fails with a problem and the span at which it arose.
Which part of a function item was being read is known only further out; it decides the
code of the diagnostic and its last note.
-/

namespace ReturnCaptures

/-- The parts of a function item, in the order in which they are read. -/
inductive Stage where
  /-- No part in particular. -/
  | item
  | attributes
  | visibility
  | qualifiers
  | functionKeyword
  | functionName
  | generics
  | params
  | returnClause
  | whereClause
  | body
deriving DecidableEq, Repr

/-- The name of a part. -/
def Stage.name : Stage → String
  | item => "function item"
  | attributes => "attributes"
  | visibility => "visibility"
  | qualifiers => "qualifiers"
  | functionKeyword => "function keyword"
  | functionName => "function name"
  | generics => "generic parameters"
  | params => "parameter list"
  | returnClause => "return clause"
  | whereClause => "where clause"
  | body => "body"

/-- A text between backquotes. -/
def ticked (s : String) : String := "`" ++ s ++ "`"

/-- How a message names the tree that stands where another was wanted. -/
def describe : Option TokenTree → String
  | none => "end of input"
  | some (.group delimiter _ _ _) => ticked (String.singleton delimiter.opening)
  | some (.token ⟨.doc _ _, _⟩) => "doc comment"
  | some (.token t) => ticked t.text

/-- What keeps a production from reading on. -/
inductive Problem where
  | expected (what : String) (found : Option TokenTree)
  | expectedBody (found : Option TokenTree)
  | afterItem (found : Option TokenTree)
  | noArrayLength
  | variadicNotLast
  /-- A capture that can be read neither with a pattern nor as a bare type; the number of
  captures before it is `index`. -/
  | malformedCapture (index : Nat) (asBound asBare : Problem)
  | unsupportedPattern
  | boundTwice (name : String)
  /-- The trees are nested more deeply than they were said to be. -/
  | tooDeep

namespace Problem

/-- The message of a problem. -/
def message : Problem → String
  | expected what found => "expected " ++ what ++ ", found " ++ describe found
  | expectedBody found => "expected `\x7b` or `;`, found " ++ describe found
  | afterItem found => "unexpected " ++ describe found ++ " after function item"
  | noArrayLength => "expected array length"
  | variadicNotLast => "`...` must be the last parameter"
  | malformedCapture index _ _ =>
    "return capture " ++ toString (index + 1) ++ " is neither `pattern: Type` nor a type"
  | unsupportedPattern => "named returns only bind identifiers, `_` and tuples of them"
  | boundTwice name =>
    "identifier " ++ ticked name ++ " is bound more than once in the named returns"
  | tooDeep => "the tokens are nested too deeply"

/-- The remark on the span of a problem. -/
def label : Problem → String
  | expectedBody _ => "expected the function body"
  | malformedCapture .. => "malformed return capture"
  | unsupportedPattern => "unsupported pattern"
  | boundTwice _ => "used as a named return more than once"
  | _ => ""

/-- The notes on a problem. -/
def notes : Problem → List String
  | malformedCapture _ asBound asBare =>
    ["as `pattern: Type`: " ++ asBound.message, "as a type: " ++ asBare.message]
  | _ => []

/-- The kind of a problem that arises while a part of an item is read. -/
def kind (stage : Stage) : Problem → ErrorKind
  | malformedCapture .. => .capture
  | unsupportedPattern => .capture
  | boundTwice _ => .capture
  | _ =>
    match stage with
    | .generics => .generics
    | .whereClause => .generics
    | _ => .mismatch

end Problem

/-- A problem and the span at which it arose. -/
structure Failure where
  problem : Problem
  span : Span

/-- The diagnostic of a failure while a part of an item is read. -/
def Failure.diagnostic (stage : Stage) (failure : Failure) : Diagnostic :=
  let problem := failure.problem
  .located (problem.kind stage) problem.message failure.span problem.label
    (problem.notes ++ ["while parsing the " ++ stage.name])

/-- The outcome of a production. -/
abbrev Outcome (α : Type) := Except Failure α

/-- The outcome of a production during a stage, with its failure as a diagnostic. -/
def Outcome.during (stage : Stage) {α : Type} (outcome : Outcome α) : Except Diagnostic α :=
  outcome.mapError (Failure.diagnostic stage)

end ReturnCaptures
