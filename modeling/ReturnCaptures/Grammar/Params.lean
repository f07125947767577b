import ReturnCaptures.Grammar.Generics
import ReturnCaptures.Grammar.Pattern

/-!
# Parameter lists

A parameter list may start with a receiver, which is some form of `self`, and may end with
three dots that stand for any number of further arguments.
-/

namespace ReturnCaptures

open TokenTree

/-- A parameter.  The run of a receiver leaves its attributes out, and so does the span of
a typed parameter. -/
inductive Param where
  | receiver (run : Run) (reference mutable : Bool)
  | typed (attributes : List Run) (pattern : Pattern) (type : TypeExpr)
deriving Repr

/-- The span of a parameter. -/
def Param.span : Param → Span
  | .receiver run _ _ => run.span
  | .typed _ pattern type => pattern.span.through type.run.span

/-- A parameter list: the parameters, the three dots at the end if they are there, and the
parentheses with all they hold. -/
structure ParamList where
  params : List Param
  variadic : Option Run
  group : Group
deriving Repr

namespace ParamList

/-- An entry of a parameter list. -/
inductive Entry where
  | param (param : Param)
  | variadic (run : Run)

/-- Reads a receiver, if one comes next. -/
def readReceiver (c : Cursor) : Outcome (Option (Param × Cursor)) := do
  let reference := atPunct '&' c.trees
  let marked :=
    if reference then
      let c := c.skip 1
      if atLifetime c.trees then c.skip 1 else c
    else c
  let mutable := atKeyword "mut" marked.trees
  let bare := marked.skipKeyword "mut"
  if !atKeyword "self" bare.trees || atOperator [':', ':'] (bare.trees.drop 1) then
    return none
  let d := bare.skip 1
  let d ←
    if !reference && atColon d.trees then (TypeExpr.read true (d.skip 1)).map (·.2)
    else pure d
  return some (.receiver (c.runUpTo d) reference mutable, d)

/-- Whether the trees start with three dots. -/
def atDots (trees : List TokenTree) : Bool := atOperator ['.', '.', '.'] trees

/-- Reads an entry that is no receiver, from after its attributes; `start` is the cursor
before them. -/
def readPlainEntry (start : Cursor) (attributes : List Run) (c : Cursor) :
    Outcome (Entry × Cursor) := do
  if atDots c.trees then
    let d := c.skip 3
    return (.variadic (start.runUpTo d), d)
  let (pattern, d) ← Pattern.read c
  let d ← d.expectColon
  if atDots d.trees then
    let d := d.skip 3
    return (.variadic (start.runUpTo d), d)
  let (type, d) ← TypeExpr.read true d
  return (.param (.typed attributes pattern type), d)

/-- Reads an entry.  Nothing may follow the three dots, and only the first entry may be a
receiver. -/
def readEntry (done : List Entry) (c : Cursor) : Outcome (Entry × Cursor) :=
  match done with
  | .variadic run :: _ => .error ⟨.variadicNotLast, run.span⟩
  | _ => do
    let (attributes, d) := outerAttributes c
    match ← if done.isEmpty then readReceiver d else pure none with
    | some (param, e) => return (.param param, e)
    | none => readPlainEntry c attributes d

/-- Reads a parameter list. -/
def read (c : Cursor) : Outcome (ParamList × Cursor) := do
  let (group, d) ← c.expectGroup .paren
  let entries ← (Cursor.into group).commaSeparated readEntry
  let params := entries.filterMap fun
    | .param param => some param
    | .variadic _ => none
  let variadics := entries.filterMap fun
    | .variadic run => some run
    | .param _ => none
  return (⟨params, variadics.head?, group⟩, d)

end ParamList

end ReturnCaptures
