import ReturnCaptures.Grammar.Pattern

/-!
# Return clauses

A return clause is an arrow and either a type or a *capture list*: captures between
parentheses, each of them a type, perhaps with a pattern in front that names what is
returned.  A capture with a pattern is *bound*, one without is *unbound*.

A capture is first read with a pattern and, if that fails, as a bare type.  A pattern in a
capture may only consist of identifiers, wildcards and tuples of them, and no identifier
may be bound twice in one list.
-/

namespace ReturnCaptures

open TokenTree

/-- The two tokens of an arrow. -/
structure Arrow where
  shaft : Token
  tip : Token
deriving Repr

/-- An arrow as trees. -/
def Arrow.trees (arrow : Arrow) : List TokenTree := [.token arrow.shaft, .token arrow.tip]

/-- A capture. -/
inductive Capture where
  | bound (pattern : Pattern) (type : TypeExpr)
  | unbound (type : TypeExpr)
deriving Repr

namespace Capture

/-- The type of a capture. -/
def type : Capture → TypeExpr
  | bound _ type => type
  | unbound type => type

/-- The pattern of a capture, if it is bound. -/
def pattern? : Capture → Option Pattern
  | bound pattern _ => some pattern
  | unbound _ => none

/-- The span of a capture. -/
def span : Capture → Span
  | bound pattern type => pattern.span.through type.run.span
  | unbound type => type.run.span

/-- The names that captures bind, with the spans of the patterns that bind them. -/
def bindings (captures : List Capture) : List (String × Span) :=
  (captures.filterMap pattern?).flatMap Pattern.bindings

end Capture

/-- A return clause.  The group of a capture list is its parentheses with all they
hold. -/
inductive ReturnClause where
  | absent
  | plain (arrow : Arrow) (type : TypeExpr) (span : Span)
  | captures (arrow : Arrow) (items : List Capture) (group : Group) (span : Span)
deriving Repr

/-- The arrow of a return clause. -/
def ReturnClause.arrow? : ReturnClause → Option Arrow
  | absent => none
  | plain arrow _ _ => some arrow
  | captures arrow _ _ _ => some arrow

namespace Capture

/-- Fails unless a capture ends at the cursor. -/
def expectEnd (c : Cursor) : Outcome Unit :=
  if c.atEnd || atPunct ',' c.trees then .ok () else c.fail "`,` or `)`"

/-- Reads a capture with a pattern. -/
def readBound (c : Cursor) : Outcome (Pattern × TypeExpr × Cursor) := do
  let (pattern, c) ← Pattern.read c
  let c ← c.expectColon
  let (type, c) ← TypeExpr.read true c
  expectEnd c
  return (pattern, type, c)

/-- Reads a capture that is a bare type. -/
def readUnbound (c : Cursor) : Outcome (TypeExpr × Cursor) := do
  let (type, c) ← TypeExpr.read true c
  expectEnd c
  return (type, c)

/-- Whether a capture may have a pattern of this form, its parts aside. -/
def admits : Pattern → Bool
  | .mk (.binding _) _ parts => parts.isEmpty
  | .mk .wildcard _ _ => true
  | .mk .tuple _ _ => true
  | _ => false

mutual

/-- Fails at the first part of a pattern that a capture may not have. -/
def checkPattern : Pattern → Outcome Unit
  | p@(.mk _ run parts) =>
    if admits p then checkParts parts else .error ⟨.unsupportedPattern, run.span⟩

/-- Fails at the first of several parts that a capture may not have; two dots may stand
among the elements of a tuple. -/
def checkParts : List Pattern → Outcome Unit
  | [] => .ok ()
  | p :: ps => do
    if p.kind != .rest then checkPattern p
    checkParts ps

end

/-- Fails at the first binding whose name is among those seen before it. -/
def checkDistinct (seen : List String) : List (String × Span) → Outcome Unit
  | [] => .ok ()
  | (name, span) :: rest =>
    if seen.contains name then .error ⟨.boundTwice name, span⟩
    else checkDistinct (name :: seen) rest

/-- Reads a capture, given how many stand before it. -/
def read (index : Nat) (c : Cursor) : Outcome (Capture × Cursor) :=
  match readBound c with
  | .ok (pattern, type, d) => do
    checkPattern pattern
    return (.bound pattern type, d)
  | .error asBound =>
    match readUnbound c with
    | .ok (type, d) => .ok (.unbound type, d)
    | .error asBare => c.failWith (.malformedCapture index asBound.problem asBare.problem)

/-- Reads the captures inside a group. -/
def readList (group : Group) : Outcome (List Capture) := do
  let captures ← (Cursor.into group).commaSeparated fun done => read done.length
  checkDistinct [] (bindings captures)
  return captures

end Capture

namespace ReturnClause

/-- Reads what follows an arrow: a capture list or a type.  If both fail, the failure of
the capture list is reported. -/
def readAfter (arrow : Arrow) (c : Cursor) : Outcome (ReturnClause × Cursor) :=
  match c.trees with
  | .group .paren inner opening closing :: _ =>
    let group : Group := ⟨.paren, inner, opening, closing⟩
    match Capture.readList group with
    | .ok items => .ok (.captures arrow items group (arrow.shaft.span.through closing), c.skip 1)
    | .error failure =>
      match TypeExpr.read true c with
      | .ok (type, d) => .ok (.plain arrow type (arrow.shaft.span.through type.run.span), d)
      | .error _ => .error failure
  | _ => do
    let (type, d) ← TypeExpr.read true c
    return (.plain arrow type (arrow.shaft.span.through type.run.span), d)

/-- Reads a return clause, if there is one. -/
def read (c : Cursor) : Outcome (ReturnClause × Cursor) :=
  match c.trees with
  | .token shaft :: .token tip :: _ =>
    if atOperator ['-', '>'] c.trees then readAfter ⟨shaft, tip⟩ (c.skip 2)
    else .ok (.absent, c)
  | _ => .ok (.absent, c)

end ReturnClause

end ReturnCaptures
