import ReturnCaptures.Grammar.TypeExpr

/-!
# Patterns

A pattern is read into its kind, the run of trees it was read from, and its parts: the
elements of a tuple or slice, the fields of a tuple struct, what a reference points to, or
the pattern after `@`.  The *bindings* of a pattern are the identifiers it binds.

As for types, each production is written over a `PatternGrammar` that supplies those it
refers to.
-/

namespace ReturnCaptures

open TokenTree

/-- The kinds of patterns. -/
inductive PatternKind where
  /-- A name that is bound, perhaps by reference or mutably. -/
  | binding (name : String)
  | wildcard
  /-- Two dots, which stand for any number of elements. -/
  | rest
  | tuple
  | tupleStruct
  | struct
  | slice
  | reference
  | path
  | literal
deriving DecidableEq, Repr

/-- A pattern: its kind, the trees it was read from, and its parts. -/
inductive Pattern where
  | mk (kind : PatternKind) (run : Run) (parts : List Pattern)
deriving Repr

namespace Pattern

/-- The kind of a pattern. -/
def kind : Pattern → PatternKind
  | mk kind _ _ => kind

/-- The trees a pattern was read from. -/
def run : Pattern → Run
  | mk _ run _ => run

/-- The parts of a pattern. -/
def parts : Pattern → List Pattern
  | mk _ _ parts => parts

/-- The span of a pattern. -/
def span (p : Pattern) : Span := p.run.span

mutual

/-- The names that a pattern binds, with the spans of the patterns that bind them, from
left to right. -/
def bindings : Pattern → List (String × Span)
  | mk (.binding name) run parts => (name, run.span) :: bindingsAll parts
  | mk _ _ parts => bindingsAll parts

/-- The names that several patterns bind. -/
def bindingsAll : List Pattern → List (String × Span)
  | [] => []
  | p :: ps => p.bindings ++ bindingsAll ps

end

end Pattern

/-- The productions that other productions refer to. -/
structure PatternGrammar where
  /-- A pattern. -/
  pattern : Cursor → Outcome (Pattern × Cursor)
  /-- The segments of a path in which generic arguments stand after `::`. -/
  segments : Cursor → Outcome Cursor

namespace PatternGrammar

/-- The generic arguments of a segment of a path in a pattern, if there are any. -/
def segmentArguments (c : Cursor) : Outcome Cursor :=
  if atOperator [':', ':'] c.trees && atPunct '<' (c.trees.drop 2) then
    (TypeGrammar.upTo c).angleArguments (c.skip 2)
  else .ok c

/-- The production for `PatternGrammar.segments`. -/
def readSegments (G : PatternGrammar) (c : Cursor) : Outcome Cursor := do
  let c ← c.expect "a path segment" (atPathStart c.trees)
  let c ← segmentArguments c
  if TypeGrammar.moreSegments c.trees then G.segments (c.skip 2) else return c

/-- The patterns inside a group, separated by commas. -/
def elements (G : PatternGrammar) (c : Cursor) : Outcome (List Pattern) :=
  c.commaSeparated fun _ => G.pattern

/-- Whether the trees start with two dots and no longer operator. -/
def atRest (trees : List TokenTree) : Bool :=
  atOperator ['.', '.'] trees && !atOperator ['.', '.', '='] trees &&
    !atOperator ['.', '.', '.'] trees

/-- Whether what follows an identifier makes it part of a path. -/
def atPathContinuation (trees : List TokenTree) : Bool :=
  atOperator [':', ':'] trees || atGroup .paren trees || atGroup .brace trees ||
    atSingle '!' trees

/-- Whether the trees start with a pattern that binds a name. -/
def atBinding (trees : List TokenTree) : Bool :=
  atKeyword "ref" trees || atKeyword "mut" trees ||
    (atIdent trees && !atPathContinuation (trees.drop 1))

/-- What a pattern is made of: its kind and its parts, and where it ends. -/
abbrev Shape := PatternKind × List Pattern × Cursor

/-- A pattern that binds a name, and after `@` the pattern that it restricts it to. -/
def readBinding (G : PatternGrammar) (c : Cursor) : Outcome Shape := do
  let c := (c.skipKeyword "ref").skipKeyword "mut"
  let (t, c) ← c.expectIdent "a binding name"
  if atSingle '@' c.trees then
    let (p, c) ← G.pattern (c.skip 1)
    return (.binding t.text, [p], c)
  else return (.binding t.text, [], c)

/-- A pattern that starts with a path. -/
def readPath (G : PatternGrammar) (c : Cursor) : Outcome Shape := do
  let c ←
    if atPunct '<' c.trees then (TypeGrammar.upTo c).qualifiedPath c
    else G.segments (TypeGrammar.skipSeparator c)
  match c.trees with
  | .group .paren inner _ closing :: _ => return (.tupleStruct, ← G.elements ⟨inner, closing⟩, c.skip 1)
  | .group .brace _ _ _ :: _ => return (.struct, [], c.skip 1)
  | trees => return (.path, [], if TypeGrammar.atMacroArguments trees then c.skip 2 else c)

/-- A pattern that starts with a token. -/
def readPlain (G : PatternGrammar) (c : Cursor) : Outcome Shape := do
  if atLexeme (· == .ident "_") c.trees then return (.wildcard, [], c.skip 1)
  if atRest c.trees then return (.rest, [], c.skip 2)
  if atPunct '&' c.trees then
    let (p, c) ← G.pattern ((c.skip 1).skipKeyword "mut")
    return (.reference, [p], c)
  if atBinding c.trees then return ← G.readBinding c
  if atLiteral c.trees then return (.literal, [], c.skip 1)
  if atPunct '-' c.trees && atInteger (c.trees.drop 1) then return (.literal, [], c.skip 2)
  if atPathStart c.trees || atOperator [':', ':'] c.trees || atPunct '<' c.trees then
    return ← G.readPath c
  c.fail "a pattern"

/-- What stands at a cursor, read as a pattern. -/
def readShape (G : PatternGrammar) (c : Cursor) : Outcome Shape :=
  match c.trees with
  | .group .paren inner _ closing :: _ => do
    return (.tuple, ← G.elements ⟨inner, closing⟩, c.skip 1)
  | .group .bracket inner _ closing :: _ => do
    return (.slice, ← G.elements ⟨inner, closing⟩, c.skip 1)
  | _ => G.readPlain c

/-- The production for `PatternGrammar.pattern`. -/
def readPattern (G : PatternGrammar) (c : Cursor) : Outcome (Pattern × Cursor) := do
  let (kind, parts, d) ← G.readShape c
  return (.mk kind (c.runUpTo d) parts, d)

/-- The grammar whose productions refer to each other at most `n` levels deep. -/
def level : Nat → PatternGrammar
  | 0 =>
    { pattern := fun c => c.failWith .tooDeep
      segments := fun c => c.failWith .tooDeep }
  | n + 1 =>
    { pattern := fun c => (level n).readPattern c
      segments := fun c => (level n).readSegments c }

/-- The grammar for what can be read at a cursor. -/
def upTo (c : Cursor) : PatternGrammar := level (4 * (sizeAll c.trees + 1))

end PatternGrammar

/-- Reads a pattern. -/
def Pattern.read (c : Cursor) : Outcome (Pattern × Cursor) :=
  (PatternGrammar.upTo c).pattern c

end ReturnCaptures
