import ReturnCaptures.Grammar.Expect

/-!
# Types

A type is recognised, not taken apart: what is kept of it is its kind and the run of trees
it was read from.

The productions for types, paths and bounds refer to each other.  Each is written here
over a `TypeGrammar`, which supplies the productions that it refers to, and
`TypeGrammar.level n` is the grammar in which productions refer to each other up to `n`
levels deep.  Every reference either moves over a tree or leads to a production of lower
rank, so that a level in proportion to the number of trees suffices.
-/

namespace ReturnCaptures

open TokenTree

/-- The kinds of types. -/
inductive TypeKind where
  | path
  | qualifiedPath
  | tuple
  | paren
  | slice
  | array
  | reference
  | pointer
  | never
  | inferred
  | implTrait
  | traitObject
  | bareFn
  | macroCall
deriving DecidableEq, Repr

/-- A type: its kind and the trees it was read from. -/
structure TypeExpr where
  kind : TypeKind
  run : Run
deriving Repr

/-- The productions that other productions refer to. -/
structure TypeGrammar where
  /-- A type; whether bounds may be added to it with a plus sign depends on where it
  stands. -/
  type : (allowPlus : Bool) → Cursor → Outcome (TypeKind × Cursor)
  /-- The segments of a path. -/
  segments : Cursor → Outcome Cursor
  /-- Generic arguments, from after `<` or a comma up to and with `>`. -/
  arguments : Cursor → Outcome Cursor
  /-- One bound. -/
  bound : Cursor → Outcome Cursor
  /-- Bounds joined by plus signs. -/
  bounds : Cursor → Outcome Cursor

/-! ### Lifetimes -/

/-- The trees after the lifetimes joined by plus signs that `trees` starts with; a plus
sign may also follow the last one. -/
def afterLifetimeBounds : List TokenTree → List TokenTree
  | tree :: plus :: rest =>
    if atLifetime [tree] then
      if atSingle '+' (plus :: rest) then afterLifetimeBounds rest else plus :: rest
    else tree :: plus :: rest
  | trees => if atLifetime trees then [] else trees

/-- Moves over lifetimes joined by plus signs, of which there may be none. -/
def lifetimeBounds (c : Cursor) : Cursor :=
  { c with trees := afterLifetimeBounds c.trees }

/-- The trees after the lifetimes with a comma behind them that `trees` starts with. -/
def afterLifetimesWithComma : List TokenTree → List TokenTree
  | tree :: comma :: rest =>
    if atLifetime [tree] && atPunct ',' [comma] then afterLifetimesWithComma rest
    else tree :: comma :: rest
  | trees => trees

/-- Moves over `for<'a, 'b>`. -/
def forBinder (c : Cursor) : Outcome Cursor := do
  let c ← c.expectKeyword "for"
  let c ← c.expectPunct '<'
  let c := { c with trees := afterLifetimesWithComma c.trees }
  let c ← if atPunct '>' c.trees then pure c else c.expectLifetime
  c.expectPunct '>'

/-! ### Arguments and bounds -/

/-- Whether the trees start with a constant generic argument. -/
def atConstArgument (trees : List TokenTree) : Bool :=
  atGroup .brace trees || atLiteral trees || (atPunct '-' trees && atInteger (trees.drop 1))

/-- Moves over a constant generic argument. -/
def constArgument (c : Cursor) : Outcome Cursor :=
  let c := if atPunct '-' c.trees then c.skip 1 else c
  c.expect "a const argument" (atGroup .brace c.trees || atIdent c.trees || atLiteral c.trees)

/-- Whether the trees may start a bound. -/
def atBound (trees : List TokenTree) : Bool :=
  atLifetime trees || atPathStart trees || atOperator [':', ':'] trees || atPunct '?' trees ||
    atPunct '~' trees || atKeyword "for" trees || atKeyword "const" trees ||
    atKeyword "async" trees || atKeyword "use" trees || atGroup .paren trees

namespace TypeGrammar

/-- One generic argument: a lifetime, an associated type with its value or its bounds, a
constant or a type. -/
def argument (G : TypeGrammar) (c : Cursor) : Outcome Cursor :=
  if atLifetime c.trees then .ok (c.skip 1)
  else if atIdent c.trees && atSingle '=' (c.trees.drop 1) then
    (G.type true (c.skip 2)).map (·.2)
  else if atIdent c.trees && atColon (c.trees.drop 1) then G.bounds (c.skip 2)
  else if atConstArgument c.trees then constArgument c
  else (G.type true c).map (·.2)

/-- The production for `TypeGrammar.arguments`. -/
def readArguments (G : TypeGrammar) (c : Cursor) : Outcome Cursor := do
  if atPunct '>' c.trees then return c.skip 1
  let c ← G.argument c
  if atPunct ',' c.trees then G.arguments (c.skip 1)
  else c.expect "`,` or `>`" (atPunct '>' c.trees)

/-- Generic arguments between `<` and `>`. -/
def angleArguments (G : TypeGrammar) (c : Cursor) : Outcome Cursor := do
  G.arguments (← c.expectPunct '<')

/-- The types between parentheses: a single one without a comma after it is merely
parenthesised, all others form a tuple. -/
def parenthesized (G : TypeGrammar) (c : Cursor) : Outcome TypeKind := do
  if c.atEnd then return .tuple
  let (_, c) ← G.type true c
  if c.atEnd then return .paren
  let c ← c.expectPunct ','
  let _ ← c.commaSeparated fun _ => G.type true
  return .tuple

/-- The type that a function type or the parenthesised arguments of a path return, if it
is given. -/
def resultType (G : TypeGrammar) (c : Cursor) : Outcome Cursor :=
  if atOperator ['-', '>'] c.trees then (G.type false (c.skip 2)).map (·.2) else .ok c

/-- The arguments of a path segment, in angle brackets or parentheses, if there are
any. -/
def segmentArguments (G : TypeGrammar) (c : Cursor) : Outcome Cursor :=
  if atOperator [':', ':'] c.trees && atPunct '<' (c.trees.drop 2) then
    G.angleArguments (c.skip 2)
  else if atPunct '<' c.trees && !atOperator ['<', '='] c.trees then G.angleArguments c
  else
    match c.trees with
    | .group .paren inner _ closing :: _ => do
      let _ ← G.parenthesized ⟨inner, closing⟩
      G.resultType (c.skip 1)
    | _ => .ok c

/-- Whether another path segment follows. -/
def moreSegments (trees : List TokenTree) : Bool :=
  atOperator [':', ':'] trees && atPathStart (trees.drop 2)

/-- The production for `TypeGrammar.segments`. -/
def readSegments (G : TypeGrammar) (c : Cursor) : Outcome Cursor := do
  let c ← c.expect "a path segment" (atPathStart c.trees)
  let c ← G.segmentArguments c
  if moreSegments c.trees then G.segments (c.skip 2) else return c

/-- The cursor after a path separator, if that is what comes next. -/
def skipSeparator (c : Cursor) : Cursor :=
  if atOperator [':', ':'] c.trees then c.skip 2 else c

/-- A path. -/
def path (G : TypeGrammar) (c : Cursor) : Outcome Cursor :=
  G.segments (skipSeparator c)

/-- The production for `TypeGrammar.bounds`; a plus sign may also follow the last
bound. -/
def readBounds (G : TypeGrammar) (c : Cursor) : Outcome Cursor := do
  let c ← G.bound c
  if atSingle '+' c.trees then
    let c := c.skip 1
    if atBound c.trees then G.bounds c else return c
  else return c

/-- The marks in front of a trait bound. -/
def boundMarks (c : Cursor) : Outcome Cursor := do
  let c ←
    if atPunct '~' c.trees then (c.skip 1).expectKeyword "const"
    else pure (if atKeyword "const" c.trees || atKeyword "async" c.trees then c.skip 1 else c)
  let c := if atPunct '?' c.trees then c.skip 1 else c
  if atKeyword "for" c.trees then forBinder c else return c

/-- The production for `TypeGrammar.bound`. -/
def readBound (G : TypeGrammar) (c : Cursor) : Outcome Cursor :=
  if atLifetime c.trees then .ok (c.skip 1)
  else
    match c.trees with
    | .group .paren inner _ closing :: _ => do
      let d ← G.bound ⟨inner, closing⟩
      if d.atEnd then return c.skip 1 else d.fail (ticked ")")
    | _ => do
      if atKeyword "use" c.trees then G.angleArguments (c.skip 1)
      else G.path (← boundMarks c)

/-! ### Types -/

/-- A path that starts from a type in angle brackets, possibly seen as a trait. -/
def qualifiedPath (G : TypeGrammar) (c : Cursor) : Outcome Cursor := do
  let c ← c.expectPunct '<'
  let (_, c) ← G.type true c
  let c ← if atKeyword "as" c.trees then G.path (c.skip 1) else pure c
  let c ← c.expectPunct '>'
  if atOperator [':', ':'] c.trees then G.path (c.skip 2) else c.fail (ticked "::")

/-- Whether the trees start with a string literal that may name a calling convention. -/
def atAbiName : List TokenTree → Bool :=
  atLexeme fun
    | .literal .string _ => true
    | .literal .rawString _ => true
    | _ => false

/-- Whether the trees start with a word that starts a function type. -/
def atBareFn (trees : List TokenTree) : Bool :=
  atKeyword "fn" trees || atKeyword "unsafe" trees || atKeyword "extern" trees

/-- A function type. -/
def bareFn (G : TypeGrammar) (c : Cursor) : Outcome Cursor := do
  let c := c.skipKeyword "unsafe"
  let c :=
    if atKeyword "extern" c.trees then
      let c := c.skip 1
      if atAbiName c.trees then c.skip 1 else c
    else c
  let c ← c.expectKeyword "fn"
  let (_, c) ← c.expectGroup .paren
  G.resultType c

/-- Bounds that make a trait object of what stands before them, if a plus sign
follows. -/
def addedBounds (G : TypeGrammar) (allowPlus : Bool) (kind : TypeKind) (c : Cursor) :
    Outcome (TypeKind × Cursor) := do
  if allowPlus && atSingle '+' c.trees then return (.traitObject, ← G.bounds (c.skip 1))
  else return (kind, c)

/-- The inside of brackets: the element type of a slice, or of an array when a length
follows. -/
def bracketed (G : TypeGrammar) (c : Cursor) : Outcome TypeKind := do
  let (_, c) ← G.type true c
  if c.atEnd then return .slice
  let c ← c.expectPunct ';'
  if c.atEnd then c.failWith .noArrayLength else return .array

/-- Whether the trees start with an exclamation mark and a group, which make a macro call
of the path before them. -/
def atMacroArguments (trees : List TokenTree) : Bool :=
  atSingle '!' trees && atAnyGroup (trees.drop 1)

/-- A type that starts with a token. -/
def readPlainType (G : TypeGrammar) (allowPlus : Bool) (c : Cursor) :
    Outcome (TypeKind × Cursor) := do
  if atPunct '!' c.trees then return (.never, c.skip 1)
  if atLexeme (· == .ident "_") c.trees then return (.inferred, c.skip 1)
  if atPunct '&' c.trees then
    let c := c.skip 1
    let c := if atLifetime c.trees then c.skip 1 else c
    let (_, c) ← G.type false (c.skipKeyword "mut")
    return (.reference, c)
  if atPunct '*' c.trees then
    let c := c.skip 1
    let c ← c.expect "`const` or `mut` after `*`"
      (atKeyword "const" c.trees || atKeyword "mut" c.trees)
    let (_, c) ← G.type false c
    return (.pointer, c)
  if atKeyword "impl" c.trees then return (.implTrait, ← G.bounds (c.skip 1))
  if atKeyword "dyn" c.trees then return (.traitObject, ← G.bounds (c.skip 1))
  if atKeyword "for" c.trees then
    let c ← forBinder c
    if atBareFn c.trees then return (.bareFn, ← G.bareFn c)
    else return (.traitObject, ← G.bounds c)
  if atBareFn c.trees then return (.bareFn, ← G.bareFn c)
  if atPunct '<' c.trees then return (.qualifiedPath, ← G.qualifiedPath c)
  if atPathStart c.trees || atOperator [':', ':'] c.trees then
    let c ← G.path c
    if atMacroArguments c.trees then return (.macroCall, c.skip 2)
    else return ← G.addedBounds allowPlus .path c
  c.fail "a type"

/-- The production for `TypeGrammar.type`. -/
def readType (G : TypeGrammar) (allowPlus : Bool) (c : Cursor) :
    Outcome (TypeKind × Cursor) :=
  match c.trees with
  | .group .paren inner _ closing :: _ => do
    let kind ← G.parenthesized ⟨inner, closing⟩
    G.addedBounds (allowPlus && kind == .paren) kind (c.skip 1)
  | .group .bracket inner _ closing :: _ => do
    return (← G.bracketed ⟨inner, closing⟩, c.skip 1)
  | _ => G.readPlainType allowPlus c

/-! ### Tying the productions together -/

/-- The grammar whose productions refer to each other at most `n` levels deep. -/
def level : Nat → TypeGrammar
  | 0 =>
    { type := fun _ c => c.failWith .tooDeep
      segments := fun c => c.failWith .tooDeep
      arguments := fun c => c.failWith .tooDeep
      bound := fun c => c.failWith .tooDeep
      bounds := fun c => c.failWith .tooDeep }
  | n + 1 =>
    { type := fun allowPlus c => (level n).readType allowPlus c
      segments := fun c => (level n).readSegments c
      arguments := fun c => (level n).readArguments c
      bound := fun c => (level n).readBound c
      bounds := fun c => (level n).readBounds c }

/-- The grammar for what can be read at a cursor. -/
def upTo (c : Cursor) : TypeGrammar := level (4 * (sizeAll c.trees + 1))

end TypeGrammar

namespace TypeExpr

/-- Reads a type. -/
def read (allowPlus : Bool) (c : Cursor) : Outcome (TypeExpr × Cursor) := do
  let (kind, d) ← (TypeGrammar.upTo c).type allowPlus c
  return (⟨kind, c.runUpTo d⟩, d)

end TypeExpr

end ReturnCaptures
