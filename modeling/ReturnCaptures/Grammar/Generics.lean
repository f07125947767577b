import ReturnCaptures.Grammar.TypeExpr

/-!
# Attributes, generic parameters and where clauses

What stands around the name of a function.  Attributes, parameters and predicates are kept
as the runs they were read from.
-/

namespace ReturnCaptures

open TokenTree

/-- The outer attributes and outer documentation comments that trees start with, and the
trees after them. -/
def outerAttributesOf : List TokenTree → List Run × List TokenTree
  | .token ⟨.doc false text, span⟩ :: trees =>
    let (runs, rest) := outerAttributesOf trees
    (⟨[.token ⟨.doc false text, span⟩], span⟩ :: runs, rest)
  | .token ⟨.punct '#' joint, span⟩ :: .group .bracket inner opening closing :: trees =>
    let (runs, rest) := outerAttributesOf trees
    (⟨[.token ⟨.punct '#' joint, span⟩, .group .bracket inner opening closing],
      span.through closing⟩ :: runs, rest)
  | trees => ([], trees)

/-- Reads outer attributes and outer documentation comments. -/
def outerAttributes (c : Cursor) : List Run × Cursor :=
  let (runs, rest) := outerAttributesOf c.trees
  (runs, { c with trees := rest })

/-- The kinds of generic parameters. -/
inductive GenericParamKind where
  | lifetime
  | type
  | const
deriving DecidableEq, Repr

/-- A generic parameter, with its bounds and its default. -/
structure GenericParam where
  kind : GenericParamKind
  name : String
  run : Run
deriving Repr

/-- A where clause: its predicates, and the run from `where` on. -/
structure WhereClause where
  predicates : List Run
  run : Run
deriving Repr

/-- Generic parameters; `trees` reaches from `<` to `>` and is empty if there are none. -/
structure Generics where
  params : List GenericParam
  trees : List TokenTree
  whereClause : Option WhereClause
deriving Repr

/-- Moves over bounds, if any follow. -/
def optionalBounds (c : Cursor) : Outcome Cursor :=
  if atBound c.trees then (TypeGrammar.upTo c).bounds c else .ok c

namespace GenericParam

/-- Reads a lifetime parameter whose name is `name`, from after the name. -/
def readLifetime (name : String) (c : Cursor) : GenericParamKind × String × Cursor :=
  (.lifetime, name, if atColon c.trees then lifetimeBounds (c.skip 1) else c)

/-- Reads a constant parameter. -/
def readConst (c : Cursor) : Outcome (GenericParamKind × String × Cursor) := do
  let (t, c) ← (c.skip 1).expectIdent "const parameter name"
  let c ← c.expectColon
  let (_, c) ← TypeExpr.read true c
  let c ← if atSingle '=' c.trees then constArgument (c.skip 1) else pure c
  return (.const, t.text, c)

/-- Reads a type parameter whose name is `name`, from after the name. -/
def readType (name : String) (c : Cursor) : Outcome (GenericParamKind × String × Cursor) := do
  let c ← if atColon c.trees then optionalBounds (c.skip 1) else pure c
  let c ← if atSingle '=' c.trees then (TypeExpr.read true (c.skip 1)).map (·.2) else pure c
  return (.type, name, c)

/-- Reads what follows the attributes of a generic parameter. -/
def readPlain (c : Cursor) : Outcome (GenericParamKind × String × Cursor) :=
  match c.trees with
  | .token ⟨.lifetime name, _⟩ :: _ => .ok (readLifetime name (c.skip 1))
  | .token ⟨.keyword "const", _⟩ :: _ => readConst c
  | .token ⟨.ident name, _⟩ :: _ => readType name (c.skip 1)
  | _ => c.fail "a generic parameter"

/-- Reads a generic parameter. -/
def read (c : Cursor) : Outcome (GenericParam × Cursor) := do
  let (_, attributed) := outerAttributes c
  let (kind, name, d) ← readPlain attributed
  return (⟨kind, name, c.runUpTo d⟩, d)

end GenericParam

namespace Generics

/-- Reads generic parameters from after `<` or a comma up to and with `>`, at most `bound`
of them. -/
def readParams : (bound : Nat) → Cursor → Outcome (List GenericParam × Cursor)
  | 0, c => c.failWith .tooDeep
  | bound + 1, c => do
    if atPunct '>' c.trees then return ([], c.skip 1)
    let (param, c) ← GenericParam.read c
    if atPunct ',' c.trees then
      let (params, c) ← readParams bound (c.skip 1)
      return (param :: params, c)
    else
      let c ← c.expect "`,` or `>` in generic parameters" (atPunct '>' c.trees)
      return ([param], c)

/-- Reads generic parameters between `<` and `>`, if there are any. -/
def read (c : Cursor) : Outcome (Generics × Cursor) := do
  if !atPunct '<' c.trees then return (⟨[], [], none⟩, c)
  let (params, d) ← readParams (c.trees.length + 1) (c.skip 1)
  return (⟨params, c.readUpTo d, none⟩, d)

end Generics

namespace WhereClause

/-- Whether the trees start with what ends a where clause. -/
def atStop (trees : List TokenTree) : Bool :=
  trees.isEmpty || atGroup .brace trees || atPunct ';' trees

/-- Moves over a predicate on a lifetime or a type. -/
def predicate (c : Cursor) : Outcome Cursor := do
  if atLifetime c.trees then
    let c ← (c.skip 1).expectColon
    return lifetimeBounds c
  else
    let c ← if atKeyword "for" c.trees then forBinder c else pure c
    let (_, c) ← TypeExpr.read false c
    let c ← c.expectColon
    optionalBounds c

/-- Reads predicates separated by commas, at most `bound` of them. -/
def readPredicates : (bound : Nat) → Cursor → Outcome (List Run × Cursor)
  | 0, c => c.failWith .tooDeep
  | bound + 1, c => do
    if atStop c.trees then return ([], c)
    let d ← predicate c
    let run := c.runUpTo d
    if atPunct ',' d.trees then
      let (runs, e) ← readPredicates bound (d.skip 1)
      return (run :: runs, e)
    else return ([run], d)

/-- Reads a where clause, if there is one. -/
def read (c : Cursor) : Outcome (Option WhereClause × Cursor) := do
  if !atKeyword "where" c.trees then return (none, c)
  let (predicates, d) ← readPredicates (c.trees.length + 1) (c.skip 1)
  return (some ⟨predicates, c.runUpTo d⟩, d)

end WhereClause

end ReturnCaptures
