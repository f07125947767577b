import ReturnCaptures.Grammar.FunctionItem

/-!
# Expansions

Expanding a function item turns its capture list into an ordinary return type: nothing for
no captures, the type itself for a single one, and the tuple of the types for several.  The
bound captures are declared, without a value, in front of the statements of the body.  A
list that is already a tuple type, because it has a comma and binds nothing, stays as it
is.
-/

namespace ReturnCaptures

open TokenTree

/-- The declaration of the bound captures, as `let p: T;` or `let (p, q): (T, U);`. -/
structure Declaration where
  patterns : List Pattern
  types : List TypeExpr
  trees : List TokenTree
deriving Repr

/-- A function item with what expansion makes of it: the new return type, whether the
return clause changes, and the declaration to insert. -/
structure Expansion where
  item : FunctionItem
  returnType : Option TypeExpr
  replaced : Bool
  declaration : Option Declaration
deriving Repr

/-- A lone punctuation character at a given span. -/
def punctAt (span : Span) (symbol : Char) : TokenTree := .token ⟨.punct symbol false, span⟩

/-- The trees of runs with commas between them. -/
def joinRuns (span : Span) (runs : List Run) : List TokenTree :=
  [punctAt span ','].intercalate (runs.map (·.trees))

/-- The runs in parentheses, with commas between them. -/
def tupleOf (opening closing : Span) (runs : List Run) : TokenTree :=
  .group .paren (joinRuns opening runs) opening closing

namespace Declaration

/-- The runs of a declaration's patterns or types, alone or as a tuple. -/
def side (span : Span) : List Run → List TokenTree
  | [run] => run.trees
  | runs => [tupleOf span span runs]

/-- The declaration of bound captures; all its own tokens stand at one span. -/
def ofBound (span : Span) (bound : List (Pattern × TypeExpr)) : Declaration where
  patterns := bound.map (·.1)
  types := bound.map (·.2)
  trees :=
    .token ⟨.keyword "let", span⟩ ::
      (side span (bound.map (·.1.run)) ++ [punctAt span ':'] ++
        side span (bound.map (·.2.run)) ++ [punctAt span ';'])

end Declaration

/-- The bound captures, with their types. -/
def Capture.bounds (items : List Capture) : List (Pattern × TypeExpr) :=
  items.filterMap fun
    | .bound pattern type => some (pattern, type)
    | .unbound _ => none

namespace Expansion

/-- The return type for captures, built between the delimiters of their group. -/
def returnTypeOf (group : Group) : List Capture → Option TypeExpr
  | [] => none
  | [item] => some item.type
  | items =>
    some
      { kind := .tuple
        run := ⟨[tupleOf group.opening group.closing (items.map (·.type.run))], group.span⟩ }

/-- The expansion of an item with a capture list. -/
def ofCaptures (item : FunctionItem) (items : List Capture) (group : Group) : Expansion :=
  let bound := Capture.bounds items
  if bound.isEmpty && group.trees.any (fun tree => atPunct ',' [tree]) then
    ⟨item, some ⟨.tuple, ⟨[group.tree], group.span⟩⟩, false, none⟩
  else
    { item := item
      returnType := returnTypeOf group items
      replaced := true
      declaration :=
        if bound.isEmpty || item.body?.isNone then none
        else some (.ofBound group.opening bound) }

/-- The expansion of a function item. -/
def ofItem (item : FunctionItem) : Expansion :=
  match item.returns with
  | .absent => ⟨item, none, false, none⟩
  | .plain _ type _ => ⟨item, some type, false, none⟩
  | .captures _ items g _ => ofCaptures item items g

end Expansion

/-- Splits the trees of a block into the inner attributes and inner documentation comments
it starts with, and the rest. -/
def splitInnerAttributes : List TokenTree → List TokenTree × List TokenTree
  | .token ⟨.doc true text, span⟩ :: trees =>
    let (inner, statements) := splitInnerAttributes trees
    (.token ⟨.doc true text, span⟩ :: inner, statements)
  | .token ⟨.punct '#' j, s⟩ :: .token ⟨.punct '!' k, t⟩ ::
      .group .bracket arguments opening closing :: trees =>
    let (inner, statements) := splitInnerAttributes trees
    (.token ⟨.punct '#' j, s⟩ :: .token ⟨.punct '!' k, t⟩ ::
      .group .bracket arguments opening closing :: inner, statements)
  | trees => ([], trees)

end ReturnCaptures
