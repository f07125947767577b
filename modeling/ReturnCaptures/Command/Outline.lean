import ReturnCaptures.Grammar.FunctionItem
import ReturnCaptures.Text.Quoted
import ReturnCaptures.TokenTree.Printer

/-!
# Outlines

An outline shows how a function item was read: each part under its name, with the tokens it
was read from, and its own parts indented below it.
-/

namespace ReturnCaptures

/-- The lines of an outline, each with the depth to which it is indented. -/
abbrev Outline := List (Nat × String)

namespace Outline

/-- The outline moved in by `n` levels. -/
def shift (n : Nat) (o : Outline) : Outline := o.map fun line => (line.1 + n, line.2)

/-- The lines of an outline as they are shown. -/
def lines (o : Outline) : List String :=
  o.map fun line => String.ofList (List.replicate (2 * line.1) ' ') ++ line.2

/-- A part of an item with its fields. -/
def part (title : String) (fields : List Outline) : Outline :=
  (0, title) :: fields.flatMap (shift 1)

/-- Trees as they are shown. -/
def showTrees (trees : List TokenTree) : String :=
  ticked (String.ofList (Printer.print trees))

/-- A part of an item that was read from a run of trees. -/
def runPart (title : String) (trees : List TokenTree) (fields : List Outline) : Outline :=
  part (title ++ " " ++ showTrees trees) fields

/-- A field that holds a text. -/
def text (name value : String) : Outline := [(0, name ++ ": " ++ value)]

/-- A field that holds a truth value. -/
def flag (name : String) (value : Bool) : Outline :=
  text name (if value then "True" else "False")

/-- A field that holds a token. -/
def token (name : String) (t : Token) : Outline := text name (showTrees [.token t])

/-- A field that holds a token or nothing. -/
def token? (name : String) : Option Token → Outline
  | some t => token name t
  | none => []

/-- A field that holds another part. -/
def child (name : String) (o : Outline) : Outline := (0, name ++ ":") :: shift 1 o

/-- A field that holds a list of parts. -/
def children (name : String) : List Outline → Outline
  | [] => text name "[]"
  | parts => child name parts.flatten

/-- The name of a kind of type. -/
def typeKind : TypeKind → String
  | .path => "PATH"
  | .qualifiedPath => "QUALIFIED_PATH"
  | .tuple => "TUPLE"
  | .paren => "PAREN"
  | .slice => "SLICE"
  | .array => "ARRAY"
  | .reference => "REFERENCE"
  | .pointer => "POINTER"
  | .never => "NEVER"
  | .inferred => "INFER"
  | .implTrait => "IMPL_TRAIT"
  | .traitObject => "TRAIT_OBJECT"
  | .bareFn => "BARE_FN"
  | .macroCall => "MACRO"

/-- The name of a kind of pattern. -/
def patternKind : PatternKind → String
  | .binding _ => "IDENT"
  | .wildcard => "WILDCARD"
  | .rest => "REST"
  | .tuple => "TUPLE"
  | .tupleStruct => "TUPLE_STRUCT"
  | .struct => "STRUCT"
  | .slice => "SLICE"
  | .reference => "REFERENCE"
  | .path => "PATH"
  | .literal => "LITERAL"

/-- The name of a kind of generic parameter. -/
def genericParamKind : GenericParamKind → String
  | .lifetime => "LIFETIME"
  | .type => "TYPE"
  | .const => "CONST"

/-- A name between quotes. -/
def name (s : String) : Outline := text "name" (Quoted.encode s.toList)

/-- The outline of a type. -/
def ofType (type : TypeExpr) : Outline :=
  runPart "TypeRef" type.run.trees [text "kind" (typeKind type.kind)]

/-- The field for the name that a pattern binds. -/
def bindingName : PatternKind → Outline
  | .binding s => name s
  | _ => []

mutual

/-- The outline of a pattern. -/
def ofPattern : Pattern → Outline
  | .mk kind run parts =>
    runPart "PatternRef" run.trees
      [text "kind" (patternKind kind), bindingName kind,
       if parts.isEmpty then [] else child "elements" (ofPatterns parts)]

/-- The outlines of several patterns, one after the other. -/
def ofPatterns : List Pattern → Outline
  | [] => []
  | p :: ps => ofPattern p ++ ofPatterns ps

end

/-- The field for attributes. -/
def attributes (runs : List Run) : Outline :=
  children "attrs" (runs.map fun run => runPart "Attribute" run.trees [])

/-- The outline of the qualifiers. -/
def ofQualifiers (q : Qualifiers) : Outline :=
  part "Qualifiers"
    [token? "constness" q.constness, token? "asyncness" q.asyncness,
     token? "unsafety" q.unsafety,
     match q.abi with
     | some abi =>
       child "abi" (part "Abi" [token "extern_token" abi.keyword, token? "name" abi.name])
     | none => []]

/-- The outline of a generic parameter. -/
def ofGenericParam (param : GenericParam) : Outline :=
  runPart "GenericParam" param.run.trees
    [text "kind" (genericParamKind param.kind), name param.name]

/-- The outline of a where clause. -/
def ofWhereClause (clause : WhereClause) : Outline :=
  runPart "WhereClause" clause.run.trees
    [children "predicates"
      (clause.predicates.map fun run => runPart "WherePredicate" run.trees [])]

/-- The outline of generic parameters. -/
def ofGenerics (generics : Generics) : Outline :=
  let fields :=
    [children "params" (generics.params.map ofGenericParam),
     match generics.whereClause with
     | some clause => child "where_clause" (ofWhereClause clause)
     | none => []]
  if generics.trees.isEmpty then part "Generics" fields
  else runPart "Generics" generics.trees fields

/-- The outline of a parameter. -/
def ofParam : Param → Outline
  | .receiver run reference mutable =>
    runPart "Receiver" run.trees [flag "reference" reference, flag "mutable" mutable]
  | .typed runs pattern type =>
    part "TypedParam"
      [attributes runs, child "pattern" (ofPattern pattern), child "ty" (ofType type)]

/-- The outline of a parameter list. -/
def ofParams (params : ParamList) : Outline :=
  part "ParameterList"
    [children "params" (params.params.map ofParam),
     match params.variadic with
     | some run => child "variadic" (runPart "Variadic" run.trees [])
     | none => [],
     text "group" (showTrees [params.group.tree])]

/-- The outline of a capture. -/
def ofCapture : Capture → Outline
  | .bound pattern type =>
    part "Bound" [child "pattern" (ofPattern pattern), child "ty" (ofType type)]
  | .unbound type => part "Unbound" [child "ty" (ofType type)]

/-- The outline of a return clause. -/
def ofReturnClause : ReturnClause → Outline
  | .absent => part "NoReturn" []
  | .plain arrow type _ =>
    part "SimpleReturn" [text "arrow" (showTrees arrow.trees), child "ty" (ofType type)]
  | .captures arrow items group _ =>
    part "NamedCaptures"
      [text "arrow" (showTrees arrow.trees), children "items" (items.map ofCapture),
       text "group" (showTrees [group.tree])]

/-- The outline of a function item. -/
def ofItem (item : FunctionItem) : Outline :=
  part "FunctionItem"
    [attributes item.attributes,
     match item.visibility with
     | some run => child "visibility" (runPart "Visibility" run.trees [])
     | none => [],
     child "qualifiers" (ofQualifiers item.qualifiers),
     token "fn_token" item.fnToken,
     token "ident" item.nameToken,
     child "generics" (ofGenerics item.generics),
     child "params" (ofParams item.params),
     child "return_spec" (ofReturnClause item.returns),
     match item.ending with
     | .body group => text "body" (showTrees [group.tree])
     | .semicolon t => token "semi" t]

end Outline

end ReturnCaptures
