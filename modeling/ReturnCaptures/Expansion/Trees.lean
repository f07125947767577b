import ReturnCaptures.Expansion.Basic

/-!
# Expansions as trees

The trees of an expanded function item, in source order.  All trees are those of the item,
except for the return clause and for the declaration in front of the statements.
-/

namespace ReturnCaptures

namespace Expansion

/-- The body with the declaration between its inner attributes and its statements. -/
def body? (x : Expansion) : Option Group :=
  match x.declaration with
  | none => x.item.body?
  | some declaration =>
    x.item.body?.map fun body =>
      let (inner, statements) := splitInnerAttributes body.trees
      { body with trees := inner ++ declaration.trees ++ statements }

/-- What the expanded item ends in. -/
def ending (x : Expansion) : Ending :=
  match x.body? with
  | some body => .body body
  | none => x.item.ending

/-- The trees of the new return clause. -/
def returnTrees (x : Expansion) : List TokenTree :=
  match x.item.returns.arrow?, x.returnType with
  | some arrow, some type => arrow.trees ++ type.run.trees
  | _, _ => []

/-- The trees of an item before its return clause. -/
def headTrees (item : FunctionItem) : List TokenTree :=
  item.attributes.flatMap (·.trees) ++
    item.visibility.toList.flatMap (·.trees) ++
    item.qualifiers.tokens.map .token ++
    [.token item.fnToken, .token item.nameToken] ++
    item.generics.trees ++
    [item.params.group.tree]

/-- The trees of an expanded item. -/
def trees (x : Expansion) : List TokenTree :=
  headTrees x.item ++ x.returnTrees ++
    x.item.generics.whereClause.toList.flatMap (·.run.trees) ++
    [x.ending.tree]

end Expansion

/-- The file in which trees stand, by the first of them. -/
def fileOf (trees : List TokenTree) : String :=
  match trees with
  | tree :: _ => tree.span.file
  | [] => "<stdin>"

/-- Expands the trees of one function item. -/
def expandTrees (trees : List TokenTree) : Except Rejection (List TokenTree) := do
  let item ← FunctionItem.ofTrees (fileOf trees) trees
  return (Expansion.ofItem item).trees

/-- Expands the trees of one function item that stand under an attribute.  The arguments of
the attribute have no say in it. -/
def expandAttributed (_arguments trees : List TokenTree) : Except Rejection (List TokenTree) :=
  expandTrees trees

end ReturnCaptures
