import ReturnCaptures.Grammar.Params
import ReturnCaptures.Grammar.ReturnClause
import ReturnCaptures.TokenTree.Build

/-!
# Function items

A function item is read part by part, and each part leaves the trees after it to the next.
The body is a group that is not looked into.
-/

namespace ReturnCaptures

open TokenTree

/-- The calling convention of a function: the keyword, and the literal that names it. -/
structure Abi where
  keyword : Token
  name : Option Token
deriving Repr

/-- The qualifiers of a function, which always stand in this order. -/
structure Qualifiers where
  constness : Option Token
  asyncness : Option Token
  unsafety : Option Token
  abi : Option Abi
deriving Repr

/-- The tokens of the qualifiers. -/
def Qualifiers.tokens (q : Qualifiers) : List Token :=
  q.constness.toList ++ q.asyncness.toList ++ q.unsafety.toList ++
    (match q.abi with
      | some abi => abi.keyword :: abi.name.toList
      | none => [])

/-- What a function item ends in: its body, or the semicolon of a declaration. -/
inductive Ending where
  | body (group : Group)
  | semicolon (token : Token)
deriving Repr

namespace Ending

/-- The body. -/
def body? : Ending → Option Group
  | body g => some g
  | semicolon _ => none

/-- The semicolon. -/
def semicolon? : Ending → Option Token
  | body _ => none
  | semicolon t => some t

/-- An ending as a tree. -/
def tree : Ending → TokenTree
  | body g => g.tree
  | semicolon t => .token t

end Ending

/-- A function item. -/
structure FunctionItem where
  attributes : List Run
  visibility : Option Run
  qualifiers : Qualifiers
  fnToken : Token
  nameToken : Token
  generics : Generics
  params : ParamList
  returns : ReturnClause
  ending : Ending
  span : Span
deriving Repr

namespace FunctionItem

/-- The name of the function. -/
def name (item : FunctionItem) : String := item.nameToken.text

/-- The body of the function. -/
def body? (item : FunctionItem) : Option Group := item.ending.body?

/-- Whether a group restricts a visibility. -/
def atVisibilityScope : List TokenTree → Bool :=
  fun trees => atKeyword "crate" trees || atKeyword "self" trees || atKeyword "super" trees ||
    atKeyword "in" trees

/-- Reads the visibility, if there is one. -/
def readVisibility (c : Cursor) : Option Run × Cursor :=
  match c.trees with
  | .token ⟨.keyword "pub", span⟩ :: rest =>
    let word := .token ⟨.keyword "pub", span⟩
    match rest with
    | .group .paren inner opening closing :: _ =>
      if atVisibilityScope inner then
        (some ⟨[word, .group .paren inner opening closing], span.through closing⟩, c.skip 2)
      else (some (.single word), c.skip 1)
    | _ => (some (.single word), c.skip 1)
  | _ => (none, c)

/-- Reads the keyword `word`, if it comes next. -/
def readKeyword? (word : String) (c : Cursor) : Option Token × Cursor :=
  match c.trees with
  | .token t :: _ => if t.lexeme.isKeyword word then (some t, c.skip 1) else (none, c)
  | _ => (none, c)

/-- Reads the literal that names a calling convention, if it comes next. -/
def readAbiName (c : Cursor) : Option Token × Cursor :=
  match c.trees with
  | .token t :: _ =>
    if TypeGrammar.atAbiName c.trees then (some t, c.skip 1) else (none, c)
  | _ => (none, c)

/-- Reads the qualifiers. -/
def readQualifiers (c : Cursor) : Qualifiers × Cursor :=
  let (constness, c) := readKeyword? "const" c
  let (asyncness, c) := readKeyword? "async" c
  let (unsafety, c) := readKeyword? "unsafe" c
  match readKeyword? "extern" c with
  | (some keyword, c) =>
    let (name, c) := readAbiName c
    (⟨constness, asyncness, unsafety, some ⟨keyword, name⟩⟩, c)
  | (none, c) => (⟨constness, asyncness, unsafety, none⟩, c)

/-- Reads what a function item ends in. -/
def readEnding (c : Cursor) : Outcome (Ending × Span × Cursor) :=
  match c.trees with
  | .group .brace inner opening closing :: _ =>
    .ok (.body ⟨.brace, inner, opening, closing⟩, closing, c.skip 1)
  | .token t :: _ =>
    if t.lexeme.isPunct ';' then .ok (.semicolon t, t.span, c.skip 1)
    else c.failWith (.expectedBody c.peek)
  | _ => c.failWith (.expectedBody c.peek)

/-- Reads a function item. -/
def read (c : Cursor) : Except Diagnostic (FunctionItem × Cursor) := do
  let start := c.span
  let (attributes, c) := outerAttributes c
  let (visibility, c) := readVisibility c
  let (qualifiers, c) := readQualifiers c
  let (fnToken, c) ←
    (c.expectToken (ticked "fn") (·.isKeyword "fn")).during .functionKeyword
  let (nameToken, c) ← (c.expectIdent "function name").during .functionName
  let (generics, c) ← (Generics.read c).during .generics
  let (params, c) ← (ParamList.read c).during .params
  let (returns, c) ← (ReturnClause.read c).during .returnClause
  let (whereClause, c) ← (WhereClause.read c).during .whereClause
  let (ending, stop, c) ← (readEnding c).during .body
  let generics := { generics with whereClause }
  let span := start.through stop
  return (⟨attributes, visibility, qualifiers, fnToken, nameToken, generics, params, returns,
    ending, span⟩, c)

/-- Reads the function item that starts at the tree with index `start` among the top-level
trees of a file; also gives the index of the tree after it. -/
def readAt (file : String) (trees : List TokenTree) (start : Nat) :
    Except Rejection (FunctionItem × Nat) :=
  match read ((Cursor.ofTrees file trees).skip start) with
  | .ok (item, c) => .ok (item, trees.length - c.trees.length)
  | .error d => .error [d]

/-- The function item that trees form. -/
def ofTrees (file : String) (trees : List TokenTree) : Except Rejection FunctionItem :=
  match read (.ofTrees file trees) with
  | .ok (item, c) =>
    if c.atEnd then .ok item
    else .error [Failure.diagnostic .body ⟨.afterItem c.peek, c.span⟩]
  | .error d => .error [d]

/-- The function item that a text holds. -/
def ofText (file : String) (text : List Char) : Except Rejection FunctionItem := do
  ofTrees file (← TokenTree.ofText file text)

end FunctionItem

end ReturnCaptures
