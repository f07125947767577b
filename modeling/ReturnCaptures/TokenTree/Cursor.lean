import ReturnCaptures.TokenTree.Match

/-!
# Cursors

A cursor stands in a list of sibling trees: it holds the trees that are still to be read
and the span at which a problem is reported once none is left.  The cursor into a group
reports such problems at the closing delimiter.
-/

namespace ReturnCaptures

/-- The sibling trees still to be read, and the span that stands for their end. -/
structure Cursor where
  trees : List TokenTree
  stop : Span
deriving Repr

namespace Cursor

/-- The cursor over the top-level trees of a file; their end is just past the last of
them. -/
def ofTrees (file : String) (trees : List TokenTree) : Cursor where
  trees := trees
  stop :=
    match trees.getLast? with
    | some last => { last.span.past with file := file }
    | none => .fileStart file

/-- The cursor over the inside of a group. -/
def into (g : Group) : Cursor := ⟨g.trees, g.closing⟩

/-- The next tree. -/
def peek (c : Cursor) : Option TokenTree := c.trees.head?

/-- Whether no tree is left. -/
def atEnd (c : Cursor) : Bool := c.trees.isEmpty

/-- The span of the next tree, or of the end. -/
def span (c : Cursor) : Span :=
  match c.trees with
  | tree :: _ => tree.span
  | [] => c.stop

/-- The cursor after the next `n` trees. -/
def skip (c : Cursor) (n : Nat) : Cursor := { c with trees := c.trees.drop n }

/-- The cursor after the keyword `word`, if that is what comes next. -/
def skipKeyword (c : Cursor) (word : String) : Cursor :=
  if TokenTree.atKeyword word c.trees then c.skip 1 else c

/-- The trees read between `c` and the later cursor `d`. -/
def readUpTo (c d : Cursor) : List TokenTree :=
  c.trees.take (c.trees.length - d.trees.length)

/-- The run of the trees read between `c` and the later cursor `d`. -/
def runUpTo (c d : Cursor) : Run :=
  let trees := c.readUpTo d
  ⟨trees, c.span.through ((trees.getLast?.map TokenTree.span).getD c.span)⟩

@[simp]
theorem trees_skip (c : Cursor) (n : Nat) : (c.skip n).trees = c.trees.drop n := rfl

@[simp]
theorem stop_skip (c : Cursor) (n : Nat) : (c.skip n).stop = c.stop := rfl

end Cursor

end ReturnCaptures
