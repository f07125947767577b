import ReturnCaptures.Grammar.Failure
import ReturnCaptures.TokenTree.Cursor

/-!
# Reading what has to come next

The steps of which productions are made: each moves a cursor over what it asks for, or
fails at the cursor.
-/

namespace ReturnCaptures.Cursor

open TokenTree

variable {α : Type}

/-- Fails at the cursor with a given problem. -/
def failWith (c : Cursor) (problem : Problem) : Outcome α :=
  .error ⟨problem, c.span⟩

/-- Fails for want of something at the cursor. -/
def fail (c : Cursor) (what : String) : Outcome α :=
  c.failWith (.expected what c.peek)

/-- Reads a token whose lexeme satisfies `p`. -/
def expectToken (c : Cursor) (what : String) (p : Lexeme → Bool) : Outcome (Token × Cursor) :=
  match c.trees with
  | .token t :: _ => if p t.lexeme then .ok (t, c.skip 1) else c.fail what
  | _ => c.fail what

/-- Reads a group with the given delimiter. -/
def expectGroup (c : Cursor) (delimiter : Delimiter) : Outcome (Group × Cursor) :=
  match c.peek.bind TokenTree.group? with
  | some g =>
    if g.delimiter = delimiter then .ok (g, c.skip 1)
    else c.fail (ticked (String.singleton delimiter.opening))
  | none => c.fail (ticked (String.singleton delimiter.opening))

/-- Moves over one tree if `seen` holds. -/
def expect (c : Cursor) (what : String) (seen : Bool) : Outcome Cursor :=
  if seen then .ok (c.skip 1) else c.fail what

/-- Moves over the punctuation character `symbol`. -/
def expectPunct (c : Cursor) (symbol : Char) : Outcome Cursor :=
  c.expect (ticked (String.singleton symbol)) (atPunct symbol c.trees)

/-- Moves over a colon that is not the first half of a path separator. -/
def expectColon (c : Cursor) : Outcome Cursor :=
  c.expect (ticked ":") (atColon c.trees)

/-- Moves over the keyword `word`. -/
def expectKeyword (c : Cursor) (word : String) : Outcome Cursor :=
  c.expect (ticked word) (atKeyword word c.trees)

/-- Moves over a lifetime. -/
def expectLifetime (c : Cursor) : Outcome Cursor :=
  c.expect "lifetime" (atLifetime c.trees)

/-- Reads an identifier that serves as `role`. -/
def expectIdent (c : Cursor) (role : String) : Outcome (Token × Cursor) :=
  c.expectToken role fun
    | .ident _ => true
    | _ => false

/-- Reads items separated by commas up to the end of the cursor; a comma may also follow
the last item.  Each item is read in view of those before it, the last one first, which
`done` lists in the same order.  At most `bound` items are read. -/
def commaSeparatedAfter (item : List α → Cursor → Outcome (α × Cursor)) :
    (bound : Nat) → (done : List α) → Cursor → Outcome (List α)
  | 0, _, c => c.failWith .tooDeep
  | bound + 1, done, c => do
    if c.atEnd then return done.reverse
    let (a, c) ← item done c
    if c.atEnd then return (a :: done).reverse
    let c ← c.expectPunct ','
    commaSeparatedAfter item bound (a :: done) c

/-- Reads all items, separated by commas, up to the end of the cursor. -/
def commaSeparated (item : List α → Cursor → Outcome (α × Cursor)) (c : Cursor) :
    Outcome (List α) :=
  commaSeparatedAfter item (c.trees.length + 1) [] c

end ReturnCaptures.Cursor
