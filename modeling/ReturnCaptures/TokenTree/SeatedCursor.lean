import ReturnCaptures.TokenTree.Cursor

/-!
# Forking cursors

A reading that may fail is tried on a fork of a cursor.  If it succeeds, its position is
committed to the cursor it was forked from; if it fails, the fork is dropped.  A position
can only be committed between cursors in the same list of siblings, which is known by its
*address*: the indices of the groups that lead to it.
-/

namespace ReturnCaptures

/-- A cursor, the list of siblings that it stands in, and the address of that list. -/
structure SeatedCursor where
  address : List Nat
  siblings : List TokenTree
  cursor : Cursor
deriving Repr

namespace SeatedCursor

/-- The cursor at the start of a list of siblings. -/
def atStart (address : List Nat) (siblings : List TokenTree) (stop : Span) : SeatedCursor :=
  ⟨address, siblings, ⟨siblings, stop⟩⟩

/-- The number of siblings already read. -/
def position (s : SeatedCursor) : Nat := s.siblings.length - s.cursor.trees.length

/-- The trees `offset` trees ahead. -/
def ahead (s : SeatedCursor) (offset : Nat) : List TokenTree := s.cursor.trees.drop offset

/-- The trees read since position `start`. -/
def since (s : SeatedCursor) (start : Nat) : List TokenTree :=
  (s.siblings.take s.position).drop start

/-- The cursor after the next `n` trees, or at the end if there are fewer. -/
def skip (s : SeatedCursor) (n : Nat) : SeatedCursor := { s with cursor := s.cursor.skip n }

/-- The next tree and the cursor after it. -/
def advance? (s : SeatedCursor) : Option (TokenTree × SeatedCursor) :=
  s.cursor.peek.map fun tree => (tree, s.skip 1)

/-- Whether two cursors stand in the same list of siblings.  Empty lists are all the
same. -/
def together (s t : SeatedCursor) : Bool :=
  s.address == t.address || (s.siblings.isEmpty && t.siblings.isEmpty)

/-- The cursor `s` moved to the position of `t`, if they stand in the same list. -/
def commit? (s t : SeatedCursor) : Option SeatedCursor :=
  if s.together t then some { s with cursor := { s.cursor with trees := t.cursor.trees } }
  else none

/-- The cursor over the inside of the group that comes next, and the cursor after that
group. -/
def enter? (s : SeatedCursor) : Option (SeatedCursor × SeatedCursor) :=
  match s.cursor.trees with
  | .group _ inner _ closing :: _ =>
    some (atStart (s.address ++ [s.position]) inner closing, s.skip 1)
  | _ => none

end SeatedCursor

/-- The message for a position that cannot be committed. -/
def foreignCommitMessage : String := "can only commit a fork of the same token sequence"

end ReturnCaptures
