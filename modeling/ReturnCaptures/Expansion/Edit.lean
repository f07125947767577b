import ReturnCaptures.Text.Position

/-!
# Edits

An edit replaces the characters between two offsets of a text.  Splicing copies a stretch
of the text and applies edits, given in the order in which they stand, on the way.
-/

namespace ReturnCaptures

/-- The replacement of the characters from `start` up to `stop`. -/
structure Edit where
  start : Nat
  stop : Nat
  replacement : List Char
deriving Repr

/-- The characters of `text` from `start` up to `stop`, with edits applied. -/
def splice (text : List Char) (start stop : Nat) : List Edit → List Char
  | [] => slice text start stop
  | edit :: edits =>
    slice text start edit.start ++ edit.replacement ++ splice text edit.stop stop edits

@[simp]
theorem splice_nil (text : List Char) (start stop : Nat) :
    splice text start stop [] = slice text start stop := rfl

end ReturnCaptures
