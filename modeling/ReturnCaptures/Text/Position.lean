/-!
# Positions and spans

A position is a place between two characters of a source text, given by its offset
together with the line and column of the character after it.  Reading a text moves a
position forward; only a line feed starts a new line.  A span is the stretch of a file
between two positions, in the form in which it is reported: its last line and column are
those of its last character, its last offset is that of the character after it.
-/

namespace ReturnCaptures

/-- A place in a source text; offsets start at 0, lines and columns at 1. -/
structure Position where
  offset : Nat
  line : Nat
  column : Nat
deriving DecidableEq, Repr

namespace Position

/-- The start of a text. -/
def origin : Position := ⟨0, 1, 1⟩

/-- The position after one character. -/
def advance (p : Position) (c : Char) : Position :=
  if c = '\n' then ⟨p.offset + 1, p.line + 1, 1⟩ else ⟨p.offset + 1, p.line, p.column + 1⟩

/-- The position after a text. -/
def after (p : Position) (text : List Char) : Position :=
  text.foldl advance p

@[simp]
theorem after_nil (p : Position) : p.after [] = p := rfl

@[simp]
theorem after_cons (p : Position) (c : Char) (text : List Char) :
    p.after (c :: text) = (p.advance c).after text := rfl

theorem after_append (p : Position) (s t : List Char) :
    p.after (s ++ t) = (p.after s).after t :=
  List.foldl_append

@[simp]
theorem offset_advance (p : Position) (c : Char) : (p.advance c).offset = p.offset + 1 := by
  unfold advance
  split <;> rfl

@[simp]
theorem offset_after (p : Position) (text : List Char) :
    (p.after text).offset = p.offset + text.length := by
  induction text generalizing p with
  | nil => rfl
  | cons c text ih =>
    rw [after_cons, ih, offset_advance, List.length_cons]
    omega

end Position

/-- A stretch of a file: its first and last line and column, both inclusive, and its
first and last offset, the last one exclusive. -/
structure Span where
  file : String
  startLine : Nat
  startColumn : Nat
  endLine : Nat
  endColumn : Nat
  start : Nat
  stop : Nat
deriving DecidableEq, Repr

namespace Span

/-- The span between two positions; the column before the second one is the last column,
and never less than 1. -/
def between (file : String) (p q : Position) : Span :=
  ⟨file, p.line, p.column, q.line, max 1 (q.column - 1), p.offset, q.offset⟩

/-- The span from the start of `a` to the end of `b`, in the file of `a`. -/
def through (a b : Span) : Span :=
  { a with endLine := b.endLine, endColumn := b.endColumn, stop := b.stop }

/-- Where a span starts, as `file:line:column`. -/
def location (s : Span) : String :=
  s.file ++ ":" ++ toString s.startLine ++ ":" ++ toString s.startColumn

/-- The empty span at the start of a file, at which problems of an empty input are
reported. -/
def fileStart (file : String) : Span := ⟨file, 1, 1, 1, 1, 0, 0⟩

/-- The empty span past the end of `s`. -/
def past (s : Span) : Span :=
  ⟨s.file, s.endLine, s.endColumn + 1, s.endLine, s.endColumn + 1, s.stop, s.stop⟩

end Span

/-- The characters of `text` from offset `start` up to offset `stop`. -/
def slice (text : List Char) (start stop : Nat) : List Char :=
  (text.drop start).take (stop - start)

/-- The characters of `text` that a span covers. -/
def Span.textIn (s : Span) (text : List Char) : List Char :=
  slice text s.start s.stop

end ReturnCaptures
