import ReturnCaptures.Diagnostic.Basic
import ReturnCaptures.Text.Quoted
import ReturnCaptures.Token.Scan

/-!
# Cutting a text into tokens

A text is cut into pieces, each of which is a lexeme, trivia or a fault.  The pieces put
together again give the text: `flatMap_text_pieces`.  The tokens are the pieces that are
lexemes, with the spans at which they stand; a text with a fault has none, and all its
faults are reported together.
-/

namespace ReturnCaptures

/-- A stretch of text and what it is. -/
structure Piece where
  text : List Char
  reading : Reading
deriving DecidableEq, Repr

/-- The pieces of a text of which the first `skip` characters belong to an earlier
piece. -/
def piecesFrom : Nat → List Char → List Piece
  | _, [] => []
  | skip + 1, _ :: rest => piecesFrom skip rest
  | 0, c :: rest =>
    let scan := Scan.start c rest
    ⟨c :: rest.take (scan.length - 1), scan.reading⟩ :: piecesFrom (scan.length - 1) rest

/-- The pieces of a text. -/
def pieces (text : List Char) : List Piece := piecesFrom 0 text

theorem flatMap_text_piecesFrom (skip : Nat) (text : List Char) :
    (piecesFrom skip text).flatMap Piece.text = text.drop skip := by
  induction text generalizing skip with
  | nil => simp [piecesFrom]
  | cons c rest ih =>
    cases skip with
    | zero => simp [piecesFrom, ih]
    | succ skip => simp [piecesFrom, ih]

/-- Nothing of a text is lost when it is cut. -/
theorem flatMap_text_pieces (text : List Char) : (pieces text).flatMap Piece.text = text :=
  flatMap_text_piecesFrom 0 text

/-- A piece and the positions before and after it. -/
structure PlacedPiece where
  first : Position
  last : Position
  piece : Piece
deriving DecidableEq, Repr

/-- The pieces with their positions, the first of them at `p`. -/
def placedFrom (p : Position) : List Piece → List PlacedPiece
  | [] => []
  | piece :: rest =>
    let q := p.after piece.text
    ⟨p, q, piece⟩ :: placedFrom q rest

/-- The pieces of a text with their positions. -/
def placed (text : List Char) : List PlacedPiece := placedFrom .origin (pieces text)

/-- The message for a fault. -/
def LexicalFault.message : LexicalFault → String
  | .unexpected c => "unexpected character: " ++ Quoted.encode [c]
  | .unterminatedComment => "unterminated block comment"
  | .unterminatedString => "unterminated string literal"
  | .unterminatedRawString => "unterminated raw string literal"
  | .unterminatedChar => "unterminated character literal"

/-- The place at which a fault is reported: the line and column are those of its first
character; the offset is that of an unexpected character, and for a literal or comment
without an end the place where the end is missing. -/
def LexicalFault.span (file : String) (first last : Position) : LexicalFault → Span
  | .unexpected _ =>
    ⟨file, first.line, first.column, first.line, first.column, first.offset, first.offset + 1⟩
  | _ => ⟨file, first.line, first.column, first.line, first.column, last.offset, last.offset + 1⟩

namespace PlacedPiece

/-- The token that a piece is. -/
def token? (file : String) (p : PlacedPiece) : Option Token :=
  match p.piece.reading with
  | .lexeme lexeme => some ⟨lexeme, .between file p.first p.last⟩
  | _ => none

/-- The diagnostic of the fault that a piece is. -/
def diagnostic? (file : String) (p : PlacedPiece) : Option Diagnostic :=
  match p.piece.reading with
  | .fault cause => some (.located .lexical cause.message (cause.span file p.first p.last) "" [])
  | _ => none

end PlacedPiece

/-- The tokens of a text, or the diagnostics of all its faults. -/
def tokensOf (file : String) (text : List Char) : Except Rejection (List Token) :=
  let pieces := placed text
  match pieces.filterMap (·.diagnostic? file) with
  | [] => .ok (pieces.filterMap (·.token? file))
  | faults => .error faults

/-- The empty span at the end of a text. -/
def endOfText (file : String) (text : List Char) : Span :=
  let p := Position.origin.after text
  .between file p p

end ReturnCaptures
