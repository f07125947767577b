import ReturnCaptures.Text.Position

/-!
# Diagnostics

A diagnostic says what is wrong with a source text and where.  A rejection is the list of
the diagnostics for which a text is refused.
-/

namespace ReturnCaptures

/-- The kinds of problems for which a text is rejected. -/
inductive ErrorKind where
  /-- A character or literal that is no token. -/
  | lexical
  /-- A delimiter without its partner. -/
  | delimiter
  /-- A token that the grammar does not admit where it stands. -/
  | mismatch
  /-- A malformed return capture. -/
  | capture
  /-- Malformed generic parameters or a malformed where clause. -/
  | generics
deriving DecidableEq, Repr

namespace ErrorKind

/-- The code under which a kind of problem is reported. -/
def code : ErrorKind → String
  | lexical => "E100"
  | delimiter => "E101"
  | mismatch => "E200"
  | capture => "E210"
  | generics => "E220"

/-- Every kind, in the order of the codes. -/
def all : List ErrorKind := [lexical, delimiter, mismatch, capture, generics]

/-- The kind with a given code. -/
def ofCode? (code : String) : Option ErrorKind :=
  all.find? fun kind => kind.code == code

end ErrorKind

/-- A place in a file, with a remark on it that may be empty. -/
structure Label where
  span : Span
  message : String
deriving DecidableEq, Repr

/-- One problem: its code, its message, the places it concerns and further notes. -/
structure Diagnostic where
  code : String
  message : String
  labels : List Label
  notes : List String
deriving DecidableEq, Repr

namespace Diagnostic

/-- The diagnostic of a problem of kind `kind` at one place. -/
def located (kind : ErrorKind) (message : String) (span : Span) (label : String)
    (notes : List String) : Diagnostic :=
  ⟨kind.code, message, [⟨span, label⟩], notes⟩

/-- The kind of problem, if the code is a known one. -/
def kind (d : Diagnostic) : Option ErrorKind := ErrorKind.ofCode? d.code

/-- The first place concerned. -/
def span (d : Diagnostic) : Option Span := d.labels.head?.map (·.span)

end Diagnostic

/-- The diagnostics for which a text is refused. -/
abbrev Rejection := List Diagnostic

/-- The summary of a rejection: how many problems there are, and what they are. -/
def Rejection.summary (rejection : Rejection) : String :=
  toString rejection.length ++ " error(s): " ++
    String.intercalate "; " (rejection.map (·.message))

end ReturnCaptures
