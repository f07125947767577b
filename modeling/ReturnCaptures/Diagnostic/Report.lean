import ReturnCaptures.Diagnostic.Basic
import ReturnCaptures.Text.Lines

/-!
# Reports

A diagnostic is reported as a header with its code and message, then for each label its
place, the source line it starts on, a row of carets under the span if it stays on that
line, and its remark; the notes come last.  The colours are terminal escape sequences and
can be left out.
-/

namespace ReturnCaptures.Report

/-- How a report is written: with or without colours, and where the lines of a file come
from.  A file that cannot be read has no lines. -/
structure Style where
  color : Bool
  linesOf : String → List String

/-- The style that looks lines up in the given texts. -/
def Style.ofTexts (color : Bool) (texts : List (String × String)) : Style where
  color := color
  linesOf file :=
    match texts.find? (·.1 == file) with
    | some (_, text) => (lines text.toList).map String.ofList
    | none => []

/-- The colour of the word `error`, the carets and the remarks. -/
def red : String := "\x1b[1;31m"

/-- The colour of the header's message. -/
def bold : String := "\x1b[1m"

/-- The colour of the margin. -/
def blue : String := "\x1b[1;34m"

/-- What ends a coloured part. -/
def reset : String := "\x1b[0m"

/-- A text in a colour, if the style has colours. -/
def Style.paint (style : Style) (color text : String) : String :=
  if style.color then color ++ text ++ reset else text

/-- A line number, right-aligned in four columns. -/
def lineNumber (n : Nat) : String :=
  let digits := toString n
  String.ofList (List.replicate (4 - digits.length) ' ') ++ digits

/-- The source line with number `n`, counted from 1. -/
def Style.sourceLine? (style : Style) (file : String) (n : Nat) : Option String :=
  if n = 0 then none else (style.linesOf file)[n - 1]?

/-- The carets under a span that stays on one line. -/
def Style.carets (style : Style) (span : Span) : String :=
  "  " ++ style.paint blue "   |" ++ " " ++
    String.ofList (List.replicate (span.startColumn - 1) ' ') ++
    style.paint red
      (String.ofList (List.replicate (max 1 (span.endColumn + 1 - span.startColumn)) '^'))

/-- The lines of the report on one label. -/
def Style.label (style : Style) (label : Label) : List String :=
  let span := label.span
  let margin := "  " ++ style.paint blue "   |"
  let numbered := "  " ++ style.paint blue (lineNumber span.startLine ++ " |")
  let source := style.sourceLine? span.file span.startLine
  ["  " ++ style.paint blue "-->" ++ " " ++ span.location, margin] ++
    (match source with
      | some line => [numbered ++ " " ++ line]
      | none => []) ++
    (if span.startLine = span.endLine then [style.carets span]
      else if source.isNone then [numbered] else []) ++
    (if label.message.isEmpty then []
      else [margin ++ "   " ++ style.paint red label.message])

/-- The report on a diagnostic. -/
def Style.report (style : Style) (d : Diagnostic) : String :=
  let header := style.paint red ("error[" ++ d.code ++ "]") ++ style.paint bold (": " ++ d.message)
  let notes := d.notes.map fun note => "  " ++ style.paint blue "=" ++ " note: " ++ note
  String.intercalate "\n" (header :: d.labels.flatMap style.label ++ notes)

end ReturnCaptures.Report
