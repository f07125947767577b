import ReturnCaptures.Text.CharClass

/-!
# Lines

A text that is shown line by line is broken at every character that ends a line on paper,
not only at the line feed.  A text read from a file or from standard input has its line
ends reduced to line feeds first.
-/

namespace ReturnCaptures

/-- A character at which a shown text is broken. -/
def isLineBreak (c : Char) : Bool :=
  c = '\n' || c = '\r' || c = '\x0b' || c = '\x0c' || c = '\x1c' || c = '\x1d' || c = '\x1e' ||
    c = '\u0085' || c = '\u2028' || c = '\u2029'

/-- The lines of a text, without what ends them; a carriage return and the line feed after
it end one line, and nothing after the last line end is no line. -/
def lines : List Char → List (List Char)
  | [] => []
  | '\r' :: '\n' :: text => [] :: lines text
  | c :: text =>
    if isLineBreak c then [] :: lines text
    else
      match lines text with
      | [] => [[c]]
      | line :: rest => (c :: line) :: rest

/-- The text with every carriage return, alone or before a line feed, read as a line
feed. -/
def unifyLineEnds : List Char → List Char
  | [] => []
  | '\r' :: '\n' :: text => '\n' :: unifyLineEnds text
  | c :: text => (if c = '\r' then '\n' else c) :: unifyLineEnds text

/-- Whether the text holds a carriage return followed by a line feed. -/
def hasCarriageReturns : List Char → Bool
  | [] => false
  | c :: text => (c = '\r' && text.head? = some '\n') || hasCarriageReturns text

/-- Nothing that is read has a carriage return. -/
theorem not_mem_unifyLineEnds (text : List Char) :
  '\r' ∉ unifyLineEnds text
  := by
  fun_induction unifyLineEnds text with
  | case1 => simp
  | case2 text ih => simpa using ih
  | case3 c text _ ih =>
      rw [List.mem_cons, not_or]
      constructor
      · split
        · decide
        · apply Ne.symm
          assumption
      · apply ih

/-- A text without carriage returns is read as it is. -/
theorem unifyLineEnds_eq_self {text : List Char} (h : '\r' ∉ text) :
  unifyLineEnds text = text
  := by
  fun_induction unifyLineEnds text with
  | case1 => rfl
  | case2 text ih => simp at h
  | case3 c text _ ih =>
      rw [List.mem_cons, not_or] at h
      rw [ih h.2, if_neg (Ne.symm h.1)]

theorem hasCarriageReturns_eq_false {text : List Char} (h : '\r' ∉ text) :
  hasCarriageReturns text = false
  := by
  induction text with
  | nil => rfl
  | cons c text ih =>
      rw [List.mem_cons, not_or] at h
      rw [hasCarriageReturns, ih h.2, Bool.or_false, Bool.and_eq_false_iff]
      left
      simpa using Ne.symm h.1

end ReturnCaptures
