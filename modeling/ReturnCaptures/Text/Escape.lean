/-!
# Terminal escape sequences

Control sequences set colours and styles and move the cursor.  A control sequence is an escape character and an
opening bracket, followed by parameters, intermediate characters and one final character;
each of the three kinds is a range of the ASCII characters.  A start without a final
character is no sequence.
-/

namespace ReturnCaptures.Escape

/-- A character that may stand among the parameters of a sequence. -/
def isParameter (c : Char) : Bool := '0' ≤ c && c ≤ '?'

/-- A character that may stand between the parameters and the final character. -/
def isIntermediate (c : Char) : Bool := ' ' ≤ c && c ≤ '/'

/-- A character that ends a sequence. -/
def isFinal (c : Char) : Bool := '@' ≤ c && c ≤ '~'

/-- The length of the rest of a sequence after its bracket. -/
def restLength? (text : List Char) : Option Nat :=
  let parameters := text.takeWhile isParameter
  let intermediates := (text.dropWhile isParameter).takeWhile isIntermediate
  match (text.dropWhile isParameter).dropWhile isIntermediate with
  | c :: _ => if isFinal c then some (parameters.length + intermediates.length + 1) else none
  | [] => none

/-- The text without sequences, of which the first `skip` characters belong to one. -/
def stripFrom : (skip : Nat) → List Char → List Char
  | _, [] => []
  | skip + 1, _ :: text => stripFrom skip text
  | 0, c :: text =>
    if c = '\x1b' && text.head? = some '[' then
      match restLength? (text.drop 1) with
      | some n => stripFrom (n + 1) text
      | none => c :: stripFrom 0 text
    else c :: stripFrom 0 text

/-- The text without escape sequences. -/
def strip (text : List Char) : List Char := stripFrom 0 text

/-- A text without an escape character has no sequences. -/
theorem strip_eq_self {text : List Char} (h : '\x1b' ∉ text) :
  strip text = text
  := by
  unfold strip
  induction text with
  | nil => rfl
  | cons c text ih =>
      rw [List.mem_cons, not_or] at h
      have hc : ¬ (c = '\x1b' && text.head? = some '[') := by simp [Ne.symm h.1]
      rw [stripFrom, if_neg hc, ih h.2]

end ReturnCaptures.Escape
