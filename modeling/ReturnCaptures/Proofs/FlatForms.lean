import ReturnCaptures.Proofs.Standing

/-!
# What flat forms tell

The flat form of trees lists the texts of their tokens, and neither groups them nor says of which
kinds they are. For the trees of a text it tells both all the same: wherever a text is a token, it
is read as on its own, no token is spelled as a delimiter without being one, and trees are read
from lexemes. Trees of two texts that have the same flat form differ only in where their tokens
stand and in which of them are joint.
-/

namespace ReturnCaptures

open Scan TokenTree

/-- What a text is read as on its own, no matter whether it is joint. -/
def Reading.ofText (text : String) : Reading :=
  match text.toList with
  | [] => .trivia
  | c :: rest => (start c rest).reading.plain

/-- A lexeme that stands in front of a text is what its own text is read as. -/
theorem Lexeme.Stands.ofText_eq {l : Lexeme} {u : List Char} (h : l.Stands u) :
  Reading.ofText l.text = .lexeme l.plain
  := by
  obtain ⟨c, rest, htext, -, hreading, -⟩ := h.nil.exists_start
  rw [List.append_nil] at hreading
  rw [Reading.ofText, htext]
  exact hreading

namespace TokenTree

section Flat

variable {file file' : String} {source source' : List Char} {u v : List TokenTree}

/-- The flat form of the trees of a text tells the lexemes of their tokens. -/
theorem map_ofText_flatAll (h : ofText file source = .ok u) :
  (flatAll u).map Reading.ofText = (lexemesAll u).map .lexeme
  := by
  rw [flatAll_eq_map, lexemesAll, List.map_map, List.map_map, List.map_map, List.map_inj_left]
  intro t ht
  obtain ⟨w, hstands⟩ := stands_of_tokensOf (tokensOf_of_ofText h).1 t ht
  simp only [Function.comp_apply, Lexeme.text_plain, hstands.ofText_eq]

/-- The lexemes of trees, none of which is a delimiter, tell how they are grouped. -/
theorem bareAll_eq_of_lexemesAll_eq (hu : areProper u) (hv : areProper v)
    (h : lexemesAll u = lexemesAll v) :
  bareAll u = bareAll v
  := by
  have hlexemes : (tokensAll u).map (·.lexeme.plain) = lexemesAll u := rfl
  -- the tokens of `u` are read as both
  obtain ⟨w, hw, hbare⟩ := exists_ofTokens hu hlexemes
  obtain ⟨w', hw', hbare'⟩ := exists_ofTokens hv (hlexemes.trans h)
  obtain rfl : w = w' := Except.ok.inj (hw.symm.trans hw')
  exact hbare.symm.trans hbare'

/-- The trees of two texts have the same flat form exactly if they are the same but for spans and
for what is joint. -/
theorem flatAll_eq_iff_bareAll_eq (hu : ofText file source = .ok u)
    (hv : ofText file' source' = .ok v) :
  flatAll u = flatAll v ↔ bareAll u = bareAll v
  := by
  constructor
  · intro hflat
    apply bareAll_eq_of_lexemesAll_eq (tokensOf_of_ofText hu).2 (tokensOf_of_ofText hv).2
    have hreadings : (lexemesAll u).map Reading.lexeme = (lexemesAll v).map Reading.lexeme := by
      rw [← map_ofText_flatAll hu, hflat, map_ofText_flatAll hv]
    exact List.map_injective_iff.mpr (fun _ _ => Reading.lexeme.inj) hreadings
  · intro hbare
    rw [← flatAll_bareAll u, hbare, flatAll_bareAll]

theorem flatAll_eq_iff_bareAll_eq_respaced :
  ∃ u v, ofText "f.rs" "f ( 'a' , 'b ) - > [ 1. ]".toList = .ok u ∧
    ofText "g.rs" "f('a','b)->[1.] // as it was".toList = .ok v ∧
    flatAll u = ["f", "(", "'a'", ",", "'b", ")", "-", ">", "[", "1.", "]"] ∧
    (flatAll u = flatAll v ↔ bareAll u = bareAll v) ∧ bareAll u = bareAll v
  := by
  obtain ⟨u, hu, hflatu⟩ := Outcome.exists_of_any
    (x := ofText "f.rs" "f ( 'a' , 'b ) - > [ 1. ]".toList)
    (p := fun u => flatAll u == ["f", "(", "'a'", ",", "'b", ")", "-", ">", "[", "1.", "]"])
    (by decide +kernel)
  obtain ⟨v, hv, hflatv⟩ := Outcome.exists_of_any
    (x := ofText "g.rs" "f('a','b)->[1.] // as it was".toList)
    (p := fun v => flatAll v == ["f", "(", "'a'", ",", "'b", ")", "-", ">", "[", "1.", "]"])
    (by decide +kernel)
  rw [beq_iff_eq] at hflatu hflatv
  have hiff := flatAll_eq_iff_bareAll_eq hu hv
  exact ⟨u, v, hu, hv, hflatu, hiff, hiff.mp (hflatu.trans hflatv.symm)⟩

end Flat

end TokenTree

end ReturnCaptures
