import ReturnCaptures.Proofs.ScanLength
import ReturnCaptures.Token.Lexer

/-!
# Pieces in front of a text

Pieces are cut from a text one after the other, each in view of what stands behind it. The
same pieces are cut from the text `w ++ v` as from `w ++ u` if `v` resembles `u` closely
enough, and the pieces of two texts are those of the two texts put together if the first one
ends in a piece that does not go on into the second one.
-/

namespace ReturnCaptures

open Scan

/-- The text of pieces. -/
def textOf (ps : List Piece) : List Char := ps.flatMap Piece.text

@[simp]
theorem textOf_nil :
  textOf [] = []
  := rfl

@[simp]
theorem textOf_cons (p : Piece) (ps : List Piece) :
  textOf (p :: ps) = p.text ++ textOf ps
  := rfl

@[simp]
theorem textOf_append (ps qs : List Piece) :
  textOf (ps ++ qs) = textOf ps ++ textOf qs
  := List.flatMap_append

/-- A piece, no matter whether its lexeme is joint. -/
def Piece.plain (p : Piece) : Piece := ⟨p.text, p.reading.plain⟩

/-- A piece is what a scan takes from its text with `u` behind it. -/
def Piece.Starts (p : Piece) (u : List Char) : Prop :=
  ∃ c r, p.text = c :: r ∧ (Scan.start c (r ++ u)).plain = ⟨p.reading.plain, r.length + 1⟩

/-- Pieces are what is cut from their text with `u` behind it. -/
inductive Cuts : List Piece → List Char → Prop
  | nil {u : List Char} : Cuts [] u
  | cons {p : Piece} {ps : List Piece} {u : List Char} :
      p.Starts (textOf ps ++ u) → Cuts ps u → Cuts (p :: ps) u

section Cuts

variable {p : Piece} {ps qs : List Piece} {c : Char} {u v w : List Char}

theorem cuts_append :
  Cuts (ps ++ qs) u ↔ Cuts ps (textOf qs ++ u) ∧ Cuts qs u
  := by
  induction ps with
  | nil =>
      rw [List.nil_append]
      constructor
      · intro h
        use .nil
      · rintro ⟨-, h⟩
        apply h
  | cons p ps ih =>
      constructor
      · intro h
        rw [List.cons_append] at h
        obtain _ | ⟨hp, h⟩ := h
        obtain ⟨hps, hqs⟩ := ih.mp h
        rw [textOf_append, List.append_assoc] at hp
        use .cons hp hps
      · rintro ⟨_ | ⟨hp, hps⟩, hqs⟩
        apply Cuts.cons _ (ih.mpr ⟨hps, hqs⟩)
        rwa [textOf_append, List.append_assoc]

theorem textOf_piecesFrom (n : Nat) (u : List Char) :
  textOf (piecesFrom n u) = u.drop n
  := flatMap_text_piecesFrom n u

/-- The pieces of a text are cut from it. -/
theorem cuts_piecesFrom (n : Nat) (u : List Char) :
  Cuts (piecesFrom n u) []
  := by
  induction u generalizing n with
  | nil =>
      rw [piecesFrom]
      apply Cuts.nil
  | cons c u ih =>
      cases n with
      | succ n => apply ih
      | zero =>
          have hfits := fits_start c u
          simp only [Fits, List.length_cons] at hfits
          apply Cuts.cons _ (ih _)
          use c, u.take ((Scan.start c u).length - 1), rfl
          rw [textOf_piecesFrom, List.append_nil, List.take_append_drop, List.length_take,
            Nat.min_eq_left (by omega), Nat.sub_add_cancel hfits.1]
          rfl

theorem cuts_pieces (u : List Char) :
  Cuts (pieces u) []
  := cuts_piecesFrom 0 u

theorem piecesFrom_length_append :
  piecesFrom w.length (w ++ u) = pieces u
  := by
  induction w with
  | nil => rfl
  | cons c w ih => apply ih

/-- A text with a first piece that a scan takes from it. -/
theorem pieces_cons {r : List Char} {reading : Reading}
    (h : start c (r ++ u) = ⟨reading, r.length + 1⟩) :
  pieces (c :: (r ++ u)) = ⟨c :: r, reading⟩ :: pieces u
  := by
  rw [pieces, piecesFrom, h]
  simp only [Nat.add_sub_cancel, List.take_left, piecesFrom_length_append]

/-- Pieces that are cut from a text in front of `u` are its pieces, those of `u` follow. -/
theorem Cuts.pieces_append (h : Cuts ps u) :
  (pieces (textOf ps ++ u)).map Piece.plain = ps.map Piece.plain ++ (pieces u).map Piece.plain
  := by
  induction h with
  | nil => rfl
  | @cons p ps u hp _ ih =>
      obtain ⟨c, r, hr, hscan⟩ := hp
      obtain ⟨hreading, hlength⟩ := Scan.mk.inj hscan
      rw [textOf_cons, hr, List.append_assoc, List.cons_append, pieces, piecesFrom]
      simp only [hlength, Nat.add_sub_cancel, piecesFrom_length_append, List.take_left, List.map_cons,
        List.cons_append, ih]
      simp only [Piece.plain, hreading, hr]

/-! ### Texts that resemble each other -/

/-- The text `v` resembles `u`: both start with the same characters up to one that tells how
a lexeme in front of it goes on, or up to a carriage return that is part of no line end, or `v`
ends where `u` goes on with nothing. -/
inductive Alike : List Char → List Char → Prop
  | ends {u : List Char} :
      startsWith (fun c => c == '.' || isWordStart c || c == '\n') u = false → Alike u []
  | shared {c : Char} {u v : List Char} : ['.', '#', '\r'].contains c = false →
      (c == '+' || c == '-' → startsWith isDigit v = false) → Alike (c :: u) (c :: v)
  | carriage {u v : List Char} :
      u.head? ≠ some '\n' → v.head? ≠ some '\n' → Alike ('\r' :: u) ('\r' :: v)
  | cons {c : Char} {u v : List Char} : Alike u v → Alike (c :: u) (c :: v)

theorem Alike.append (h : Alike u v) :
  Alike (w ++ u) (w ++ v)
  := by
  induction w with
  | nil => apply h
  | cons c w ih => apply ih.cons

theorem Alike.head? (h : Alike u v) (hv : v.head? = some c) :
  u.head? = some c
  := by
  cases h with
  | ends => cases hv
  | shared => apply hv
  | carriage => apply hv
  | cons => apply hv

/-- Texts that resemble each other start alike. -/
theorem Alike.starts {p : Char → Bool} (h : Alike u v) (hv : startsWith p v) :
  startsWith p u
  := by
  cases h with
  | ends => cases hv
  | shared => apply hv
  | carriage => apply hv
  | cons => apply hv

theorem Alike.starts_pointed (h : Alike u v)
    (hu : startsWith (fun c => c == '.' || isWordStart c) u) :
  startsWith (fun c => c == '.' || isWordStart c) v
  := by
  cases h with
  | ends hn =>
      cases u with
      | nil => cases hu
      | cons c u =>
          simp only [startsWith, Bool.or_eq_false_iff] at hu hn
          simp [hn] at hu
  | shared => apply hu
  | carriage => apply hu
  | cons => apply hu

theorem Alike.hashes (h : Alike u v) (hv : (hashesBeforeQuote? v).isSome) :
  (hashesBeforeQuote? u).isSome
  := by
  induction h with
  | ends => cases hv
  | @shared c u v hc _ =>
      by_cases hquote : c = '"'
      · subst hquote
        rfl
      · have hhash : c ≠ '#' := by
          rintro rfl
          cases hc
        simp [hashesBeforeQuote?, hquote, hhash] at hv
  | carriage => simp [hashesBeforeQuote?] at hv
  | @cons c u v _ ih =>
      by_cases hquote : c = '"'
      · subst hquote
        rfl
      · by_cases hhash : c = '#'
        · subst hhash
          simp only [hashesBeforeQuote?, Option.isSome_map] at hv ⊢
          apply ih hv
        · simp [hashesBeforeQuote?, hquote, hhash] at hv

/-- A text goes on lexemes only as the text does that it resembles. -/
theorem Alike.milder (h : Alike u v) :
  Milder u v
  := by
  constructor
  · constructor
    · intro c hc _ _
      apply h.head? hc
    · intro hsign hv
      cases h with
      | ends => cases hv
      | shared _ hdigit =>
          have hno := hdigit hsign
          rw [List.drop_one, List.tail_cons, hno] at hv
          cases hv
      | carriage => cases hsign
      | cons h => apply h.starts hv
    · apply h.hashes
    · intro hv
      cases h with
      | ends => apply absurd rfl hv
      | @shared c u v hc _ =>
          have hhash : c ≠ '#' := by
            rintro rfl
            cases hc
          simp [rawMarkLength, hhash] at hv
      | carriage => simp [rawMarkLength] at hv
      | @cons c u v h =>
          by_cases hhash : c = '#'
          · subst hhash
            simp only [rawMarkLength] at hv ⊢
            split at hv
            case isTrue hstart =>
              rw [if_pos (h.starts hstart)]
              decide
            case isFalse => apply absurd rfl hv
          · simp [rawMarkLength, hhash] at hv
  · apply h.head?
  · intro hv
    cases h with
    | ends => apply absurd rfl hv
    | @shared c u v hc _ =>
        have hpoint : c ≠ '.' := by
          rintro rfl
          cases hc
        simp [fractionLength, hpoint] at hv
    | carriage => simp [fractionLength] at hv
    | @cons c u v h =>
        by_cases hpoint : c = '.'
        · subst hpoint
          simp only [fractionLength] at hv ⊢
          split at hv
          case isTrue => apply absurd rfl hv
          case isFalse hstart =>
            rw [if_neg fun hu => hstart (h.starts_pointed hu)]
            omega
        · simp [fractionLength, hpoint] at hv

/-- A text that resembles another ends every line in front of it that the other one ends. -/
theorem Alike.endsLine (h : Alike u v) (hu : lineLength u = 0) :
  EndsLine u v
  := by
  constructor
  · cases h with
    | ends _ => rfl
    | @shared c u v hc _ =>
        rw [lineLength_cons] at hu ⊢
        split at hu
        case isTrue hend =>
          obtain rfl : c = '\n' := by
            rcases hend with hfeed | ⟨rfl, _⟩
            · exact hfeed
            · cases hc
          rw [if_pos (.inl rfl)]
        case isFalse => cases hu
    | carriage hno _ =>
        rw [lineLength_cons] at hu
        split at hu
        case isTrue hend =>
          rcases hend with hfeed | ⟨-, hfeed⟩
          · cases hfeed
          · exact absurd hfeed hno
        case isFalse => cases hu
    | @cons c u v h =>
        rw [lineLength_cons] at hu ⊢
        split at hu
        case isTrue hend =>
          rw [if_pos]
          apply hend.imp_right
          rintro ⟨hc, hu⟩
          use hc
          cases h with
          | ends hn =>
              obtain ⟨r, rfl⟩ := List.head?_eq_some_iff.mp hu
              cases hn
          | shared _ _ => exact hu
          | carriage _ _ => exact hu
          | cons _ => exact hu
        case isFalse => cases hu
  · apply h.head?

/-! ### Pieces in front of another text -/

/-- Whether a piece is lexeme or trivia. -/
def Piece.isClean (p : Piece) : Bool := !p.reading.isFault

theorem Reading.isFault_plain (reading : Reading) :
  reading.plain.isFault = reading.isFault
  := by
  cases reading <;> rfl

/-- What starts a text starts another one that goes on in no other way. -/
theorem Piece.Starts.of_milder (h : p.Starts u) (hp : p.isClean) (hm : Milder u v)
    (hslash : p.text = ['/'] → ∀ d ∈ v.head?, d = '/' ∨ d = '*' → u.head? = some d)
    (hline : lineLength u = 0 → p.text.take 2 = ['/', '/'] → EndsLine u v) :
  p.Starts v
  := by
  obtain ⟨c, r, hr, hscan⟩ := h
  obtain ⟨hreading, hlength⟩ := Scan.mk.inj hscan
  use c, r, hr
  rw [← hscan]
  apply start_append hm _ hlength
  · rintro rfl rfl
    apply hslash hr
  · rintro rfl hhead
    obtain ⟨r, rfl⟩ := List.head?_eq_some_iff.mp hhead
    rw [List.cons_append, start_slashes] at hlength
    replace hlength : (lineComment ('/' :: '/' :: (r ++ u))).length = r.length + 2 := hlength
    rw [length_lineComment] at hlength
    apply hline (lineLength_of_append (Nat.add_right_cancel hlength))
    rw [hr]
    rfl
  · rw [← Reading.isFault_plain, hreading, Reading.isFault_plain]
    simpa [Piece.isClean] using hp

/-- Pieces in front of a text are pieces in front of every text that resembles it. -/
theorem Cuts.of_alike (h : Cuts ps u) (hp : ∀ p ∈ ps, p.isClean) (ha : Alike u v) :
  Cuts ps v
  := by
  induction h with
  | nil => apply Cuts.nil
  | @cons p ps u hstarts _ ih =>
      rw [List.forall_mem_cons] at hp
      have ha' : Alike (textOf ps ++ u) (textOf ps ++ v) := ha.append
      apply Cuts.cons _ (ih hp.2 ha)
      apply hstarts.of_milder hp.1 ha'.milder
      · intro _ d hd _
        apply ha'.head? hd
      · intro hend _
        apply ha'.endsLine hend

end Cuts

end ReturnCaptures
