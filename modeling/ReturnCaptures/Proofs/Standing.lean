import ReturnCaptures.Proofs.Slices
import ReturnCaptures.TokenTree.Printer
import Mathlib.Data.List.Chain

/-!
# Lexemes where they stand

A lexeme stands in front of a text if it is what is read from its characters there. Every
lexeme of a text stands in front of what follows it, and in front of every text that does not
go on with it: a word in front of no letter, a slash in front of no slash and no star, a line
comment in front of a line end. A whole number goes on into a point, and a line comment that
ends in a carriage return is shorter in front of a line feed.
-/

namespace ReturnCaptures

open Scan TokenTree

/-! ### What a lexeme starts with -/

section First

variable {c : Char} {l : Lexeme} {u v w : List Char}

/-- Whether a lexeme may start with the character `c`. -/
def Lexeme.opensWith (c : Char) : Lexeme → Bool
  | .ident _ | .keyword _ => isWordStart c && !isDigit c
  | .lifetime _ => c == '\''
  | .literal _ _ => isDigit c || ['"', '\'', 'b', 'c', 'r'].contains c
  | .punct symbol _ => c == symbol && isMarkChar c
  | .doc _ _ => c == '/'

theorem opensWith_of_isQuoted (hl : l.isQuoted)
    (hc : isDigit c || ['"', '\'', 'b', 'c', 'r'].contains c) :
  l.opensWith c
  := by
  cases l <;> first | exact hc | cases hl

theorem opensWith_lineComment (h : (lineComment w).reading = .lexeme l) :
  l.opensWith '/'
  := by
  simp only [lineComment, ofLexeme] at h
  split_ifs at h <;> cases h <;> rfl

theorem opensWith_blockComment (h : (blockComment w).reading = .lexeme l) :
  l.opensWith '/'
  := by
  simp only [blockComment, ofLexeme] at h
  split at h
  case h_1 => cases h
  case h_2 => split_ifs at h <;> cases h <;> rfl

/-- A scan that does not fail reads a lexeme that may start with its first character. -/
theorem opensWith_of_start (h : (start c w).reading = .lexeme l) :
  l.opensWith c
  := by
  have hform := startForm_start c w
  generalize start c w = scan at h hform
  have hquoted (hq : scan.reading.isQuoted)
      (hc : isDigit c || ['"', '\'', 'b', 'c', 'r'].contains c) : l.opensWith c := by
    rw [h] at hq
    apply opensWith_of_isQuoted hq hc
  cases hform with
  | blank | unexpected => cases h
  | line => apply opensWith_lineComment h
  | block => apply opensWith_blockComment h
  | slash =>
      cases h
      rfl
  | opened hopening =>
      apply hquoted opened_isQuoted
      by_contra hno
      simp only [Bool.or_eq_true, List.contains_iff_mem, List.mem_cons, List.not_mem_nil, or_false,
        not_or] at hno
      rw [opening?_eq_none hno.2.2.2.1 hno.2.2.2.2.1 hno.2.2.2.2.2] at hopening
      cases hopening
  | string => apply hquoted string_isQuoted (by decide)
  | apostrophe =>
      simp only [apostrophe] at h hquoted
      split at h
      case isTrue =>
        cases h
        rfl
      case isFalse hno =>
        rw [if_neg hno] at hquoted
        apply hquoted char_isQuoted (by decide)
  | number hdigit =>
      apply hquoted number_isQuoted
      rw [hdigit, Bool.true_or]
  | word _ hdigit hword =>
      simp only [word, ofLexeme, wordLexeme] at h
      split at h <;> cases h <;> simp [Lexeme.opensWith, hword, hdigit]
  | delimiter hdelimiter =>
      cases h
      simp [Lexeme.opensWith, isMarkChar, hdelimiter]
  | punct _ _ hpunctuation =>
      cases h
      simp only [Lexeme.opensWith, isMarkChar, hpunctuation, beq_self_eq_true, Bool.or_true,
        Bool.and_self]

theorem opensWith_plain (c : Char) (l : Lexeme) :
  l.plain.opensWith c = l.opensWith c
  := by
  cases l <;> rfl

end First

/-! ### Lexemes where they stand -/

/-- A lexeme is what is read where its text stands in front of `u`. -/
def Lexeme.Stands (l : Lexeme) (u : List Char) : Prop := Piece.Starts ⟨l.text.toList, .lexeme l⟩ u

/-- A slash that is joint to a lexeme starts no comment with it. -/
def SlashApart (l l' : Lexeme) : Prop :=
  l = .punct '/' true → l'.text.toList.head? ≠ some '/' ∧ l'.text.toList.head? ≠ some '*'

section Stands

variable {c : Char} {l : Lexeme} {r u v w : List Char}

/-- The tokens of a text are read from their own texts. -/
theorem stands_of_tokensOf {file : String} {source : List Char} {tokens : List Token}
    (h : tokensOf file source = .ok tokens) :
  ∀ t ∈ tokens, ∃ u, t.lexeme.Stands u
  := by
  intro t ht
  obtain ⟨before, after, rfl⟩ := List.append_of_mem ht
  obtain ⟨_, htokens⟩ := tokensOf_eq_ok.mp h
  obtain ⟨ps, q, qs, hpieces, _, hreading, _⟩ := exists_piece htokens
  have hcuts := cuts_pieces source
  rw [hpieces] at hcuts
  obtain _ | ⟨hstarts, _⟩ := (cuts_append.mp hcuts).2
  use textOf qs ++ []
  have hplain : q.reading.plain = .lexeme t.lexeme.plain := by rw [hreading]; rfl
  have htext : q.text = t.lexeme.text.toList := by
    rw [← Lexeme.text_plain, ← hstarts.text_eq hplain, String.toList_ofList]
  obtain ⟨text, reading⟩ := q
  obtain rfl := hreading
  obtain rfl := htext
  apply hstarts

theorem Lexeme.Stands.exists_start (h : l.Stands u) :
  ∃ c r, l.text.toList = c :: r ∧ l.opensWith c ∧
    (start c (r ++ u)).reading.plain = .lexeme l.plain ∧ (start c (r ++ u)).length = r.length + 1
  := by
  obtain ⟨c, r, hr, hscan⟩ := h
  obtain ⟨hreading, hlength⟩ := Scan.mk.inj hscan
  use c, r, hr
  constructor
  · obtain ⟨l', hl', hplain⟩ := Reading.exists_of_plain hreading
    rw [← opensWith_plain, ← hplain, opensWith_plain]
    apply opensWith_of_start hl'
  · use hreading

theorem Lexeme.Stands.lexes (h : l.Stands u) :
  Lexes l.text.toList u [l.plain]
  := by
  use [⟨l.text.toList, .lexeme l⟩], List.append_nil _
  constructor
  · apply Cuts.cons _ .nil
    apply h
  · simp [Piece.isClean, Reading.isFault, Piece.lexeme?]

/-- A slash that is punctuation starts no comment. -/
theorem start_of_slash {j : Bool} (h : (start '/' w).reading = .lexeme (.punct '/' j)) :
  w.head? ≠ some '/' ∧ w.head? ≠ some '*' ∧ start '/' w = ⟨.lexeme (.punct '/' (joins w)), 1⟩
  := by
  have hpunct : (start '/' w).reading.isPunct := by
    rw [h]
    rfl
  have hslash : w.head? ≠ some '/' := by
    intro hw
    obtain ⟨r, rfl⟩ := List.head?_eq_some_iff.mp hw
    rw [start_slashes, lineComment_isPunct] at hpunct
    cases hpunct
  have hstar : w.head? ≠ some '*' := by
    intro hw
    obtain ⟨r, rfl⟩ := List.head?_eq_some_iff.mp hw
    rw [start_star, blockComment_isPunct] at hpunct
    cases hpunct
  use hslash, hstar
  apply start_slash hslash hstar

/-- What directly follows a joint slash is read from the next character. -/
theorem head?_of_slash {file : String} {p : Position} {t : Token}
    (h : (start '/' w).reading = .lexeme (.punct '/' true))
    (hclean : ∀ p ∈ piecesFrom 0 w, p.isClean) (ht : t ∈ (tokensAt file p (piecesFrom 0 w)).head?) :
  t.lexeme.text.toList.head? ≠ some '/' ∧ t.lexeme.text.toList.head? ≠ some '*'
  := by
  obtain ⟨hno, hno', hslash⟩ := start_of_slash h
  rw [hslash] at h
  have hjoins : joins w := (Lexeme.punct.inj (Reading.lexeme.inj h)).2
  cases w with
  | nil => cases hjoins
  | cons d w =>
      rw [joins_cons, Bool.and_eq_true] at hjoins
      have hnext : isWhitespace d = false ∧ d ≠ '/' := by
        constructor
        · have hall : ('\'' :: punctuation).all fun d => !isWhitespace d := by decide
          have hmem : d ∈ '\'' :: punctuation := by
            simpa [or_comm] using hjoins.1
          simpa using List.all_eq_true.mp hall d hmem
        · rintro rfl
          apply hno rfl
      rw [piecesFrom, tokensAt_cons, PlacedPiece.token?] at ht
      rw [piecesFrom, List.forall_mem_cons] at hclean
      cases hreading : (start d w).reading with
      | trivia =>
          rcases first_of_trivia hreading with hspace | hslash
          · rw [hnext.1] at hspace
            cases hspace
          · exact absurd hslash hnext.2
      | fault =>
          simp [Piece.isClean, hreading, Reading.isFault] at hclean
      | lexeme l =>
          simp only [hreading] at ht
          cases ht
          obtain ⟨n, hn⟩ := Nat.exists_eq_succ_of_ne_zero (Nat.ne_of_gt (fits_start d w).1)
          rw [spells_start d w l hreading, leading, String.toList_ofList, hn, List.take_succ_cons]
          constructor
          · simpa using hnext.2
          · simpa using hno'

/-- No token of a text starts a comment with a slash in front of it. -/
theorem isChain_tokensAt {file : String} {p : Position} {n : Nat}
    (hclean : ∀ p ∈ piecesFrom n w, p.isClean) :
  ((tokensAt file p (piecesFrom n w)).map (·.lexeme)).IsChain SlashApart
  := by
  induction w generalizing n p with
  | nil => apply List.IsChain.nil
  | cons c w ih =>
      cases n with
      | succ n => apply ih hclean
      | zero =>
          rw [piecesFrom] at hclean ⊢
          rw [List.forall_mem_cons] at hclean
          rw [tokensAt_cons]
          cases hreading : (start c w).reading with
          | trivia | fault => apply ih hclean.2
          | lexeme l =>
              change (l :: (tokensAt file (p.after _) (piecesFrom _ w)).map (·.lexeme)).IsChain _
              rw [List.isChain_cons]
              constructor
              · intro l' hl' hslash
                rw [List.head?_map] at hl'
                obtain ⟨t, ht, rfl⟩ := Option.map_eq_some_iff.mp hl'
                subst hslash
                have hc := opensWith_of_start hreading
                obtain rfl : c = '/' := by
                  simp only [Lexeme.opensWith, Bool.and_eq_true] at hc
                  apply eq_of_beq hc.1
                rw [(start_of_slash hreading).2.2] at hclean ht
                apply head?_of_slash hreading hclean.2 ht
              · apply ih hclean.2

/-- A lexeme that stands in front of a text is read at its end as well. -/
theorem Lexeme.Stands.nil (h : l.Stands u) :
  l.Stands []
  := by
  apply h.of_milder rfl (milder_of_startsWith rfl)
  · simp
  · intro _ _
    use rfl
    simp

/-- A delimiter or a punctuation character other than a slash stands in front of every text. -/
theorem Lexeme.Stands.of_punct {j : Bool} (h : (Lexeme.punct c j).Stands u) (hslash : c ≠ '/') :
  (Lexeme.punct c j).Stands v
  := (Piece.Starts.of_punct h rfl hslash).2.2

/-- A slash stands in front of every text that it starts no comment with. -/
theorem stands_slash {j : Bool} (hslash : v.head? ≠ some '/') (hstar : v.head? ≠ some '*') :
  (Lexeme.punct '/' j).Stands v
  := by
  use '/', []
  constructor
  · apply String.toList_singleton
  · rw [List.nil_append, start_slash hslash hstar]
    rfl

/-- A word, a lifetime or a literal stands in front of every text that does not go on with
it. -/
theorem Lexeme.Stands.of_isSpelled (h : l.Stands u) (hl : l.isSpelled)
    (hv : startsWith isActive v = false) :
  l.Stands v
  := (Piece.Starts.of_isSpelled h (l := l.plain) rfl (by rwa [Lexeme.isSpelled_plain]) hv).1

/-- Whether a lexeme is a number of digits alone, which a fraction after it would go on. -/
def Lexeme.isWhole : Lexeme → Bool
  | .literal _ text => text.toList.all isDigitOrUnderscore
  | _ => false

theorem mild_point :
  Mild [] ('.' :: v)
  := by
  constructor
  · rintro c ⟨⟩ _ hne
    apply absurd rfl hne
  · simp [startsWith]
  · simp [hashesBeforeQuote?]
  · intro h
    apply absurd rfl h

/-- No delimiter and no punctuation character is a digit or starts a word. -/
theorem class_of_isMarkChar (hc : isMarkChar c) :
  isDigit c = false ∧ isWordStart c = false
  := by
  have hall : marks.all fun c => !isDigit c && !isWordStart c := by decide
  simpa using List.all_eq_true.mp hall c (mem_marks hc)

/-- Only literals start with a digit. -/
theorem exists_literal_of_isDigit (h : l.opensWith c) (hc : isDigit c) :
  ∃ kind text, l = .literal kind text
  := by
  have hne {d : Char} (hd : isDigit d = false) : c ≠ d := by
    rintro rfl
    rw [hc] at hd
    cases hd
  cases l with
  | literal kind text => use kind, text
  | ident | keyword => simp [Lexeme.opensWith, hc] at h
  | lifetime => exact absurd (eq_of_beq h) (hne (by decide))
  | doc => exact absurd (eq_of_beq h) (hne (by decide))
  | punct d j =>
      simp only [Lexeme.opensWith, Bool.and_eq_true] at h
      rw [(class_of_isMarkChar h.2).1] at hc
      cases hc

/-- A word, a lifetime or a literal stands in front of a point that makes no number longer. -/
theorem Lexeme.Stands.of_point (h : l.Stands u) (hl : l.isSpelled)
    (hpoint : Printer.endsInPoint (.lexeme l) = false) (hfraction : l.isWhole → fractionLength ('.' :: v) = 0) :
  l.Stands ('.' :: v)
  := by
  obtain ⟨c, r, hr, hopens, hreading, hlength⟩ := h.nil.exists_start
  have hslash : c ≠ '/' := by
    have hfirst := first_of_isSpelled hreading (by rwa [Lexeme.isSpelled_plain])
    rintro rfl
    revert hfirst
    decide
  have hfault : (start c (r ++ [])).reading.isFault = false := by
    rw [← Reading.isFault_plain, hreading]
    rfl
  use c, r, hr
  rw [start_append_of_mild mild_point hfault hlength]
  · rw [Scan.plain, hreading, hlength]
    rfl
  · exact fun hc => absurd hc hslash
  · exact fun hc => absurd hc hslash
  · intro text htext hlast _
    rw [htext] at hreading
    obtain rfl : l = .literal .float text := by
      cases l <;> cases hreading
      rfl
    rw [Lexeme.text] at hr
    simp [Printer.endsInPoint, hr, hlast] at hpoint
  · intro hdigit hall hpos
    obtain ⟨kind, text, rfl⟩ := exists_literal_of_isDigit hopens hdigit
    apply absurd _ hpos
    apply hfraction
    rw [Lexeme.isWhole]
    rw [Lexeme.text] at hr
    rw [hr, hall]

/-- Whether a lexeme is a comment that takes up its line, up to a carriage return. -/
def Lexeme.endsInReturn : Lexeme → Bool
  | .doc _ text => ['/', '/'].isPrefixOf text.toList && text.toList.getLast? == some '\r'
  | _ => false

/-- A line that does not end in a carriage return is ended by a line feed. -/
theorem lineLength_append_feed (hw : lineLength (w ++ u) = w.length)
    (hlast : w.getLast? ≠ some '\r') :
  lineLength (w ++ '\n' :: v) = w.length
  := by
  induction w with
  | nil => rfl
  | cons c w ih =>
      rw [List.cons_append, lineLength_cons] at hw ⊢
      split at hw
      case isTrue => cases hw
      case isFalse hu =>
        rw [not_or] at hu
        cases w with
        | nil =>
            have hreturn : c ≠ '\r' := by
              rintro rfl
              apply hlast rfl
            rw [if_neg (by simp [hu.1, hreturn])]
            rfl
        | cons d w =>
            have hnext : ¬(c = '\n' ∨ c = '\r' ∧ (d :: w ++ '\n' :: v).head? = some '\n') := by
              rw [not_or]
              use hu.1, hu.2
            rw [if_neg hnext, ih (Nat.succ.inj hw)]
            · rfl
            · rwa [List.getLast?_cons_cons] at hlast

/-- A documentation comment takes up its line or is a block. -/
theorem Lexeme.Stands.comment_cases {inner : Bool} {text : String}
    (h : (Lexeme.doc inner text).Stands u) :
  (∃ w, text.toList = '/' :: '/' :: w ∧ lineLength (w ++ u) = w.length) ∨
    ∃ w, text.toList = '/' :: '*' :: w
  := by
  obtain ⟨c, r, hr, hopens, hreading, hlength⟩ := h.exists_start
  obtain rfl : c = '/' := eq_of_beq hopens
  have hfault : (start '/' (r ++ u)).reading.isFault = false := by
    rw [← Reading.isFault_plain, hreading]
    rfl
  by_cases hslash : (r ++ u).head? = some '/'
  · obtain ⟨s, hs⟩ := List.head?_eq_some_iff.mp hslash
    rw [hs, start_slashes, length_lineComment] at hlength
    cases r with
    | nil =>
        rw [List.length_nil] at hlength
        omega
    | cons d w =>
        obtain ⟨rfl, rfl⟩ := List.cons_eq_cons.mp hs
        left
        use w, hr, Nat.add_right_cancel hlength
  by_cases hstar : (r ++ u).head? = some '*'
  · obtain ⟨s, hs⟩ := List.head?_eq_some_iff.mp hstar
    rw [hs, start_star] at hlength hfault
    cases r with
    | nil =>
        have hle := two_le_blockComment hfault
        rw [List.length_nil] at hlength
        omega
    | cons d w =>
        obtain ⟨rfl, rfl⟩ := List.cons_eq_cons.mp hs
        right
        use w, hr
  rw [start_slash hslash hstar] at hreading
  cases hreading

/-- A documentation comment stands in front of what is printed after it, unless it takes up its
line and ends in a carriage return. -/
theorem Lexeme.Stands.of_doc {inner : Bool} {text : String}
    (h : (Lexeme.doc inner text).Stands u)
    (hreturn : (Lexeme.doc inner text).endsInReturn = false) :
  (Lexeme.doc inner text).Stands (Printer.afterDoc text ++ v)
  := by
  rcases h.comment_cases with ⟨w, hw, hline⟩ | ⟨w, hw⟩
  · have hlast : w.getLast? ≠ some '\r' := by
      intro hlast
      rw [endsInReturn, hw] at hreturn
      cases w with
      | nil => cases hlast
      | cons c w => simp [hlast] at hreturn
    have hafter : Printer.afterDoc text = ['\n'] := by simp [Printer.afterDoc, hw]
    have hfeed := lineLength_append_feed (v := v) hline hlast
    obtain ⟨c, r, hr, hscan⟩ := h
    obtain ⟨rfl, rfl⟩ := List.cons_eq_cons.mp (hr.symm.trans hw)
    use '/', '/' :: w, hw
    rw [← hscan, hafter, List.singleton_append, List.cons_append, List.cons_append, start_slashes,
      start_slashes]
    congr 1
    exact (lineComment_of_lineLength rfl hfeed).trans
      (lineComment_of_lineLength (lineLength_of_append hline) hline).symm
  · have hafter : Printer.afterDoc text = [' '] := by simp [Printer.afterDoc, hw]
    rw [hafter]
    apply h.of_milder rfl (milder_of_startsWith (by exact (by decide : isActive ' ' = false)))
    · intro htext
      rw [Lexeme.text, hw] at htext
      cases htext
    · intro _ htext
      rw [Lexeme.text, hw] at htext
      cases htext

/-! ### Lexemes that go on -/

/-- The text of a lexeme is as long as what the scan takes. -/
theorem length_text_of_start (h : (start c w).reading = .lexeme l) :
  l.text.toList.length = (start c w).length
  := by
  have hfits := (fits_start c w).2
  rw [spells_start c w l h, leading, String.toList_ofList, List.length_take, Nat.min_eq_left hfits]

/-- What a text lexes to starts with what a scan reads at its start. -/
theorem Lexes.exists_rest {lexemes : List Lexeme} (h : Lexes (c :: w) [] lexemes)
    (hl : (start c w).reading = .lexeme l) :
  ∃ rest, lexemes = l.plain :: rest
  := by
  obtain ⟨_, rfl⟩ := lexes_iff.mp h
  rw [pieces, piecesFrom, List.filterMap_cons, Piece.lexeme?]
  simp only [hl]
  exact ⟨_, rfl⟩

theorem lineLength_append_return (hlast : w.getLast? = some '\r') :
  lineLength (w ++ '\n' :: v) < w.length
  := by
  induction w with
  | nil => cases hlast
  | cons c w ih =>
      rw [List.cons_append, lineLength_cons, List.length_cons]
      split
      case isTrue => apply Nat.succ_pos
      case isFalse hnext =>
        cases w with
        | nil =>
            obtain rfl : c = '\r' := by simpa using hlast
            simp at hnext
        | cons d w =>
            rw [List.getLast?_cons_cons] at hlast
            apply Nat.succ_lt_succ (ih hlast)

/-- A line comment that ends in a carriage return is shorter in front of a line feed. -/
theorem Lexeme.Stands.of_endsInReturn {inner : Bool} {text : String}
    (h : (Lexeme.doc inner text).Stands u) (hreturn : (Lexeme.doc inner text).endsInReturn) :
  Printer.afterDoc text = ['\n'] ∧ ∃ r l', text.toList = '/' :: r ∧
    (start '/' (r ++ '\n' :: v)).reading = .lexeme l' ∧
    (start '/' (r ++ '\n' :: v)).length < text.toList.length
  := by
  rw [endsInReturn, Bool.and_eq_true, beq_iff_eq] at hreturn
  use if_pos hreturn.1
  rcases h.comment_cases with ⟨w, hw, hline⟩ | ⟨w, hw⟩
  · obtain ⟨c, r, hr, _, hreading, _⟩ := h.exists_start
    obtain ⟨rfl, rfl⟩ := List.cons_eq_cons.mp (hr.symm.trans hw)
    rw [List.cons_append, start_slashes] at hreading
    rw [← List.cons_append, ← List.cons_append,
      lineComment_of_lineLength (lineLength_of_append hline) hline] at hreading
    have hlast : w.getLast? = some '\r' := by
      rw [hw] at hreturn
      cases w with
      | nil => simp at hreturn
      | cons c w => simpa using hreturn.2
    obtain _ | ⟨d, _ | ⟨e, w⟩⟩ := w
    · cases hlast
    · obtain rfl : d = '\r' := by simpa using hlast
      cases hreading
    · have hmark : d = '!' ∨ d = '/' ∧ e ≠ '/' := by
        by_contra hno
        rw [not_or, not_and_not_right] at hno
        by_cases hslash : d = '/'
        · simp [hslash, hno.2 hslash, Reading.plain] at hreading
        · simp [hslash, hno.1, Reading.plain] at hreading
      have hdoc (s : List Char) :
          ∃ l', (lineComment ('/' :: '/' :: d :: e :: s)).reading = .lexeme l' := by
        rcases hmark with rfl | ⟨rfl, he⟩
        · simp [lineComment, ofLexeme]
        · simp [lineComment, ofLexeme, he]
      obtain ⟨l', hl'⟩ := hdoc (w ++ '\n' :: v)
      use '/' :: d :: e :: w, l', hw
      rw [List.cons_append, start_slashes, length_lineComment, hw]
      use hl'
      have hlength := lineLength_append_return (v := v) hlast
      simp only [List.length_cons] at hlength ⊢
      omega
  · rw [hw] at hreturn
    cases hreturn.1

/-- A number of digits goes on into a fraction. -/
theorem start_of_whole {r : List Char} (hc : isDigit c) (hall : (c :: r).all isDigitOrUnderscore)
    (hv : fractionLength v ≠ 0) :
  (∃ l', (start c (r ++ v)).reading = .lexeme l') ∧ r.length + 1 < (start c (r ++ v)).length
  := by
  obtain ⟨s, rfl⟩ : ∃ s, v = '.' :: s := by
    rw [fractionLength.eq_def] at hv
    split at hv
    case h_1 s => use s
    case h_2 => apply absurd rfl hv
  have hbased : basedLength? (c :: r ++ '.' :: s) = none :=
    basedLength?_eq_none hall (List.cons_ne_nil _ _) (by simp)
  have hwhole : runLength isDigitOrUnderscore (c :: r ++ '.' :: s) = r.length + 1 :=
    runLength_of_startsWith hall rfl
  rw [start_of_isDigit hc, ← List.cons_append, number, hbased]
  simp only [hwhole]
  have hdrop : (c :: r ++ '.' :: s).drop (r.length + 1) = '.' :: s := List.drop_left
  rw [hdrop]
  constructor
  · exact ⟨_, rfl⟩
  · simp only [ofLexeme]
    omega

end Stands

end ReturnCaptures
