import ReturnCaptures.Proofs.Balance
import ReturnCaptures.Proofs.Cuts

/-!
# Lexemes in front of a text

A text with another one behind it *lexes* to lexemes if it is cut into pieces without a fault
that carry these lexemes. Texts that lex one in front of the other lex to the lexemes of both
when they are put together. A text that ends in a token lexes in the same way in front of
every text that does not go on with that token.
-/

namespace ReturnCaptures

open Scan

/-! ### The first character of a lexeme -/

section Starts

variable {c d : Char} {l : Lexeme} {w : List Char}

/-- Whether a character is a token by itself, or would be one but for comments. -/
def isMarkChar (c : Char) : Bool := isDelimiter c || punctuation.contains c

theorem joins_cons :
  joins (c :: w) = ((punctuation.contains c || c == '\'') &&
    !(c == '/' && (w.head? == some '/' || w.head? == some '*')))
  := by
  by_cases hslash : c = '/'
  · subst hslash
    cases w with
    | nil => rfl
    | cons d w =>
        by_cases hd : d = '/'
        · subst hd
          rfl
        · by_cases hstar : d = '*'
          · subst hstar
            rfl
          · simp [joins, hd, hstar, punctuation]
  · simp [joins, hslash]

/-- The delimiters and the punctuation characters. -/
def marks : List Char := ['(', ')', '[', ']', '{', '}'] ++ punctuation

theorem mem_marks (hc : isMarkChar c) :
  c ∈ marks
  := by
  simp only [isMarkChar, isDelimiter, Bool.or_eq_true, beq_iff_eq, List.contains_iff_mem] at hc
  simp only [marks, List.mem_append, List.mem_cons, List.not_mem_nil, or_false]
  tauto

/-- Every delimiter and every punctuation character except the slash is a token, which what
follows can only make joint. -/
theorem start_of_isMarkChar_eq (hc : isMarkChar c) (hslash : c ≠ '/') :
  start c w = ⟨.lexeme (.punct c (!isDelimiter c && joins w)), 1⟩
  := by
  have hall : marks.all fun c =>
      !isWhitespace c && c != 'b' && c != 'c' && c != 'r' && c != '"' && c != '\'' &&
        !isDigit c && !isWordStart c := by
    decide
  replace hall := List.all_eq_true.mp hall c (mem_marks hc)
  simp only [Bool.and_eq_true, Bool.not_eq_true', bne_iff_ne] at hall
  obtain ⟨⟨⟨⟨⟨⟨⟨hspace, hb⟩, hc'⟩, hr⟩, hquote⟩, hapostrophe⟩, hdigit⟩, hword⟩ := hall
  rw [start_of_ne hspace hslash, opening?_eq_none hb hc' hr]
  simp only [hquote, hapostrophe, hdigit, hword, if_false, Bool.false_eq_true]
  split
  case isTrue hdelimiter => rw [hdelimiter, Bool.not_true, Bool.false_and]
  case isFalse hdelimiter =>
    rw [Bool.not_eq_true] at hdelimiter
    rw [isMarkChar, hdelimiter, Bool.false_or] at hc
    rw [if_pos hc, hdelimiter, Bool.not_false, Bool.true_and]

theorem start_of_isMarkChar (hc : isMarkChar c) (hslash : c ≠ '/') :
  (start c w).plain = ⟨.lexeme (.punct c false), 1⟩
  := by
  rw [start_of_isMarkChar_eq hc hslash]
  rfl

/-- Whether a lexeme is a word, a lifetime or a literal. -/
def Lexeme.isSpelled (l : Lexeme) : Bool := l.isWord || l.isQuoted

theorem lineComment_isSpelled (h : (lineComment w).reading = .lexeme l) :
  l.isSpelled = false
  := by
  simp only [lineComment, ofLexeme] at h
  split_ifs at h <;> cases h <;> rfl

theorem blockComment_isSpelled (h : (blockComment w).reading = .lexeme l) :
  l.isSpelled = false
  := by
  simp only [blockComment, ofLexeme] at h
  split at h
  case h_1 => cases h
  case h_2 => split_ifs at h <;> cases h <;> rfl

theorem slash_isSpelled (h : (start '/' w).reading = .lexeme l) :
  l.isSpelled = false
  := by
  by_cases hslash : w.head? = some '/'
  · obtain ⟨r, rfl⟩ := List.head?_eq_some_iff.mp hslash
    rw [start_slashes] at h
    apply lineComment_isSpelled h
  by_cases hstar : w.head? = some '*'
  · obtain ⟨r, rfl⟩ := List.head?_eq_some_iff.mp hstar
    rw [start_star] at h
    apply blockComment_isSpelled h
  rw [start_slash hslash hstar] at h
  cases h
  rfl

theorem Lexeme.isSpelled_plain (l : Lexeme) :
  l.plain.isSpelled = l.isSpelled
  := by
  cases l <;> rfl

theorem Reading.exists_of_plain {reading : Reading} (h : reading.plain = .lexeme l) :
  ∃ l', reading = .lexeme l' ∧ l'.plain = l
  := by
  cases reading with
  | lexeme l' =>
      use l', rfl
      apply Reading.lexeme.inj h
  | trivia => cases h
  | fault => cases h

/-- No word, lifetime or literal starts with a blank, a delimiter or punctuation. -/
theorem first_of_isSpelled (h : (start c w).reading.plain = .lexeme l) (hl : l.isSpelled) :
  isWhitespace c = false ∧ isMarkChar c = false
  := by
  obtain ⟨l', hl', rfl⟩ := Reading.exists_of_plain h
  rw [Lexeme.isSpelled_plain] at hl
  constructor
  · by_contra hspace
    rw [Bool.not_eq_false] at hspace
    rw [start, if_pos hspace] at hl'
    cases hl'
  · by_contra hmark
    rw [Bool.not_eq_false] at hmark
    by_cases hslash : c = '/'
    · subst hslash
      rw [slash_isSpelled hl'] at hl
      cases hl
    · obtain ⟨hreading, _⟩ := Scan.mk.inj (start_of_isMarkChar (w := w) hmark hslash)
      rw [hreading] at h
      rw [← Lexeme.isSpelled_plain, ← Reading.lexeme.inj h] at hl
      cases hl

/-- Whether a reading is punctuation. -/
def Reading.isPunct : Reading → Bool
  | .lexeme (.punct _ _) => true
  | _ => false

/-- Whether a reading is a literal, or what lacks its end. -/
def Reading.isQuoted : Reading → Bool
  | .lexeme l => l.isQuoted
  | .fault _ => true
  | .trivia => false

theorem Reading.isPunct_of_isQuoted {reading : Reading} (h : reading.isQuoted) :
  reading.isPunct = false
  := by
  cases reading with
  | lexeme l => cases l <;> first | rfl | cases h
  | _ => rfl

section Forms

variable {kind : LiteralKind} {n : Nat}

theorem string_isQuoted :
  (string kind n w).reading.isQuoted
  := by
  rw [string]
  split <;> rfl

theorem rawString_isQuoted {hashes : Nat} :
  (rawString kind hashes n w).reading.isQuoted
  := by
  rw [rawString]
  split <;> rfl

theorem char_isQuoted :
  (char kind n w).reading.isQuoted
  := by
  simp only [char]
  split <;> rfl

theorem opened_isQuoted {opening : Opening} :
  (opened opening w).reading.isQuoted
  := by
  cases opening with
  | byte => apply char_isQuoted
  | quoted => apply string_isQuoted
  | raw => apply rawString_isQuoted

theorem number_isQuoted :
  (number w).reading.isQuoted
  := by
  simp only [number]
  split <;> rfl

theorem apostrophe_isPunct :
  (apostrophe w).reading.isPunct = false
  := by
  simp only [apostrophe]
  split
  case isTrue => rfl
  case isFalse => apply Reading.isPunct_of_isQuoted char_isQuoted

theorem word_isPunct :
  (word w).reading.isPunct = false
  := by
  simp only [word, ofLexeme, wordLexeme]
  split <;> rfl

theorem lineComment_isPunct :
  (lineComment w).reading.isPunct = false
  := by
  simp only [lineComment]
  split_ifs <;> rfl

theorem blockComment_isPunct :
  (blockComment w).reading.isPunct = false
  := by
  simp only [blockComment]
  split
  case h_1 => rfl
  case h_2 => split_ifs <;> rfl

end Forms

/-- Punctuation is what starts with its character, and is joint if punctuation or an apostrophe
follows, and it is no delimiter. -/
theorem punct_of_start {j : Bool} (h : (start c w).reading = .lexeme (.punct d j)) :
  d = c ∧ isMarkChar c ∧ j = (!isDelimiter c && joins w)
  := by
  have hform := startForm_start c w
  generalize start c w = scan at h hform
  have hpunct : scan.reading.isPunct := by
    rw [h]
    rfl
  cases hform with
  | blank | unexpected => cases h
  | line =>
      rw [lineComment_isPunct] at hpunct
      cases hpunct
  | block =>
      rw [blockComment_isPunct] at hpunct
      cases hpunct
  | opened =>
      rw [Reading.isPunct_of_isQuoted opened_isQuoted] at hpunct
      cases hpunct
  | string =>
      rw [Reading.isPunct_of_isQuoted string_isQuoted] at hpunct
      cases hpunct
  | apostrophe =>
      rw [apostrophe_isPunct] at hpunct
      cases hpunct
  | number =>
      rw [Reading.isPunct_of_isQuoted number_isQuoted] at hpunct
      cases hpunct
  | word =>
      rw [word_isPunct] at hpunct
      cases hpunct
  | slash =>
      cases h
      use rfl, by decide
      rfl
  | delimiter hdelimiter =>
      cases h
      rw [isMarkChar, hdelimiter]
      exact ⟨rfl, rfl, rfl⟩
  | punct _ hdelimiter hpunctuation =>
      cases h
      rw [isMarkChar, hdelimiter, hpunctuation]
      exact ⟨rfl, rfl, rfl⟩

theorem first_of_punct (h : (start c w).reading.plain = .lexeme (.punct d false)) :
  d = c ∧ isMarkChar c
  := by
  obtain ⟨l, hl, hplain⟩ := Reading.exists_of_plain h
  cases l with
  | punct e j =>
      obtain rfl : e = d := (Lexeme.punct.inj hplain).1
      obtain ⟨hfirst, hmark, -⟩ := punct_of_start hl
      use hfirst, hmark
  | _ => cases hplain

/-! ### The text of a lexeme -/

/-- A lexeme is spelled as the characters that a scan takes. -/
def Scan.Spells (scan : Scan) (s : List Char) : Prop :=
  ∀ l, scan.reading = .lexeme l → l.text = leading scan.length s

section Spells

variable {kind : LiteralKind} {n : Nat}

theorem spells_ofLexeme {make : String → Lexeme} (h : ∀ s, (make s).text = s) :
  (ofLexeme make n w).Spells w
  := by
  rintro l ⟨⟩
  apply h

theorem spells_trivia :
  Scan.Spells ⟨.trivia, n⟩ w
  := by
  rintro l ⟨⟩

theorem spells_fault {cause : LexicalFault} :
  Scan.Spells ⟨.fault cause, n⟩ w
  := by
  rintro l ⟨⟩

theorem spells_literal :
  (literal kind n w).Spells w
  := spells_ofLexeme fun _ => rfl

theorem spells_string :
  (string kind n w).Spells w
  := by
  rw [string]
  split
  case h_1 => apply spells_fault
  case h_2 => apply spells_literal

theorem spells_char :
  (char kind n w).Spells w
  := by
  simp only [char]
  split
  case isTrue => apply spells_literal
  case isFalse => apply spells_fault

theorem spells_opened {opening : Opening} :
  (opened opening w).Spells w
  := by
  cases opening with
  | byte => apply spells_char
  | quoted => apply spells_string
  | raw kind letters hashes =>
      rw [opened, rawString]
      split
      case h_1 => apply spells_fault
      case h_2 => apply spells_literal

theorem spells_apostrophe :
  (apostrophe w).Spells w
  := by
  simp only [apostrophe]
  split
  case isTrue => apply spells_ofLexeme fun _ => rfl
  case isFalse => apply spells_char

theorem spells_number :
  (number w).Spells w
  := by
  simp only [number]
  split
  case h_1 => apply spells_ofLexeme fun _ => rfl
  case h_2 => apply spells_ofLexeme fun _ => rfl

theorem spells_word :
  (word w).Spells w
  := by
  apply spells_ofLexeme
  intro s
  rw [wordLexeme]
  split <;> rfl

theorem spells_lineComment :
  (lineComment w).Spells w
  := by
  simp only [lineComment]
  split_ifs
  · apply spells_ofLexeme fun _ => rfl
  · apply spells_ofLexeme fun _ => rfl
  · apply spells_trivia

theorem spells_blockComment :
  (blockComment w).Spells w
  := by
  rw [blockComment]
  split
  case h_1 => apply spells_fault
  case h_2 =>
    split_ifs
    · apply spells_ofLexeme fun _ => rfl
    · apply spells_ofLexeme fun _ => rfl
    · apply spells_trivia

theorem spells_punct {j : Bool} :
  Scan.Spells ⟨.lexeme (.punct c j), 1⟩ (c :: w)
  := by
  rintro l ⟨⟩
  rfl

theorem spells_start (c : Char) (w : List Char) :
  (start c w).Spells (c :: w)
  := by
  have hform := startForm_start c w
  generalize start c w = scan at hform ⊢
  cases hform with
  | blank => apply spells_trivia
  | line => apply spells_lineComment
  | block => apply spells_blockComment
  | slash => apply spells_punct
  | opened => apply spells_opened
  | string => apply spells_string
  | apostrophe => apply spells_apostrophe
  | number => apply spells_number
  | word => apply spells_word
  | delimiter => apply spells_punct
  | punct => apply spells_punct
  | unexpected => apply spells_fault

end Spells

/-- The code points of blanks. -/
def blanks : List Nat :=
  [0x09, 0x0A, 0x0B, 0x0C, 0x0D, 0x1C, 0x1D, 0x1E, 0x1F, 0x20, 0x85, 0xA0, 0x1680, 0x2000, 0x2001,
   0x2002, 0x2003, 0x2004, 0x2005, 0x2006, 0x2007, 0x2008, 0x2009, 0x200A, 0x2028, 0x2029, 0x202F,
   0x205F, 0x3000]

theorem mem_blanks (h : isWhitespace c) :
  c.toNat ∈ blanks
  := by
  simp only [isWhitespace, inRanges, List.any_cons, List.any_nil, Bool.or_eq_true, Bool.and_eq_true,
    decide_eq_true_eq, Bool.or_false] at h
  simp only [blanks, List.mem_cons, List.not_mem_nil, or_false]
  omega

/-- No blank goes on a lexeme. -/
theorem isActive_of_isWhitespace (h : isWhitespace c) :
  isActive c = false
  := by
  have hall : ∀ n ∈ blanks, isActive (Char.ofNat n) = false := by decide +kernel
  have hc := hall c.toNat (mem_blanks h)
  rwa [Char.ofNat_toNat] at hc

/-- A digit starts a number. -/
theorem start_of_isDigit (hc : isDigit c) :
  start c w = number (c :: w)
  := by
  have hne {d : Char} (hd : isDigit d = false) : c ≠ d := by
    rintro rfl
    rw [hc] at hd
    cases hd
  have hspace : isWhitespace c = false := by
    by_contra hspace
    rw [Bool.not_eq_false] at hspace
    have hactive := isActive_of_isWordChar (isWordChar_of_isDigit hc)
    rw [isActive_of_isWhitespace hspace] at hactive
    cases hactive
  rw [start_of_ne hspace (hne (by decide)),
    opening?_eq_none (hne (by decide)) (hne (by decide)) (hne (by decide))]
  simp only [hne (d := '"') (by decide), hne (d := '\'') (by decide), hc, if_false, if_true]

/-- Blanks and slashes are what trivia starts with. -/
theorem first_of_trivia (h : (start c w).reading = .trivia) :
  isWhitespace c ∨ c = '/'
  := by
  have hform := startForm_start c w
  generalize start c w = scan at h hform
  have hquoted : scan.reading.isQuoted = false := by
    rw [h]
    rfl
  cases hform with
  | blank hspace => exact .inl hspace
  | line | block | slash => exact .inr rfl
  | opened =>
      rw [opened_isQuoted] at hquoted
      cases hquoted
  | string =>
      rw [string_isQuoted] at hquoted
      cases hquoted
  | apostrophe =>
      simp only [apostrophe] at h hquoted
      split at h
      case isTrue => cases h
      case isFalse hno =>
        rw [if_neg hno, char_isQuoted] at hquoted
        cases hquoted
  | number =>
      rw [number_isQuoted] at hquoted
      cases hquoted
  | word | delimiter | punct | unexpected => cases h

end Starts

/-! ### The last lexeme of a text -/

/-- A lexeme that does not go on into `v`; after a documentation comment nothing is known. -/
def Lexeme.EndsBefore (v : List Char) : Lexeme → Prop
  | .punct c _ => ['/', '.', '#'].contains c = false ∧
      (c == '+' || c == '-' → startsWith isDigit v = false)
  | .doc _ _ => False
  | _ => startsWith isActive v = false

section Last

variable {p : Piece} {ps qs : List Piece} {l : Lexeme} {u v w : List Char}

/-- Nothing goes on into a text that starts with no active character. -/
theorem milder_of_startsWith (hv : startsWith isActive v = false) :
  Milder u v
  := by
  cases v with
  | nil =>
      constructor
      · constructor
        · simp
        · simp [startsWith]
        · simp [hashesBeforeQuote?]
        · intro h
          apply absurd rfl h
      · simp
      · intro h
        apply absurd rfl h
  | cons c v =>
      have hc : isActive c = false := hv
      have hne {d : Char} (hd : isActive d) : c ≠ d := by
        rintro rfl
        rw [hc] at hd
        cases hd
      have hpoint := hne (d := '.') (by decide)
      have hplus := hne (d := '+') (by decide)
      have hminus := hne (d := '-') (by decide)
      have hhash := hne (d := '#') (by decide)
      have hquote := hne (d := '"') (by decide)
      constructor
      · constructor
        · rintro d ⟨⟩ hd
          rw [hc] at hd
          cases hd
        · simp [startsWith, hplus, hminus]
        · simp [hashesBeforeQuote?, hhash, hquote]
        · simp [rawMarkLength, hhash]
      · simp [hpoint]
      · simp [fractionLength, hpoint]

/-- Pieces of which the last one stands in front of `v` as well all do. -/
theorem Cuts.of_last (h : Cuts (ps ++ [p]) u) (hp : ∀ p ∈ ps, p.isClean) (hlast : p.Starts v)
    (ha : Alike (p.text ++ u) (p.text ++ v)) :
  Cuts (ps ++ [p]) v
  := by
  obtain ⟨hps, _⟩ := cuts_append.mp h
  apply cuts_append.mpr
  constructor
  · apply hps.of_alike hp
    simpa using ha
  · apply Cuts.cons hlast .nil

theorem Reading.plain_ne_joint {reading : Reading} {c : Char} :
  reading.plain ≠ .lexeme (.punct c true)
  := by
  intro h
  obtain ⟨l, _, hl⟩ := Reading.exists_of_plain h
  cases l <;> cases hl

theorem Reading.eq_trivia_of_plain {reading : Reading} (h : reading.plain = .trivia) :
  reading = .trivia
  := by
  cases reading <;> first | rfl | cases h

theorem Piece.isClean_of_lexeme (hl : p.reading.plain = .lexeme l) :
  p.isClean
  := by
  rw [isClean, ← Reading.isFault_plain, hl]
  rfl

/-- The characters of a piece spell its lexeme. -/
theorem Piece.Starts.text_eq (h : p.Starts u) (hl : p.reading.plain = .lexeme l) :
  String.ofList p.text = l.text
  := by
  obtain ⟨c, r, hr, hscan⟩ := h
  obtain ⟨hreading, hlength⟩ := Scan.mk.inj hscan
  obtain ⟨l', hl', rfl⟩ := Reading.exists_of_plain (hreading.trans hl)
  rw [Lexeme.text_plain, spells_start c (r ++ u) l' hl', hlength, hr, leading, List.take_succ_cons,
    List.take_left]

/-- A piece that is punctuation other than a slash is its character, whatever follows. -/
theorem Piece.Starts.of_punct {c : Char} {j : Bool} (h : p.Starts u)
    (hl : p.reading.plain = .lexeme (.punct c j)) (hslash : c ≠ '/') :
  p.text = [c] ∧ isMarkChar c ∧ p.Starts v
  := by
  obtain rfl : j = false := by
    cases j with
    | false => rfl
    | true => exact absurd hl Reading.plain_ne_joint
  obtain ⟨d, r, hr, hscan⟩ := h
  obtain ⟨hreading, hlength⟩ := Scan.mk.inj hscan
  obtain ⟨rfl, hmark⟩ := first_of_punct (hreading.trans hl)
  rw [start_of_isMarkChar hmark hslash] at hscan
  obtain ⟨_, hone⟩ := Scan.mk.inj hscan
  obtain rfl : r = [] := List.eq_nil_of_length_eq_zero (Nat.succ.inj hone).symm
  use hr, hmark, c, [], hr
  rw [start_of_isMarkChar hmark hslash, hl]
  rfl

/-- A piece that is a word, a lifetime or a literal stands before every text that does not
start with an active character, and starts with none that needs a look behind it. -/
theorem Piece.Starts.of_isSpelled (h : p.Starts u) (hl : p.reading.plain = .lexeme l) (hs : l.isSpelled)
    (hv : startsWith isActive v = false) :
  p.Starts v ∧ ∃ c r, p.text = c :: r ∧ isWhitespace c = false ∧ isMarkChar c = false
  := by
  obtain ⟨c, r, hr, hscan⟩ := id h
  obtain ⟨hreading, _⟩ := Scan.mk.inj hscan
  have hfirst := first_of_isSpelled (hreading.trans hl) hs
  have hslash : c ≠ '/' := by
    rintro rfl
    revert hfirst
    decide
  constructor
  · apply h.of_milder (Piece.isClean_of_lexeme hl) (milder_of_startsWith hv)
    · intro htext
      rw [hr] at htext
      exact absurd (List.cons_eq_cons.mp htext).1 hslash
    · intro _ htext
      rw [hr] at htext
      exact absurd (List.cons_eq_cons.mp htext).1 hslash
  · use c, r

/-- Texts that start with the same character resemble each other, with few exceptions. -/
theorem alike_cons {c : Char} (hc : ['.', '#', '\r'].contains c = false)
    (hv : c == '+' || c == '-' → startsWith isDigit (w ++ v) = false) :
  Alike (c :: w ++ u) (c :: w ++ v)
  := Alike.shared hc hv

/-- Pieces that end in a lexeme stand in front of every text that does not go on with it. -/
theorem Cuts.of_endsBefore (h : Cuts (ps ++ [p]) u) (hps : ∀ p ∈ ps, p.isClean)
    (hl : p.reading.plain = .lexeme l) (hend : l.EndsBefore v) :
  Cuts (ps ++ [p]) v
  := by
  obtain _ | ⟨hlast, _⟩ := (cuts_append.mp h).2
  rw [textOf_nil, List.nil_append] at hlast
  have hspelled (hs : l.isSpelled) (hv : startsWith isActive v = false) : Cuts (ps ++ [p]) v := by
    obtain ⟨hstarts, c, r, hr, hspace, hmark⟩ := hlast.of_isSpelled hl hs hv
    have hne {d : Char} (hd : isWhitespace d || isMarkChar d) : c ≠ d := by
      rintro rfl
      simp [hspace, hmark] at hd
    apply h.of_last hps hstarts
    rw [hr]
    apply alike_cons
    · have hpoint := hne (d := '.') (by decide)
      have hhash := hne (d := '#') (by decide)
      have hreturn := hne (d := '\r') (by decide)
      simp [hpoint, hhash, hreturn]
    · have hplus := hne (d := '+') (by decide)
      have hminus := hne (d := '-') (by decide)
      simp [hplus, hminus]
  cases l with
  | punct c j =>
      simp only [List.contains_cons, List.contains_nil, Bool.or_eq_false_iff, beq_eq_false_iff_ne,
        Lexeme.EndsBefore] at hend
      obtain ⟨htext, hmark, hstarts⟩ := hlast.of_punct (v := v) hl hend.1.1
      apply h.of_last hps hstarts
      rw [htext]
      apply alike_cons
      · have hreturn : c ≠ '\r' := by
          rintro rfl
          revert hmark
          decide
        simp [hend, hreturn]
      · apply hend.2
  | doc => cases hend
  | ident => apply hspelled rfl hend
  | keyword => apply hspelled rfl hend
  | lifetime => apply hspelled rfl hend
  | literal => apply hspelled rfl hend

end Last

/-! ### Texts that lex -/

/-- The lexeme of a piece, no matter whether it is joint. -/
def Piece.lexeme? (p : Piece) : Option Lexeme :=
  match p.reading with
  | .lexeme l => some l.plain
  | _ => none

/-- A text with another one behind it is cut into pieces without a fault that carry the given
lexemes. -/
def Lexes (w u : List Char) (lexemes : List Lexeme) : Prop :=
  ∃ ps, textOf ps = w ∧ Cuts ps u ∧ (∀ p ∈ ps, p.isClean) ∧ ps.filterMap Piece.lexeme? = lexemes

section Lexes

variable {v w w' : List Char} {u : List Char} {l : Lexeme} {lexemes lexemes' : List Lexeme}

theorem Lexes.nil :
  Lexes [] u []
  := ⟨[], rfl, .nil, by simp, rfl⟩

/-- Texts that lex one in front of the other lex together. -/
theorem Lexes.append (h : Lexes w (w' ++ u) lexemes) (h' : Lexes w' u lexemes') :
  Lexes (w ++ w') u (lexemes ++ lexemes')
  := by
  obtain ⟨ps, rfl, hcuts, hclean, rfl⟩ := h
  obtain ⟨qs, rfl, hcuts', hclean', rfl⟩ := h'
  use ps ++ qs, textOf_append ps qs, cuts_append.mpr ⟨hcuts, hcuts'⟩
  constructor
  · intro p hp
    rcases List.mem_append.mp hp with hp | hp
    · apply hclean p hp
    · apply hclean' p hp
  · apply List.filterMap_append

/-- A blank separates nothing from what follows it. -/
theorem lexes_blank {c : Char} (hc : isWhitespace c) :
  Lexes [c] u []
  := by
  use [⟨[c], .trivia⟩], rfl
  constructor
  · apply Cuts.cons _ .nil
    use c, [], rfl
    rw [start, if_pos hc]
    rfl
  · constructor
    · simp [Piece.isClean, Reading.isFault]
    · rfl

theorem lexes_isBlank (hw : isBlank w) :
  Lexes w u []
  := by
  induction w with
  | nil => apply Lexes.nil
  | cons c w ih =>
      rw [isBlank, List.all_cons, Bool.and_eq_true] at hw
      apply (lexes_blank hw.1).append (ih hw.2)

/-! ### Tokens of a text -/

theorem diagnostic?_eq_none {file : String} {p : PlacedPiece} :
  p.diagnostic? file = none ↔ p.piece.isClean
  := by
  rw [PlacedPiece.diagnostic?, Piece.isClean]
  cases p.piece.reading <;> simp [Reading.isFault]

theorem map_piece_placedFrom (p : Position) (ps : List Piece) :
  (placedFrom p ps).map (·.piece) = ps
  := by
  induction ps generalizing p with
  | nil => rfl
  | cons q ps ih => simp [placedFrom, ih]

/-- The tokens of pieces, the first of which stands at `p`. -/
def tokensAt (file : String) (p : Position) (ps : List Piece) : List Token :=
  (placedFrom p ps).filterMap (·.token? file)

/-- A text has tokens if none of its pieces is a fault. -/
theorem tokensOf_eq_ok {file : String} {tokens : List Token} :
  tokensOf file w = .ok tokens ↔
    (∀ p ∈ pieces w, p.isClean) ∧ tokensAt file .origin (pieces w) = tokens
  := by
  have hclean : (placed w).filterMap (·.diagnostic? file) = [] ↔ ∀ p ∈ pieces w, p.isClean := by
    have hmap : (placed w).map (·.piece) = pieces w := map_piece_placedFrom _ _
    rw [List.filterMap_eq_nil_iff, ← hmap, List.forall_mem_map]
    simp only [diagnostic?_eq_none]
  rw [tokensOf, ← hclean]
  split
  case h_1 h =>
    simp only [h, true_and, Except.ok.injEq]
    rfl
  case h_2 h =>
    constructor
    · intro hok
      cases hok
    · rintro ⟨hnil, _⟩
      exact absurd hnil h

theorem tokensAt_cons (file : String) (p : Position) (q : Piece) (ps : List Piece) :
  tokensAt file p (q :: ps) =
    (PlacedPiece.token? file ⟨p, p.after q.text, q⟩).toList ++ tokensAt file (p.after q.text) ps
  := by
  rw [tokensAt, placedFrom, List.filterMap_cons]
  cases PlacedPiece.token? file ⟨p, p.after q.text, q⟩ <;> rfl

theorem tokensAt_append (file : String) (p : Position) (ps qs : List Piece) :
  tokensAt file p (ps ++ qs) = tokensAt file p ps ++ tokensAt file (p.after (textOf ps)) qs
  := by
  induction ps generalizing p with
  | nil => rfl
  | cons q ps ih =>
      rw [List.cons_append, tokensAt_cons, ih, tokensAt_cons, List.append_assoc, textOf_cons,
        Position.after_append]

theorem map_lexeme_tokensAt (file : String) (p : Position) (ps : List Piece) :
  (tokensAt file p ps).map (·.lexeme.plain) = ps.filterMap Piece.lexeme?
  := by
  induction ps generalizing p with
  | nil => rfl
  | cons q ps ih =>
      rw [tokensAt_cons, List.map_append, ih, List.filterMap_cons, PlacedPiece.token?,
        Piece.lexeme?]
      cases q.reading <;> rfl

/-- A token is carried by a piece, at the place where it stands. -/
theorem exists_piece {file : String} {p : Position} {ps : List Piece} {before after : List Token}
    {t : Token} (h : tokensAt file p ps = before ++ t :: after) :
  ∃ qs q rs, ps = qs ++ q :: rs ∧ tokensAt file p qs = before ∧ q.reading = .lexeme t.lexeme ∧
    t.span = .between file (p.after (textOf qs)) (p.after (textOf (qs ++ [q]))) ∧
    tokensAt file (p.after (textOf (qs ++ [q]))) rs = after
  := by
  induction ps generalizing p before with
  | nil => simp [tokensAt, placedFrom] at h
  | cons q ps ih =>
      have hlater {before' : List Token}
          (hrest : tokensAt file (p.after q.text) ps = before' ++ t :: after)
          (hbefore : (PlacedPiece.token? file ⟨p, p.after q.text, q⟩).toList ++ before' = before) :
          ∃ qs q' rs, q :: ps = qs ++ q' :: rs ∧ tokensAt file p qs = before ∧
            q'.reading = .lexeme t.lexeme ∧
            t.span = .between file (p.after (textOf qs)) (p.after (textOf (qs ++ [q']))) ∧
            tokensAt file (p.after (textOf (qs ++ [q']))) rs = after := by
        obtain ⟨qs, q', rs, rfl, hqs, hq', hspan, hrs⟩ := ih hrest
        use q :: qs, q', rs, rfl
        rw [tokensAt_cons, hqs, hbefore, List.cons_append, textOf_cons, textOf_cons,
          Position.after_append, Position.after_append]
        use rfl
      rw [tokensAt_cons] at h
      cases hreading : q.reading with
      | lexeme l =>
          have htoken : PlacedPiece.token? file ⟨p, p.after q.text, q⟩ =
              some ⟨l, .between file p (p.after q.text)⟩ := by
            rw [PlacedPiece.token?, hreading]
          rw [htoken] at h hlater
          cases before with
          | nil =>
              obtain ⟨rfl, hrest⟩ := List.cons_eq_cons.mp h
              use [], q, ps, rfl, rfl, hreading
              simpa using hrest
          | cons s before =>
              obtain ⟨rfl, hrest⟩ := List.cons_eq_cons.mp h
              apply hlater hrest rfl
      | trivia | fault =>
          have htoken : PlacedPiece.token? file ⟨p, p.after q.text, q⟩ = none := by
            rw [PlacedPiece.token?, hreading]
          rw [htoken] at h hlater
          apply hlater h rfl

theorem Piece.isClean_plain (p : Piece) :
  p.plain.isClean = p.isClean
  := by
  rw [Piece.isClean, Piece.isClean, Piece.plain, Reading.isFault_plain]

theorem Piece.lexeme?_plain (p : Piece) :
  p.plain.lexeme? = p.lexeme?
  := by
  rw [Piece.lexeme?, Piece.lexeme?, Piece.plain]
  cases p.reading with
  | lexeme l => cases l <;> rfl
  | _ => rfl

/-- Pieces that differ only in what is joint carry the same lexemes, and faults at the same
places. -/
theorem carry_of_plain {ps qs : List Piece} (h : ps.map Piece.plain = qs.map Piece.plain) :
  ps.filterMap Piece.lexeme? = qs.filterMap Piece.lexeme? ∧
    ((∀ p ∈ ps, p.isClean) → ∀ q ∈ qs, q.isClean)
  := by
  constructor
  · have hmap (ps : List Piece) : ps.filterMap Piece.lexeme? =
        (ps.map Piece.plain).filterMap Piece.lexeme? := by
      rw [List.filterMap_map]
      congr 1
      funext p
      apply p.lexeme?_plain.symm
    rw [hmap, hmap qs, h]
  · intro hclean q hq
    have hmem := List.mem_map_of_mem (f := Piece.plain) hq
    rw [← h] at hmem
    obtain ⟨p, hp, hpq⟩ := List.mem_map.mp hmem
    rw [← q.isClean_plain, ← hpq, p.isClean_plain]
    apply hclean p hp

/-- What a whole text lexes to is seen in its pieces. -/
theorem lexes_iff :
  Lexes w [] lexemes ↔
    (∀ p ∈ pieces w, p.isClean) ∧ (pieces w).filterMap Piece.lexeme? = lexemes
  := by
  constructor
  · rintro ⟨ps, rfl, hcuts, hclean, rfl⟩
    have hplain := hcuts.pieces_append
    rw [List.append_nil, pieces, pieces, piecesFrom, List.map_nil, List.append_nil] at hplain
    obtain ⟨hsame, hpieces⟩ := carry_of_plain hplain.symm
    use hpieces hclean, hsame.symm
  · rintro ⟨hclean, hlexemes⟩
    use pieces w, flatMap_text_pieces w, cuts_pieces w, hclean

/-- A text that lexes has the tokens that it lexes to. -/
theorem Lexes.exists_tokensOf (h : Lexes w [] lexemes) (file : String) :
  ∃ tokens, tokensOf file w = .ok tokens ∧ tokens.map (·.lexeme.plain) = lexemes
  := by
  obtain ⟨hclean, hlexemes⟩ := lexes_iff.mp h
  use tokensAt file .origin (pieces w), tokensOf_eq_ok.mpr ⟨hclean, rfl⟩
  rw [map_lexeme_tokensAt, hlexemes]

/-- The tokens of a text are what it lexes to. -/
theorem lexes_of_tokensOf {file : String} {tokens : List Token} (h : tokensOf file w = .ok tokens) :
  Lexes w [] (tokens.map (·.lexeme.plain))
  := by
  obtain ⟨hclean, rfl⟩ := tokensOf_eq_ok.mp h
  apply lexes_iff.mpr ⟨hclean, (map_lexeme_tokensAt _ _ _).symm⟩

/-- What lexes in front of a text takes its lexemes from what both lex to together. -/
theorem Lexes.of_append (h : Lexes w v lexemes) (hall : Lexes (w ++ v) [] lexemes') :
  ∃ rest, lexemes' = lexemes ++ rest ∧ Lexes v [] rest
  := by
  obtain ⟨ps, rfl, hcuts, _, rfl⟩ := h
  obtain ⟨hclean, rfl⟩ := lexes_iff.mp hall
  have hplain := hcuts.pieces_append
  rw [← List.map_append] at hplain
  obtain ⟨hsame, hpieces⟩ := carry_of_plain hplain
  use (pieces v).filterMap Piece.lexeme?
  constructor
  · rw [hsame, List.filterMap_append]
  · apply lexes_iff.mpr
    constructor
    · intro p hp
      apply hpieces hclean p (List.mem_append_right _ hp)
    · rfl

end Lexes

end ReturnCaptures
