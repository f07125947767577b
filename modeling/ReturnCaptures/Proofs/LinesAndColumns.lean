import ReturnCaptures.Proofs.Tiling
import Mathlib.Data.List.DropRight

/-!
# Lines and columns

The lines and columns of positions, which are counted along with the offset, are what a text tells
about that offset: a line is one more than the number of line feeds in front of it, and a column one
more than the number of characters behind the last of them. No token ends in a line feed, so its last
line and column are those of its last character, also if there are line feeds inside.
-/

namespace ReturnCaptures

open Scan TokenTree

/-- The line of the character at an offset. -/
def lineAt (text : List Char) (offset : Nat) : Nat :=
  (text.take offset).count '\n' + 1

/-- The column of the character at an offset. -/
def columnAt (text : List Char) (offset : Nat) : Nat :=
  ((text.take offset).rtakeWhile (· != '\n')).length + 1

/-- A span that covers characters of a text, and tells the lines and columns of the first and the
last of them. -/
structure Span.Covers (s : Span) (text : List Char) : Prop where
  start_lt : s.start < s.stop
  stop_le : s.stop ≤ text.length
  startLine : s.startLine = lineAt text s.start
  startColumn : s.startColumn = columnAt text s.start
  endLine : s.endLine = lineAt text (s.stop - 1)
  endColumn : s.endColumn = columnAt text (s.stop - 1)

/-! ### Positions in a text -/

section Positions

variable {u v : List Char} {c : Char} {file : String}

theorem after_concat (p : Position) :
  p.after (u ++ [c]) = (p.after u).advance c
  := by
  rw [Position.after_append]
  rfl

/-- The position after a text, by its line feeds. -/
theorem after_origin (u : List Char) :
  Position.origin.after u =
    ⟨u.length, u.count '\n' + 1, (u.rtakeWhile (· != '\n')).length + 1⟩
  := by
  induction u using List.reverseRecOn with
  | nil => rfl
  | append_singleton u c ih =>
      rw [after_concat, ih, Position.advance]
      by_cases hc : c = '\n'
      · subst hc
        simp
      · simp [hc]

/-- The line and the column of the position behind a start of a text. -/
theorem after_origin_append (u v : List Char) :
  Position.origin.after u = ⟨u.length, lineAt (u ++ v) u.length, columnAt (u ++ v) u.length⟩
  := by
  rw [after_origin, lineAt, columnAt, List.take_left]

/-- The span of characters that do not end in a line feed covers them. -/
theorem covers_between {w : List Char} (hv : v ≠ []) (hlast : v.getLast? ≠ some '\n') :
  (Span.between file (Position.origin.after u) (Position.origin.after (u ++ v))).Covers (u ++ (v ++ w))
  := by
  obtain ⟨v, c, rfl⟩ := (List.eq_nil_or_concat v).resolve_left hv
  rw [List.concat_eq_append] at hlast ⊢
  have hc : c ≠ '\n' := by simpa using hlast
  have htext : u ++ (v ++ [c] ++ w) = (u ++ v) ++ ([c] ++ w) := by simp
  -- The column behind the last character is at least 2, so that one less is its own.
  rw [← List.append_assoc u v, after_concat, after_origin_append (u ++ v) ([c] ++ w), ← htext,
    after_origin_append u (v ++ [c] ++ w), Position.advance, if_neg hc, Span.between]
  constructor
  · simp only [List.length_append]
    omega
  · simp only [List.length_append, List.length_cons]
    omega
  · rfl
  · rfl
  · simp
  · simp [columnAt]

end Positions

/-! ### The last character of a token -/

/-- The characters of a lexeme that is read do not end in a given one. -/
def Scan.EndsWithout (b : Char) (scan : Scan) (s : List Char) : Prop :=
  ∀ l, scan.reading = .lexeme l → (s.take scan.length).getLast? ≠ some b

/-- The characters of a lexeme that is read do not end in a line feed. -/
def Scan.EndsOnLine (scan : Scan) (s : List Char) : Prop :=
  ∀ l, scan.reading = .lexeme l → (s.take scan.length).getLast? ≠ some '\n'

section Last

variable {s : List Char} {b c : Char} {kind : LiteralKind} {m n : Nat}

theorem ne_of_isWhitespace (hb : isWhitespace b) (hc : isWhitespace c = false) :
  b ≠ c
  := by
  rintro rfl
  rw [hb] at hc
  cases hc

theorem isWordChar_of_isWhitespace (hb : isWhitespace b) :
  isWordChar b = false
  := by
  rw [Bool.eq_false_iff]
  intro hword
  have hactive := isActive_of_isWordChar hword
  rw [isActive_of_isWhitespace hb] at hactive
  cases hactive

theorem isDigitOrUnderscore_of_isWhitespace (hb : isWhitespace b) :
  isDigitOrUnderscore b = false
  := by
  rw [Bool.eq_false_iff]
  intro hdigit
  have hword := isWordChar_of_isDigitOrUnderscore hdigit
  rw [isWordChar_of_isWhitespace hb] at hword
  cases hword

theorem getLast?_ne_of_not_mem (h : b ∉ s) :
  s.getLast? ≠ some b
  := fun hlast => h (List.mem_of_getLast? hlast)

theorem not_mem_take_add (h : b ∉ s.take m) (h' : b ∉ (s.drop m).take n) :
  b ∉ s.take (m + n)
  := by
  rw [List.take_add, List.mem_append]
  exact not_or.mpr ⟨h, h'⟩

theorem getLast?_take_add (h : ((s.drop m).take n).getLast? = some c) :
  (s.take (m + n)).getLast? = some c
  := by
  rw [List.take_add, List.getLast?_append, h, Option.some_or]

theorem not_mem_run {p : Char → Bool} (hp : p b = false) (s : List Char) :
  b ∉ s.take (runLength p s)
  := by
  rw [runLength, ← List.prefix_iff_eq_take.mp (List.takeWhile_prefix p)]
  intro hmem
  rw [List.mem_takeWhile_imp hmem] at hp
  cases hp

theorem not_mem_suffix (hb : isWhitespace b) (s : List Char) :
  b ∉ s.take (suffixLength s)
  := by
  rw [suffixLength]
  split
  case isTrue => apply not_mem_run (isWordChar_of_isWhitespace hb)
  case isFalse => simp

theorem not_mem_line (s : List Char) :
  '\n' ∉ s.take (lineLength s)
  := by
  induction s with
  | nil => simp
  | cons c s ih =>
      rw [lineLength_cons]
      split
      case isTrue => simp
      case isFalse hc =>
        rw [List.take_succ_cons, List.mem_cons]
        rintro (rfl | hmem)
        · simp at hc
        · exact ih hmem

theorem getLast?_string (h : stringLength? s = some n) :
  (s.take n).getLast? = some '"'
  := by
  fun_induction stringLength? s generalizing n with
  | case1 => cases h
  | case2 =>
      cases h
      rfl
  | case3 c s ih =>
      obtain ⟨m, hm, rfl⟩ := Option.map_eq_some_iff.mp h
      simp [List.getLast?_cons, ih hm]
  | case4 c s _ _ ih =>
      obtain ⟨m, hm, rfl⟩ := Option.map_eq_some_iff.mp h
      simp [List.getLast?_cons, ih hm]

/-- A raw string ends in its quote or in a hash sign. -/
theorem getLast?_rawString {hashes : Nat} (h : rawLength? hashes s = some n) :
  (s.take n).getLast? = some '"' ∨ (s.take n).getLast? = some '#'
  := by
  induction s generalizing n with
  | nil => cases h
  | cons c s ih =>
      rw [rawLength?] at h
      split_ifs at h with hclose
      · cases h
        rw [Bool.and_eq_true, decide_eq_true_eq, beq_iff_eq] at hclose
        rw [List.take_succ_cons, hclose.1, hclose.2, List.getLast?_cons, List.getLast?_replicate]
        split
        case isTrue => exact .inl rfl
        case isFalse => exact .inr rfl
      · obtain ⟨m, hm, rfl⟩ := Option.map_eq_some_iff.mp h
        rw [List.take_succ_cons, List.getLast?_cons]
        rcases ih hm with hlast | hlast
        · simp [hlast]
        · simp [hlast]

theorem endsWithout_literal (hb : isWhitespace b) (h : (s.take n).getLast? ≠ some b) :
  (literal kind n s).EndsWithout b s
  := by
  rintro l -
  simp only [literal, ofLexeme]
  rw [List.take_add, List.getLast?_append]
  cases hlast : ((s.drop n).take (suffixLength (s.drop n))).getLast? with
  | none => exact h
  | some c =>
      rw [Option.some_or, ← hlast]
      exact getLast?_ne_of_not_mem (not_mem_suffix hb _)

/-- A literal whose delimiter ends in a character other than whitespace does not end in
whitespace. -/
theorem endsWithout_delimited (hb : isWhitespace b) (h : (s.take n).getLast? = some c)
    (hc : isWhitespace c = false) :
  (literal kind n s).EndsWithout b s
  := by
  apply endsWithout_literal hb
  rw [h, ne_eq, Option.some.injEq]
  exact (ne_of_isWhitespace hb hc).symm

theorem endsWithout_string (hb : isWhitespace b) :
  (string kind n s).EndsWithout b s
  := by
  rw [string]
  split
  case h_1 => rintro l ⟨⟩
  case h_2 m hm =>
    apply endsWithout_delimited hb (getLast?_take_add (getLast?_string hm)) (by decide)

theorem endsWithout_rawString (hb : isWhitespace b) {hashes : Nat} :
  (rawString kind hashes n s).EndsWithout b s
  := by
  rw [rawString]
  split
  case h_1 => rintro l ⟨⟩
  case h_2 m hm =>
    rcases getLast?_rawString hm with hlast | hlast
    · apply endsWithout_delimited hb (getLast?_take_add hlast) (by decide)
    · apply endsWithout_delimited hb (getLast?_take_add hlast) (by decide)

theorem endsWithout_char (hb : isWhitespace b) :
  (char kind n s).EndsWithout b s
  := by
  simp only [char]
  split
  case isTrue hclose =>
    obtain ⟨rest, hrest⟩ := List.head?_eq_some_iff.mp hclose
    apply endsWithout_delimited (c := '\'') hb (getLast?_take_add (by rw [hrest]; rfl)) (by decide)
  case isFalse => rintro l ⟨⟩

theorem endsWithout_opened (hb : isWhitespace b) {opening : Opening} :
  (opened opening s).EndsWithout b s
  := by
  cases opening with
  | byte => apply endsWithout_char hb
  | quoted => apply endsWithout_string hb
  | raw => apply endsWithout_rawString hb

theorem endsWithout_apostrophe (hb : isWhitespace b) :
  (apostrophe ('\'' :: s)).EndsWithout b ('\'' :: s)
  := by
  simp only [apostrophe]
  split
  case isTrue =>
    rintro l -
    apply getLast?_ne_of_not_mem
    apply not_mem_take_add
    · rw [List.take_succ_cons, List.take_zero, List.mem_singleton]
      exact ne_of_isWhitespace hb (by decide)
    · apply not_mem_run (isWordChar_of_isWhitespace hb)
  case isFalse => apply endsWithout_char hb

theorem not_mem_fraction (hb : isWhitespace b) (s : List Char) :
  b ∉ s.take (fractionLength s)
  := by
  rw [fractionLength.eq_def]
  split
  case h_1 s =>
    split
    case isTrue => simp
    case isFalse =>
      apply not_mem_take_add
      · rw [List.take_succ_cons, List.take_zero, List.mem_singleton]
        exact ne_of_isWhitespace hb (by decide)
      · apply not_mem_run (isDigitOrUnderscore_of_isWhitespace hb)
  case h_2 => simp

theorem not_mem_exponent (hb : isWhitespace b) (s : List Char) :
  b ∉ s.take (exponentLength s)
  := by
  obtain _ | ⟨c, s⟩ := s
  · simp
  have hdigits := isDigitOrUnderscore_of_isWhitespace hb
  rw [exponentLength]
  split_ifs with hletter hdigit hsign
  · have hc : b ≠ c := by
      apply ne_of_isWhitespace hb
      rw [Bool.or_eq_true, decide_eq_true_eq, decide_eq_true_eq] at hletter
      rcases hletter with rfl | rfl <;> decide
    apply not_mem_take_add
    · rwa [List.take_succ_cons, List.take_zero, List.mem_singleton]
    · apply not_mem_run hdigits
  · have hc : b ≠ c := by
      apply ne_of_isWhitespace hb
      rw [Bool.or_eq_true, decide_eq_true_eq, decide_eq_true_eq] at hletter
      rcases hletter with rfl | rfl <;> decide
    obtain _ | ⟨d, s⟩ := s
    · simp [startsWith] at hsign
    have hd : b ≠ d := by
      apply ne_of_isWhitespace hb
      rw [Bool.and_eq_true, startsWith, Bool.or_eq_true, beq_iff_eq, beq_iff_eq] at hsign
      rcases hsign.1 with rfl | rfl <;> decide
    apply not_mem_take_add
    · simp [hc, hd]
    · apply not_mem_run hdigits
  · simp
  · simp

theorem not_mem_based (hb : isWhitespace b) (h : basedLength? s = some n) :
  b ∉ s.take n
  := by
  rw [basedLength?.eq_def] at h
  split at h
  case h_1 base s =>
    split at h
    case isTrue hbase =>
      obtain rfl := Option.some.inj h
      have hzero : b ≠ '0' := ne_of_isWhitespace hb (by decide)
      have hletter : b ≠ base := by
        apply ne_of_isWhitespace hb
        simp only [Bool.or_eq_true, decide_eq_true_eq] at hbase
        rcases hbase with (rfl | rfl) | rfl <;> decide
      apply not_mem_take_add
      · simp [hzero, hletter]
      · apply not_mem_run (isWordChar_of_isWhitespace hb)
    case isFalse => cases h
  case h_2 => cases h

theorem endsWithout_number (hb : isWhitespace b) :
  (number s).EndsWithout b s
  := by
  simp only [number]
  split
  case h_1 n hn =>
    rintro l -
    exact getLast?_ne_of_not_mem (not_mem_based hb hn)
  case h_2 =>
    rintro l -
    apply getLast?_ne_of_not_mem
    apply not_mem_take_add
    · apply not_mem_take_add
      · apply not_mem_take_add
        · apply not_mem_run (isDigitOrUnderscore_of_isWhitespace hb)
        · apply not_mem_fraction hb
      · apply not_mem_exponent hb
    · apply not_mem_suffix hb

theorem endsWithout_word (hb : isWhitespace b) :
  (word s).EndsWithout b s
  := by
  rintro l -
  apply getLast?_ne_of_not_mem
  apply not_mem_take_add
  · rw [rawMarkLength.eq_def]
    split
    case h_1 s =>
      have hr : b ≠ 'r' := ne_of_isWhitespace hb (by decide)
      have hhash : b ≠ '#' := ne_of_isWhitespace hb (by decide)
      split
      · simp [hr, hhash]
      · simp
    case h_2 => simp
  · apply not_mem_run (isWordChar_of_isWhitespace hb)

theorem endsWithout_blockComment (hb : isWhitespace b) :
  (blockComment s).EndsWithout b s
  := by
  rw [blockComment]
  split
  case h_1 => rintro l ⟨⟩
  case h_2 n hn =>
    have hlast : (s.take (n + 2)).getLast? ≠ some b := by
      rw [Nat.add_comm, getLast?_take_add (commentRest_of_blockLength? hn).getLast?_eq, ne_eq,
        Option.some.injEq]
      exact (ne_of_isWhitespace hb (by decide)).symm
    split_ifs
    · rintro l -
      exact hlast
    · rintro l -
      exact hlast
    · rintro l ⟨⟩

theorem endsWithout_mark {j : Bool} (hb : isWhitespace b) (hc : isMarkChar c) :
  Scan.EndsWithout b ⟨.lexeme (.punct c j), 1⟩ (c :: s)
  := by
  have hmarks : marks.all fun c => isWhitespace c == false := by decide
  have hmark : isWhitespace c = false := eq_of_beq (List.all_eq_true.mp hmarks c (mem_marks hc))
  rintro l - hlast
  exact ne_of_isWhitespace hb hmark (Option.some.inj hlast).symm

/-- A lexeme that is read does not end in whitespace, unless it is a line comment that does. -/
theorem endsWithout_start (hb : isWhitespace b) (c : Char) (s : List Char)
    (hline : start c s = lineComment (c :: s) → (lineComment (c :: s)).EndsWithout b (c :: s)) :
  (start c s).EndsWithout b (c :: s)
  := by
  have hform := startForm_start c s
  generalize hscan : start c s = scan at hform ⊢
  cases hform with
  | blank | unexpected => rintro l ⟨⟩
  | line => apply hline hscan
  | block => apply endsWithout_blockComment hb
  | slash => apply endsWithout_mark hb (by decide)
  | opened => apply endsWithout_opened hb
  | string => apply endsWithout_string hb
  | apostrophe => apply endsWithout_apostrophe hb
  | number => apply endsWithout_number hb
  | word => apply endsWithout_word hb
  | delimiter hdelimiter =>
      apply endsWithout_mark hb
      rw [isMarkChar, hdelimiter, Bool.true_or]
  | punct _ _ hpunctuation =>
      apply endsWithout_mark hb
      rw [isMarkChar, hpunctuation, Bool.or_true]

theorem endsWithout_lineComment (h : (s.take (lineLength s)).getLast? ≠ some b) :
  (lineComment s).EndsWithout b s
  := by
  simp only [lineComment]
  split_ifs
  · rintro l -
    exact h
  · rintro l -
    exact h
  · rintro l ⟨⟩

/-- No lexeme ends in a line feed. -/
theorem endsOnLine_start (c : Char) (s : List Char) :
  (start c s).EndsOnLine (c :: s)
  := by
  apply endsWithout_start (b := '\n') (by decide)
  intro _
  apply endsWithout_lineComment
  apply getLast?_ne_of_not_mem (not_mem_line _)

end Last

/-! ### The lines and columns of tokens -/

section Tokens

variable {file : String} {source : List Char} {tokens : List Token} {t : Token}

/-- The span of every token of a text is one of its file, and tells the lines and columns of the
first and the last of the characters that it covers. -/
theorem covers_of_tokensOf (h : tokensOf file source = .ok tokens) (ht : t ∈ tokens) :
  t.span.file = file ∧ t.span.Covers source
  := by
  obtain ⟨before, after, rfl⟩ := List.append_of_mem ht
  obtain ⟨hclean, htokens⟩ := tokensOf_eq_ok.mp h
  obtain ⟨ps, q, qs, hpieces, -, hreading, hspan, -⟩ := exists_piece htokens
  obtain ⟨c, r, u, -, rfl, hlength, hqs⟩ := exists_of_pieces (pieces_textOf hpieces)
  have hsource : source = textOf ps ++ ((c :: r) ++ u) := by
    rw [← textOf_pieces source, hpieces, textOf_append, textOf_cons, hqs, textOf_pieces]
  have hlast := endsOnLine_start c (r ++ u) _ hreading
  rw [hlength, List.take_succ_cons, List.take_left] at hlast
  rw [hspan, textOf_append, textOf_cons, textOf_nil, List.append_nil, hsource]
  constructor
  · rfl
  · apply covers_between (List.cons_ne_nil _ _) hlast

theorem covers_of_tokensOf_lines :
  ∃ source tokens,
    source = "\n/** a\n\r\nb */ \"c\\\n\n\"\n  r#\"\n\"#;".toList ∧
    tokensOf "f.rs" source = .ok tokens ∧
    tokens.map (·.span) = [⟨"f.rs", 2, 1, 4, 4, 1, 13⟩, ⟨"f.rs", 4, 6, 6, 1, 14, 20⟩,
      ⟨"f.rs", 7, 3, 8, 2, 23, 29⟩, ⟨"f.rs", 8, 3, 8, 3, 29, 30⟩] ∧
    ∀ t ∈ tokens, t.span.file = "f.rs" ∧ t.span.Covers source
  := by
  obtain ⟨tokens, h, hspans⟩ := Outcome.exists_of_any
    (x := tokensOf "f.rs" "\n/** a\n\r\nb */ \"c\\\n\n\"\n  r#\"\n\"#;".toList)
    (p := fun tokens => tokens.map (·.span) == [⟨"f.rs", 2, 1, 4, 4, 1, 13⟩,
      ⟨"f.rs", 4, 6, 6, 1, 14, 20⟩, ⟨"f.rs", 7, 3, 8, 2, 23, 29⟩, ⟨"f.rs", 8, 3, 8, 3, 29, 30⟩])
    (by decide +kernel)
  exact ⟨_, tokens, rfl, h, eq_of_beq hspans, fun t ht => covers_of_tokensOf h ht⟩

end Tokens

end ReturnCaptures
