import ReturnCaptures.Proofs.Lookahead

/-!
# How much a scan takes

A scan takes at least one character, and no more than there are.
-/

namespace ReturnCaptures.Scan

/-- A scan that takes at least one character of a text, and no more than all of them. -/
def Fits (scan : Scan) (s : List Char) : Prop :=
  0 < scan.length ∧ scan.length ≤ s.length

variable {p : Char → Bool} {c : Char} {s : List Char} {n : Nat} {kind : LiteralKind}

/-! ### Measures -/

theorem runLength_le :
  runLength p s ≤ s.length
  := (List.takeWhile_sublist p).length_le

theorem suffixLength_le :
  suffixLength s ≤ s.length
  := by
  rw [suffixLength]
  split
  case isTrue => apply runLength_le
  case isFalse => apply Nat.zero_le

theorem lineLength_le :
  lineLength s ≤ s.length
  := by
  induction s with
  | nil => apply Nat.le_refl
  | cons c s ih =>
      rw [lineLength_cons, List.length_cons]
      split <;> omega

theorem blockLength?_le {depth : Nat} (h : blockLength? depth s = some n) :
  n ≤ s.length
  := by
  fun_induction blockLength? depth s generalizing n with
  | case1 =>
      cases h
      apply Nat.zero_le
  | case2 => cases h
  | case3 depth s ih =>
      obtain ⟨m, hm, rfl⟩ := Option.map_eq_some_iff.mp h
      have hle := ih hm
      simp only [List.length_cons]
      omega
  | case4 depth s ih =>
      obtain ⟨m, hm, rfl⟩ := Option.map_eq_some_iff.mp h
      have hle := ih hm
      simp only [List.length_cons]
      omega
  | case5 depth c s _ _ ih =>
      obtain ⟨m, hm, rfl⟩ := Option.map_eq_some_iff.mp h
      have hle := ih hm
      simp only [List.length_cons]
      omega

theorem stringLength?_le (h : stringLength? s = some n) :
  n ≤ s.length
  := by
  fun_induction stringLength? s generalizing n with
  | case1 => cases h
  | case2 s =>
      cases h
      simp
  | case3 c s ih =>
      obtain ⟨m, hm, rfl⟩ := Option.map_eq_some_iff.mp h
      have hle := ih hm
      simp only [List.length_cons]
      omega
  | case4 c s _ _ ih =>
      obtain ⟨m, hm, rfl⟩ := Option.map_eq_some_iff.mp h
      have hle := ih hm
      simp only [List.length_cons]
      omega

theorem charLength_le :
  charLength s ≤ s.length
  := by
  fun_cases charLength s with
  | case1 => apply Nat.le_refl
  | case2 s =>
      simp only [List.length_cons]
      omega
  | case3 s _ =>
      simp only [List.length_cons]
      omega
  | case4 => apply Nat.zero_le
  | case5 => simp

theorem hashesBeforeQuote?_lt (h : hashesBeforeQuote? s = some n) :
  n < s.length
  := by
  fun_induction hashesBeforeQuote? s generalizing n with
  | case1 s =>
      cases h
      simp
  | case2 s ih =>
      obtain ⟨m, hm, rfl⟩ := Option.map_eq_some_iff.mp h
      have hlt := ih hm
      simp only [List.length_cons]
      omega
  | case3 => cases h

theorem fractionLength_le :
  fractionLength s ≤ s.length
  := by
  fun_cases fractionLength s with
  | case1 s => apply Nat.zero_le
  | case2 s =>
      have hle := runLength_le (p := isDigitOrUnderscore) (s := s)
      simp only [List.length_cons]
      omega
  | case3 => apply Nat.zero_le

theorem exponentLength_le :
  exponentLength s ≤ s.length
  := by
  fun_cases exponentLength s with
  | case1 e s =>
      have hle := runLength_le (p := isDigitOrUnderscore) (s := s)
      simp only [List.length_cons]
      omega
  | case2 e s _ _ hsigned =>
      have hle := runLength_le (p := isDigitOrUnderscore) (s := s.drop 1)
      have hpos : 0 < s.length := by
        cases s with
        | nil => simp [startsWith] at hsigned
        | cons => simp
      simp only [List.length_drop] at hle
      simp only [List.length_cons]
      omega
  | case3 => apply Nat.zero_le
  | case4 => apply Nat.zero_le
  | case5 => apply Nat.zero_le

theorem basedLength?_le (h : basedLength? s = some n) :
  0 < n ∧ n ≤ s.length
  := by
  rw [basedLength?.eq_def] at h
  split at h
  case h_1 base s =>
    split at h
    case isTrue =>
      cases h
      have hle := runLength_le (p := isWordChar) (s := s)
      simp only [List.length_cons]
      omega
    case isFalse => cases h
  case h_2 => cases h

/-! ### Forms -/

theorem fits_literal (hpos : 0 < n) (hn : n ≤ s.length) :
  (literal kind n s).Fits s
  := by
  have hle := suffixLength_le (s := s.drop n)
  rw [List.length_drop] at hle
  simp only [Fits, literal, ofLexeme]
  omega

theorem fits_string (hpos : 0 < n) (hn : n ≤ s.length) :
  (string kind n s).Fits s
  := by
  rw [string]
  split
  case h_1 => exact ⟨Nat.lt_of_lt_of_le hpos hn, Nat.le_refl _⟩
  case h_2 m hm =>
    have hle := stringLength?_le hm
    rw [List.length_drop] at hle
    apply fits_literal <;> omega

theorem fits_rawString {hashes : Nat} (hpos : 0 < n) (hn : n ≤ s.length) :
  (rawString kind hashes n s).Fits s
  := by
  rw [rawString]
  split
  case h_1 => exact ⟨Nat.lt_of_lt_of_le hpos hn, Nat.le_refl _⟩
  case h_2 m hm =>
    have hle := rawLength?_le hm
    rw [List.length_drop] at hle
    apply fits_literal <;> omega

theorem fits_char (hpos : 0 < n) (hn : n ≤ s.length) :
  (char kind n s).Fits s
  := by
  have hle := charLength_le (s := s.drop n)
  rw [List.length_drop] at hle
  simp only [char]
  split
  case isTrue hclose =>
    have hne : s.drop (n + charLength (s.drop n)) ≠ [] := by
      intro hnil
      simp [hnil] at hclose
    rw [ne_eq, List.drop_eq_nil_iff] at hne
    apply fits_literal <;> omega
  case isFalse =>
    simp only [Fits]
    omega

theorem fits_apostrophe :
  (apostrophe ('\'' :: s)).Fits ('\'' :: s)
  := by
  simp only [apostrophe, List.drop_one, List.tail_cons]
  split
  case isTrue =>
    have hle := runLength_le (p := isWordChar) (s := s)
    simp only [Fits, ofLexeme, List.length_cons]
    omega
  case isFalse => apply fits_char <;> simp

theorem fits_opened {opening : Opening} (h : opening? s = some opening) :
  (opened opening s).Fits s
  := by
  have hraw {kind : LiteralKind} {r : List Char} {letters : Nat}
      (h : (hashesBeforeQuote? r).map (Opening.raw kind letters) = some opening)
      (hs : s.length = r.length + letters) :
      (opened opening s).Fits s := by
    obtain ⟨k, hk, rfl⟩ := Option.map_eq_some_iff.mp h
    have hlt := hashesBeforeQuote?_lt hk
    apply fits_rawString <;> omega
  rw [opening?.eq_def] at h
  split at h
  case h_1 =>
    cases h
    apply fits_char <;> simp
  case h_2 =>
    cases h
    apply fits_string <;> simp
  case h_3 =>
    cases h
    apply fits_string <;> simp
  case h_4 => apply hraw h rfl
  case h_5 => apply hraw h rfl
  case h_6 => apply hraw h rfl
  case h_7 => cases h

theorem fits_number (h : isDigit c) :
  (number (c :: s)).Fits (c :: s)
  := by
  simp only [number]
  split
  case h_1 n hn => apply basedLength?_le hn
  case h_2 =>
    have hwhole := runLength_digits_pos (u := c :: s) h
    have hle := runLength_le (p := isDigitOrUnderscore) (s := c :: s)
    generalize runLength isDigitOrUnderscore (c :: s) = whole at hwhole hle ⊢
    have hfraction := fractionLength_le (s := (c :: s).drop whole)
    generalize fractionLength ((c :: s).drop whole) = fraction at hfraction ⊢
    have hexponent := exponentLength_le (s := (c :: s).drop (whole + fraction))
    generalize exponentLength ((c :: s).drop (whole + fraction)) = exponent at hexponent ⊢
    have hsuffix := suffixLength_le (s := (c :: s).drop (whole + fraction + exponent))
    simp only [List.length_drop] at hfraction hexponent hsuffix
    simp only [Fits, ofLexeme]
    omega

theorem fits_word (h : isWordStart c) :
  (word (c :: s)).Fits (c :: s)
  := by
  simp only [word, ofLexeme, Fits]
  rcases rawMarkLength_cons (c := c) (w := s) with hmark | ⟨r, hr, _, hmark⟩
  · have hpos : 0 < runLength isWordChar (c :: s) :=
      runLength_pos (startsWord_of_startsWordStart h)
    have hle := runLength_le (p := isWordChar) (s := c :: s)
    rw [hmark, List.drop_zero]
    omega
  · have hle := runLength_le (p := isWordChar) (s := r)
    rw [hmark, hr]
    simp only [List.drop_succ_cons, List.drop_zero, List.length_cons]
    omega

theorem fits_lineComment :
  (lineComment ('/' :: '/' :: s)).Fits ('/' :: '/' :: s)
  := by
  have hle := lineLength_le (s := s)
  rw [Fits, length_lineComment, List.length_cons, List.length_cons]
  omega

theorem fits_blockComment :
  (blockComment ('/' :: '*' :: s)).Fits ('/' :: '*' :: s)
  := by
  simp only [blockComment, List.drop_succ_cons, List.drop_zero]
  split
  case h_1 => exact ⟨Nat.succ_pos _, Nat.le_refl _⟩
  case h_2 n hn =>
    have hle := blockLength?_le hn
    have hfits : 0 < n + 2 ∧ n + 2 ≤ ('/' :: '*' :: s).length := by
      simp only [List.length_cons]
      omega
    split_ifs <;> exact hfits

theorem fits_start (c : Char) (s : List Char) :
  (start c s).Fits (c :: s)
  := by
  have hone {reading : Reading} : Fits ⟨reading, 1⟩ (c :: s) := by
    simp [Fits]
  have hform := startForm_start c s
  generalize start c s = scan at hform ⊢
  cases hform with
  | blank => apply hone
  | line => apply fits_lineComment
  | block => apply fits_blockComment
  | slash => apply hone
  | opened hopening => apply fits_opened hopening
  | string => apply fits_string <;> simp
  | apostrophe => apply fits_apostrophe
  | number hdigit => apply fits_number hdigit
  | word _ _ hword => apply fits_word hword
  | delimiter => apply hone
  | punct => apply hone
  | unexpected => apply hone

end ReturnCaptures.Scan
