import ReturnCaptures.Proofs.RelocatedSites

/-!
# A text inside of another one

A text that ends in a token has the same tokens when a line feed and more text follow it, and
wherever it stands in another text. Its trees there are copies of its trees.
-/

namespace ReturnCaptures

open Scan TokenTree

/-! ### What follows a text -/

section Following

variable {c d : Char} {q r u v w : List Char} {p : Piece} {ps : List Piece}

/-- A text goes on lexemes only as the text does that it prolongs with an inactive character. -/
theorem milder_append (hv : startsWith isActive v = false) :
  Milder w (w ++ v)
  := by
  have hm : Milder [] v := milder_of_startsWith hv
  have hstarts {p : Char → Bool} (hp : ∀ c, p c → isActive c) (hpoint : p '.' = false)
      {r : List Char} (hr : startsWith p (r ++ v)) : startsWith p r := by
    have hnil := hm.starts_append hp hpoint hr
    rwa [List.append_nil] at hnil
  have hword (c : Char) (hc : isWordStart c) : isActive c :=
    isActive_of_isWordChar (isWordChar_of_isWordStart hc)
  obtain _ | ⟨c, w⟩ := w
  · apply hm
  constructor
  · constructor
    · intro d hd _ _
      apply hd
    · intro _ hdigit
      apply hstarts (fun _ hd => isActive_of_isWordChar (isWordChar_of_isDigit hd)) (by decide) hdigit
    · intro hhashes
      rw [← List.append_nil (c :: w)]
      apply hashesBeforeQuote?_append hm.hashes hhashes
    · intro hmark
      by_cases hhash : c = '#'
      · subst hhash
        simp only [List.cons_append, rawMarkLength] at hmark ⊢
        split at hmark
        case isTrue hstart =>
          rw [if_pos (hstarts hword (by decide) hstart)]
          decide
        case isFalse => apply absurd rfl hmark
      · simp [rawMarkLength, hhash] at hmark
  · intro hd
    apply hd
  · intro hfraction
    by_cases hpoint : c = '.'
    · subst hpoint
      simp only [List.cons_append, fractionLength] at hfraction ⊢
      split at hfraction
      case isTrue => apply absurd rfl hfraction
      case isFalse hstart =>
        rw [if_neg]
        · omega
        · intro hw
          apply hstart
          cases w with
          | nil => cases hw
          | cons d w => apply hw
    · simp [fractionLength, hpoint] at hfraction

/-- Whether punctuation is joint is seen in the text behind it, unless more punctuation or an
apostrophe follows that text. -/
theorem joins_append (hd : punctuation.contains d = false) (hquote : d ≠ '\'') :
  joins (w ++ d :: q) = joins w
  := by
  obtain _ | ⟨c, _ | ⟨e, w⟩⟩ := w
  · rw [List.nil_append, joins_cons, hd, beq_eq_false_iff_ne.mpr hquote]
    rfl
  · have hne {e : Char} (he : punctuation.contains e) : d ≠ e := by
      rintro rfl
      rw [hd] at he
      cases he
    have hslash := hne (e := '/') (by decide)
    have hstar := hne (e := '*') (by decide)
    simp [joins_cons, hslash, hstar]
  · simp [joins_cons]

/-- Readings that differ in nothing but whether their lexemes are joint. -/
theorem Reading.eq_of_plain {a b : Reading} (h : a.plain = b.plain)
    (hjoint : ∀ c i j, a = .lexeme (.punct c i) → b = .lexeme (.punct c j) → i = j) :
  a = b
  := by
  cases a with
  | lexeme l =>
      obtain ⟨l', rfl, hplain⟩ := Reading.exists_of_plain h.symm
      cases l with
      | punct c i =>
          obtain ⟨j, rfl⟩ := exists_joint_of_plain hplain
          rw [hjoint c i j rfl rfl]
      | _ => cases l' <;> first | (cases hplain; rfl) | cases hplain
  | trivia => cases b <;> first | rfl | cases h
  | fault => cases b <;> first | exact h | cases h

/-- What a character starts in front of two texts is the same if it is so but for joint
punctuation, and if these texts make punctuation joint alike. -/
theorem start_eq_of_plain (h : (start c u).plain = (start c v).plain) (hjoins : joins u = joins v) :
  start c u = start c v
  := by
  obtain ⟨hreading, hlength⟩ := Scan.mk.inj h
  have hsame : (start c u).reading = (start c v).reading := by
    apply Reading.eq_of_plain hreading
    intro d i j hu hv
    rw [(punct_of_start hu).2.2, (punct_of_start hv).2.2, hjoins]
  cases hu : start c u
  cases hv : start c v
  rw [hu, hv] at hsame hlength
  rw [Scan.mk.injEq]
  use hsame, hlength

/-! ### A line behind a text -/

/-- The first piece of a text, and those of the rest. -/
theorem exists_of_pieces (h : pieces w = p :: ps) :
  ∃ c r u, w = c :: (r ++ u) ∧ p = ⟨c :: r, (start c (r ++ u)).reading⟩ ∧
    (start c (r ++ u)).length = r.length + 1 ∧ ps = pieces u
  := by
  cases w with
  | nil => cases h
  | cons c w =>
      have hfits := fits_start c w
      simp only [Fits, List.length_cons] at hfits
      rw [pieces, piecesFrom] at h
      obtain ⟨rfl, rfl⟩ := List.cons_eq_cons.mp h
      have hlength : (w.take ((start c w).length - 1)).length = (start c w).length - 1 := by
        rw [List.length_take]
        omega
      have hrest := piecesFrom_length_append (w := w.take ((start c w).length - 1))
        (u := w.drop ((start c w).length - 1))
      rw [hlength, List.take_append_drop] at hrest
      use c, w.take ((start c w).length - 1), w.drop ((start c w).length - 1)
      rw [List.take_append_drop, hlength]
      use rfl, rfl, by omega

/-- The pieces behind others are those of the rest of the text. -/
theorem pieces_textOf {qs : List Piece} (h : pieces w = ps ++ qs) :
  pieces (textOf qs) = qs
  := by
  induction ps generalizing w with
  | nil =>
      rw [List.nil_append] at h
      rw [← h, textOf_pieces]
  | cons q ps ih =>
      obtain ⟨_, _, u, -, -, -, hrest⟩ := exists_of_pieces h
      exact ih hrest.symm

/-- Blanks in front of a text are trivia. -/
theorem exists_pieces_isBlank (hw : isBlank w) :
  ∃ ps, pieces (w ++ u) = ps ++ pieces u ∧ ∀ p ∈ ps, p.reading = .trivia
  := by
  induction w with
  | nil => use [], rfl, by simp
  | cons c w ih =>
      rw [isBlank, List.all_cons, Bool.and_eq_true] at hw
      obtain ⟨ps, hps, htrivia⟩ := ih hw.2
      use ⟨[c], .trivia⟩ :: ps
      constructor
      · rw [List.cons_append, List.cons_append, ← hps]
        apply pieces_cons (r := [])
        rw [start, if_pos hw.1]
        rfl
      · simpa using htrivia

theorem tokensAt_of_trivia {file : String} {at' : Position} (h : ∀ p ∈ ps, p.reading = .trivia) :
  tokensAt file at' ps = []
  := by
  induction ps generalizing at' with
  | nil => rfl
  | cons p ps ih =>
      rw [List.forall_mem_cons] at h
      rw [tokensAt_cons, ih h.2, PlacedPiece.token?, h.1]
      rfl

theorem endsLine_append (hu : u ≠ []) (h : lineLength u = 0) :
  EndsLine u (u ++ v)
  := by
  obtain _ | ⟨c, u⟩ := u
  · contradiction
  constructor
  · rw [lineLength_cons] at h
    split at h
    case isFalse => cases h
    case isTrue hend =>
      rw [List.cons_append, lineLength_cons, if_pos]
      apply hend.imp_right
      rintro ⟨hc, hu⟩
      obtain ⟨r, rfl⟩ := List.head?_eq_some_iff.mp hu
      use hc
      rfl
  · exact id

/-- A line that takes up a whole text ends at a line feed behind the text, or at the carriage
return in front of it. -/
theorem exists_lineLength_append (h : lineLength w = w.length) (q : List Char) :
  ∃ u v, w = u ++ v ∧ (v = [] ∨ v = ['\r']) ∧ lineLength (u ++ (v ++ '\n' :: q)) = u.length
  := by
  induction w with
  | nil =>
      use [], [], rfl, .inl rfl
      rfl
  | cons c w ih =>
      rw [lineLength_cons] at h
      split at h
      case isTrue => cases h
      case isFalse hc =>
        obtain ⟨u, v, rfl, hv, hlength⟩ := ih (Nat.succ.inj h)
        by_cases hend : c = '\r' ∧ (u ++ (v ++ '\n' :: q)).head? = some '\n'
        · obtain ⟨rfl, hhead⟩ := hend
          cases u with
          | cons d u => exact absurd (.inr ⟨rfl, hhead⟩) hc
          | nil =>
              rcases hv with rfl | rfl
              · use [], ['\r'], rfl, .inr rfl
                rfl
              · cases hhead
        · use c :: u, v, rfl, hv
          rw [List.cons_append, lineLength_cons, if_neg, hlength, List.length_cons]
          tauto

theorem reading_lineComment (w : List Char) :
  (lineComment w).reading = .trivia ∨
    ∃ inner text, (lineComment w).reading = .lexeme (.doc inner text)
  := by
  simp only [lineComment, ofLexeme]
  split_ifs
  · exact .inr ⟨_, _, rfl⟩
  · exact .inr ⟨_, _, rfl⟩
  · exact .inl rfl

/-- A line comment at the end of a text that documents nothing is trivia, also in front of another
line. -/
theorem exists_pieces_lineComment (h : start '/' ('/' :: w) = ⟨.trivia, w.length + 2⟩)
    (q : List Char) :
  ∃ ps, pieces ('/' :: '/' :: (w ++ '\n' :: q)) = ps ++ pieces q ∧ ∀ p ∈ ps, p.reading = .trivia
  := by
  have hlength : lineLength w = w.length := by
    have hlength := congrArg Scan.length h
    rw [start_slashes, length_lineComment] at hlength
    apply Nat.add_right_cancel hlength
  obtain ⟨u, v, rfl, hv, hline⟩ := exists_lineLength_append hlength q
  have hblank : isBlank (v ++ ['\n']) := by rcases hv with rfl | rfl <;> decide
  obtain ⟨ps, hps, htrivia⟩ := exists_pieces_isBlank (u := q) hblank
  rw [List.append_assoc, List.singleton_append] at hps
  use ⟨'/' :: '/' :: u, .trivia⟩ :: ps
  constructor
  · rw [List.append_assoc, List.cons_append, ← hps, ← List.cons_append]
    apply pieces_cons
    rw [List.cons_append, start_slashes, ← List.cons_append, ← List.cons_append,
      lineComment_of_lineLength (lineLength_of_append hline) hline]
    rw [start_slashes, ← List.append_nil ('/' :: '/' :: (u ++ v)),
      lineComment_of_lineLength rfl (by rwa [List.append_nil])] at h
    split_ifs at h with hbang hdoc
    · cases h
    · cases h
    obtain _ | ⟨c, _ | ⟨d, u⟩⟩ := u
    · rfl
    · have hbang' : c ≠ '!' := by simpa using hbang
      have hslash : c ≠ '/' := by
        rcases hv with rfl | rfl <;> simpa using hdoc
      simp [hbang', hslash]
    · exact (if_neg hbang).trans (if_neg hdoc)
  · simpa using htrivia

/-- The pieces of a text with another line behind it carry the tokens of the text, unless that ends
in a documentation comment, and the pieces of the line follow. -/
theorem exists_pieces_append (hclean : ∀ p ∈ pieces w, p.isClean)
    (hlast : ∀ p ∈ (pieces w).getLast?, ∀ inner text, p.reading ≠ .lexeme (.doc inner text))
    (q : List Char) :
  ∃ ps, pieces (w ++ '\n' :: q) = ps ++ pieces q ∧ (∀ p ∈ ps, p.isClean) ∧
    ∀ file at', tokensAt file at' ps = tokensAt file at' (pieces w)
  := by
  have hinactive : startsWith isActive ('\n' :: q) = false := isActive_of_isWhitespace (by decide)
  have htrivia {ps qs : List Piece} (hps : ∀ p ∈ ps, p.reading = .trivia)
      (hqs : ∀ p ∈ qs, p.reading = .trivia) :
      (∀ p ∈ ps, p.isClean) ∧ ∀ file at', tokensAt file at' ps = tokensAt file at' qs := by
    constructor
    · intro p hp
      rw [Piece.isClean, hps p hp]
      rfl
    · intro file at'
      rw [tokensAt_of_trivia hps, tokensAt_of_trivia hqs]
  induction hpieces : pieces w generalizing w with
  | nil =>
      obtain rfl : w = [] := by rw [← textOf_pieces w, hpieces, textOf_nil]
      obtain ⟨ps, hps, htrivial⟩ := exists_pieces_isBlank (w := ['\n']) (u := q) (by decide)
      use ps, hps
      apply htrivia htrivial (by simp)
  | cons p ps ih =>
      rw [hpieces] at hclean hlast
      obtain ⟨c, r, u, rfl, rfl, hlength, rfl⟩ := exists_of_pieces hpieces
      rw [List.forall_mem_cons] at hclean
      have hscan : start c (r ++ u) = ⟨(start c (r ++ u)).reading, r.length + 1⟩ := by
        rw [← hlength]
      by_cases hcomment : u = [] ∧ (c :: r).take 2 = ['/', '/']
      · obtain ⟨rfl, hslashes⟩ := hcomment
        obtain _ | ⟨d, r⟩ := r
        · cases hslashes
        simp only [List.take_succ_cons, List.take_zero, List.cons.injEq, and_true] at hslashes
        obtain ⟨rfl, rfl⟩ := hslashes
        rw [List.append_nil] at hscan hlast ⊢
        have hreading : (start '/' ('/' :: r)).reading = .trivia := by
          rcases reading_lineComment ('/' :: '/' :: r) with h | ⟨inner, text, h⟩
          · rw [start_slashes, h]
          · rw [← start_slashes] at h
            exact absurd h (hlast _ rfl inner text)
        rw [hreading] at hscan ⊢
        obtain ⟨ps, hps, htrivial⟩ := exists_pieces_lineComment hscan q
        use ps, hps
        apply htrivia htrivial
        simp [pieces, piecesFrom]
      · have hrest : ∀ p ∈ (pieces u).getLast?, ∀ inner text, p.reading ≠ .lexeme (.doc inner text) := by
          intro p hp
          apply hlast
          rw [List.getLast?_cons, hp]
          rfl
        obtain ⟨qs, hqs, hcleanqs, htokens⟩ := ih hclean.2 hrest rfl
        have hstarts : Piece.Starts ⟨c :: r, (start c (r ++ u)).reading⟩ u := by
          use c, r, rfl
          rw [hscan]
          rfl
        have hsame : start c (r ++ (u ++ '\n' :: q)) = start c (r ++ u) := by
          obtain ⟨c', r', htext, hplain⟩ := hstarts.of_milder hclean.1 (milder_append hinactive)
            (by
              rintro - d hd hmark
              cases u with
              | nil =>
                  obtain rfl : '\n' = d := Option.some.inj hd
                  rcases hmark with h | h <;> cases h
              | cons e u => apply hd)
            (by
              intro hend hslashes
              apply endsLine_append _ hend
              rintro rfl
              apply hcomment ⟨rfl, hslashes⟩)
          obtain ⟨rfl, rfl⟩ := List.cons_eq_cons.mp htext
          apply start_eq_of_plain
          · rw [hplain, hscan]
            rfl
          · rw [← List.append_assoc]
            apply joins_append (by decide) (by decide)
        use ⟨c :: r, (start c (r ++ u)).reading⟩ :: qs
        constructor
        · rw [List.cons_append, List.append_assoc, pieces_cons (hsame.trans hscan), hqs]
          rfl
        · rw [List.forall_mem_cons]
          use ⟨hclean.1, hcleanqs⟩
          intro file at'
          rw [tokensAt_cons, tokensAt_cons, htokens]

end Following

/-! ### Tokens and trees that stand elsewhere -/

section Elsewhere

variable {φ : Nat → Nat} {file file' : String} {text : List Char} {at' at'' : Position}
  {ps : List Piece} {tokens : List Token} {u v trees : List TokenTree}

/-- The tokens of pieces that stand elsewhere are the same, relocated. -/
theorem tokensAt_relocate
    (h : ∀ n ≤ (textOf ps).length, at''.offset + n = φ (at'.offset + n)) :
  (tokensAt file' at'' ps).map (Token.relocate id) = (tokensAt file at' ps).map (Token.relocate φ)
  := by
  induction ps generalizing at' at'' with
  | nil => rfl
  | cons q ps ih =>
      rw [textOf_cons, List.length_append] at h
      have hrest : ∀ n ≤ (textOf ps).length,
          (at''.after q.text).offset + n = φ ((at'.after q.text).offset + n) := by
        intro n hn
        rw [Position.offset_after, Position.offset_after, Nat.add_assoc, Nat.add_assoc]
        apply h
        omega
      rw [tokensAt_cons, tokensAt_cons, List.map_append, List.map_append, ih hrest]
      congr 1
      simp only [PlacedPiece.token?]
      cases q.reading with
      | lexeme l =>
          have hstart := h 0 (Nat.zero_le _)
          have hstop := h q.text.length (Nat.le_add_right _ _)
          simp only [Nat.add_zero] at hstart
          simp only [Option.toList_some, List.map_cons, List.map_nil, Token.relocate, Span.relocate,
            Span.between, Position.offset_after, id_eq, ← hstart, hstop]
      | _ => rfl

/-- Trees are read from their tokens. -/
theorem read_tokensAll (hu : areProper u) (stack : List OpenGroup) (current : List TokenTree)
    (rest : List Token) :
  read stack current (tokensAll u ++ rest) = read stack (u.reverse ++ current) rest
  := by
  induction u using induction_siblings generalizing stack current rest with
  | nil => rfl
  | token t u ih =>
      rw [areProper, isProper, Bool.and_eq_true, Bool.not_eq_true'] at hu
      rw [tokensAll, TokenTree.tokens, List.append_assoc, List.singleton_append, read_token hu.1,
        ih hu.2]
      simp
  | group d inside opening closing u ihinside ih =>
      rw [areProper, isProper, Bool.and_eq_true] at hu
      rw [tokensAll, TokenTree.tokens, List.append_assoc, List.cons_append, List.append_assoc,
        read_opening rfl, ihinside hu.1, List.append_nil, List.singleton_append, read_closing rfl,
        List.reverse_reverse, ih hu.2]
      simp

theorem read_of_areProper (hu : areProper u) :
  read [] [] (tokensAll u) = .ok u
  := by
  have hread := read_tokensAll hu [] [] []
  rwa [List.append_nil, List.append_nil, TokenTree.read, List.reverse_reverse] at hread

/-- A text has the trees that its tokens are the tokens of. -/
theorem ofText_eq_ok :
  ofText file text = .ok trees ↔ tokensOf file text = .ok (tokensAll trees) ∧ areProper trees
  := by
  constructor
  · apply tokensOf_of_ofText
  · rintro ⟨htokens, hproper⟩
    apply Outcome.bind_eq_ok.mpr
    use tokensAll trees, htokens
    rw [ofTokens, read_of_areProper hproper]
    rfl

theorem tokensAll_relocateAll (trees : List TokenTree) :
  tokensAll (relocateAll φ trees) = (tokensAll trees).map (Token.relocate φ)
  := by
  induction trees using induction_siblings with
  | nil => simp [tokensAll]
  | token t trees ih => simp [tokensAll, TokenTree.tokens, ih]
  | group d inside opening closing trees ihinside ih =>
      simp [tokensAll, TokenTree.tokens, ihinside, ih, Token.relocate]

theorem areProper_relocateAll (trees : List TokenTree) :
  areProper (relocateAll φ trees) = areProper trees
  := by
  induction trees using induction_siblings with
  | nil => simp
  | token t trees ih => simp [areProper, isProper, ih]
  | group d inside opening closing trees ihinside ih =>
      simp [areProper, isProper, ihinside, ih]

/-- Trees that have the same tokens are the same. -/
theorem eq_of_tokensAll (hu : areProper u) (hv : areProper v) (h : tokensAll u = tokensAll v) :
  u = v
  := by
  have hsame := read_of_areProper hu
  rw [h, read_of_areProper hv] at hsame
  apply (Except.ok.inj hsame).symm

/-- Tokens that are copies of those of a text are the tokens of copies of its trees. -/
theorem exists_copies (htokens : tokensOf file text = .ok (tokensAll trees))
    (hproper : areProper trees)
    (h : tokens.map (Token.relocate id) = (tokensAll trees).map (Token.relocate φ)) :
  ∃ trees', tokens = tokensAll trees' ∧ areProper trees' ∧ Copies φ trees' trees
  := by
  have hlexemes : tokens.map (·.lexeme) = (tokensAll trees).map (·.lexeme) := by
    have hmap := congrArg (List.map (·.lexeme)) h
    rw [List.map_map, List.map_map] at hmap
    apply hmap
  have hplain : tokens.map (·.lexeme.plain) = lexemesAll trees := by
    have hmap := congrArg (List.map Lexeme.plain) hlexemes
    rw [List.map_map, List.map_map] at hmap
    apply hmap
  have hseparate : ∀ l ∈ (tokensAll trees).map (·.lexeme), l.isDelimiter → l.isJoint = false :=
    List.forall_mem_map.mpr (isJoint_of_tokensOf htokens)
  rw [← hlexemes, List.forall_mem_map] at hseparate
  obtain ⟨trees', _, hread⟩ := read_append hproper hplain
  replace hread := hread [] [] []
  rw [List.append_nil, List.append_nil, TokenTree.read, List.reverse_reverse] at hread
  have htokens' : tokensAll trees' = tokens := tokensAll_eq_of_read hread hseparate
  have hproper' : areProper trees' := areProper_of_read hread rfl (by simp)
  use trees', htokens'.symm, hproper'
  apply eq_of_tokensAll
  · rw [areProper_relocateAll, hproper']
  · rw [areProper_relocateAll, hproper]
  · rw [tokensAll_relocateAll, tokensAll_relocateAll, htokens', h]

/-- Where the offset `m` of a text of length `n` is if the text stands behind `k` characters. -/
def shifted (k n m : Nat) : Nat := k + min m n

theorem drop_shifted (before text after : List Char) (m : Nat) :
  (before ++ (text ++ after)).drop (shifted before.length text.length m) = text.drop m ++ after
  := by
  have hdrop : text.drop (min m text.length) = text.drop m := by
    rcases Nat.le_total m text.length with h | h
    · rw [Nat.min_eq_left h]
    · rw [Nat.min_eq_right h, List.drop_length, List.drop_eq_nil_of_le h]
  rw [shifted, ← List.drop_drop, List.drop_left,
    List.drop_append_of_le_length (Nat.min_le_right m text.length), hdrop]

/-- A stretch of a text that stands inside of another one is a stretch of that one. -/
theorem slice_shifted (before text after : List Char) (m n : Nat) :
  slice (before ++ (text ++ after)) (shifted before.length text.length m)
    (shifted before.length text.length n) = slice text m n
  := by
  have hlength : (text.drop m).length = text.length - m := List.length_drop
  rw [slice, slice, drop_shifted, shifted, shifted, Nat.add_sub_add_left,
    List.take_append_of_le_length (by omega), List.take_eq_take_iff]
  omega

/-- The trees of a text that stands inside of another one are copies of its trees. -/
theorem exists_copies_of_pieces (h : TokenTree.ofText file text = .ok trees) (file' : String)
    (at' : Position) :
  ∃ trees', tokensAt file' at' (pieces text) = tokensAll trees' ∧ areProper trees' ∧
    Copies (shifted at'.offset text.length) trees' trees
  := by
  obtain ⟨htokens, hproper⟩ := ofText_eq_ok.mp h
  apply exists_copies htokens hproper
  rw [← (tokensOf_eq_ok.mp htokens).2]
  apply tokensAt_relocate
  intro n hn
  rw [textOf_pieces] at hn
  rw [shifted, Position.origin, Nat.zero_add, Nat.min_eq_left hn]

end Elsewhere

end ReturnCaptures
