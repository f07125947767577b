import ReturnCaptures.Proofs.PathSeparators

/-!
# Words that go on

A word, or a lifetime, that is followed by further word characters is one word with all of them.
What a text shows in front of the word stays, and so does what is shown behind the added characters.
-/

namespace ReturnCaptures

open Scan TokenTree

section Words

variable {c : Char} {l l' : Lexeme} {r u v w w' : List Char} {lexemes ls : List Lexeme}

theorem Lexeme.isWord_plain (l : Lexeme) :
  l.plain.isWord = l.isWord
  := by
  cases l <;> rfl

theorem Lexeme.isPunct_of_isWord (h : l.isWord) :
  l.isPunct c = false
  := by
  cases l <;> first | rfl | cases h

theorem Lexeme.isQuoted_of_isWord (h : l.isWord) :
  l.isQuoted = false
  := by
  cases l <;> first | rfl | cases h

/-- No word character opens a quoted literal or marks a raw identifier. -/
theorem exists_head_of_isWordChar (hw : w.all isWordChar) (hne : w ≠ []) :
  ∃ d s, w = d :: s ∧ d ≠ '#' ∧ d ≠ '\'' ∧ d ≠ '"'
  := by
  obtain ⟨d, s, rfl⟩ := List.exists_cons_of_ne_nil hne
  rw [List.all_cons, Bool.and_eq_true] at hw
  have hd {e : Char} (he : isWordChar e = false) : d ≠ e := by
    rintro rfl
    rw [hw.1] at he
    cases he
  exact ⟨d, s, rfl, hd (by decide), hd (by decide), hd (by decide)⟩

theorem runLength_append_append (hr : r.all isWordChar) (hw : w.all isWordChar)
    (hv : startsWith isWordChar v = false) :
  runLength isWordChar (r ++ (w ++ v)) = r.length + w.length
  := by
  rw [runLength_of_all hr, runLength_of_startsWith hw hv]

/-- A word goes on with all word characters behind it. -/
theorem length_word_append (hr : (word (c :: r)).length = r.length + 1) (hw : w.all isWordChar)
    (hne : w ≠ []) (hv : startsWith isWordChar v = false) :
  word (c :: (r ++ (w ++ v))) =
    ofLexeme wordLexeme (r.length + 1 + w.length) (c :: (r ++ (w ++ v)))
  := by
  obtain ⟨d, s, rfl, hhash, -, -⟩ := exists_head_of_isWordChar hw hne
  simp only [word, ofLexeme] at hr
  rw [word]
  congr 1
  rcases rawMarkLength_cons (c := c) (w := r) with hmark | ⟨r', hr', hstart, hmark⟩
  · rw [hmark, List.drop_zero, Nat.zero_add] at hr
    have hmark' : rawMarkLength (c :: r ++ (d :: s ++ v)) = 0 := by
      apply rawMarkLength_append (u := [])
      · rintro - -
        simp [rawMarkLength, hhash]
      · rw [List.append_nil, hr]
    have hall : (c :: r).all isWordChar := by
      apply all_of_runLength (u := [])
      rw [List.append_nil, hr, List.length_cons]
    rw [List.cons_append] at hmark'
    rw [hmark', List.drop_zero, Nat.zero_add, ← List.cons_append, runLength_append_append hall hw hv,
      List.length_cons]
  · obtain ⟨rfl, rfl⟩ := List.cons_eq_cons.mp hr'
    rw [hmark, List.drop_succ_cons, List.drop_succ_cons, List.drop_zero, List.length_cons] at hr
    have hlength : runLength isWordChar r' = r'.length := by omega
    have hall : r'.all isWordChar := by
      apply all_of_runLength (u := [])
      rw [List.append_nil, hlength]
    have hne' : r' ≠ [] := by
      rintro rfl
      cases hstart
    have hstart' : startsWith isWordStart (r' ++ (d :: s ++ v)) := by
      rwa [startsWith_append (v := []) hne', List.append_nil]
    rw [List.cons_append, rawMarkLength, if_pos hstart', List.drop_succ_cons, List.drop_succ_cons,
      List.drop_zero, runLength_append_append hall hw hv, List.length_cons, List.length_cons]
    omega

/-- A lifetime goes on with all word characters behind it. -/
theorem apostrophe_append_word (hl : (apostrophe ('\'' :: r)).reading = .lexeme l) (hword : l.isWord)
    (hr : (apostrophe ('\'' :: r)).length = r.length + 1) (hw : w.all isWordChar) (hne : w ≠ [])
    (hv : startsWith isWordChar v = false) :
  apostrophe ('\'' :: (r ++ (w ++ v))) =
    ofLexeme .lifetime (r.length + 1 + w.length) ('\'' :: (r ++ (w ++ v)))
  := by
  obtain ⟨d, s, rfl, -, happ, -⟩ := exists_head_of_isWordChar hw hne
  simp only [apostrophe, List.drop_succ_cons, List.drop_zero] at hl hr ⊢
  split at hl
  case isTrue hstart =>
    rw [if_pos hstart] at hr
    simp only [ofLexeme] at hr
    have hall : r.all isWordChar := by
      apply all_of_runLength (u := [])
      rw [List.append_nil]
      omega
    rw [Bool.and_eq_true, bne_iff_ne] at hstart
    have hne' : r ≠ [] := by
      rintro rfl
      cases hstart.1
    have hstart' : (startsWith isWordStart (r ++ (d :: s ++ v)) &&
        (r ++ (d :: s ++ v))[1]? != some '\'') = true := by
      rw [Bool.and_eq_true, bne_iff_ne, startsWith_append (v := []) hne', List.append_nil]
      use hstart.1
      obtain _ | ⟨e, _ | ⟨f, r⟩⟩ := r
      · apply absurd rfl hne'
      · simpa using happ
      · simpa using hstart.2
    rw [if_pos hstart', runLength_append_append hall hw hv]
    congr 1
    omega
  case isFalse =>
    have hquoted : (char .char 1 ('\'' :: r)).reading.isQuoted := char_isQuoted
    rw [hl, Reading.isQuoted, Lexeme.isQuoted_of_isWord hword] at hquoted
    cases hquoted

theorem isWord_wordLexeme (s : String) :
  (wordLexeme s).isWord ∧ (wordLexeme s).text = s
  := by
  rw [wordLexeme]
  split <;> exact ⟨rfl, rfl⟩

/-- A word in front of `u` and other word characters are one word in front of every text that does
not go on with it. An `r` could open a raw string with a letter in front of it. -/
theorem Lexeme.Stands.append_word (h : l.Stands u) (hl : l.isWord) (hw : w.all isWordChar)
    (hne : w ≠ []) (hhead : w.head? ≠ some 'r') (hv : startsWith isWordChar v = false) :
  ∃ l' : Lexeme, l'.isWord ∧ l'.text.toList = l.text.toList ++ w ∧ l'.Stands v
  := by
  obtain ⟨c, r, hr, hopens, hreading, hlength⟩ := h.nil.exists_start
  rw [List.append_nil] at hreading hlength
  rw [hr]
  -- Whatever the whole is, its text is what the scan takes.
  have hresult (make : String → Lexeme) (hmake : ∀ s, (make s).isWord ∧ (make s).text = s)
      (hstart : start c (r ++ (w ++ v)) = ofLexeme make (r.length + 1 + w.length)
        (c :: (r ++ (w ++ v)))) :
      ∃ l' : Lexeme, l'.isWord ∧ l'.text.toList = c :: r ++ w ∧ l'.Stands v := by
    have hleading : leading (r.length + 1 + w.length) (c :: (r ++ (w ++ v))) =
        String.ofList (c :: r ++ w) := by
      rw [leading, ← List.append_assoc, ← List.cons_append]
      congr 1
      have hwhole : (c :: (r ++ w)).length = r.length + 1 + w.length := by
        rw [List.length_cons, List.length_append]
        omega
      rw [List.take_append_of_le_length hwhole.ge, List.take_of_length_le hwhole.le]
      rfl
    use make (String.ofList (c :: r ++ w)), (hmake _).1
    have htext : (make (String.ofList (c :: r ++ w))).text.toList = c :: (r ++ w) := by
      rw [(hmake _).2, String.toList_ofList]
      rfl
    use htext
    refine ⟨c, r ++ w, htext, ?_⟩
    rw [List.append_assoc, hstart, ofLexeme, hleading, Scan.plain]
    simp only [List.length_append, Scan.mk.injEq, true_and]
    omega
  obtain ⟨l', hl', hplain⟩ := Reading.exists_of_plain hreading
  have hword : l'.isWord := by rwa [← isWord_plain, hplain, isWord_plain]
  have hspelled (hno : l'.isSpelled = false) : False := by
    rw [isSpelled, hword] at hno
    cases hno
  have hquoted {scan : Scan} (hq : scan.reading.isQuoted) (hscan : scan.reading = .lexeme l') :
      False := by
    rw [hscan, Reading.isQuoted, isQuoted_of_isWord hword] at hq
    cases hq
  have hform := startForm_start c r
  generalize start c r = scan at hform hl' hlength
  cases hform with
  | blank | unexpected => cases hl'
  | line => cases hspelled (lineComment_isSpelled hl')
  | block => cases hspelled (blockComment_isSpelled hl')
  | slash | delimiter | punct =>
      cases hl'
      cases hword
  | opened => cases hquoted opened_isQuoted hl'
  | string => cases hquoted string_isQuoted hl'
  | number => cases hquoted number_isQuoted hl'
  | apostrophe =>
      apply hresult .lifetime fun _ => ⟨rfl, rfl⟩
      rw [start_apostrophe]
      apply apostrophe_append_word hl' hword hlength hw hne hv
  | word hopening hdigit hstart =>
      obtain ⟨d, s, rfl, hhash, happ, hquote⟩ := exists_head_of_isWordChar hw hne
      have hopening' : opening? (c :: r ++ (d :: s ++ v)) = none := by
        apply opening?_append_none (u := [])
        · rwa [List.append_nil]
        · intro hhashes
          simp [hashesBeforeQuote?, hhash, hquote] at hhashes
        · rintro - - _ ⟨⟩
          use hquote, fun _ => happ
          simpa using hhead
      have hne' {e : Char} (he : isWordStart e = false) : c ≠ e := by
        rintro rfl
        rw [hstart] at he
        cases he
      have hspace : isWhitespace c = false := by
        by_contra hspace
        rw [Bool.not_eq_false] at hspace
        have hactive := isActive_of_isWordChar (isWordChar_of_isWordStart hstart)
        rw [isActive_of_isWhitespace hspace] at hactive
        cases hactive
      apply hresult wordLexeme isWord_wordLexeme
      rw [start_of_ne hspace (hne' (by decide)), ← List.cons_append, hopening']
      dsimp only
      rw [if_neg (hne' (by decide)), if_neg (hne' (by decide)), hdigit, if_neg Bool.false_ne_true,
        if_pos hstart]
      apply length_word_append hlength hw hne hv

/-- A text that ends in a word shows a longer word with word characters behind it. -/
theorem Shows.append_word (h : Shows w u (lexemes ++ [l'])) (hto : LexesTo w u ls l.plain)
    (hl : l.isWord) (hw : w'.all isWordChar) (hne : w' ≠ []) (hhead : w'.head? ≠ some 'r')
    (hv : startsWith isWordChar v = false) :
  ∃ longer : Lexeme, longer.isWord ∧ longer.text.toList = l.text.toList ++ w' ∧
    Shows (w ++ w') v (lexemes ++ [longer])
  := by
  obtain ⟨ps', htext, hcuts', -, hshown⟩ := h
  obtain ⟨ps, p, rfl, hcuts, hclean, -, hlast⟩ := hto
  have hplain : ps'.map Piece.plain = (ps ++ [p]).map Piece.plain := by
    have hpieces := hcuts.pieces_append
    rw [← htext, hcuts'.pieces_append] at hpieces
    apply List.append_cancel_right hpieces
  rw [shownIn_of_plain hplain] at hshown
  obtain ⟨hps, hp⟩ := cuts_append.mp hcuts
  obtain _ | ⟨hstarts, -⟩ := hp
  have hspelled : l.plain.isSpelled := by
    rw [Lexeme.isSpelled, Lexeme.isWord_plain, hl, Bool.true_or]
  obtain ⟨-, c, r, hr, hspace, hmark⟩ := hstarts.of_isSpelled (v := []) hlast hspelled rfl
  have htext' : p.text = l.text.toList := by
    rw [← Lexeme.text_plain, ← hstarts.text_eq hlast, String.toList_ofList]
  have hstands : l.Stands u := by
    obtain ⟨c, r, hr, hscan⟩ := hstarts
    rw [textOf_nil, List.nil_append, hlast] at hscan
    exact ⟨c, r, htext' ▸ hr, hscan⟩
  obtain ⟨longer, hword, hlonger, hstands'⟩ := hstands.append_word hl hw hne hhead hv
  use longer, hword, hlonger
  have htexts : textOf [⟨longer.text.toList, .lexeme longer⟩] = c :: r ++ w' := by
    rw [textOf_cons, textOf_nil, List.append_nil, hlonger, ← htext', hr]
  use ps ++ [⟨longer.text.toList, .lexeme longer⟩]
  constructor
  · rw [textOf_append, htexts, textOf_append, textOf_cons, textOf_nil, hr]
    simp
  constructor
  · rw [cuts_append]
    refine ⟨hps.of_alike hclean ?_, .cons hstands' .nil⟩
    rw [htexts, textOf_cons, textOf_nil, List.append_nil, hr, List.append_assoc]
    have hother {d : Char} (hd : isWhitespace d || isMarkChar d) : c ≠ d := by
      rintro rfl
      simp [hspace, hmark] at hd
    apply alike_cons
    · simp [hother (by decide : isWhitespace '.' || isMarkChar '.'),
        hother (by decide : isWhitespace '#' || isMarkChar '#'),
        hother (by decide : isWhitespace '\r' || isMarkChar '\r')]
    · simp [hother (by decide : isWhitespace '+' || isMarkChar '+'),
        hother (by decide : isWhitespace '-' || isMarkChar '-')]
  constructor
  · intro q hq
    rcases List.mem_append.mp hq with hq | hq
    · apply hclean q hq
    · rw [List.mem_singleton.mp hq]
      rfl
  · obtain ⟨lp, hlp, -⟩ := Reading.exists_of_plain hlast
    rw [shownIn_append, shownIn_cons hlp] at hshown
    rw [shownIn_append, shownIn_cons rfl, Lexeme.pairedIf_of_not (Lexeme.isPunct_of_isWord hword)]
    obtain ⟨hinit, -⟩ := List.append_inj' hshown rfl
    rw [← hinit]
    congr 1
    · apply shownIn_congr
      rw [htexts, textOf_cons, hr]
      rfl
    · cases longer <;> first | rfl | cases hword

theorem start_where (w : List Char) :
  start 'w' (['h', 'e', 'r', 'e'] ++ w) =
    ofLexeme wordLexeme (runLength isWordChar w + 5) (['w', 'h', 'e', 'r', 'e'] ++ w)
  := by
  have hspace : isWhitespace 'w' = false := by decide
  have hdigit : isDigit 'w' = false := by decide
  have hstart : isWordStart 'w' = true := by decide
  have hrun : runLength isWordChar (['w', 'h', 'e', 'r', 'e'] ++ w) = runLength isWordChar w + 5 := by
    rw [runLength_of_all (by decide), Nat.add_comm]
    rfl
  rw [start_of_ne hspace (by decide), opening?_eq_none (by decide) (by decide) (by decide)]
  dsimp only
  rw [if_neg (by decide), if_neg (by decide), hdigit, if_neg Bool.false_ne_true, if_pos hstart]
  change word (['w', 'h', 'e', 'r', 'e'] ++ w) = _
  have hmark : rawMarkLength (['w', 'h', 'e', 'r', 'e'] ++ w) = 0 := rfl
  rw [word, hmark, List.drop_zero, Nat.zero_add, hrun]

/-- A text that starts with the letters of the keyword of a where clause and shows it first shows
the rest of it behind them. -/
theorem Shows.of_where
    (h : Shows (['w', 'h', 'e', 'r', 'e'] ++ w) u (.keyword "where" :: lexemes)) :
  startsWith isWordChar (w ++ u) = false ∧ Shows w u lexemes
  := by
  obtain ⟨_ | ⟨p, ps⟩, htext, hcuts, hclean, hshown⟩ := h
  · cases htext
  obtain _ | ⟨⟨c, r, hr, hscan⟩, hps⟩ := hcuts
  rw [textOf_cons, hr] at htext
  obtain ⟨rfl, hrest⟩ := List.cons_eq_cons.mp htext
  change r ++ textOf ps = ['h', 'e', 'r', 'e'] ++ w at hrest
  rw [← List.append_assoc, hrest, List.append_assoc, start_where] at hscan
  obtain ⟨hreading, hlength⟩ := Scan.mk.inj hscan
  obtain ⟨l, hl, hplain⟩ := Reading.exists_of_plain hreading.symm
  rw [shownIn_cons hl] at hshown
  obtain ⟨hfirst, rfl⟩ := List.cons_eq_cons.mp hshown
  have hlexeme : (start 'w' (['h', 'e', 'r', 'e'] ++ (w ++ u))).reading =
      .lexeme (wordLexeme (leading (runLength isWordChar (w ++ u) + 5)
        (['w', 'h', 'e', 'r', 'e'] ++ (w ++ u)))) := by
    rw [start_where]
    rfl
  have htake := length_text_of_start hlexeme
  have hfive : (Lexeme.keyword "where").plain.text.toList.length = 5 := by decide
  rw [start_where, ← Lexeme.text_plain, ← hplain, ← Lexeme.plain_pairedIf, hfirst, hfive] at htake
  have hzero : runLength isWordChar (w ++ u) = 0 := (Nat.add_right_cancel (m := 5) htake.symm :)
  constructor
  · by_contra hword
    rw [Bool.not_eq_false] at hword
    apply (runLength_pos hword).ne' hzero
  · have hr' : r = ['h', 'e', 'r', 'e'] := by
      apply (List.append_inj hrest _).1
      change r.length = 4
      have hlength' : runLength isWordChar (w ++ u) + 5 = r.length + 1 := hlength
      omega
    rw [hr'] at hrest
    exact ⟨ps, List.append_cancel_left hrest, hps, fun q hq => hclean q (List.mem_cons_of_mem _ hq), rfl⟩

end Words

section Trees

variable {file : String} {source v w : List Char} {before after : List Token}
  {trees : List TokenTree} {tree : TokenTree} {m n : Nat}

/-- The text of a run of trees that ends in a word shows a longer word with word characters behind
it. -/
theorem exists_longer (h : tokensOf file source = .ok (before ++ (tokensAll trees ++ after)))
    (hs : Spans trees m n) (hlast : trees.getLast? = some tree) (hl : (lastLexeme tree).isWord)
    (hw : w.all isWordChar) (hne : w ≠ []) (hhead : w.head? ≠ some 'r')
    (hv : startsWith isWordChar v = false) :
  ∃ lexemes longer, shownAll trees = lexemes ++ [lastLexeme tree] ∧ longer.isWord ∧
    longer.text.toList = (lastLexeme tree).text.toList ++ w ∧
    Shows (slice source m n ++ w) v (lexemes ++ [longer])
  := by
  obtain ⟨first, mid, last, hhead', htokens, rfl, rfl, hlexeme⟩ := hs.exists_tokens hlast
  rw [htokens, List.append_assoc, List.singleton_append] at h
  obtain ⟨hseam, hle⟩ := seam_of_head? h hhead'
  rw [← hlexeme] at hl ⊢
  have hlast' : last.lexeme.isWord := by rwa [Lexeme.isWord_plain] at hl
  have hcolon : ∀ l ∈ some last.lexeme, l.isPunct ':' = false := by
    rintro _ ⟨⟩
    apply Lexeme.isPunct_of_isWord hlast'
  obtain ⟨b, hshows⟩ := hseam.shows_to h hle
  rw [pairedBefore_of_not hcolon] at hshows
  obtain ⟨longer, hword, htext, hlonger⟩ :=
    hshows.append_word (hseam.lexesTo h hle) hlast' hw hne hhead hv
  refine ⟨_, longer, ?_, hword, ?_, hlonger⟩
  · rw [shownAll, htokens, List.map_append, pairedBefore_append, List.map_singleton,
      pairedBefore_singleton, Option.any_none, Bool.and_false, Lexeme.pairedIf_false]
    congr 1
    apply pairedBefore_of_not hcolon
  · rw [Lexeme.text_plain]
    exact htext

end Trees

end ReturnCaptures
