import ReturnCaptures.Proofs.Crossing
import ReturnCaptures.Proofs.TreeTokens

/-!
# Stretches of a text between its tokens

The pieces of a text lie one after the other, and its tokens are the pieces that carry
lexemes. A stretch of the text from the start or the end of one token to the end of another
therefore lexes, in front of what follows it, to the tokens in between.
-/

namespace ReturnCaptures

open Scan TokenTree

section Slice

variable {u v w : List Char} {m n : Nat}

theorem slice_append_of_length (hm : u.length = m) (hn : (u ++ v).length = n) :
  slice (u ++ (v ++ w)) m n = v
  := by
  subst hm hn
  rw [slice, List.drop_left, List.length_append, Nat.add_sub_cancel_left, List.take_left]

/-- Two stretches of which one follows the other are one. -/
theorem slice_append_slice {k : Nat} (hmn : m ≤ n) (hnk : n ≤ k) :
  slice u m n ++ slice u n k = slice u m k
  := by
  have hk : k - m = (n - m) + (k - n) := by omega
  have hn : n = m + (n - m) := by omega
  rw [slice, slice, slice, hk, List.take_add, List.drop_drop, ← hn]

theorem slice_append_drop (hmn : m ≤ n) :
  slice u m n ++ u.drop n = u.drop m
  := by
  have hn : n = m + (n - m) := by omega
  rw [slice]
  nth_rewrite 2 [hn]
  rw [← List.drop_drop, List.take_append_drop]

end Slice

/-! ### Delimiters of a text -/

theorem start_of_isDelimiter {c : Char} {w : List Char} (hc : Scan.isDelimiter c) :
  start c w = ⟨.lexeme (.punct c false), 1⟩
  := by
  have hslash : c ≠ '/' := by
    rintro rfl
    cases hc
  rw [start_of_isMarkChar_eq (by rw [isMarkChar, hc, Bool.true_or]) hslash, hc]
  rfl

theorem isDelimiter_of_lexeme {c : Char} {j : Bool} (h : (Lexeme.punct c j).isDelimiter) :
  Scan.isDelimiter c
  := by
  simp only [Lexeme.isDelimiter, Bool.or_eq_true] at h
  rcases h with h | h <;> obtain ⟨d, hd⟩ := Option.isSome_iff_exists.mp h
  · rw [← Delimiter.opening_ofOpening? hd]
    cases d <;> rfl
  · rw [← Delimiter.closing_ofClosing? hd]
    cases d <;> rfl

/-- No delimiter is joint. -/
theorem isJoint_of_isDelimiter {c : Char} {w : List Char} {l : Lexeme}
    (h : (start c w).reading = .lexeme l) (hl : l.isDelimiter) :
  l.isJoint = false
  := by
  cases l with
  | punct d j =>
      have hplain : (start c w).reading.plain = .lexeme (.punct d false) := by
        rw [h]
        rfl
      obtain ⟨rfl, _⟩ := first_of_punct hplain
      rw [start_of_isDelimiter (isDelimiter_of_lexeme hl)] at h
      cases h
      rfl
  | _ => rfl

theorem exists_start_of_mem {p : Piece} {n : Nat} {w : List Char} (h : p ∈ piecesFrom n w) :
  ∃ c r, p.reading = (start c r).reading
  := by
  induction w generalizing n with
  | nil => cases h
  | cons c w ih =>
      cases n with
      | succ n => apply ih h
      | zero =>
          rcases List.mem_cons.mp h with rfl | h
          · use c, w
          · apply ih h

theorem exists_lexeme_of_mem {file : String} {p : Position} {ps : List Piece} {t : Token}
    (h : t ∈ tokensAt file p ps) :
  ∃ q ∈ ps, q.reading = .lexeme t.lexeme
  := by
  obtain ⟨before, after, hsplit⟩ := List.append_of_mem h
  obtain ⟨qs, q, rs, rfl, _, hq, _⟩ := exists_piece hsplit
  use q
  simp [hq]

/-- No delimiter of a text is joint. -/
theorem isJoint_of_tokensOf {file : String} {source : List Char} {tokens : List Token}
    (h : tokensOf file source = .ok tokens) :
  ∀ t ∈ tokens, t.lexeme.isDelimiter → t.lexeme.isJoint = false
  := by
  intro t ht hdelimiter
  obtain ⟨_, rfl⟩ := tokensOf_eq_ok.mp h
  obtain ⟨q, hq, hreading⟩ := exists_lexeme_of_mem ht
  obtain ⟨c, r, hstart⟩ := exists_start_of_mem hq
  apply isJoint_of_isDelimiter (hstart.symm.trans hreading) hdelimiter

/-- The tokens of a text are those of its trees. -/
theorem tokensOf_of_ofText {file : String} {source : List Char} {trees : List TokenTree}
    (h : TokenTree.ofText file source = .ok trees) :
  tokensOf file source = .ok (tokensAll trees) ∧ areProper trees
  := by
  obtain ⟨tokens, htokens, h⟩ := Outcome.bind_eq_ok.mp h
  have hread : read [] [] tokens = .ok trees := by
    rw [ofTokens] at h
    cases hread : read [] [] tokens with
    | error d =>
        rw [hread] at h
        cases h
    | ok v =>
        rw [hread] at h
        cases h
        rfl
  constructor
  · rw [htokens, tokensAll_eq_of_read hread (isJoint_of_tokensOf htokens)]
  · apply areProper_of_read hread rfl
    simp

/-! ### Offsets between pieces -/

/-- An offset of a text between two of its pieces; the tokens in front of it are `before`. -/
def Seam (file : String) (source : List Char) (before : List Token) (offset : Nat) : Prop :=
  ∃ ps qs, pieces source = ps ++ qs ∧ (textOf ps).length = offset ∧
    tokensAt file .origin ps = before

section Seam

variable {file : String} {source u : List Char} {before mid after tokens : List Token}
  {s t : Token} {m n : Nat}

theorem textOf_pieces (source : List Char) :
  textOf (pieces source) = source
  := flatMap_text_pieces source

theorem lengths_of_span {ps : List Piece} {q : Piece}
    (h : t.span = .between file (Position.origin.after (textOf ps))
      (Position.origin.after (textOf (ps ++ [q])))) :
  (textOf ps).length = t.span.start ∧ (textOf (ps ++ [q])).length = t.span.stop
  := by
  rw [h]
  simp only [Span.between, Position.origin, Position.offset_after, Nat.zero_add, true_and]

/-- A token starts and ends between two pieces. -/
theorem seams_of_token (h : tokensOf file source = .ok (before ++ t :: after)) :
  Seam file source before t.span.start ∧ Seam file source (before ++ [t]) t.span.stop ∧
    t.span.start ≤ t.span.stop
  := by
  obtain ⟨_, htokens⟩ := tokensOf_eq_ok.mp h
  obtain ⟨ps, q, qs, hpieces, hps, hreading, hspan, _⟩ := exists_piece htokens
  obtain ⟨hstart, hstop⟩ := lengths_of_span hspan
  constructor
  · use ps, q :: qs
  constructor
  · use ps ++ [q], qs
    rw [List.append_assoc, List.singleton_append]
    use hpieces, hstop
    have htoken : tokensAt file (Position.origin.after (textOf ps)) [q] = [t] := by
      obtain ⟨l, span⟩ := t
      simp only [textOf_append, textOf_cons, textOf_nil, List.append_nil,
        Position.after_append] at hspan
      rw [tokensAt_cons, PlacedPiece.token?, hreading, hspan]
      rfl
    rw [tokensAt_append, hps, htoken]
  · rw [← hstart, ← hstop, textOf_append, List.length_append]
    apply Nat.le_add_right

theorem text_ne_nil {ps : List Piece} (h : Cuts ps u) :
  ∀ p ∈ ps, p.text ≠ []
  := by
  induction h with
  | nil => simp
  | @cons p ps u hp _ ih =>
      rw [List.forall_mem_cons]
      obtain ⟨c, r, hr, _⟩ := hp
      constructor
      · simp [hr]
      · apply ih

/-- Of two starts of the pieces of a text, the longer one goes on the shorter one. -/
theorem exists_append_of_length {ps ps' qs qs' : List Piece} (h : pieces source = ps ++ qs)
    (h' : pieces source = ps' ++ qs') (hle : (textOf ps).length ≤ (textOf ps').length) :
  ∃ rs, ps' = ps ++ rs
  := by
  rcases List.prefix_or_prefix_of_prefix ⟨qs, h.symm⟩ ⟨qs', h'.symm⟩ with ⟨rs, hrs⟩ | ⟨rs, rfl⟩
  · use rs, hrs.symm
  · rw [textOf_append, List.length_append] at hle
    obtain rfl : rs = [] := by
      cases rs with
      | nil => rfl
      | cons p rs =>
          have hp : p.text ≠ [] := by
            apply text_ne_nil (cuts_pieces source)
            simp [h]
          have hpos := List.length_pos_iff.mpr hp
          rw [textOf_cons, List.length_append] at hle
          omega
    use []
    simp

/-- The pieces of a text are a start, some pieces in the middle and the rest, by the lengths
of their texts. -/
theorem slice_of_pieces {ps qs rs : List Piece} (hpieces : pieces source = ps ++ (qs ++ rs))
    (hm : (textOf ps).length = m) (hn : (textOf (ps ++ qs)).length = n) :
  slice source m n = textOf qs ∧ Cuts qs (source.drop n)
  := by
  have hsource : source = textOf ps ++ (textOf qs ++ textOf rs) := by
    rw [← textOf_append, ← textOf_append, ← hpieces, textOf_pieces]
  have hdrop : source.drop n = textOf rs := by
    rw [hsource, ← List.append_assoc, ← textOf_append, ← hn, List.drop_left]
  constructor
  · rw [hsource]
    apply slice_append_of_length hm
    rw [← textOf_append, hn]
  · have hcuts := cuts_pieces source
    rw [hpieces] at hcuts
    rw [hdrop, ← List.append_nil (textOf rs)]
    apply (cuts_append.mp (cuts_append.mp hcuts).2).1

/-- What follows some pieces of a text is the text of the other pieces. -/
theorem drop_of_pieces {ps qs : List Piece} (hpieces : pieces source = ps ++ qs) :
  source.drop (textOf ps).length = textOf qs ∧ Cuts qs []
  := by
  constructor
  · rw [← textOf_pieces source, hpieces, textOf_append, List.drop_left]
  · have hcuts := cuts_pieces source
    rw [hpieces] at hcuts
    apply (cuts_append.mp hcuts).2

/-- The more tokens stand in front of an offset, the larger it is. -/
theorem Seam.le (h : Seam file source before m) (h' : Seam file source tokens n)
    (hlt : before.length < tokens.length) :
  m ≤ n
  := by
  obtain ⟨ps, qs, hpieces, rfl, rfl⟩ := h
  obtain ⟨ps', qs', hpieces', rfl, rfl⟩ := h'
  by_contra hle
  obtain ⟨rs, rfl⟩ := exists_append_of_length hpieces' hpieces (by omega)
  rw [tokensAt_append, List.length_append] at hlt
  omega

/-- Pieces without a token, between two tokens that follow each other. -/
theorem exists_between (h : tokensOf file source = .ok (before ++ s :: t :: after)) :
  ∃ ps p qs q rs, pieces source = (ps ++ p :: qs) ++ q :: rs ∧ tokensAt file .origin ps = before ∧
    tokensAt file (Position.origin.after (textOf (ps ++ [p]))) qs = [] ∧
    (textOf (ps ++ [p])).length = s.span.stop ∧
    (textOf (ps ++ p :: qs)).length = t.span.start
  := by
  obtain ⟨_, htokens⟩ := tokensOf_eq_ok.mp h
  obtain ⟨ps, p, rs, hpieces, hps, _, hs, hrs⟩ := exists_piece htokens
  rw [← List.nil_append (t :: after)] at hrs
  obtain ⟨qs, q, rs, rfl, hqs, _, ht, _⟩ := exists_piece hrs
  use ps, p, qs, q, rs
  rw [hpieces]
  use by simp, hps, hqs, (lengths_of_span hs).2
  have hsplit : ps ++ p :: qs = (ps ++ [p]) ++ qs := by simp
  rw [← Position.after_append, ← textOf_append, ← Position.after_append, ← textOf_append,
    ← List.append_assoc, ← hsplit] at ht
  apply (lengths_of_span ht).1

/-- Trivia starts with nothing that could go on a lexeme. -/
theorem Piece.Starts.of_trivia {p : Piece} {u v : List Char} (h : p.Starts u)
    (hp : p.reading = .trivia) :
  startsWith isActive (p.text ++ v) = false
  := by
  obtain ⟨c, r, hr, hscan⟩ := h
  obtain ⟨hreading, _⟩ := Scan.mk.inj hscan
  rw [hp] at hreading
  rw [hr]
  rcases first_of_trivia (Reading.eq_trivia_of_plain hreading) with hspace | rfl
  · apply isActive_of_isWhitespace hspace
  · exact (by decide : isActive '/' = false)

/-- The first of pieces that carry no tokens is trivia. -/
theorem reading_of_no_tokens {at' : Position} {r : Piece} {qs : List Piece} (hr : r.isClean)
    (h : tokensAt file at' (r :: qs) = []) :
  r.reading = .trivia
  := by
  rw [tokensAt_cons, List.append_eq_nil_iff, PlacedPiece.token?] at h
  rw [Piece.isClean] at hr
  cases hreading : r.reading with
  | trivia => rfl
  | lexeme l =>
      rw [hreading] at h
      cases h.1
  | fault cause =>
      rw [hreading] at hr
      cases hr

/-- What follows a token directly in a text and could go on a lexeme is the next token. -/
theorem stop_eq_start (h : tokensOf file source = .ok (before ++ s :: t :: after))
    (hactive : startsWith isActive (source.drop s.span.stop)) :
  s.span.stop = t.span.start
  := by
  obtain ⟨hclean, _⟩ := tokensOf_eq_ok.mp h
  obtain ⟨ps, p, qs, q, rs, hpieces, _, hqs, hs, ht⟩ := exists_between h
  cases qs with
  | nil => rw [← hs, ← ht]
  | cons r qs =>
      have hpieces' : pieces source = (ps ++ [p]) ++ (r :: (qs ++ q :: rs)) := by simp [hpieces]
      obtain ⟨hdrop, hcuts⟩ := drop_of_pieces hpieces'
      obtain _ | ⟨hstarts, _⟩ := hcuts
      have htrivia := reading_of_no_tokens (hclean r (by simp [hpieces'])) hqs
      rw [← hs, hdrop, textOf_cons, hstarts.of_trivia htrivia] at hactive
      cases hactive

/-- A token is spelled by the text from where it starts. -/
theorem drop_start (h : tokensOf file source = .ok (before ++ t :: after)) :
  source.drop t.span.start = t.text.toList ++ source.drop t.span.stop
  := by
  obtain ⟨_, htokens⟩ := tokensOf_eq_ok.mp h
  obtain ⟨ps, q, qs, hpieces, _, hreading, hspan, _⟩ := exists_piece htokens
  obtain ⟨hstart, hstop⟩ := lengths_of_span hspan
  have hpieces' : pieces source = (ps ++ [q]) ++ qs := by simp [hpieces]
  obtain ⟨hdrop, hcuts⟩ := drop_of_pieces hpieces
  obtain ⟨hdrop', _⟩ := drop_of_pieces hpieces'
  obtain _ | ⟨hstarts, _⟩ := hcuts
  have htext : String.ofList q.text = t.text := by
    rw [hstarts.text_eq (l := t.lexeme.plain) (by rw [hreading]; rfl), Lexeme.text_plain]
    rfl
  rw [← hstart, ← hstop, hdrop, hdrop', textOf_cons, ← htext, String.toList_ofList]

theorem Token.toList_text_punct (c : Char) (j : Bool) (span : Span) :
  (Token.mk (.punct c j) span).text.toList = [c]
  := String.toList_singleton c

theorem drop_punct {c : Char} {j : Bool} {span : Span}
    (h : tokensOf file source = .ok (before ++ ⟨.punct c j, span⟩ :: after)) :
  source.drop span.start = c :: source.drop span.stop
  := by
  have hdrop := drop_start h
  rwa [Token.toList_text_punct] at hdrop

/-! ### Stretches that end in a token -/

/-- A text with another one behind it lexes to the given lexemes and ends in the last of
them. -/
def LexesTo (w u : List Char) (lexemes : List Lexeme) (l : Lexeme) : Prop :=
  ∃ ps p, textOf (ps ++ [p]) = w ∧ Cuts (ps ++ [p]) u ∧ (∀ p ∈ ps, p.isClean) ∧
    ps.filterMap Piece.lexeme? = lexemes ∧ p.reading.plain = .lexeme l

/-- Pieces of which the last one is a lexeme lex to the lexemes of all. -/
theorem lexes_of_cuts {ps : List Piece} {p : Piece} {v : List Char} {l : Lexeme}
    (h : Cuts (ps ++ [p]) v) (hps : ∀ p ∈ ps, p.isClean) (hl : p.reading.plain = .lexeme l) :
  Lexes (textOf (ps ++ [p])) v (ps.filterMap Piece.lexeme? ++ [l])
  := by
  use ps ++ [p], rfl, h
  constructor
  · intro q hq
    rcases List.mem_append.mp hq with hq | hq
    · apply hps q hq
    · obtain rfl := List.mem_singleton.mp hq
      apply Piece.isClean_of_lexeme hl
  · obtain ⟨l', hreading, rfl⟩ := Reading.exists_of_plain hl
    simp [Piece.lexeme?, hreading]

/-- The text from an offset up to the end of a later token ends in that token. -/
theorem Seam.lexesTo (htokens : tokensOf file source = .ok (before ++ (mid ++ t :: after)))
    (h : Seam file source before m) (hm : m ≤ t.span.start) :
  LexesTo (slice source m t.span.stop) (source.drop t.span.stop) (mid.map (·.lexeme.plain))
    t.lexeme.plain
  := by
  obtain ⟨hclean, htoks⟩ := tokensOf_eq_ok.mp htokens
  rw [← List.append_assoc] at htoks
  obtain ⟨ps, q, rs, hpieces, hps, hreading, hspan, _⟩ := exists_piece htoks
  obtain ⟨ps₀, qs₀, hpieces₀, rfl, hps₀⟩ := h
  obtain ⟨hstart, hstop⟩ := lengths_of_span hspan
  rw [← hstart] at hm
  obtain ⟨qs, rfl⟩ := exists_append_of_length hpieces₀ hpieces hm
  have hpieces' : pieces source = ps₀ ++ ((qs ++ [q]) ++ rs) := by
    rw [hpieces]
    simp
  rw [List.append_assoc] at hstop
  obtain ⟨hslice, hcuts⟩ := slice_of_pieces hpieces' rfl hstop
  use qs, q, hslice.symm, hcuts
  constructor
  · intro p hp
    apply hclean
    simp [hpieces, hp]
  constructor
  · rw [tokensAt_append, hps₀] at hps
    rw [← map_lexeme_tokensAt file, List.append_cancel_left hps]
  · rw [hreading]
    rfl

/-- The text from the start of one token to the end of the same or a later one. -/
theorem lexesTo_from (htokens : tokensOf file source = .ok (before ++ (mid ++ t :: after)))
    (hs : (mid ++ [t]).head? = some s) :
  LexesTo (slice source s.span.start t.span.stop) (source.drop t.span.stop)
    (mid.map (·.lexeme.plain)) t.lexeme.plain
  := by
  cases mid with
  | nil =>
      obtain rfl : t = s := Option.some.inj hs
      apply (seams_of_token htokens).1.lexesTo htokens (Nat.le_refl _)
  | cons first mid =>
      obtain rfl : first = s := Option.some.inj hs
      have hseam := (seams_of_token htokens).1
      apply hseam.lexesTo htokens
      rw [← List.append_assoc] at htokens
      apply hseam.le (seams_of_token htokens).1
      simp

end Seam

/-! ### Runs of trees -/

section Trees

variable {file : String} {source : List Char} {before after : List Token} {trees : List TokenTree}
  {tree : TokenTree} {m n : Nat}

/-- The token that a tree starts with stands where the tree does. -/
theorem exists_first (tree : TokenTree) :
  ∃ t r, tree.tokens = t :: r ∧ t.span.start = tree.span.start
  := by
  cases tree with
  | token t => exact ⟨t, [], rfl, rfl⟩
  | group d trees opening closing => exact ⟨_, _, rfl, rfl⟩

/-- The lexeme that a tree ends in, no matter whether it is joint. -/
def lastLexeme : TokenTree → Lexeme
  | .token t => t.lexeme.plain
  | .group d _ _ _ => .punct d.closing false

/-- The token that a tree ends in ends where the tree does. -/
theorem exists_last (tree : TokenTree) :
  ∃ r t, tree.tokens = r ++ [t] ∧ t.span.stop = tree.span.stop ∧
    t.lexeme.plain = lastLexeme tree
  := by
  cases tree with
  | token t => exact ⟨[], t, rfl, rfl, rfl⟩
  | group d trees opening closing =>
      rw [TokenTree.tokens, ← List.cons_append]
      exact ⟨_, _, rfl, rfl, rfl⟩

/-- Trees reach from one offset to another. -/
def Spans (trees : List TokenTree) (m n : Nat) : Prop :=
  (trees.head?.map (·.span.start)) = some m ∧ (trees.getLast?.map (·.span.stop)) = some n

theorem Spans.exists_tokens (hs : Spans trees m n) (hlast : trees.getLast? = some tree) :
  ∃ first mid last, (mid ++ [last]).head? = some first ∧ tokensAll trees = mid ++ [last] ∧
    first.span.start = m ∧ last.span.stop = n ∧ last.lexeme.plain = lastLexeme tree
  := by
  obtain ⟨hm, hn⟩ := hs
  obtain ⟨init, rfl⟩ := List.getLast?_eq_some_iff.mp hlast
  obtain ⟨r, last, hr, hstop, hlexeme⟩ := exists_last tree
  have htokens : tokensAll (init ++ [tree]) = (tokensAll init ++ r) ++ [last] := by
    rw [tokensAll_append, tokensAll_singleton, hr, List.append_assoc]
  rw [List.getLast?_concat, Option.map_some, Option.some.injEq] at hn
  obtain ⟨head, hhead, hstart⟩ := Option.map_eq_some_iff.mp hm
  obtain ⟨rest, hrest⟩ := List.head?_eq_some_iff.mp hhead
  obtain ⟨first, r', hfirst, hstart'⟩ := exists_first head
  use first, tokensAll init ++ r, last
  constructor
  · rw [← htokens, hrest, tokensAll, hfirst]
    rfl
  · use htokens, hstart'.trans hstart, hstop.trans hn

/-- The text of a run of trees lexes to their lexemes and ends in the last of them. -/
theorem lexesTo_run (h : tokensOf file source = .ok (before ++ (tokensAll trees ++ after)))
    (hs : Spans trees m n) (hlast : trees.getLast? = some tree) :
  ∃ lexemes, lexemesAll trees = lexemes ++ [lastLexeme tree] ∧
    LexesTo (slice source m n) (source.drop n) lexemes (lastLexeme tree)
  := by
  obtain ⟨first, mid, last, hhead, htokens, rfl, rfl, hlexeme⟩ := hs.exists_tokens hlast
  rw [htokens, List.append_assoc, List.singleton_append] at h
  use mid.map (·.lexeme.plain)
  constructor
  · rw [lexemesAll, htokens, ← hlexeme, List.map_append]
    rfl
  · rw [← hlexeme]
    apply lexesTo_from h hhead

end Trees

end ReturnCaptures
