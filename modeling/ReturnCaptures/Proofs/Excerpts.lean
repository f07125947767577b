import ReturnCaptures.Proofs.RunEnds

/-!
# Runs cut out of a text

A stretch of a text that starts and ends with a token lexes on its own as it does in the text. There
is one exception: a point at the end that follows a whole number, which is a token only because of
what comes next. A run of trees that does not end in such a point is read again from the stretch that
its span covers.
-/

namespace ReturnCaptures

open Scan TokenTree

/-! ### A text without what follows it -/

section Prefixes

variable {u w : List Char} {p : Piece} {ps : List Piece} {l : Lexeme} {lexemes : List Lexeme}

theorem startsWith_of_initial {q : Char → Bool} (h : startsWith q w) :
  startsWith q (w ++ u)
  := by
  cases w with
  | nil => cases h
  | cons c w => apply h

/-- A text goes on the lexemes in front of it only as it does with more text behind it. The text of
a point alone does so only if the point may be the start of a fraction there as well. -/
theorem milder_of_initial (hw : w ≠ []) (hpoint : w = ['.'] → fractionLength ('.' :: u) ≠ 0) :
  Milder (w ++ u) w
  := by
  obtain ⟨c, w, rfl⟩ := List.exists_cons_of_ne_nil hw
  constructor
  · constructor
    · intro d hd _ _
      apply hd
    · intro _ hdigit
      apply startsWith_of_initial hdigit
    · intro hhashes
      rw [← List.append_nil (c :: w)] at hhashes
      apply hashesBeforeQuote?_append (by simp [hashesBeforeQuote?]) hhashes
    · intro hmark
      by_cases hhash : c = '#'
      · subst hhash
        simp only [List.cons_append, rawMarkLength] at hmark ⊢
        split at hmark
        case isTrue hstart =>
          rw [if_pos (startsWith_of_initial hstart)]
          decide
        case isFalse => apply absurd rfl hmark
      · simp [rawMarkLength, hhash] at hmark
  · intro hd
    apply hd
  · intro hfraction
    by_cases hc : c = '.'
    · subst hc
      cases w with
      | nil => apply hpoint rfl
      | cons d w =>
          simp only [List.cons_append, fractionLength] at hfraction ⊢
          split at hfraction
          case isTrue => apply absurd rfl hfraction
          case isFalse hstart =>
            rw [if_neg (by exact hstart)]
            omega
    · simp [fractionLength, hc] at hfraction

/-- A text ends the line in front of it that it ends with more text behind it, unless it is nothing
but a carriage return. -/
theorem endsLine_of_initial (hw : w ≠ []) (hreturn : w ≠ ['\r']) (h : lineLength (w ++ u) = 0) :
  EndsLine (w ++ u) w
  := by
  obtain ⟨c, w, rfl⟩ := List.exists_cons_of_ne_nil hw
  constructor
  · rw [List.cons_append, lineLength_cons] at h
    split at h
    case isTrue hend =>
      rw [lineLength_cons, if_pos]
      apply hend.imp_right
      rintro ⟨rfl, hfeed⟩
      use rfl
      cases w with
      | nil => apply absurd rfl hreturn
      | cons d w => apply hfeed
    case isFalse => cases h
  · intro hd
    apply hd

/-- Pieces in front of a text are pieces in front of each of its starts, with few exceptions. -/
theorem Cuts.of_initial (h : Cuts ps (w ++ u)) (hps : ∀ p ∈ ps, p.isClean) (hw : w ≠ [])
    (hreturn : w ≠ ['\r']) (hpoint : w = ['.'] → fractionLength ('.' :: u) ≠ 0) :
  Cuts ps w
  := by
  generalize hv : w ++ u = v at h
  induction h with
  | nil => apply Cuts.nil
  | @cons p ps v hstarts hcuts ih =>
      subst hv
      rw [List.forall_mem_cons] at hps
      have hne : textOf ps ++ w ≠ [] := by simp [hw]
      -- A text of one character that ends in `w` is `w`.
      have heq {c : Char} (hc : textOf ps ++ w = [c]) : w = [c] := by
        obtain ⟨d, w, rfl⟩ := List.exists_cons_of_ne_nil hw
        obtain ⟨hnil, hd⟩ | ⟨hd, hnil⟩ := List.append_eq_singleton_iff.mp hc
        · apply hd
        · cases hnil
      rw [← List.append_assoc] at hstarts
      apply Cuts.cons _ (ih hps.2 rfl)
      apply hstarts.of_milder hps.1 (milder_of_initial hne fun hone => hpoint (heq hone))
      · intro _ d hd _
        obtain ⟨r, hr⟩ := List.head?_eq_some_iff.mp hd
        rw [hr]
        rfl
      · intro hline _
        apply endsLine_of_initial hne (fun hone => hreturn (heq hone)) hline

/-- A piece that is a lexeme does not start with a blank. -/
theorem Piece.Starts.ne_blank {c : Char} (h : p.Starts u) (hl : p.reading.plain = .lexeme l)
    (hc : isWhitespace c) (w : List Char) :
  p.text ≠ c :: w
  := by
  obtain ⟨d, r, hr, hscan⟩ := h
  intro htext
  obtain ⟨rfl, _⟩ := List.cons_eq_cons.mp (htext.symm.trans hr)
  obtain ⟨hreading, _⟩ := Scan.mk.inj hscan
  rw [start, if_pos hc, hl] at hreading
  cases hreading

/-- A text that ends in a lexeme lexes on its own as it does with more text behind it, unless it ends
in a point that may be the start of a fraction only on its own. -/
theorem LexesTo.lexes_nil (h : LexesTo w u lexemes l)
    (hpoint : l = .punct '.' false → fractionLength ('.' :: u) ≠ 0) :
  Lexes w [] (lexemes ++ [l])
  := by
  obtain ⟨ps, p, rfl, hcuts, hclean, rfl, hl⟩ := h
  obtain ⟨hfront, hlast⟩ := cuts_append.mp hcuts
  obtain _ | ⟨hstarts, _⟩ := hlast
  have htext : textOf [p] = p.text := by simp
  rw [htext] at hfront
  rw [textOf_nil, List.nil_append] at hstarts
  have hends : p.Starts [] := by
    apply hstarts.of_milder (Piece.isClean_of_lexeme hl) (milder_of_startsWith rfl)
    · simp
    · intro _ _
      use rfl
      simp
  have hne : p.text ≠ [] := by
    obtain ⟨c, r, hr, _⟩ := hstarts
    rw [hr]
    apply List.cons_ne_nil
  have hpoint' (hone : p.text = ['.']) : fractionLength ('.' :: u) ≠ 0 := by
    apply hpoint
    obtain ⟨c, r, hr, hscan⟩ := hstarts
    obtain ⟨rfl, rfl⟩ := List.cons_eq_cons.mp (hr.symm.trans hone)
    rw [List.nil_append, start_of_isMarkChar (by decide) (by decide), hl] at hscan
    cases hscan
    rfl
  apply lexes_of_cuts _ hclean hl
  apply cuts_append.mpr
  constructor
  · rw [htext, List.append_nil]
    apply hfront.of_initial hclean hne (hstarts.ne_blank hl (by decide) []) hpoint'
  · apply Cuts.cons hends .nil

end Prefixes

/-! ### What follows a token -/

/-- Whether a lexeme is punctuation, and no point. -/
def Lexeme.isPlainMark : Lexeme → Bool
  | .punct c _ => c != '.'
  | _ => false

section Following

variable {file : String} {source : List Char} {before after tokens : List Token} {s t : Token}

/-- The punctuation of a text is a mark. -/
theorem isMarkChar_of_mem {c : Char} {j : Bool} (h : tokensOf file source = .ok tokens)
    (ht : t ∈ tokens) (hl : t.lexeme = .punct c j) :
  isMarkChar c
  := by
  obtain ⟨_, rfl⟩ := tokensOf_eq_ok.mp h
  obtain ⟨q, hq, hreading⟩ := exists_lexeme_of_mem ht
  obtain ⟨d, r, hstart⟩ := exists_start_of_mem hq
  have hplain : (start d r).reading.plain = .lexeme (.punct c false) := by
    rw [← hstart, hreading, hl]
    rfl
  obtain ⟨rfl, hmark⟩ := first_of_punct hplain
  apply hmark

/-- What follows the last token of a text goes on no lexeme. -/
theorem startsWith_drop_last (h : tokensOf file source = .ok (before ++ [s])) :
  startsWith isActive (source.drop s.span.stop) = false
  := by
  obtain ⟨hclean, htokens⟩ := tokensOf_eq_ok.mp h
  obtain ⟨ps, q, rs, hpieces, _, _, hspan, hrs⟩ := exists_piece htokens
  obtain ⟨_, hstop⟩ := lengths_of_span hspan
  have hpieces' : pieces source = (ps ++ [q]) ++ rs := by simp [hpieces]
  obtain ⟨hdrop, hcuts⟩ := drop_of_pieces hpieces'
  rw [← hstop, hdrop]
  cases rs with
  | nil => rfl
  | cons r rs =>
      obtain _ | ⟨hstarts, _⟩ := hcuts
      apply hstarts.of_trivia
      apply reading_of_no_tokens (hclean r (by simp [hpieces])) hrs

/-- Behind a point that is followed by punctuation other than a point, or by no token, a number
would go on. -/
theorem fractionLength_of_next (h : tokensOf file source = .ok (before ++ s :: after))
    (hnext : ∀ t ∈ after.head?, t.lexeme.isPlainMark) :
  fractionLength ('.' :: source.drop s.span.stop) ≠ 0
  := by
  have hplain : startsWith (fun c => c == '.' || isWordStart c) (source.drop s.span.stop) = false := by
    rw [Bool.eq_false_iff]
    intro hstarts
    have hactive : startsWith isActive (source.drop s.span.stop) := by
      cases hdrop : source.drop s.span.stop with
      | nil =>
          rw [hdrop] at hstarts
          cases hstarts
      | cons c r =>
          rw [hdrop] at hstarts
          rcases Bool.or_eq_true_iff.mp hstarts with hc | hc
          · rw [eq_of_beq hc]
            rfl
          · apply isActive_of_isWordChar (isWordChar_of_isWordStart hc)
    cases after with
    | nil =>
        rw [startsWith_drop_last h] at hactive
        cases hactive
    | cons t after =>
        obtain ⟨l, span⟩ := t
        have hmark : l.isPlainMark := hnext _ rfl
        cases l with
        | punct c j =>
            have hc := isMarkChar_of_mem h (t := ⟨.punct c j, span⟩) (by simp) rfl
            rw [stop_eq_start h hactive] at hstarts
            rw [← List.singleton_append, ← List.append_assoc] at h
            rw [drop_punct h] at hstarts
            have hall : marks.all fun c => !isWordStart c := by decide
            have hword := List.all_eq_true.mp hall c (mem_marks hc)
            rcases Bool.or_eq_true_iff.mp hstarts with hpoint | hstart
            · rw [Lexeme.isPlainMark, bne, hpoint] at hmark
              cases hmark
            · rw [hstart] at hword
              cases hword
        | _ => cases hmark
  rw [fractionLength, hplain]
  simp

end Following

/-! ### Runs among the trees of a text -/

namespace TokenTree

variable {u r trees : List TokenTree}

/-- The trees `u` stand in front of `r`, somewhere among the given trees or inside one of them. -/
inductive StandsBefore (u r : List TokenTree) : List TokenTree → Prop
  | beside (v : List TokenTree) : StandsBefore u r (v ++ (u ++ r))
  | inside {v w inside : List TokenTree} {d : Delimiter} {opening closing : Span} :
      StandsBefore u r inside → StandsBefore u r (v ++ .group d inside opening closing :: w)

theorem StandsBefore.of_isSuffix (h : u ++ r <:+ trees) :
  StandsBefore u r trees
  := by
  obtain ⟨v, rfl⟩ := h
  apply StandsBefore.beside

theorem StandsBefore.areProper (h : StandsBefore u r trees) (htrees : areProper trees) :
  areProper u
  := by
  induction h with
  | beside v => exact (areProper_append.mp (areProper_append.mp htrees).2).1
  | inside _ ih =>
      obtain ⟨_, hgroup⟩ := areProper_append.mp htrees
      rw [TokenTree.areProper, isProper, Bool.and_eq_true] at hgroup
      apply ih hgroup.1

/-- The tokens of trees that stand in front of others stand in front of those of the others, and
these in front of nothing or of a closing delimiter. -/
theorem StandsBefore.exists_tokens (h : StandsBefore u r trees) :
  ∃ before after, tokensAll trees = before ++ (tokensAll u ++ (tokensAll r ++ after)) ∧
    ∀ t ∈ after.head?, t.lexeme.isPlainMark
  := by
  induction h with
  | beside v =>
      use tokensAll v, []
      simp [tokensAll_append]
  | @inside v w inside d opening closing _ ih =>
      obtain ⟨before, after, hinside, hafter⟩ := ih
      use tokensAll v ++ ⟨.punct d.opening false, opening⟩ :: before,
        after ++ ⟨.punct d.closing false, closing⟩ :: tokensAll w
      constructor
      · simp [tokensAll_append, tokensAll, tokens, hinside]
      · cases after with
        | nil =>
            rintro t ⟨⟩
            cases d <;> rfl
        | cons first after => apply hafter

/-- Whether no tree comes next, or a group or punctuation other than a point does. -/
def atPlainMark : List TokenTree → Bool
  | .token t :: _ => t.lexeme.isPlainMark
  | _ => true

/-- The first token of trees at such a place. -/
theorem isPlainMark_of_atPlainMark {after : List Token} (h : atPlainMark r)
    (hafter : ∀ t ∈ after.head?, t.lexeme.isPlainMark) :
  ∀ t ∈ (tokensAll r ++ after).head?, t.lexeme.isPlainMark
  := by
  obtain _ | ⟨t | d, r⟩ := r
  · apply hafter
  · rintro _ ⟨⟩
    apply h
  · rintro _ ⟨⟩
    cases d <;> rfl

/-- A tree whose last lexeme is a point is a point. -/
theorem atPunct_of_lastLexeme {tree : TokenTree} {c : Char}
    (h : lastLexeme tree = .punct c false) (hc : c = '.') :
  atPunct c [tree]
  := by
  subst hc
  cases tree with
  | token t =>
      obtain ⟨j, hj⟩ := exists_joint_of_plain h
      rw [atPunct, atLexeme, hj]
      rfl
  | group d => cases d <;> cases h

/-- The trees `u` in front of `r` do not end in a point behind which a number would go on only if
nothing followed. -/
def Severed (u r : List TokenTree) : Prop :=
  (∀ tree ∈ u.getLast?, atPunct '.' [tree] = false) ∨ atPlainMark r

end TokenTree

/-- A run that can be cut out of the trees it stands among, along its span. -/
structure Run.IsExcerpt (run : Run) (trees : List TokenTree) : Prop where
  spans : Spans run.trees run.span.start run.span.stop
  severed : ∃ r, StandsBefore run.trees r trees ∧ Severed run.trees r

/-- A run that can be cut out of the trees of a text is read again from the text that its span
covers. -/
theorem Run.IsExcerpt.exists_ofText {file : String} {text : List Char} {trees : List TokenTree}
    {run : Run} (h : run.IsExcerpt trees) (htext : TokenTree.ofText file text = .ok trees) :
  ∃ v, TokenTree.ofText file (run.span.textIn text) = .ok v ∧ flatAll v = run.flat
  := by
  obtain ⟨hspans, r, hstands, hsevered⟩ := h
  obtain ⟨htokens, hproper⟩ := tokensOf_of_ofText htext
  obtain ⟨before, after, hall, hafter⟩ := hstands.exists_tokens
  rw [hall] at htokens
  obtain ⟨last, hlast, _⟩ := Option.map_eq_some_iff.mp hspans.2
  obtain ⟨lexemes, hlexemes, hto⟩ := lexesTo_run htokens hspans hlast
  have hpoint : lastLexeme last = .punct '.' false →
      fractionLength ('.' :: text.drop run.span.stop) ≠ 0 := by
    intro hlexeme
    rcases hsevered with hno | hmark
    · have hlone := hno last hlast
      rw [atPunct_of_lastLexeme hlexeme rfl] at hlone
      cases hlone
    · obtain ⟨_, mid, t, _, hrun, _, ht, _⟩ := hspans.exists_tokens hlast
      rw [← ht]
      rw [hrun, List.append_assoc, ← List.append_assoc, List.singleton_append] at htokens
      apply fractionLength_of_next htokens (isPlainMark_of_atPlainMark hmark hafter)
  obtain ⟨tokens, hagain, hsame⟩ := (hto.lexes_nil hpoint).exists_tokensOf file
  rw [← hlexemes] at hsame
  obtain ⟨v, hv, hbare⟩ := exists_ofTokens (hstands.areProper hproper) hsame
  use v
  constructor
  · rw [TokenTree.ofText, Span.textIn, hagain]
    apply hv
  · rw [← flatAll_bareAll, hbare, flatAll_bareAll]
    rfl

end ReturnCaptures
