import ReturnCaptures.Expansion.Text
import ReturnCaptures.Proofs.Declarations
import ReturnCaptures.Proofs.PathSeparators
import ReturnCaptures.Proofs.Standing

/-!
# Types and patterns that are copied out of a text

The types of a new return clause, and the patterns and the types of a declaration, are copied from
the text that they were read from, and written with commas and parentheses of their own between and
around them. None of them ends in a lexeme that a comma, a parenthesis, a colon or a semicolon could
go on, so the text that is written shows the lexemes of the trees that are put together likewise.
-/

namespace ReturnCaptures

open Scan TokenTree

/-! ### Single lexemes -/

section Lexemes

variable {c : Char} {l : Lexeme} {u v w w' : List Char} {t : Token} {tree : TokenTree}
  {trees trees' inside : List TokenTree} {d : Delimiter} {opening closing : Span}

/-- No digit goes on the punctuation that a type may end in, and a word goes on only as words do. -/
theorem Lexeme.endsBefore_of_endsType (hl : l.endsType)
    (hword : l.isWord → startsWith isActive v = false) (hdigit : startsWith isDigit v = false) :
  l.EndsBefore v
  := by
  cases l with
  | punct symbol j =>
      rw [endsType, Bool.not_eq_true'] at hl
      simp only [List.contains_cons, List.contains_nil, Bool.or_eq_false_iff] at hl
      obtain ⟨hslash, hpoint, hhash, -⟩ := hl
      constructor
      · rw [List.contains_cons, List.contains_cons, List.contains_cons, hslash, hpoint, hhash]
        rfl
      · exact fun _ => hdigit
  | ident | keyword | lifetime => exact hword rfl
  | literal | doc => cases hl

theorem startsWith_isDigit (hv : startsWith isActive v = false) :
  startsWith isDigit v = false
  := by
  cases v with
  | nil => rfl
  | cons c v =>
      rw [← Bool.not_eq_true]
      intro hdigit
      have hactive : isActive c := isActive_of_isWordChar (isWordChar_of_isDigit hdigit)
      rw [startsWith, hactive] at hv
      cases hv

/-- Punctuation other than a slash, and other than a colon in front of a colon, shows itself. -/
theorem shows_punct (hc : isMarkChar c) (hslash : c ≠ '/') (hcolon : c = ':' → u.head? ≠ some ':') :
  Shows [c] u [.punct c false]
  := by
  use [⟨[c], .lexeme (.punct c false)⟩], rfl
  constructor
  · apply Cuts.cons _ .nil
    use c, [], rfl
    apply start_of_isMarkChar hc hslash
  constructor
  · simp [Piece.isClean, Reading.isFault]
  · rw [shownIn_cons rfl]
    congr 1
    change _ = (Lexeme.punct c false).plain
    rw [← Lexeme.pairedIf_false]
    apply Lexeme.pairedIf_congr
    intro hpunct
    exact beq_eq_false_iff_ne.mpr (hcolon (eq_of_beq hpunct))

theorem shows_mark (hc : isMarkChar c) (hne : c ≠ '/' ∧ c ≠ ':') :
  Shows [c] u [.punct c false]
  := shows_punct hc hne.1 fun hcolon => absurd hcolon hne.2

/-- A lexeme other than punctuation shows itself where it stands. -/
theorem Lexeme.Stands.shows (h : l.Stands u) (hl : l.isPunct ':' = false) :
  Shows l.text.toList u [l.plain]
  := by
  use [⟨l.text.toList, .lexeme l⟩], List.append_nil _, .cons h .nil
  constructor
  · simp [Piece.isClean, Reading.isFault]
  · rw [shownIn_cons rfl, pairedIf_of_not hl]
    rfl

/-- The keyword of a declaration shows itself in front of a blank. -/
theorem shows_let :
  Shows ['l', 'e', 't', ' '] u [.keyword "let"]
  := by
  have hlet : (Lexeme.keyword "let").Stands [] := ⟨'l', ['e', 't'], by decide, by decide⟩
  have hstands : (Lexeme.keyword "let").Stands ([' '] ++ u) := hlet.of_isSpelled rfl rfl
  have htext : (Lexeme.keyword "let").text.toList = ['l', 'e', 't'] := by decide
  have hshows := hstands.shows rfl
  rw [htext] at hshows
  exact hshows.append (shows_isBlank (w := [' ']) (by decide))

theorem shownAll_nil :
  shownAll [] = []
  := rfl

/-- A token other than the first colon of a path separator shows itself, whatever follows. -/
theorem shownAll_token (h : (t.lexeme.isPunct ':' && t.lexeme.isJoint) = false) :
  shownAll (.token t :: trees) = t.lexeme.plain :: shownAll trees
  := by
  rw [shownAll, tokensAll, tokens, List.singleton_append, List.map_cons, pairedBefore, ← shownAll]
  congr 1
  rw [← Lexeme.pairedIf_false]
  apply Lexeme.pairedIf_congr
  intro hpunct
  rw [hpunct, Bool.true_and] at h
  rw [h, Bool.false_and]

theorem isPunct_closing (d : Delimiter) :
  (Lexeme.punct d.closing false).isPunct ':' = false
  := by
  cases d <;> rfl

/-- The last lexeme of a group is no colon. -/
theorem isPunct_lastLexeme_group :
  (lastLexeme (.group d inside opening closing)).isPunct ':' = false
  := isPunct_closing d

/-- Nothing goes on a group. -/
theorem endsBefore_lastLexeme_group :
  (lastLexeme (.group d inside opening closing)).EndsBefore v
  := by
  cases d <;> exact ⟨rfl, fun h => absurd h (by decide)⟩

/-- A group shows its delimiters around what the trees inside of it show. -/
theorem shownAll_group :
  shownAll (.group d inside opening closing :: trees) =
    .punct d.opening false :: (shownAll inside ++ .punct d.closing false :: shownAll trees)
  := by
  have hopening : (Lexeme.punct d.opening false).pairedIf false = .punct d.opening false :=
    Lexeme.pairedIf_false
  have hclosing (b : Bool) : (Lexeme.punct d.closing false).pairedIf b = .punct d.closing false :=
    Lexeme.pairedIf_of_not (isPunct_closing d)
  have hinside : pairedBefore (some (.punct d.closing false)) ((tokensAll inside).map (·.lexeme)) =
      shownAll inside := by
    apply pairedBefore_of_not
    rintro _ ⟨⟩
    apply isPunct_closing
  rw [shownAll, tokensAll, tokens, List.cons_append, List.map_cons, pairedBefore, Lexeme.isJoint,
    Bool.false_and, hopening, List.append_assoc, List.map_append, pairedBefore_append]
  rw [List.singleton_append, List.map_cons, List.head?_cons, Option.some_or, hinside, pairedBefore,
    hclosing, ← shownAll]

end Lexemes

/-! ### Runs of a text -/

section Runs

variable {file : String} {text u v : List Char} {before after : List Token} {c d : Cursor}
  {g : Group} {trees : List TokenTree} {run : Run} {runs : List Run} {span : Span}

/-- The text of a run shows the lexemes of its trees in front of every text that would not go on a
word. -/
def Run.IsCopied (run : Run) (text : List Char) : Prop :=
  ∀ v, startsWith isActive v = false → v.head? ≠ some ':' →
    Shows (run.span.textIn text) v (shownAll run.trees)

theorem Run.StandsIn.exists_tokens (h : run.StandsIn trees)
    (htokens : tokensOf file text = .ok (before ++ (tokensAll trees ++ after))) :
  ∃ u v, tokensOf file text = .ok (u ++ (tokensAll run.trees ++ v))
  := by
  obtain ⟨p, q, rfl⟩ := h.among
  use before ++ tokensAll p, tokensAll q ++ after
  rw [htokens, tokensAll_append, tokensAll_append]
  simp

theorem Run.StandsIn.shows (h : run.StandsIn trees)
    (htokens : tokensOf file text = .ok (before ++ (tokensAll trees ++ after)))
    (hdigit : startsWith isDigit v = false)
    (hlast : ∀ tree ∈ run.trees.getLast?,
      ((lastLexeme tree).isWord → startsWith isActive v = false) ∧
      ((lastLexeme tree).isPunct ':' → v.head? ≠ some ':')) :
  Shows (run.span.textIn text) v (shownAll run.trees)
  := by
  obtain ⟨tree, htree, -⟩ := Option.map_eq_some_iff.mp h.spans.2
  obtain ⟨_, _, htokens'⟩ := h.exists_tokens htokens
  obtain ⟨hword, hcolon⟩ := hlast tree htree
  apply shows_run htokens' h.spans htree _ hcolon
  apply Lexeme.endsBefore_of_endsType (h.ends tree htree) hword hdigit

theorem Run.StandsIn.isCopied (h : run.StandsIn trees)
    (htokens : tokensOf file text = .ok (before ++ (tokensAll trees ++ after))) :
  run.IsCopied text
  := fun _ hv hcolon =>
    h.shows htokens (startsWith_isDigit hv) fun _ _ => ⟨fun _ => hv, fun _ => hcolon⟩

theorem commaList_cons_cons (texts : List (List Char)) :
  commaList (u :: v :: texts) = u ++ ([','] ++ ([' '] ++ commaList (v :: texts)))
  := by
  rw [commaList, List.intercalate_cons_cons, List.append_assoc]
  rfl

/-- The texts of runs with commas between them show the lexemes of the runs with commas between
them. -/
theorem shows_commaList (h : ∀ run ∈ runs, run.IsCopied text) (span : Span)
    (hv : startsWith isActive v = false) (hcolon : v.head? ≠ some ':') :
  Shows (commaList (runs.map (·.span.textIn text))) v (shownAll (joinRuns span runs))
  := by
  induction runs with
  | nil => apply Shows.nil
  | cons run runs ih =>
      rw [List.forall_mem_cons] at h
      cases runs with
      | nil =>
          have hjoin : joinRuns span [run] = run.trees := by simp [joinRuns, List.intercalate]
          rw [hjoin, commaList, List.map_singleton, List.intercalate_singleton]
          apply h.1 v hv hcolon
      | cons next runs =>
          rw [Expansion.joinRuns_cons_cons, shownAll_append (.inr rfl), punctAt, shownAll_token rfl,
            List.map_cons, List.map_cons, commaList_cons_cons]
          apply (h.1 _ rfl (by simp)).append
          apply (shows_mark (by decide) (by decide)).append
          exact (shows_isBlank (by decide)).append (ih h.2)

/-- The texts of runs, a single one alone and several in parentheses, show the lexemes of the runs put
together in this way. -/
theorem shows_tupleText (h : ∀ run ∈ runs, run.IsCopied text) (span : Span)
    (hsingle : ∀ run, runs = [run] → Shows (run.span.textIn text) v (shownAll run.trees)) :
  Shows (tupleText (runs.map (·.span.textIn text))) v (shownAll (Declaration.side span runs))
  := by
  match runs with
  | [run] => exact hsingle run rfl
  | [] | _ :: _ :: _ =>
      have hlist := shows_commaList (v := ')' :: v) h span rfl (by simp)
      have hclosing : Shows [')'] v [.punct ')' false] := shows_mark (by decide) (by decide)
      rw [Declaration.side, tupleOf, shownAll_group]
      · exact (shows_mark (by decide) (by decide)).append (hlist.append hclosing)
      · simp

end Runs

/-! ### Patterns of captures -/

section Patterns

variable {c d : Cursor} {p : Pattern} {trees : List TokenTree}

/-- The pattern of a capture ends in a name or in a parenthesis. -/
theorem PatternGrammar.exists_last {n : Nat} (h : (level n).pattern c = .ok (p, d))
    (ha : Capture.admits p) :
  ∃ u last, c.trees = (u ++ [last]) ++ d.trees ∧ p.run = c.runUpTo d ∧
    (lastLexeme last).endsType ∧ (lastLexeme last).isPunct ':' = false
  := by
  have hrun := ((sound_level n).pattern h).2
  have hname {t : Token} (ht : ∃ name, t.lexeme = .ident name) :
      (lastLexeme (.token t)).endsType ∧ (lastLexeme (.token t)).isPunct ':' = false := by
    obtain ⟨name, ht⟩ := ht
    rw [lastLexeme, ht]
    exact ⟨rfl, rfl⟩
  cases n with
  | zero => cases h
  | succ n =>
      obtain ⟨⟨kind, parts, e⟩, hshape, ⟨⟩⟩ := Outcome.bind_eq_ok.mp h
      rw [readShape] at hshape
      split at hshape
      case h_1 inside opening closing v hc =>
        obtain ⟨ps, _, ⟨⟩⟩ := Outcome.bind_eq_ok.mp hshape
        use [], .group .paren inside opening closing
        constructor
        · rw [Cursor.trees_skip_one hc]
          exact hc
        · exact ⟨hrun, rfl, rfl⟩
      case h_2 =>
        obtain ⟨_, _, ⟨⟩⟩ := Outcome.bind_eq_ok.mp hshape
        cases ha
      case h_3 =>
        cases readsToken_of_readPlain hshape (.inr ha) with
        | wildcard hword =>
            obtain ⟨t, r, hc, ht⟩ := Cursor.exists_of_atLexeme hword
            use [], .token t
            constructor
            · rw [Cursor.trees_skip_one hc]
              exact hc
            · exact ⟨hrun, hname ⟨"_", eq_of_beq ht⟩⟩
        | dots => cases ha
        | @binding t _ _ _ _ hbinding =>
            obtain ⟨w, hw, -, -⟩ := c.exists_skipKeyword "ref"
            obtain ⟨w', hw', -, -⟩ := (c.skipKeyword "ref").exists_skipKeyword "mut"
            obtain ⟨ht, hd, -⟩ := Cursor.expectIdent_eq_ok.mp hbinding
            use w ++ w', .token t
            constructor
            · rw [hw, hw', hd]
              simp
            · exact ⟨hrun, hname ht⟩

/-- The pattern of a capture stands where it was read and ends in no colon. -/
theorem Pattern.standsIn_of_read (h : Pattern.read c = .ok (p, d)) (ha : Capture.admits p)
    (htrees : c.trees <:+ trees) :
  p.run.StandsIn trees ∧ ∀ tree ∈ p.run.trees.getLast?, (lastLexeme tree).isPunct ':' = false
  := by
  obtain ⟨u, last, hc, hrun, hends, hcolon⟩ := PatternGrammar.exists_last h ha
  have hrun' : (c.runUpTo d).trees = u ++ [last] := Cursor.readUpTo_of_append hc
  rw [hrun]
  constructor
  · apply standsIn_runUpTo hc (by simp) htrees
    intro tree htree
    rw [List.getLast?_concat] at htree
    obtain rfl := Option.some.inj htree
    exact hends
  · intro tree htree
    rw [hrun', List.getLast?_concat] at htree
    obtain rfl := Option.some.inj htree
    exact hcolon

end Patterns

/-! ### Captures and declarations -/

section Captures

variable {file : String} {text v : List Char} {before after : List Token} {items : List Capture}
  {g : Group} {span : Span}

/-- The types of the captures of a list stand in its group. -/
theorem Capture.standsIn_of_mem (h : readList g = .ok items) {item : Capture} (hitem : item ∈ items) :
  item.type.run.StandsIn g.trees
  := by
  have hseparated := separated_of_readList h
  obtain ⟨d, e, hread, hsuffix, -⟩ := hseparated.exists_of_mem ReadsAs.isSuffix hitem
  cases hread with
  | @bound pattern _ e' _ hpattern _ htype _ =>
      apply TypeExpr.standsIn_of_read htype
      apply ((List.drop_suffix 1 _).trans _).trans hsuffix
      apply (Pattern.passes_read hpattern).1.crosses.isSuffix
  | unbound htype => apply TypeExpr.standsIn_of_read htype hsuffix

/-- The patterns of the bound captures of a list stand in its group and end in no colon. -/
theorem Capture.standsIn_of_mem_bounds (h : readList g = .ok items) {p : Pattern} {type : TypeExpr}
    (hmem : (p, type) ∈ bounds items) :
  p.run.StandsIn g.trees ∧ ∀ tree ∈ p.run.trees.getLast?, (lastLexeme tree).isPunct ':' = false
  := by
  have hseparated := separated_of_readList h
  obtain ⟨d, e, hread, hsuffix, -⟩ :=
    hseparated.exists_of_mem ReadsAs.isSuffix (mem_bounds hmem)
  cases hread with
  | bound hpattern _ _ hcheck =>
      apply Pattern.standsIn_of_read hpattern (admits_of_checkPattern hcheck) hsuffix

/-- One side of a declaration ends in a colon only if a run does. -/
theorem Declaration.isPunct_last_side {runs : List Run}
    (h : ∀ run ∈ runs, ∀ tree ∈ run.trees.getLast?, (lastLexeme tree).isPunct ':' = false) :
  ∀ tree ∈ (side span runs).getLast?, (lastLexeme tree).isPunct ':' = false
  := by
  match runs with
  | [run] => exact h run (List.mem_singleton_self run)
  | [] | _ :: _ :: _ =>
      rintro _ ⟨⟩
      apply isPunct_lastLexeme_group

theorem areProper_joinRuns {runs : List Run} (h : ∀ run ∈ runs, areProper run.trees) (span : Span) :
  areProper (joinRuns span runs)
  := by
  induction runs with
  | nil => rfl
  | cons run runs ih =>
      rw [List.forall_mem_cons] at h
      cases runs with
      | nil =>
          rw [joinRuns, List.map_singleton, List.intercalate_singleton]
          exact h.1
      | cons next runs =>
          rw [Expansion.joinRuns_cons_cons, areProper_append, areProper, Bool.and_eq_true]
          exact ⟨h.1, rfl, ih h.2⟩

theorem Declaration.areProper_side {runs : List Run} (h : ∀ run ∈ runs, areProper run.trees)
    (span : Span) :
  areProper (side span runs)
  := by
  match runs with
  | [run] => exact h run (List.mem_singleton_self run)
  | [] | _ :: _ :: _ =>
      rw [side, tupleOf, areProper, isProper, areProper_joinRuns h, areProper]
      · rfl
      · simp

/-- What is read from trees without delimiters has none. -/
theorem Run.StandsIn.areProper {run : Run} {trees : List TokenTree} (h : run.StandsIn trees)
    (hproper : areProper trees) :
  TokenTree.areProper run.trees
  := by
  rw [areProper_iff] at hproper ⊢
  exact fun tree htree => hproper tree (h.among.subset htree)

/-- The declaration of bound captures has no delimiters among its tokens. -/
theorem Declaration.areProper_ofBound (hproper : areProper g.trees) (h : Capture.readList g = .ok items)
    (span : Span) :
  areProper (ofBound span (Capture.bounds items)).trees
  := by
  have hpatterns : ∀ run ∈ (Capture.bounds items).map (·.1.run), areProper run.trees := by
    simp only [List.mem_map]
    rintro _ ⟨⟨p, type⟩, hmem, rfl⟩
    apply (Capture.standsIn_of_mem_bounds h hmem).1.areProper hproper
  have htypes : ∀ run ∈ (Capture.bounds items).map (·.2.run), areProper run.trees := by
    simp only [List.mem_map]
    rintro _ ⟨⟨p, type⟩, hmem, rfl⟩
    apply (Capture.standsIn_of_mem h (Capture.mem_bounds hmem)).areProper hproper
  rw [ofBound]
  dsimp only
  rw [areProper, Bool.and_eq_true, areProper_append, areProper_append, areProper_append]
  exact ⟨rfl, ⟨⟨areProper_side hpatterns span, rfl⟩, areProper_side htypes span⟩, rfl⟩

theorem Declaration.textIn_ofBound (span : Span) (bound : List (Pattern × TypeExpr)) :
  (ofBound span bound).textIn text =
    ['l', 'e', 't', ' '] ++
      (tupleText ((bound.map (·.1.run)).map (·.span.textIn text)) ++
        ([':'] ++ ([' '] ++
          (tupleText ((bound.map (·.2.run)).map (·.span.textIn text)) ++ [';']))))
  := by
  have htexts (f : Pattern × TypeExpr → Run) :
      bound.map (fun b => (f b).span.textIn text) = (bound.map f).map (·.span.textIn text) := by
    rw [List.map_map]
    rfl
  rw [textIn, ← htexts, ← htexts, ofBound, List.map_map, List.map_map]
  simp only [List.append_assoc]
  rfl

theorem Declaration.trees_ofBound (span : Span) (bound : List (Pattern × TypeExpr)) :
  (ofBound span bound).trees =
    .token ⟨.keyword "let", span⟩ :: (side span (bound.map (·.1.run)) ++
      punctAt span ':' :: (side span (bound.map (·.2.run)) ++ [punctAt span ';']))
  := by
  simp [ofBound]

variable (htokens : tokensOf file text = .ok (before ++ (tokensAll g.trees ++ after)))

include htokens

/-- The text of the declaration of bound captures shows the lexemes of its trees. -/
theorem Declaration.shows_textIn (h : Capture.readList g = .ok items) :
  Shows ((ofBound span (Capture.bounds items)).textIn text) v
    (shownAll (ofBound span (Capture.bounds items)).trees)
  := by
  have hpatterns : ∀ run ∈ (Capture.bounds items).map (·.1.run), run.StandsIn g.trees ∧
      ∀ tree ∈ run.trees.getLast?, (lastLexeme tree).isPunct ':' = false := by
    simp only [List.mem_map]
    rintro _ ⟨⟨p, type⟩, hmem, rfl⟩
    apply Capture.standsIn_of_mem_bounds h hmem
  have htypes : ∀ run ∈ (Capture.bounds items).map (·.2.run), run.IsCopied text := by
    simp only [List.mem_map]
    rintro _ ⟨⟨p, type⟩, hmem, rfl⟩
    apply (Capture.standsIn_of_mem h (Capture.mem_bounds hmem)).isCopied htokens
  have hleft (u : List Char) :
      Shows (tupleText (((Capture.bounds items).map (·.1.run)).map (·.span.textIn text))) (':' :: u)
        (shownAll (side span ((Capture.bounds items).map (·.1.run)))) := by
    apply shows_tupleText (fun run hrun => (hpatterns run hrun).1.isCopied htokens) span
    intro run hrun
    obtain ⟨hrun, hlast⟩ := hpatterns run (by simp [hrun])
    apply hrun.shows htokens rfl
    intro tree htree
    rw [hlast tree htree]
    exact ⟨fun _ => rfl, fun hcolon => absurd hcolon Bool.false_ne_true⟩
  have hright :
      Shows (tupleText (((Capture.bounds items).map (·.2.run)).map (·.span.textIn text))) (';' :: v)
        (shownAll (side span ((Capture.bounds items).map (·.2.run)))) := by
    apply shows_tupleText htypes span
    intro run hrun
    apply htypes run (by simp [hrun]) _ rfl (by simp)
  rw [textIn_ofBound, trees_ofBound, shownAll_token rfl,
    shownAll_append (.inl (isPunct_last_side fun run hrun => (hpatterns run hrun).2)), punctAt,
    shownAll_token rfl, shownAll_append (.inr rfl), punctAt, shownAll_token rfl, shownAll_nil]
  apply shows_let.append
  apply (hleft _).append
  apply (shows_punct (by decide) (by decide) (by simp)).append
  apply (shows_isBlank (by decide)).append
  apply hright.append
  apply shows_mark (by decide) (by decide)

end Captures

end ReturnCaptures
