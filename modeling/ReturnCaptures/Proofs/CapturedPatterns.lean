import ReturnCaptures.Proofs.CommaLists
import ReturnCaptures.Proofs.RunEnds

/-!
# Patterns of captures with other commas between them

A pattern that a capture may have is a name, a wildcard or a tuple of such patterns, and two dots
may stand among the elements of the tuple. Each of them is read from its run in front of any comma
or colon and at any end, at every level of the grammar that is above the number of its trees.
Patterns of captures that are put together in parentheses are therefore read as a tuple of the same
patterns.
-/

namespace ReturnCaptures

open TokenTree Outcome Cursor

variable {c d : Cursor} {r : List TokenTree} {stop : Span}

/-! ### Looking at the first tree -/

/-- Whether the pattern of a capture ends in front of the trees: at the end of an item, or at the
colon in front of its type. -/
def TokenTree.atPatternEnd (trees : List TokenTree) : Bool := atItemEnd trees || atColon trees

theorem TokenTree.atPatternEnd_of_atItemEnd (h : atItemEnd r) :
  atPatternEnd r
  := by
  rw [atPatternEnd, h, Bool.true_or]

/-- Where a pattern ends there are no trees, or a comma or a colon comes first. -/
theorem TokenTree.exists_of_atPatternEnd (h : atPatternEnd r) :
  r = [] ∨ ∃ symbol j s v, r = .token ⟨.punct symbol j, s⟩ :: v ∧ (symbol = ',' ∨ symbol = ':')
  := by
  have hpunct {symbol : Char} (h : atPunct symbol r) :
      ∃ j s v, r = .token ⟨.punct symbol j, s⟩ :: v := by
    obtain ⟨t, v, rfl, ht⟩ := exists_of_atLexeme h
    obtain ⟨joint, span, rfl⟩ := exists_of_isPunct ht
    use joint, span, v
  rw [atPatternEnd, atItemEnd, atColon, Bool.or_eq_true, Bool.or_eq_true, Bool.and_eq_true,
    List.isEmpty_iff] at h
  rcases h with (hnil | hcomma) | ⟨hcolon, -⟩
  · left
    apply hnil
  · obtain ⟨j, s, v, hr⟩ := hpunct hcomma
    right
    use ',', j, s, v, hr, Or.inl rfl
  · obtain ⟨j, s, v, hr⟩ := hpunct hcolon
    right
    use ':', j, s, v, hr, Or.inr rfl

/-- No other punctuation comes where a pattern ends. -/
theorem TokenTree.atPunct_of_atPatternEnd (h : atPatternEnd r) {symbol : Char}
    (hsymbol : (',' == symbol) = false ∧ (':' == symbol) = false) :
  atPunct symbol r = false
  := by
  rcases exists_of_atPatternEnd h with rfl | ⟨_, j, s, v, rfl, rfl | rfl⟩
  · rfl
  · apply hsymbol.1
  · apply hsymbol.2

theorem TokenTree.atSingle_of_atPatternEnd (h : atPatternEnd r) {symbol : Char}
    (hsymbol : (',' == symbol) = false ∧ (':' == symbol) = false) :
  atSingle symbol r = false
  := by
  rw [atSingle, atPunct_of_atPatternEnd h hsymbol, Bool.false_and]

/-- A name where a pattern ends is no path. -/
theorem PatternGrammar.atPathContinuation_of_atPatternEnd (h : atPatternEnd r) :
  atPathContinuation r = false
  := by
  have hseparator : atOperator [':', ':'] r = false := by
    rw [atPatternEnd, atColon, Bool.or_eq_true, Bool.and_eq_true, Bool.not_eq_true'] at h
    rcases h with hend | ⟨-, hcolon⟩
    · rw [Bool.eq_false_iff]
      intro hseparator
      obtain ⟨first, second, v, rfl, hpair⟩ := exists_of_atOperator hseparator
      rw [atItemEnd, List.isEmpty_cons, Bool.false_or, atPunct_cons,
        atPunct_of_atPunct (atPunct_first_of_atOperator hpair) (by decide)] at hend
      cases hend
    · apply hcolon
  have hgroup (delimiter : Delimiter) : atGroup delimiter r = false := by
    rcases exists_of_atPatternEnd h with rfl | ⟨_, j, s, v, rfl, -⟩ <;> rfl
  rw [atPathContinuation, hseparator, hgroup, hgroup,
    atSingle_of_atPatternEnd h ⟨rfl, rfl⟩]
  rfl

theorem TokenTree.atLexeme_congr {p : Lexeme → Bool} {u v : List TokenTree}
    (h : u.head? = v.head?) :
  atLexeme p u = atLexeme p v
  := by
  cases u with
  | nil =>
      rw [List.head?_nil, eq_comm, List.head?_eq_none_iff] at h
      rw [h]
  | cons tree u =>
      cases v with
      | nil => cases h
      | cons tree' v =>
          obtain rfl : tree = tree' := Option.some.inj h
          rw [atLexeme_cons, atLexeme_cons p tree v]

theorem TokenTree.atLexeme_append {p : Lexeme → Bool} {u : List TokenTree} (h : atLexeme p u)
    (v : List TokenTree) :
  atLexeme p (u ++ v)
  := by
  obtain ⟨t, w, rfl, ht⟩ := exists_of_atLexeme h
  apply ht

/-- A keyword that is skipped is skipped in front of everything that starts alike. -/
theorem Cursor.exists_skipKeyword (c : Cursor) (word : String) :
  ∃ w, c.trees = w ++ (c.skipKeyword word).trees ∧ (w = [] ∨ atKeyword word w) ∧
    ∀ {v : List TokenTree} {stop : Span}, v.head? = (c.skipKeyword word).trees.head? →
      skipKeyword ⟨w ++ v, stop⟩ word = ⟨v, stop⟩
  := by
  unfold skipKeyword
  split
  case isTrue hword =>
    obtain ⟨t, r, hc, ht⟩ := exists_of_atLexeme hword
    use [.token t], by simp [hc], Or.inr ht
    intro v stop _
    apply if_pos ht
  case isFalse hword =>
    use [], rfl, Or.inl rfl
    intro v stop hv
    have hsame : atKeyword word v = atKeyword word c.trees := atLexeme_congr hv
    rw [← hsame] at hword
    apply if_neg hword

/-! ### Productions -/

namespace PatternGrammar

variable {G : PatternGrammar} {kind : PatternKind} {parts : List Pattern} {run : Run}

/-- No word with two dots behind it. -/
theorem not_atRest_of_atBinding {trees : List TokenTree} (h : atBinding trees) :
  atRest trees = false
  := by
  have hword : ∃ t v, trees = .token t :: v ∧ t.lexeme.isWord := by
    rw [atBinding, Bool.or_eq_true, Bool.or_eq_true, Bool.and_eq_true] at h
    rcases h with (h | h) | ⟨h, _⟩
    all_goals
      obtain ⟨t, v, rfl, ht⟩ := exists_of_atLexeme h
      use t, v, rfl
      cases hl : t.lexeme <;> simp_all [Lexeme.isWord, Lexeme.isKeyword]
  obtain ⟨⟨l, s⟩, v, rfl, hl⟩ := hword
  cases l <;> first | rfl | cases hl

/-- The words of a binding are a binding at every end of a pattern. -/
theorem atBinding_of_words {w w' : List TokenTree} {t : Token} (hw : w = [] ∨ atKeyword "ref" w)
    (hw' : w' = [] ∨ atKeyword "mut" w') (ht : ∃ name, t.lexeme = .ident name)
    (hr : atPatternEnd r) :
  atBinding (w ++ (w' ++ .token t :: r))
  := by
  rw [atBinding, Bool.or_eq_true, Bool.or_eq_true]
  rcases hw with rfl | hw
  · rcases hw' with rfl | hw'
    · right
      obtain ⟨name, ht⟩ := ht
      have hident : atIdent (.token t :: r) := by rw [atIdent, atLexeme, ht]
      simp [hident, atPathContinuation_of_atPatternEnd hr]
    · left
      right
      apply atLexeme_append hw'
  · left
    left
    apply atLexeme_append hw

/-- A binding without a restriction is read again from its trees. -/
theorem readBinding_again {t : Token}
    (h : ((c.skipKeyword "ref").skipKeyword "mut").expectIdent "a binding name" = .ok (t, d)) :
  ∃ u, c.trees = u ++ d.trees ∧ u ≠ [] ∧ ∀ (H : PatternGrammar) {r stop}, atPatternEnd r →
    atBinding (u ++ r) ∧ H.readBinding ⟨u ++ r, stop⟩ = .ok (.binding t.text, [], ⟨r, stop⟩)
  := by
  obtain ⟨w, hw, hword, hskip⟩ := c.exists_skipKeyword "ref"
  obtain ⟨w', hw', hword', hskip'⟩ := (c.skipKeyword "ref").exists_skipKeyword "mut"
  obtain ⟨hname, he, _⟩ := expectIdent_eq_ok.mp h
  use w ++ (w' ++ [.token t])
  refine ⟨by rw [hw, hw', he]; simp, by simp, ?_⟩
  intro H r stop hr
  have htrees : w ++ (w' ++ [.token t]) ++ r = w ++ (w' ++ .token t :: r) := by simp
  rw [htrees]
  use atBinding_of_words hword hword' hname hr
  have hat : ¬ atSingle '@' r := by
    rw [atSingle_of_atPatternEnd hr ⟨rfl, rfl⟩]
    apply Bool.false_ne_true
  rw [readBinding, hskip, hskip']
  · apply bind_eq_ok.mpr
    use (t, ⟨r, stop⟩), expectIdent_eq_ok.mpr ⟨hname, rfl, rfl⟩
    apply if_neg hat
  · rw [he]
    rfl
  · rw [hw', he]
    cases w' <;> rfl

/-- Two dots are read again at every end of a pattern. -/
theorem exists_of_atRest (h : atRest c.trees) :
  ∃ first second, c.trees = first :: second :: (c.skip 2).trees ∧
    ∀ {r}, atPatternEnd r → atRest (first :: second :: r)
  := by
  rw [atRest, Bool.and_eq_true, Bool.and_eq_true] at h
  obtain ⟨first, second, v, hc, hdots⟩ := exists_of_atOperator h.1.1
  use first, second
  constructor
  · simp [hc]
  · intro r hr
    obtain ⟨_, rfl⟩ := exists_of_atPunct_singleton (atPunct_first_of_atOperator hdots)
    obtain ⟨_, rfl⟩ := exists_of_atPunct_singleton (atPunct_of_atOperator hdots)
    have hequals : atPunct '=' r = false := atPunct_of_atPatternEnd hr ⟨rfl, rfl⟩
    have hdot : atPunct '.' r = false := atPunct_of_atPatternEnd hr ⟨rfl, rfl⟩
    rw [atRest, atOperator_cons_cons, hdots]
    simp [atOperator, hequals, hdot]

/-- A pattern that starts with a token, and that is a binding, a wildcard or two dots, is read again
from its trees. -/
theorem readPlain_again (h : ReadsToken c kind parts d) :
  ∃ u, c.trees = u ++ d.trees ∧ u ≠ [] ∧ ∀ (H : PatternGrammar) {r stop}, atPatternEnd r →
    H.readPlain ⟨u ++ r, stop⟩ = .ok (kind, parts, ⟨r, stop⟩)
  := by
  -- The questions about the first tree have the answers that they had.
  have hsame {u v : List TokenTree} (hc : c.trees = u ++ v) (hu : u ≠ []) {p : Lexeme → Bool}
      {r : List TokenTree} (hp : ¬ atLexeme p c.trees) : ¬ atLexeme p (u ++ r) := by
    obtain ⟨first, u, rfl⟩ := List.exists_cons_of_ne_nil hu
    rwa [List.cons_append, atLexeme_cons, ← atLexeme_cons p first (u ++ v), ← List.cons_append,
      ← hc]
  cases h with
  | wildcard hblank =>
      obtain ⟨t, v, hc, ht⟩ := exists_of_atLexeme hblank
      use [.token t]
      rw [trees_skip_one hc]
      use hc, List.cons_ne_nil _ _
      intro H r stop _
      apply if_pos ht
  | dots hblank hrest =>
      obtain ⟨first, second, hc, hrest'⟩ := exists_of_atRest hrest
      use [first, second], hc, List.cons_ne_nil _ _
      intro H r stop hr
      apply (if_neg (hsame hc (List.cons_ne_nil _ _) hblank)).trans
      apply if_pos (hrest' hr)
  | binding hblank href _ hident =>
      obtain ⟨u, hc, hu, hread⟩ := readBinding_again hident
      use u, hc, hu
      intro H r stop hr
      obtain ⟨hbinding, hread⟩ := hread H hr
      apply (if_neg (hsame hc hu hblank)).trans
      apply (if_neg (Bool.eq_false_iff.mp (not_atRest_of_atBinding hbinding))).trans
      apply (if_neg (hsame hc hu href)).trans
      apply (if_pos hbinding).trans hread

end PatternGrammar

/-! ### Patterns -/

namespace Capture

/-- A part of a pattern that a capture may have: two dots, or such a pattern itself. -/
def MayHavePart (p : Pattern) : Prop := p.kind = .rest ∨ checkPattern p = .ok ()

theorem checkParts_eq_ok {ps : List Pattern} (h : checkParts ps = .ok ()) :
  ∀ p ∈ ps, MayHavePart p
  := by
  induction ps with
  | nil => simp
  | cons p ps ih =>
      rw [List.forall_mem_cons]
      rw [checkParts] at h
      rcases ite_eq_iff.mp h with ⟨-, h⟩ | ⟨hrest, h⟩
      · obtain ⟨_, hp, h⟩ := bind_eq_ok.mp h
        use Or.inr hp, ih h
      · have hrest : p.kind = .rest := by simpa using hrest
        use Or.inl hrest, ih h

theorem MayHavePart.admits {p : Pattern} (h : MayHavePart p) :
  p.kind = .rest ∨ (Capture.admits p ∧ ∀ part ∈ p.parts, MayHavePart part)
  := by
  rcases h with h | h
  · apply Or.inl h
  · right
    use admits_of_checkPattern h
    have ha := admits_of_checkPattern h
    obtain ⟨kind, run, parts⟩ := p
    rw [checkPattern, if_pos ha] at h
    apply checkParts_eq_ok h

end Capture

/-- A pattern stands for itself if it is read from its run at every end of a pattern, at every level
of the grammar that is above the size of the run. -/
def Pattern.Stands (p : Pattern) : Prop :=
  ∀ n r stop, sizeAll p.run.trees < n → atPatternEnd r →
    (PatternGrammar.level n).pattern ⟨p.run.trees ++ r, stop⟩ = .ok (p, ⟨r, stop⟩)

namespace PatternGrammar

/-- A pattern whose shape is read again from its trees stands for itself. -/
theorem stands_of_readShape {u : List TokenTree} {kind : PatternKind} {parts : List Pattern}
    (hc : c.trees = u ++ d.trees) (hu : u ≠ [])
    (h : ∀ {n r stop}, sizeAll u < n + 1 → atPatternEnd r →
      (level n).readShape ⟨u ++ r, stop⟩ = .ok (kind, parts, ⟨r, stop⟩)) :
  Pattern.Stands (.mk kind (c.runUpTo d) parts)
  := by
  intro n r stop hn hr
  have hrun : (c.runUpTo d).trees = u := readUpTo_of_append hc
  rw [Pattern.run, hrun] at hn ⊢
  obtain ⟨n, rfl⟩ : ∃ k, n = k + 1 := ⟨n - 1, by omega⟩
  apply bind_eq_ok.mpr
  use (kind, parts, ⟨r, stop⟩), h hn hr
  have hswaps : c.Swaps d.trees r ⟨u ++ r, stop⟩ := ⟨u, hc, rfl⟩
  have hlt : d.trees.length < c.trees.length := by
    have hpos := List.length_pos_of_ne_nil hu
    rw [hc, List.length_append]
    omega
  have hends : d.Swaps d.trees r ⟨r, stop⟩ := ⟨[], rfl, rfl⟩
  rw [hswaps.runUpTo hends hlt]
  rfl

/-- Patterns that stand for themselves are read one after the other as they were. -/
theorem elements_again {n m : Nat} {ps : List Pattern} (h : (level n).elements c = .ok ps)
    (hps : ∀ {c p d}, p ∈ ps → (level n).pattern c = .ok (p, d) → p.Stands)
    (hm : sizeAll c.trees < m) :
  (level m).elements c = .ok ps
  := by
  obtain ⟨_, rfl, hseparated⟩ : ∃ rest, ps = [].reverse ++ rest ∧
      c.Separated (fun c p d => (level n).pattern c = .ok (p, d)) rest :=
    separated_of_commaSeparatedAfter h id
  have hagain : c.Separated (fun c p d => (level m).pattern c = .ok (p, d)) (ps.map id) := by
    apply hseparated.map
    intro ⟨trees, stop⟩ p e hp hd he hread
    obtain ⟨hpasses, hrun⟩ := (sound_level n).pattern hread
    use hpasses.crosses.isSuffix
    have htrees : trees = p.run.trees ++ e.trees := by
      rw [hrun]
      apply hpasses.crosses.readUpTo.1
    have hsize : sizeAll p.run.trees < m := by
      obtain ⟨v, hv⟩ := hd
      rw [← hv, sizeAll_append] at hm
      change _ + sizeAll trees < m at hm
      rw [htrees, sizeAll_append] at hm
      omega
    obtain ⟨rest, stop'⟩ := e
    obtain rfl : stop' = stop := hpasses.crosses.stop
    rw [htrees]
    apply hps hp hread m rest stop' hsize (atPatternEnd_of_atItemEnd he)
  rw [List.map_id] at hagain
  apply hagain.commaSeparated
  intro c p d _ hread
  use hread, ((sound_level m).pattern hread).1.shorter

/-- Patterns that a capture may have, and their parts, stand for themselves. -/
theorem stands_of_pattern {n : Nat} {p : Pattern} (h : (level n).pattern c = .ok (p, d))
    (hp : Capture.MayHavePart p) :
  p.Stands
  := by
  -- By induction on the level at which the pattern was read; its parts were read below.
  induction n generalizing c p d with
  | zero => cases h
  | succ n ih =>
      obtain ⟨⟨kind, parts, e⟩, hshape, ⟨⟩⟩ := bind_eq_ok.mp h
      rw [readShape] at hshape
      split at hshape
      case h_1 inside opening closing v hc =>
        obtain ⟨ps, helements, ⟨⟩⟩ := bind_eq_ok.mp hshape
        have hps : ∀ part ∈ parts, Capture.MayHavePart part := by
          rcases hp.admits with hrest | ⟨_, hparts⟩
          · cases hrest
          · apply hparts
        have hc' : c.trees = [.group .paren inside opening closing] ++ (c.skip 1).trees := by
          rw [trees_skip_one hc]
          apply hc
        apply stands_of_readShape hc' (List.cons_ne_nil _ _)
        intro m r stop hm _
        apply bind_eq_ok.mpr
        use parts
        constructor
        · apply elements_again helements
          · intro c p d hmem hread
            apply ih hread (hps p hmem)
          · simp only [sizeAll, size] at hm
            change sizeAll inside < m
            omega
        · rfl
      case h_2 =>
        obtain ⟨_, _, ⟨⟩⟩ := bind_eq_ok.mp hshape
        rcases hp.admits with hrest | ⟨ha, _⟩
        · cases hrest
        · cases ha
      case h_3 hparen hbracket =>
        have htoken := readsToken_of_readPlain hshape (hp.admits.imp_right And.left)
        obtain ⟨u, hc, hu, hread⟩ := readPlain_again htoken
        apply stands_of_readShape hc hu
        intro m r stop _ hr
        obtain ⟨first, u, rfl⟩ := List.exists_cons_of_ne_nil hu
        rw [readShape]
        split
        case h_1 hfirst =>
          obtain ⟨rfl, _⟩ := List.cons_eq_cons.mp hfirst
          cases hparen _ _ _ _ hc
        case h_2 hfirst =>
          obtain ⟨rfl, _⟩ := List.cons_eq_cons.mp hfirst
          cases hbracket _ _ _ _ hc
        case h_3 => apply hread _ hr

end PatternGrammar

/-! ### Captures -/

section Captures

variable {p : Pattern} {ps : List Pattern}

/-- The patterns of the captures of a list stand for themselves. -/
theorem Capture.stands_of_pattern? {items : List Capture} (h : c.Separated ReadsAs items)
    {item : Capture} (hitem : item ∈ items) (hp : item.pattern? = some p) :
  p.Stands
  := by
  obtain ⟨d, e, hread, _⟩ := h.exists_of_mem ReadsAs.isSuffix hitem
  cases hread with
  | unbound _ => cases hp
  | bound hpattern _ _ hcheck =>
      cases hp
      apply PatternGrammar.stands_of_pattern hpattern (Or.inr hcheck)

theorem Pattern.Stands.read (h : p.Stands) (r : List TokenTree) (stop : Span)
    (hr : atPatternEnd r) :
  Pattern.read ⟨p.run.trees ++ r, stop⟩ = .ok (p, ⟨r, stop⟩)
  := by
  apply h
  · rw [sizeAll_append]
    omega
  · apply hr

theorem sizeAll_le_of_mem (span : Span) {runs : List Run} {run : Run} (h : run ∈ runs) :
  sizeAll run.trees ≤ sizeAll (joinRuns span runs)
  := by
  induction runs with
  | nil => cases h
  | cons first runs ih =>
      cases runs with
      | nil =>
          obtain rfl := List.mem_singleton.mp h
          simp [joinRuns, List.intercalate]
      | cons next runs =>
          rw [Expansion.joinRuns_cons_cons, sizeAll_append, sizeAll]
          rcases List.mem_cons.mp h with rfl | h
          · omega
          · have hle := ih h
            omega

/-- Patterns in parentheses are read as a tuple of them. -/
theorem Pattern.read_tupleOf (h : ∀ p ∈ ps, p.Stands) (opening closing stop : Span) :
  ∃ run, Pattern.read ⟨[tupleOf opening closing (ps.map (·.run))], stop⟩ =
    .ok (.mk .tuple run ps, ⟨[], stop⟩)
  := by
  generalize hc : (⟨[tupleOf opening closing (ps.map (·.run))], stop⟩ : Cursor) = c
  have htrees : c.trees = [tupleOf opening closing (ps.map (·.run))] := by rw [← hc]
  generalize hn : 4 * sizeAll c.trees + 3 = n
  have hlevel : PatternGrammar.upTo c = PatternGrammar.level (n + 1) := by
    rw [PatternGrammar.upTo, ← hn]
    rfl
  have helements : (PatternGrammar.level n).elements
      ⟨joinRuns opening (ps.map (·.run)), closing⟩ = .ok ps := by
    have hseparated : Cursor.Separated
        (fun c p d => (PatternGrammar.level n).pattern c = .ok (p, d))
        ⟨joinRuns opening (ps.map (·.run)), closing⟩ ps := by
      apply separated_joinRuns
      rw [List.forall₂_map_left_iff, List.forall₂_same]
      intro p hp r hr
      apply h p hp n r closing _ (atPatternEnd_of_atItemEnd hr)
      have hmem : p.run ∈ ps.map (·.run) := List.mem_map_of_mem hp
      have hle := sizeAll_le_of_mem opening hmem
      rw [htrees, tupleOf, sizeAll, size] at hn
      omega
    apply hseparated.commaSeparated
    intro c p d _ hread
    use hread, ((PatternGrammar.sound_level n).pattern hread).1.shorter
  use c.runUpTo (c.skip 1)
  rw [Pattern.read, hlevel]
  apply bind_eq_ok.mpr
  use (.tuple, ps, c.skip 1)
  constructor
  · change (PatternGrammar.level n).readShape c = _
    rw [PatternGrammar.readShape, htrees, tupleOf]
    apply bind_eq_ok.mpr
    use ps, helements
    rfl
  · rw [← hc]
    rfl

end Captures

end ReturnCaptures
