import ReturnCaptures.Proofs.CaptureLists
import ReturnCaptures.Proofs.Slices

/-!
# How types end and captured patterns start

A type ends in a word, a lifetime, a closing delimiter or in one of a few punctuation
characters; a point is not one of them. A pattern in a capture that is no group is a wildcard or
a name without a restriction.
-/

namespace ReturnCaptures

open TokenTree Outcome Cursor Scan

/-- Whether a lexeme is what a type may end in. -/
def Lexeme.endsType : Lexeme → Bool
  | .punct c _ => !(['/', '.', '#', '-'].contains c)
  | l => l.isWord

theorem Lexeme.endsType_plain (l : Lexeme) :
  l.plain.endsType = l.endsType
  := by
  cases l <;> rfl

section Balanced

variable {tree first : TokenTree} {u : List TokenTree} {inner : Bool}

theorem endsType_of_isPlain (h : tree.isPlain true false) :
  (lastLexeme tree).endsType
  := by
  cases tree with
  | group d => cases d <;> rfl
  | token t =>
      rw [lastLexeme, Lexeme.endsType_plain]
      simp only [isPlain, Lexeme.isPlain, Bool.and_eq_true, Bool.not_true, Bool.false_or] at h
      obtain ⟨hmark, htypes, hquoted⟩ := h
      cases hl : t.lexeme with
      | punct c j =>
          rw [hl] at htypes
          have hall : ['!', '&', '*', '+', '?', '~', '='].all fun c =>
              (Lexeme.punct c j).endsType := by
            cases j <;> decide
          simp only [Lexeme.inTypes, List.contains_iff_mem] at htypes
          apply List.all_eq_true.mp hall c htypes
      | literal =>
          rw [hl] at hquoted
          cases hquoted
      | doc =>
          rw [hl] at htypes
          cases htypes
      | _ => rfl

theorem endsType_of_atPunct {c : Char} (h : atPunct c [tree])
    (hc : ['/', '.', '#', '-'].contains c = false) :
  (lastLexeme tree).endsType
  := by
  obtain ⟨t, rfl⟩ := exists_of_atPunct_singleton h
  rw [lastLexeme, Lexeme.endsType_plain]
  simp only [atPunct, atLexeme] at h
  cases hl : t.lexeme with
  | punct d j =>
      rw [hl, Lexeme.isPunct, beq_iff_eq] at h
      subst h
      rw [Lexeme.endsType, hc]
      rfl
  | _ =>
      rw [hl] at h
      cases h

/-- A strictly balanced run ends as types do. -/
theorem TokenTree.Balanced.endsType (h : Balanced true inner u) (hinner : inner = false)
    (hlast : u.getLast? = some tree) :
  (lastLexeme tree).endsType
  := by
  induction h with
  | nil => cases hlast
  | @append _ u v hu hv ihu ihv =>
      rw [List.getLast?_append] at hlast
      cases hv : v.getLast? with
      | some last =>
          rw [hv] at hlast
          cases hlast
          apply ihv hinner hv
      | none =>
          rw [hv] at hlast
          apply ihu hinner hlast
  | plain h =>
      cases hlast
      subst hinner
      apply endsType_of_isPlain h
  | led _ h =>
      cases hlast
      subst hinner
      apply endsType_of_isPlain h
  | arrow h =>
      cases hlast
      apply endsType_of_atPunct (atPunct_of_atOperator h) (by decide)
  | separator h =>
      cases hlast
      apply endsType_of_atPunct (atPunct_of_atOperator h) (by decide)
  | @angle _ first last u _ _ h _ =>
      rw [← List.cons_append, List.getLast?_concat] at hlast
      cases hlast
      apply endsType_of_atPunct h (by decide)
  | mark => cases hinner

end Balanced

/-! ### Runs read between two cursors -/

/-- A run that stands among trees, with its span and an end as that of a type. -/
structure Run.StandsIn (run : Run) (trees : List TokenTree) : Prop where
  among : run.trees <:+: trees
  spans : Spans run.trees run.span.start run.span.stop
  ends : ∀ tree ∈ run.trees.getLast?, (lastLexeme tree).endsType

variable {c d : Cursor}

/-- The span of the run between two cursors reaches from the first tree between them to the last. -/
theorem spans_runUpTo {u : List TokenTree} (hc : c.trees = u ++ d.trees) (hu : u ≠ []) :
  Spans u (c.runUpTo d).span.start (c.runUpTo d).span.stop
  := by
  obtain ⟨first, rest, rfl⟩ := List.exists_cons_of_ne_nil hu
  have hfirst : c.span = first.span := by
    rw [Cursor.span, hc]
    rfl
  have hlast : (first :: rest).getLast? = some ((first :: rest).getLast hu) :=
    List.getLast?_eq_some_getLast hu
  rw [runUpTo, readUpTo_of_append hc, hlast, hfirst]
  use rfl
  rw [hlast]
  rfl

/-- The run between two cursors stands where they do. -/
theorem standsIn_runUpTo {u trees : List TokenTree} (hc : c.trees = u ++ d.trees) (hu : u ≠ [])
    (htrees : c.trees <:+ trees) (hends : ∀ tree ∈ u.getLast?, (lastLexeme tree).endsType) :
  (c.runUpTo d).StandsIn trees
  := by
  have hrun : (c.runUpTo d).trees = u := readUpTo_of_append hc
  constructor
  · rw [hrun]
    apply List.IsInfix.trans _ htrees.isInfix
    rw [hc]
    apply List.infix_append' [] u
  · rw [hrun]
    apply spans_runUpTo hc hu
  · rwa [hrun]

theorem TypeExpr.standsIn_of_read {allowPlus : Bool} {type : TypeExpr} {trees : List TokenTree}
    (h : TypeExpr.read allowPlus c = .ok (type, d)) (htrees : c.trees <:+ trees) :
  type.run.StandsIn trees
  := by
  obtain ⟨hpass, hrun⟩ := TypeExpr.passes_read h
  obtain ⟨hc, hbalanced⟩ := hpass.crosses.readUpTo
  have hne : c.readUpTo d ≠ [] := by
    have hne := TypeExpr.ne_nil_of_read h
    rwa [hrun] at hne
  rw [hrun]
  apply standsIn_runUpTo hc hne htrees
  intro tree htree
  apply hbalanced.endsType rfl htree

/-! ### Patterns -/

namespace PatternGrammar

variable {G : PatternGrammar} {kind : PatternKind} {parts : List Pattern} {run : Run}

theorem kind_of_readPath (h : G.readPath c = .ok (kind, parts, d)) :
  kind = .tupleStruct ∨ kind = .struct ∨ kind = .path
  := by
  rw [readPath] at h
  obtain ⟨e, _, h⟩ := ite_bind_eq_ok.mp h
  dsimp only at h
  split at h
  case h_1 =>
    obtain ⟨_, _, ⟨⟩⟩ := bind_eq_ok.mp h
    apply Or.inl rfl
  case h_2 =>
    cases h
    apply Or.inr (Or.inl rfl)
  case h_3 =>
    cases h
    apply Or.inr (Or.inr rfl)

/-- A capture may not have a pattern that starts with a path. -/
theorem admits_of_readPath (h : G.readPath c = .ok (kind, parts, d)) :
  Capture.admits (.mk kind run parts) = false
  := by
  rcases kind_of_readPath h with rfl | rfl | rfl <;> rfl

/-- A pattern that starts with a token and is two dots or one that a capture may have: a wildcard,
two dots or a name without a restriction. -/
inductive ReadsToken (c : Cursor) : PatternKind → List Pattern → Cursor → Prop
  | wildcard : atLexeme (· == .ident "_") c.trees → ReadsToken c .wildcard [] (c.skip 1)
  | dots : ¬ atLexeme (· == .ident "_") c.trees → atRest c.trees → ReadsToken c .rest [] (c.skip 2)
  | binding {t : Token} {d : Cursor} :
      ¬ atLexeme (· == .ident "_") c.trees → ¬ atPunct '&' c.trees → atBinding c.trees →
      ((c.skipKeyword "ref").skipKeyword "mut").expectIdent "a binding name" = .ok (t, d) →
        ReadsToken c (.binding t.text) [] d

theorem readsToken_of_readPlain (h : G.readPlain c = .ok (kind, parts, d))
    (ha : kind = .rest ∨ Capture.admits (.mk kind run parts)) :
  ReadsToken c kind parts d
  := by
  rw [readPlain] at h
  rcases ite_eq_iff.mp h with ⟨hblank, h⟩ | ⟨hblank, h⟩
  · cases h
    apply ReadsToken.wildcard hblank
  rcases ite_eq_iff.mp h with ⟨hrest, h⟩ | ⟨-, h⟩
  · cases h
    apply ReadsToken.dots hblank hrest
  rcases ite_eq_iff.mp h with ⟨-, h⟩ | ⟨href, h⟩
  · obtain ⟨_, _, ⟨⟩⟩ := bind_eq_ok.mp h
    rcases ha with ha | ha <;> cases ha
  rcases ite_eq_iff.mp h with ⟨hbinding, h⟩ | ⟨-, h⟩
  · obtain ⟨⟨t, e⟩, hident, h⟩ := bind_eq_ok.mp h
    rcases ite_eq_iff.mp h with ⟨-, h⟩ | ⟨-, h⟩
    · obtain ⟨_, _, ⟨⟩⟩ := bind_eq_ok.mp h
      rcases ha with ha | ha <;> cases ha
    · cases h
      apply ReadsToken.binding hblank href hbinding hident
  rcases ite_eq_iff.mp h with ⟨-, h⟩ | ⟨-, h⟩
  · cases h
    rcases ha with ha | ha <;> cases ha
  rcases ite_eq_iff.mp h with ⟨-, h⟩ | ⟨-, h⟩
  · cases h
    rcases ha with ha | ha <;> cases ha
  rcases ite_eq_iff.mp h with ⟨-, h⟩ | ⟨-, h⟩
  · rcases ha with rfl | ha
    · rcases kind_of_readPath h with hkind | hkind | hkind <;> cases hkind
    · rw [admits_of_readPath h] at ha
      cases ha
  cases h

end PatternGrammar

/-! ### Captures -/

namespace Capture

theorem admits_of_checkPattern {p : Pattern} (h : checkPattern p = .ok ()) :
  admits p
  := by
  obtain ⟨kind, run, parts⟩ := p
  rw [checkPattern] at h
  split at h
  case isTrue ha => apply ha
  case isFalse => cases h

end Capture

end ReturnCaptures
