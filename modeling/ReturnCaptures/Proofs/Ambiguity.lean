import ReturnCaptures.Expansion.Basic
import ReturnCaptures.Proofs.CaptureLists
import ReturnCaptures.Proofs.ItemParts

/-!
# Captures are unambiguous

Nothing can be read both as a capture with a pattern and as one without: a type that ends where a
capture does has no lone colon outside of its angle brackets, and a pattern with a type has one
behind the pattern. Parentheses in which a type is read are therefore a capture list as well, namely
one that binds nothing, so that parentheses behind an arrow are a capture list or no return clause
at all.
-/

namespace ReturnCaptures

open TokenTree Outcome Cursor

variable {c : Cursor} {arrow : Arrow} {g : Group} {r : List TokenTree}

/-- What is read with a pattern is not read as a bare type. -/
theorem Capture.readUnbound_ne_ok {bound : Pattern × TypeExpr × Cursor}
    (h : readBound c = .ok bound) (unbound : TypeExpr × Cursor) :
  readUnbound c ≠ .ok unbound
  := by
  intro hunbound
  obtain ⟨pattern, type, d⟩ := bound
  obtain ⟨type', d'⟩ := unbound
  obtain ⟨e, hpattern, hcolon, _⟩ := readBound_eq_ok.mp h
  obtain ⟨htype, hend⟩ := readUnbound_eq_ok.mp hunbound
  rw [TypeExpr.not_atColon_of_read htype hend hpattern] at hcolon
  cases hcolon

/-- Parentheses that a type starts with are a capture list. -/
theorem Capture.exists_readList_of_read {type : TypeExpr × Cursor} (hg : g.delimiter = .paren)
    (hc : c.trees = g.tree :: r) (h : TypeExpr.read true c = .ok type) :
  ∃ items, readList g = .ok items
  := by
  obtain ⟨delimiter, inside, opening, closing⟩ := g
  obtain rfl : delimiter = .paren := hg
  obtain ⟨_, types, htypes⟩ := TypeExpr.paren_of_read h hc
  use types.map .unbound
  apply readList_of_separated htypes

namespace ReturnClause

/-- Parentheses behind an arrow are read as a capture list. If they are none, they are not the start
of a type either. -/
theorem readAfter_paren (hg : g.delimiter = .paren) (hc : c.trees = g.tree :: r) :
  match Capture.readList g with
  | .ok items =>
    readAfter arrow c =
      .ok (.captures arrow items g (arrow.shaft.span.through g.closing), c.skip 1)
  | .error failure =>
    readAfter arrow c = .error failure ∧ ∀ type, TypeExpr.read true c ≠ .ok type
  := by
  have hno {failure : Failure} (hlist : Capture.readList g = .error failure)
      (type : TypeExpr × Cursor) : TypeExpr.read true c ≠ .ok type := by
    intro htype
    obtain ⟨items, hitems⟩ := Capture.exists_readList_of_read hg hc htype
    rw [hlist] at hitems
    cases hitems
  obtain ⟨delimiter, inside, opening, closing⟩ := g
  obtain rfl : delimiter = .paren := hg
  simp only [Group.tree] at hc
  cases hlist : Capture.readList ⟨.paren, inside, opening, closing⟩ with
  | ok items => simp only [readAfter, hc, hlist]
  | error failure =>
      use by
        cases htype : TypeExpr.read true c with
        | ok type => exact absurd htype (hno hlist type)
        | error _ => simp only [readAfter, hc, hlist, htype]
      apply hno hlist

/-- Nothing is read both as a capture with a pattern and as one without. Behind an arrow,
parentheses are therefore read as a capture list or not at all: if that fails, then reading a type
from them fails as well, and the failure of the capture list is reported. -/
theorem read_unambiguous :
  (∀ c bound unbound, Capture.readBound c = .ok bound → Capture.readUnbound c ≠ .ok unbound) ∧
  ∀ (c : Cursor) (arrow : Arrow) (g : Group) (r : List TokenTree),
    c.trees = arrow.trees ++ g.tree :: r → atOperator ['-', '>'] arrow.trees →
    g.delimiter = .paren →
      match Capture.readList g with
      | .ok items =>
        read c = .ok (.captures arrow items g (arrow.shaft.span.through g.closing), c.skip 3)
      | .error failure =>
        read c = .error failure ∧ ∀ type, TypeExpr.read true (c.skip 2) ≠ .ok type
  := by
  constructor
  · intro c bound unbound hbound
    apply Capture.readUnbound_ne_ok hbound
  · intro c arrow g r hc ha hg
    have hskip : (c.skip 2).trees = g.tree :: r := by simp [hc, Arrow.trees]
    have harrow : atOperator ['-', '>'] c.trees := by
      rw [hc, Arrow.trees, List.cons_append, List.cons_append, atOperator_cons_cons]
      apply ha
    rw [read_of_arrow hc harrow, ← skip_skip c 2 1]
    apply readAfter_paren hg hskip

/-- A pattern with a type is not a bare type, and a type that is preceded by a name without a colon
is neither a capture nor a type. -/
theorem read_unambiguous_juxtaposed :
  ∃ (c : Cursor) (bound : Pattern × TypeExpr × Cursor) (d : Cursor) (arrow : Arrow) (g : Group)
    (failure : Failure),
    Capture.readBound c = .ok bound ∧ (∀ unbound, Capture.readUnbound c ≠ .ok unbound) ∧
    d.trees = arrow.trees ++ [g.tree] ∧ atOperator ['-', '>'] arrow.trees ∧ g.delimiter = .paren ∧
    read d = .error failure ∧ ∀ type, TypeExpr.read true (d.skip 2) ≠ .ok type
  := by
  let span := Span.fileStart "f.rs"
  let word (name : String) : TokenTree := .token ⟨.ident name, span⟩
  let arrow : Arrow := ⟨⟨.punct '-' true, span⟩, ⟨.punct '>' false, span⟩⟩
  let g : Group := ⟨.paren, [word "a", word "u8"], span, span⟩
  obtain ⟨bound, hbound, _⟩ := Outcome.exists_of_any
    (x := Capture.readBound ⟨[word "a", punctAt span ':', word "u8"], span⟩)
    (p := fun _ => true) (by decide +kernel)
  have hunbound (unbound : TypeExpr × Cursor) := read_unambiguous.1 _ bound unbound hbound
  have hparen := read_unambiguous.2 ⟨arrow.trees ++ [g.tree], span⟩ arrow g [] rfl (by decide) rfl
  have hnone : (Capture.readList g).toOption.isNone := by decide +kernel
  cases hlist : Capture.readList g with
  | ok items =>
      rw [hlist] at hnone
      cases hnone
  | error failure =>
      rw [hlist] at hparen
      exact ⟨_, bound, _, arrow, g, failure, hbound, hunbound, rfl, by decide, rfl, hparen⟩

end ReturnClause

end ReturnCaptures
