import ReturnCaptures.Expansion.Trees
import ReturnCaptures.Proofs.PatternRuns

/-!
# The parts of an item keep their trees

Every part of a function item records the trees that it was read from: the trees in front
of a part are the recorded ones followed by the trees in front of the next part.
-/

namespace ReturnCaptures

open TokenTree Outcome Cursor

variable {strict inner : Bool} {c d : Cursor}

/-- The cursor `d` stands behind `c`, after the trees `u`. -/
structure Cursor.Reads (c : Cursor) (u : List TokenTree) (d : Cursor) : Prop where
  trees : c.trees = u ++ d.trees
  stop : d.stop = c.stop

theorem Cursor.Crosses.reads (h : c.Crosses strict inner d) :
  c.Reads (c.readUpTo d) d
  := ⟨h.readUpTo.1, h.stop⟩

theorem Cursor.Reads.nil (c : Cursor) :
  c.Reads [] c
  := ⟨rfl, rfl⟩

theorem Cursor.Reads.append {e : Cursor} {u v : List TokenTree} (h : c.Reads u d) (k : d.Reads v e) :
  c.Reads (u ++ v) e
  := by
  constructor
  · rw [h.trees, k.trees, List.append_assoc]
  · rw [k.stop, h.stop]

theorem Cursor.Reads.isSuffix {u : List TokenTree} (h : c.Reads u d) :
  d.trees <:+ c.trees
  := ⟨u, h.trees.symm⟩

theorem Cursor.Reads.congr {u v : List TokenTree} (h : c.Reads u d) (huv : u = v) :
  c.Reads v d
  := huv ▸ h

/-! ### Attributes, visibility and qualifiers

None of these parts holds the keyword that they stand in front of. -/

/-- Whether a tree is the keyword of a function item. -/
def TokenTree.isFn (tree : TokenTree) : Bool := atKeyword "fn" [tree]

/-- The trees of outer attributes and documentation comments, as they were read. -/
theorem flatMap_outerAttributesOf (trees : List TokenTree) :
  (outerAttributesOf trees).1.flatMap (·.trees) ++ (outerAttributesOf trees).2 = trees
  := by
  fun_induction outerAttributesOf trees with
  | case1 text span trees runs rest hrest ih => simpa [hrest] using ih
  | case2 joint span inside opening closing trees runs rest hrest ih => simpa [hrest] using ih
  | case3 trees => rfl

theorem balanced_outerAttributesOf (trees : List TokenTree) :
  Balanced false inner ((outerAttributesOf trees).1.flatMap (·.trees))
  := by
  fun_induction outerAttributesOf trees with
  | case1 text span trees runs rest hrest ih =>
      rw [hrest] at ih
      apply Balanced.append (.plain _) ih
      rfl
  | case2 joint span inside opening closing trees runs rest hrest ih =>
      rw [hrest] at ih
      apply Balanced.append (.append (u := [_]) (v := [_]) (.plain _) (.plain _)) ih
      · rfl
      · rfl
  | case3 trees => apply Balanced.nil

theorem isFn_of_mem_outerAttributesOf (trees : List TokenTree) :
  ∀ tree ∈ (outerAttributesOf trees).1.flatMap (·.trees), tree.isFn = false
  := by
  fun_induction outerAttributesOf trees with
  | case1 text span trees runs rest hrest ih =>
      simp only [hrest, List.flatMap_cons, List.singleton_append, List.forall_mem_cons] at ih ⊢
      use rfl
  | case2 joint span inside opening closing trees runs rest hrest ih =>
      simp only [hrest, List.flatMap_cons, List.cons_append, List.nil_append,
        List.forall_mem_cons] at ih ⊢
      use rfl, rfl
  | case3 trees => simp

theorem reads_outerAttributes {runs : List Run} (h : outerAttributes c = (runs, d)) :
  c.Reads (runs.flatMap (·.trees)) d
  := by
  obtain ⟨rfl, rfl⟩ := h
  use (flatMap_outerAttributesOf c.trees).symm

theorem crosses_outerAttributes (c : Cursor) :
  c.Crosses false inner (outerAttributes c).2
  := ⟨rfl, _, (flatMap_outerAttributesOf c.trees).symm, balanced_outerAttributesOf c.trees⟩

theorem isSuffix_outerAttributes (c : Cursor) :
  (outerAttributes c).2.trees <:+ c.trees
  := by
  rw [← flatMap_outerAttributesOf c.trees]
  apply List.suffix_append

namespace FunctionItem

theorem reads_visibility {visibility : Option Run} (h : readVisibility c = (visibility, d)) :
  c.Reads (visibility.toList.flatMap (·.trees)) d ∧
    ∀ tree ∈ visibility.toList.flatMap (·.trees), tree.isFn = false
  := by
  unfold readVisibility at h
  split at h
  case h_1 span rest hc =>
    split at h
    case h_1 inside opening closing rest =>
      split at h
      · cases h
        use ⟨by simp [hc], rfl⟩
        simp [isFn, atKeyword, atLexeme, Lexeme.isKeyword]
      · cases h
        use ⟨by simp [hc, Run.single], rfl⟩
        simp [Run.single, isFn, atKeyword, atLexeme, Lexeme.isKeyword]
    case h_2 =>
      cases h
      use ⟨by simp [hc, Run.single], rfl⟩
      simp [Run.single, isFn, atKeyword, atLexeme, Lexeme.isKeyword]
  case h_2 =>
    cases h
    use Reads.nil c
    simp

theorem reads_keyword? {word : String} {t : Option Token} (h : readKeyword? word c = (t, d))
    (hw : word ≠ "fn") :
  c.Reads (t.toList.map .token) d ∧ ∀ s ∈ t.toList, s.lexeme.isKeyword "fn" = false
  := by
  unfold readKeyword? at h
  split at h
  case h_1 s rest hc =>
    split at h
    case isTrue hs =>
      cases h
      use ⟨by simp [hc], rfl⟩
      cases hl : s.lexeme <;> simp_all [Lexeme.isKeyword]
    case isFalse =>
      cases h
      use Reads.nil c
      simp
  case h_2 =>
    cases h
    use Reads.nil c
    simp

theorem reads_abiName {t : Option Token} (h : readAbiName c = (t, d)) :
  c.Reads (t.toList.map .token) d ∧ ∀ s ∈ t.toList, s.lexeme.isKeyword "fn" = false
  := by
  unfold readAbiName at h
  split at h
  case h_1 s rest hc =>
    split at h
    case isTrue hs =>
      cases h
      use ⟨by simp [hc], rfl⟩
      rw [hc] at hs
      cases hl : s.lexeme <;> simp_all [TypeGrammar.atAbiName, atLexeme, Lexeme.isKeyword]
    case isFalse =>
      cases h
      use Reads.nil c
      simp
  case h_2 =>
    cases h
    use Reads.nil c
    simp

theorem reads_qualifiers {q : Qualifiers} (h : readQualifiers c = (q, d)) :
  c.Reads (q.tokens.map .token) d ∧ ∀ t ∈ q.tokens, t.lexeme.isKeyword "fn" = false
  := by
  unfold readQualifiers at h
  rcases h₁ : readKeyword? "const" c with ⟨constness, c₁⟩
  rcases h₂ : readKeyword? "async" c₁ with ⟨asyncness, c₂⟩
  rcases h₃ : readKeyword? "unsafe" c₂ with ⟨unsafety, c₃⟩
  obtain ⟨hr₁, hn₁⟩ := reads_keyword? h₁ (by decide)
  obtain ⟨hr₂, hn₂⟩ := reads_keyword? h₂ (by decide)
  obtain ⟨hr₃, hn₃⟩ := reads_keyword? h₃ (by decide)
  have hthree := (hr₁.append hr₂).append hr₃
  have nthree : ∀ t ∈ constness.toList ++ asyncness.toList ++ unsafety.toList,
      t.lexeme.isKeyword "fn" = false := by
    intro t ht
    simp only [List.mem_append] at ht
    rcases ht with (ht | ht) | ht
    · apply hn₁ t ht
    · apply hn₂ t ht
    · apply hn₃ t ht
  simp only [h₁, h₂, h₃] at h
  split at h
  case h_1 keyword c₄ h₄ =>
    rcases hname : readAbiName c₄ with ⟨name, c₅⟩
    simp only [hname, Prod.mk.injEq] at h
    obtain ⟨rfl, rfl⟩ := h
    obtain ⟨hr₄, hn₄⟩ := reads_keyword? h₄ (by decide)
    obtain ⟨rname, nname⟩ := reads_abiName hname
    constructor
    · simpa [Qualifiers.tokens] using hthree.append (hr₄.append rname)
    · intro t ht
      simp only [Qualifiers.tokens, List.mem_append, List.mem_cons] at ht
      rcases ht with ht | rfl | ht
      · apply nthree t (List.mem_append.mpr (by simpa using ht))
      · apply hn₄
        simp
      · apply nname t ht
  case h_2 c₄ h₄ =>
    simp only [Prod.mk.injEq] at h
    obtain ⟨rfl, rfl⟩ := h
    obtain ⟨hr₄, _⟩ := reads_keyword? h₄ (by decide)
    constructor
    · simpa [Qualifiers.tokens] using hthree.append hr₄
    · intro t ht
      apply nthree t
      simpa [Qualifiers.tokens] using ht

end FunctionItem

/-! ### Generic parameters -/

theorem crosses_optionalBounds (h : optionalBounds c = .ok d) :
  c.Crosses true false d
  := by
  unfold optionalBounds at h
  split at h
  case isTrue => apply (TypeGrammar.sound_upTo c).bounds h
  case isFalse =>
    cases h
    apply Crosses.refl

namespace GenericParam

variable {kind : GenericParamKind} {name : String}

theorem passes_readConst (hconst : atKeyword "const" c.trees)
    (h : readConst c = .ok (kind, name, d)) :
  c.Passes false true d
  := by
  simp only [readConst, bind_eq_ok, expectColon_eq_ok] at h
  obtain ⟨⟨t, c₁⟩, hname, c₂, ⟨hcolon, rfl⟩, ⟨type, c₃⟩, htype, h⟩ := h
  apply Passes.skip hconst (Crosses.keyword hconst)
  apply Crosses.trans (Passes.expectIdent hname).crosses
  apply Crosses.trans (Crosses.colon hcolon)
  apply Crosses.trans (TypeExpr.passes_read htype).1.crosses.toInner.toLoose
  split at h
  case isTrue hdefault =>
    obtain ⟨e, harg, ⟨⟩⟩ := bind_eq_ok.mp h
    apply Crosses.trans (Crosses.single hdefault (by rfl)) (crosses_constArgument harg)
  case isFalse =>
    cases h
    apply Crosses.refl

theorem crosses_readType {name' : String} (h : readType name c = .ok (kind, name', d)) :
  c.Crosses false true d
  := by
  obtain ⟨e, hbounds, h⟩ := ite_bind_eq_ok.mp h
  obtain ⟨f, hdefault, ⟨⟩⟩ := ite_bind_eq_ok.mp h
  have he : c.Crosses false true e := by
    rcases ite_eq_iff.mp hbounds with ⟨hcolon, hbounds⟩ | ⟨-, hbounds⟩
    · apply Crosses.trans (Crosses.colon hcolon)
      apply (crosses_optionalBounds hbounds).toInner.toLoose
    · cases hbounds
      apply Crosses.refl
  apply he.trans
  rcases ite_eq_iff.mp hdefault with ⟨hequals, hdefault⟩ | ⟨-, hdefault⟩
  · apply Crosses.trans (Crosses.single hequals (by rfl))
    apply (TypeExpr.passes_map_read hdefault).crosses.toInner.toLoose
  · cases hdefault
    apply Crosses.refl

theorem passes_readPlain (h : readPlain c = .ok (kind, name, d)) :
  c.Passes false true d
  := by
  unfold readPlain at h
  split at h
  case h_1 word span r hc =>
    cases h
    apply (Passes.tree hc rfl).trans
    apply Crosses.ite
    intro hcolon
    apply Crosses.trans (Crosses.colon hcolon) (crosses_lifetimeBounds _).toLoose
  case h_2 span r hc =>
    apply passes_readConst _ h
    rw [hc]
    rfl
  case h_3 word span r hc =>
    apply (Passes.tree hc rfl).trans (crosses_readType h)
  case h_4 => cases h

theorem passes_read {param : GenericParam} (h : GenericParam.read c = .ok (param, d)) :
  c.Passes false true d
  := by
  obtain ⟨⟨kind, name, e⟩, hplain, ⟨⟩⟩ := bind_eq_ok.mp h
  apply (crosses_outerAttributes c).trans_passes (passes_readPlain hplain)

end GenericParam

namespace Generics

theorem closes_readParams {params : List GenericParam} {bound : Nat}
    (h : readParams bound c = .ok (params, d)) :
  c.Closes false d
  := by
  induction bound generalizing c params with
  | zero => cases h
  | succ bound ih =>
      rcases ite_eq_iff.mp h with ⟨hclose, h⟩ | ⟨-, h⟩
      · cases h
        apply Closes.last hclose
      · obtain ⟨⟨param, e⟩, hparam, h⟩ := bind_eq_ok.mp h
        apply (GenericParam.passes_read hparam).crosses.closes
        rcases ite_eq_iff.mp h with ⟨hcomma, h⟩ | ⟨-, h⟩
        · obtain ⟨⟨params, f⟩, hmore, ⟨⟩⟩ := bind_eq_ok.mp h
          apply (Crosses.mark _).closes (ih hmore)
          simpa using Or.inr hcomma
        · obtain ⟨f, hlast, ⟨⟩⟩ := bind_eq_ok.mp h
          obtain ⟨hgt, rfl⟩ := expect_eq_ok.mp hlast
          apply Closes.last hgt

/-- Generic parameters are nothing, or stand between angle brackets. -/
theorem reads_read {g : Generics} (h : Generics.read c = .ok (g, d)) :
  c.Reads g.trees d ∧ (g.trees = [] ∨ IsAngled false g.trees)
  := by
  rcases ite_eq_iff.mp h with ⟨-, h⟩ | ⟨hsome, h⟩
  · cases h
    use Reads.nil c, .inl rfl
  · obtain ⟨⟨params, e⟩, hparams, ⟨⟩⟩ := bind_eq_ok.mp h
    have hlt : atPunct '<' c.trees := by simpa using hsome
    have hclose := closes_readParams hparams
    obtain ⟨u, hc, hu⟩ := Closes.exists_isAngled hlt hclose
    have hreads : c.readUpTo d = u := readUpTo_of_append hc
    constructor
    · use by rw [hreads, hc], hclose.stop
    · right
      rwa [hreads]

end Generics

/-! ### Where clauses -/

namespace WhereClause

theorem passes_predicate (h : predicate c = .ok d) :
  c.Passes false true d
  := by
  rcases ite_eq_iff.mp h with ⟨hl, h⟩ | ⟨-, h⟩
  · obtain ⟨e, hexpect, ⟨⟩⟩ := bind_eq_ok.mp h
    obtain ⟨hcolon, rfl⟩ := expectColon_eq_ok.mp hexpect
    apply Passes.skip hl (Crosses.lifetime hl)
    apply Crosses.trans (Crosses.colon hcolon) (crosses_lifetimeBounds _).toLoose
  · obtain ⟨e, hfor, h⟩ := ite_bind_eq_ok.mp h
    obtain ⟨⟨type, f⟩, htype, h⟩ := bind_eq_ok.mp h
    obtain ⟨g, hexpect, h⟩ := bind_eq_ok.mp h
    obtain ⟨hcolon, rfl⟩ := expectColon_eq_ok.mp hexpect
    have he : c.Crosses true true e := by
      rcases ite_eq_iff.mp hfor with ⟨-, hfor⟩ | ⟨-, hfor⟩
      · apply (passes_forBinder hfor).crosses
      · cases hfor
        apply Crosses.refl
    apply he.toLoose.trans_passes
    apply (TypeExpr.passes_read htype).1.toInner.toLoose.trans
    apply Crosses.trans (Crosses.colon hcolon) (crosses_optionalBounds h).toInner.toLoose

theorem crosses_readPredicates {bound : Nat} {runs : List Run}
    (h : readPredicates bound c = .ok (runs, d)) :
  c.Crosses false true d
  := by
  induction bound generalizing c runs with
  | zero => cases h
  | succ bound ih =>
      rcases ite_eq_iff.mp h with ⟨-, h⟩ | ⟨-, h⟩
      · cases h
        apply Crosses.refl
      · obtain ⟨e, hpredicate, h⟩ := bind_eq_ok.mp h
        apply Crosses.trans (passes_predicate hpredicate).crosses
        rcases ite_eq_iff.mp h with ⟨hcomma, h⟩ | ⟨-, h⟩
        · obtain ⟨⟨runs, f⟩, hmore, ⟨⟩⟩ := bind_eq_ok.mp h
          apply Crosses.trans (Crosses.mark _) (ih hmore)
          simpa using Or.inr hcomma
        · cases h
          apply Crosses.refl

/-- A where clause starts with its keyword. -/
theorem reads_read {clause : Option WhereClause} (h : WhereClause.read c = .ok (clause, d)) :
  c.Reads (clause.toList.flatMap (·.run.trees)) d ∧
    (clause.toList.flatMap (·.run.trees) = [] ∨
      atKeyword "where" (clause.toList.flatMap (·.run.trees)))
  := by
  rcases ite_eq_iff.mp h with ⟨-, h⟩ | ⟨hsome, h⟩
  · cases h
    use Reads.nil c, .inl rfl
  · obtain ⟨⟨runs, e⟩, hpredicates, ⟨⟩⟩ := bind_eq_ok.mp h
    have hword : atKeyword "where" c.trees := by simpa using hsome
    have hcross := crosses_readPredicates hpredicates
    obtain ⟨t, r, hc, ht⟩ := exists_of_atLexeme hword
    have hreads : c.readUpTo d = .token t :: (c.skip 1).readUpTo d := by
      apply readUpTo_of_append
      rw [List.cons_append, ← hcross.readUpTo.1, trees_skip_one hc, hc]
    have hclause : (some (⟨runs, c.runUpTo d⟩ : WhereClause)).toList.flatMap (·.run.trees) =
        c.readUpTo d := by simp [runUpTo]
    rw [hclause]
    constructor
    · apply ((Crosses.keyword hword).trans hcross).reads
    · right
      rw [hreads]
      apply ht

end WhereClause

/-! ### Parameters, return clauses and endings -/

theorem ParamList.reads_read {params : ParamList} (h : ParamList.read c = .ok (params, d)) :
  c.Reads [params.group.tree] d ∧ params.group.delimiter = .paren
  := by
  obtain ⟨⟨g, e⟩, hgroup, h⟩ := bind_eq_ok.mp h
  obtain ⟨entries, _, ⟨⟩⟩ := bind_eq_ok.mp h
  obtain ⟨hdelimiter, hc, hstop⟩ := expectGroup_eq_ok.mp hgroup
  use ⟨hc, hstop⟩

namespace ReturnClause

/-- The trees that a return clause was read from. -/
def trees : ReturnClause → List TokenTree
  | absent => []
  | plain arrow type _ => arrow.trees ++ type.run.trees
  | captures arrow _ g _ => arrow.trees ++ [g.tree]

/-- What a return clause is that is read between two cursors: nothing unless an arrow comes
next, a capture list if parentheses come after the arrow that can be read as one, and a
type otherwise. -/
inductive Follows (c : Cursor) : ReturnClause → Cursor → Prop
  | absent : atOperator ['-', '>'] c.trees = false → Follows c .absent c
  | plain {arrow : Arrow} {type : TypeExpr} {d : Cursor} :
      c.trees = arrow.trees ++ (c.skip 2).trees → atOperator ['-', '>'] arrow.trees →
      TypeExpr.read true (c.skip 2) = .ok (type, d) →
      (∀ g : Group, g.delimiter = .paren → (c.skip 2).trees.head? = some g.tree →
        ∀ items, Capture.readList g ≠ .ok items) →
      Follows c (.plain arrow type (arrow.shaft.span.through type.run.span)) d
  | captures {arrow : Arrow} {items : List Capture} {g : Group} {d : Cursor} :
      c.trees = arrow.trees ++ (c.skip 2).trees → atOperator ['-', '>'] arrow.trees →
      g.delimiter = .paren → (c.skip 2).trees = g.tree :: d.trees → d.stop = c.stop →
      Capture.readList g = .ok items →
      Follows c (.captures arrow items g (arrow.shaft.span.through g.closing)) d

/-- Behind an arrow, what follows it is read. -/
theorem read_of_arrow {arrow : Arrow} {rest : List TokenTree} (h : c.trees = arrow.trees ++ rest)
    (ha : atOperator ['-', '>'] c.trees) :
  ReturnClause.read c = readAfter arrow (c.skip 2)
  := by
  rw [ReturnClause.read]
  split
  case h_1 hc =>
    rw [hc] at h
    cases h
    rw [if_pos ha]
  case h_2 hnot => apply absurd h (hnot _ _ _)

theorem follows_readAfter {arrow : Arrow} {returns : ReturnClause}
    (hc : c.trees = arrow.trees ++ (c.skip 2).trees) (ha : atOperator ['-', '>'] arrow.trees)
    (h : readAfter arrow (c.skip 2) = .ok (returns, d)) :
  Follows c returns d
  := by
  unfold readAfter at h
  split at h
  case h_1 inside opening closing r hr =>
    simp only at h
    split at h
    case h_1 items hitems =>
      cases h
      have hg : (c.skip 2).trees =
          Group.tree ⟨.paren, inside, opening, closing⟩ :: ((c.skip 2).skip 1).trees := by
        rw [hr, trees_skip_one hr]
        rfl
      apply Follows.captures hc ha rfl hg rfl hitems
    case h_2 failure hfailure =>
      split at h
      case h_1 type e htype =>
        cases h
        apply Follows.plain hc ha htype
        rintro ⟨_, _, _, _⟩ rfl hg items hitems
        simp only [hr, List.head?_cons, Group.tree, Option.some.injEq,
          TokenTree.group.injEq, true_and] at hg
        obtain ⟨rfl, rfl, rfl⟩ := hg
        rw [hfailure] at hitems
        cases hitems
      case h_2 => cases h
  case h_2 hr =>
    obtain ⟨⟨type, e⟩, htype, ⟨⟩⟩ := bind_eq_ok.mp h
    apply Follows.plain hc ha htype
    rintro ⟨_, inside, opening, closing⟩ rfl hg
    obtain ⟨r, hr'⟩ := List.head?_eq_some_iff.mp hg
    apply absurd hr' (hr inside opening closing r)

theorem follows_read {returns : ReturnClause} (h : ReturnClause.read c = .ok (returns, d)) :
  Follows c returns d
  := by
  unfold ReturnClause.read at h
  split at h
  case h_1 shaft tip r hc =>
    split at h
    case isTrue ha =>
      apply follows_readAfter _ _ h
      · simp [hc, Arrow.trees]
      · rwa [hc, atOperator_cons_cons] at ha
    case isFalse ha =>
      cases h
      apply Follows.absent (by simpa using ha)
  case h_2 hc =>
    cases h
    apply Follows.absent
    apply Bool.eq_false_iff.mpr
    intro ha
    obtain ⟨first, second, r, hc', ha⟩ := exists_of_atOperator ha
    obtain ⟨shaft, rfl⟩ := exists_of_atPunct_singleton (atPunct_first_of_atOperator ha)
    obtain ⟨tip, rfl⟩ := exists_of_atPunct_singleton (atPunct_of_atOperator ha)
    apply hc shaft tip r hc'

theorem Follows.reads {returns : ReturnClause} (h : Follows c returns d) :
  c.Reads returns.trees d
  := by
  cases h with
  | absent => apply Reads.nil
  | plain hc _ htype _ =>
      obtain ⟨hpass, hrun⟩ := TypeExpr.passes_read htype
      obtain ⟨htrees, hstop⟩ := hpass.crosses.reads
      constructor
      · rw [hc, htrees, trees, hrun, runUpTo, List.append_assoc]
      · exact hstop
  | captures hc _ _ hg hstop _ =>
      constructor
      · rw [hc, hg, trees, List.append_assoc, List.singleton_append]
      · exact hstop

end ReturnClause

theorem FunctionItem.reads_readEnding {ending : Ending} {stop : Span}
    (h : readEnding c = .ok (ending, stop, d)) :
  c.Reads [ending.tree] d ∧ (atGroup .brace [ending.tree] || atPunct ';' [ending.tree])
  := by
  unfold readEnding at h
  split at h
  case h_1 inside opening closing r hc =>
    cases h
    use ⟨by simp [hc, Ending.tree, Group.tree], rfl⟩
    rfl
  case h_2 t r hc =>
    split at h
    case isTrue hsemicolon =>
      cases h
      use ⟨by simp [hc, Ending.tree], rfl⟩
      rw [Bool.or_eq_true]
      right
      apply hsemicolon
    case isFalse => cases h
  case h_3 => cases h

/-! ### Items -/

/-- The trees of an item after its return clause and before its ending. -/
def Expansion.tailTrees (item : FunctionItem) : List TokenTree :=
  item.generics.whereClause.toList.flatMap (·.run.trees)

namespace FunctionItem

theorem during_eq_ok {α : Type} {stage : Stage} {outcome : Outcome α} {a : α} :
  outcome.during stage = .ok a ↔ outcome = .ok a
  := by
  cases outcome <;> simp [Outcome.during, Except.mapError]

theorem during_eq_error {α : Type} {stage : Stage} {outcome : Outcome α} {diagnostic : Diagnostic} :
  outcome.during stage = .error diagnostic ↔
    ∃ failure, outcome = .error failure ∧ diagnostic = failure.diagnostic stage
  := by cases outcome <;> simp [Outcome.during, Except.mapError, eq_comm]

/-- The steps in which an item is read: the cursors between its parts, and the outcome of
each step. -/
structure Steps (c : Cursor) (item : FunctionItem) (d : Cursor) where
  afterAttributes : Cursor
  afterVisibility : Cursor
  afterQualifiers : Cursor
  afterFn : Cursor
  afterName : Cursor
  afterGenerics : Cursor
  afterParams : Cursor
  afterReturns : Cursor
  afterWhere : Cursor
  params : List GenericParam
  stop : Span
  attributes_eq : outerAttributes c = (item.attributes, afterAttributes)
  visibility_eq : readVisibility afterAttributes = (item.visibility, afterVisibility)
  qualifiers_eq : readQualifiers afterVisibility = (item.qualifiers, afterQualifiers)
  fn_eq : afterQualifiers.expectToken (ticked "fn") (·.isKeyword "fn") = .ok (item.fnToken, afterFn)
  name_eq : afterFn.expectIdent "function name" = .ok (item.nameToken, afterName)
  generics_eq : Generics.read afterName = .ok (⟨params, item.generics.trees, none⟩, afterGenerics)
  params_eq : ParamList.read afterGenerics = .ok (item.params, afterParams)
  returns_eq : ReturnClause.read afterParams = .ok (item.returns, afterReturns)
  where_eq : WhereClause.read afterReturns = .ok (item.generics.whereClause, afterWhere)
  ending_eq : readEnding afterWhere = .ok (item.ending, stop, d)
  span_eq : item.span = c.span.through stop

theorem Generics.whereClause_of_read {g : Generics} (h : Generics.read c = .ok (g, d)) :
  g.whereClause = none
  := by
  rcases ite_eq_iff.mp h with ⟨-, h⟩ | ⟨-, h⟩
  · cases h
    rfl
  · obtain ⟨_, _, ⟨⟩⟩ := bind_eq_ok.mp h
    rfl

/-- Every item that is read is read in these steps, with its generic parameters. -/
theorem exists_steps {item : FunctionItem} (h : read c = .ok (item, d)) :
  ∃ s : Steps c item d, s.params = item.generics.params
  := by
  unfold read at h
  rcases hattributes : outerAttributes c with ⟨attributes, c₁⟩
  rcases hvisibility : readVisibility c₁ with ⟨visibility, c₂⟩
  rcases hqualifiers : readQualifiers c₂ with ⟨qualifiers, c₃⟩
  simp only [hattributes, hvisibility, hqualifiers] at h
  obtain ⟨⟨fnToken, c₄⟩, hfn, h⟩ := bind_eq_ok.mp h
  obtain ⟨⟨nameToken, c₅⟩, hname, h⟩ := bind_eq_ok.mp h
  obtain ⟨⟨⟨genericParams, genericTrees, _⟩, c₆⟩, hgenerics, h⟩ := bind_eq_ok.mp h
  obtain ⟨⟨params, c₇⟩, hparams, h⟩ := bind_eq_ok.mp h
  obtain ⟨⟨returns, c₈⟩, hreturns, h⟩ := bind_eq_ok.mp h
  obtain ⟨⟨whereClause, c₉⟩, hwhere, h⟩ := bind_eq_ok.mp h
  obtain ⟨⟨ending, stop, c₁₀⟩, hending, ⟨⟩⟩ := bind_eq_ok.mp h
  rw [during_eq_ok] at hfn hname hgenerics hparams hreturns hwhere hending
  obtain rfl : _ = none := Generics.whereClause_of_read hgenerics
  use ⟨c₁, c₂, c₃, c₄, c₅, c₆, c₇, c₈, c₉, genericParams, stop, hattributes, hvisibility,
    hqualifiers, hfn, hname, hgenerics, hparams, hreturns, hwhere, hending, rfl⟩

theorem nonempty_steps {item : FunctionItem} (h : read c = .ok (item, d)) :
  Nonempty (Steps c item d)
  := by
  obtain ⟨s, -⟩ := exists_steps h
  exact ⟨s⟩

/-- An item is read if its steps can be taken. -/
theorem read_of_steps {item : FunctionItem} (s : Steps c item d)
    (hparams : s.params = item.generics.params) :
  read c = .ok (item, d)
  := by
  unfold read
  simp only [s.attributes_eq, s.visibility_eq, s.qualifiers_eq]
  apply bind_eq_ok.mpr ⟨_, during_eq_ok.mpr s.fn_eq, _⟩
  apply bind_eq_ok.mpr ⟨_, during_eq_ok.mpr s.name_eq, _⟩
  apply bind_eq_ok.mpr ⟨_, during_eq_ok.mpr s.generics_eq, _⟩
  apply bind_eq_ok.mpr ⟨_, during_eq_ok.mpr s.params_eq, _⟩
  apply bind_eq_ok.mpr ⟨_, during_eq_ok.mpr s.returns_eq, _⟩
  apply bind_eq_ok.mpr ⟨_, during_eq_ok.mpr s.where_eq, _⟩
  apply bind_eq_ok.mpr ⟨_, during_eq_ok.mpr s.ending_eq, _⟩
  simp only [← s.span_eq, hparams]
  rfl

namespace Steps

variable {item : FunctionItem}

/-- The trees in front of the parameters stand in front of them. -/
theorem reads_head (s : Steps c item d) :
  c.Reads (Expansion.headTrees item) s.afterParams
  := by
  have hfn : s.afterQualifiers.Reads [.token item.fnToken] s.afterFn := by
    obtain ⟨_, hc, hstop⟩ := expectToken_eq_ok.mp s.fn_eq
    use hc
  have hname : s.afterFn.Reads [.token item.nameToken] s.afterName := by
    obtain ⟨_, hc, hstop⟩ := expectIdent_eq_ok.mp s.name_eq
    use hc
  have hattributes := reads_outerAttributes s.attributes_eq
  have hvisibility := (reads_visibility s.visibility_eq).1
  have hqualifiers := (reads_qualifiers s.qualifiers_eq).1
  have hgenerics := (Generics.reads_read s.generics_eq).1
  have hparams := (ParamList.reads_read s.params_eq).1
  apply (hattributes.append (hvisibility.append (hqualifiers.append (hfn.append (hname.append
    (hgenerics.append hparams)))))).congr
  simp [Expansion.headTrees]

/-- An item consists of the trees of its parts. -/
theorem reads (s : Steps c item d) :
  c.Reads (Expansion.headTrees item ++ item.returns.trees ++ Expansion.tailTrees item ++
    [item.ending.tree]) d
  := by
  have hreturns := (ReturnClause.follows_read s.returns_eq).reads
  have hwhere := (WhereClause.reads_read s.where_eq).1
  have hending := (reads_readEnding s.ending_eq).1
  apply ((s.reads_head.append hreturns).append hwhere).append hending

end Steps

/-- Trees that form an item are read up to their end. -/
theorem exists_read_of_ofTrees {file : String} {trees : List TokenTree} {item : FunctionItem}
    (h : ofTrees file trees = .ok item) :
  ∃ d, read (.ofTrees file trees) = .ok (item, d) ∧ d.trees = []
  := by
  unfold ofTrees at h
  split at h
  case h_1 item d hread =>
    split at h
    case isTrue hend =>
      cases h
      use d, hread
      simpa [atEnd] using hend
    case isFalse => cases h
  case h_2 => cases h

theorem steps_of_ofTrees {file : String} {trees : List TokenTree} {item : FunctionItem}
    (h : ofTrees file trees = .ok item) :
  ∃ d, Nonempty (Steps (.ofTrees file trees) item d) ∧ d.trees = []
  := by
  obtain ⟨d, hread, hd⟩ := exists_read_of_ofTrees h
  use d, nonempty_steps hread

end FunctionItem

end ReturnCaptures
