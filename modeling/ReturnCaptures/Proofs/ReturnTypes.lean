import ReturnCaptures.Proofs.Ambiguity
import ReturnCaptures.Proofs.ItemExtent

/-!
# Types behind an arrow

A type that is read up to its end is put behind the arrow of `fn f() -> {}`. The item is read, with
a return clause that holds all of the type, unless the type starts with parentheses and goes on
behind them: the parentheses alone are then taken for a capture list, and there is no body where
the type goes on.
-/

namespace ReturnCaptures

open TokenTree Outcome Cursor

/-! ### Types in front of a block -/

/-- A type that is read up to its end is read in front of a block. -/
theorem TypeExpr.read_append_block {trees : List TokenTree} {stop : Span} {allowPlus : Bool}
    {type : TypeExpr} {d : Cursor} (h : TypeExpr.read allowPlus ⟨trees, stop⟩ = .ok (type, d))
    (hd : d.trees = []) {block : Group} (hblock : block.delimiter = .brace) (stop' : Span) :
  TypeExpr.read allowPlus ⟨trees ++ [block.tree], stop'⟩ = .ok (type, ⟨[block.tree], stop'⟩)
  := by
  have hendings : Endings [] [block.tree] := by
    use rfl
    simp [atEnding, atGroup, Group.tree, hblock]
  have hswaps : Swaps [] [block.tree] ⟨trees, stop⟩ ⟨trees ++ [block.tree], stop'⟩ :=
    ⟨trees, (List.append_nil _).symm, rfl⟩
  have hmark : ¬ d.AtMacroMark [] [block.tree] := by
    rintro ⟨hmark, -⟩
    rw [hd] at hmark
    cases hmark
  obtain ⟨⟨_, stop''⟩, h', u, hu, rfl⟩ :=
    TypeExpr.read_of_endings hendings hswaps h List.nil_suffix hmark
  obtain rfl : u = [] := by simpa [hd] using hu.symm
  obtain rfl : stop'' = stop' := (TypeExpr.passes_read h').1.crosses.stop
  exact h'

/-! ### Items around a return type -/

/-- The parts of an item `fn f() -> {}` around its return type. -/
structure ItemFrame where
  fnToken : Token
  nameToken : Token
  params : Group
  arrow : Arrow
  body : Group
  isFn : fnToken.lexeme = .keyword "fn"
  isName : ∃ name, nameToken.lexeme = .ident name
  params_delimiter : params.delimiter = .paren
  params_trees : params.trees = []
  isArrow : atOperator ['-', '>'] arrow.trees
  body_delimiter : body.delimiter = .brace

namespace ItemFrame

/-- The frame of `fn f() -> {}` with all of its tokens at one place. -/
def bare (span : Span) : ItemFrame where
  fnToken := ⟨.keyword "fn", span⟩
  nameToken := ⟨.ident "f", span⟩
  params := ⟨.paren, [], span, span⟩
  arrow := ⟨⟨.punct '-' true, span⟩, ⟨.punct '>' false, span⟩⟩
  body := ⟨.brace, [], span, span⟩
  isFn := rfl
  isName := ⟨"f", rfl⟩
  params_delimiter := rfl
  params_trees := rfl
  isArrow := rfl
  body_delimiter := rfl

variable (frame : ItemFrame)

/-- The item with a return type. -/
def around (type : List TokenTree) : List TokenTree :=
  .token frame.fnToken :: .token frame.nameToken :: frame.params.tree ::
    (frame.arrow.trees ++ (type ++ [frame.body.tree]))

/-- What stands in front of the arrow of a frame is read. -/
theorem read_around (type : List TokenTree) (stop : Span) :
  FunctionItem.read ⟨frame.around type, stop⟩ = (do
    let (returns, c) ← (ReturnClause.readAfter frame.arrow
      ⟨type ++ [frame.body.tree], stop⟩).during .returnClause
    let (whereClause, c) ← (WhereClause.read c).during .whereClause
    let (ending, last, c) ← (FunctionItem.readEnding c).during .body
    return (⟨[], none, ⟨none, none, none, none⟩, frame.fnToken, frame.nameToken,
      ⟨[], [], whereClause⟩, ⟨[], none, frame.params⟩, returns, ending,
      frame.fnToken.span.through last⟩, c))
  := by
  have hclause : ReturnClause.read ⟨frame.arrow.trees ++ (type ++ [frame.body.tree]), stop⟩ =
      ReturnClause.readAfter frame.arrow ⟨type ++ [frame.body.tree], stop⟩ := by
    apply ReturnClause.read_of_arrow rfl
    rw [Arrow.trees, List.cons_append, List.cons_append, atOperator_cons_cons]
    apply frame.isArrow
  rw [← hclause]
  obtain ⟨⟨_, _⟩, ⟨_, _⟩, ⟨_, _, opening, closing⟩, arrow, body, hfn, ⟨name, hname⟩, hparen, hnone,
    harrow, hbody⟩ := frame
  simp only [around] at hfn hname hparen hnone ⊢
  subst hfn hname hparen hnone
  rfl

variable {frame} {file : String} {trees : List TokenTree} {stop : Span}

/-- Behind a return clause that reaches up to the body, the body is read. -/
theorem ofTrees_around_of_clause {returns : ReturnClause}
    (h : ∀ stop, ReturnClause.readAfter frame.arrow ⟨trees ++ [frame.body.tree], stop⟩ =
      .ok (returns, ⟨[frame.body.tree], stop⟩)) :
  ∃ item, FunctionItem.ofTrees file (frame.around trees) = .ok item ∧ item.returns = returns
  := by
  have hwhere (stop : Span) : WhereClause.read ⟨[frame.body.tree], stop⟩ =
      .ok (none, ⟨[frame.body.tree], stop⟩) := rfl
  have hending (stop : Span) : FunctionItem.readEnding ⟨[frame.body.tree], stop⟩ =
      .ok (.body frame.body, frame.body.closing, ⟨[], stop⟩) := by
    rw [Group.tree, frame.body_delimiter, FunctionItem.readEnding]
    simp only [← frame.body_delimiter]
    rfl
  have hread (stop : Span) : ∃ item, FunctionItem.read ⟨frame.around trees, stop⟩ =
      .ok (item, ⟨[], stop⟩) ∧ item.returns = returns := by
    rw [read_around, FunctionItem.during_eq_ok.mpr (h stop)]
    exact ⟨_, bind_eq_ok.mpr ⟨_, rfl, bind_eq_ok.mpr ⟨_, FunctionItem.during_eq_ok.mpr (hwhere stop),
      bind_eq_ok.mpr ⟨_, FunctionItem.during_eq_ok.mpr (hending stop), rfl⟩⟩⟩, rfl⟩
  obtain ⟨item, hitem, hreturns⟩ := hread (Cursor.ofTrees file (frame.around trees)).stop
  use item
  rw [FunctionItem.ofTrees]
  constructor
  · rw [show Cursor.ofTrees file (frame.around trees) =
      ⟨frame.around trees, (Cursor.ofTrees file (frame.around trees)).stop⟩ from rfl, hitem]
    rfl
  · apply hreturns

/-- Behind a return clause that ends in front of a plus sign, no body is found. -/
theorem ofTrees_around_of_plus {returns : ReturnClause} {next : TokenTree} {rest : List TokenTree}
    (h : ∀ stop, ReturnClause.readAfter frame.arrow ⟨trees ++ [frame.body.tree], stop⟩ =
      .ok (returns, ⟨next :: rest, stop⟩)) (hnext : atPunct '+' [next]) :
  FunctionItem.ofTrees file (frame.around trees) =
    .error [Failure.diagnostic .body ⟨.expectedBody (some next), next.span⟩]
  := by
  obtain ⟨t, rfl⟩ := exists_of_atPunct_singleton hnext
  obtain ⟨joint, span, rfl⟩ := exists_of_isPunct hnext
  rw [FunctionItem.ofTrees, Cursor.ofTrees, read_around, h]
  rfl

/-- What stands behind the parentheses that trees start with. -/
def behindParens : List TokenTree → Option TokenTree
  | .group .paren _ _ _ :: trees => trees.head?
  | _ => none

theorem behindParens_of_not_paren (h : atGroup .paren trees = false) :
  behindParens trees = none
  := by
  unfold behindParens
  split
  case h_1 => cases h
  case h_2 => rfl

/-- An item with a type behind its arrow is read, and its return clause holds all of the type,
unless the type goes on behind parentheses that it starts with: then there is no body where it goes
on. -/
theorem ofTrees_around {type : TypeExpr} {d : Cursor} (frame : ItemFrame) (file : String)
    (h : TypeExpr.read true ⟨trees, stop⟩ = .ok (type, d)) (hd : d.trees = []) :
  match behindParens trees with
  | none => ∃ item, FunctionItem.ofTrees file (frame.around trees) = .ok item ∧
      item.returns.trees = frame.arrow.trees ++ trees
  | some next => FunctionItem.ofTrees file (frame.around trees) =
      .error [Failure.diagnostic .body ⟨.expectedBody (some next), next.span⟩]
  := by
  have hrun : trees = type.run.trees := by
    rw [← List.append_nil type.run.trees, ← hd]
    apply TypeExpr.trees_of_read h
  have hne : trees ≠ [] := by
    rw [hrun]
    apply TypeExpr.ne_nil_of_read h
  by_cases hparen : atGroup .paren trees
  · obtain ⟨g, rest, rfl, hg⟩ := exists_of_atGroup hparen
    obtain ⟨items, hitems⟩ := Capture.exists_readList_of_read hg rfl h
    have hclause (stop : Span) : ReturnClause.readAfter frame.arrow
        ⟨g.tree :: rest ++ [frame.body.tree], stop⟩ =
          .ok (.captures frame.arrow items g (frame.arrow.shaft.span.through g.closing),
            ⟨rest ++ [frame.body.tree], stop⟩) := by
      have hread := @ReturnClause.readAfter_paren ⟨g.tree :: rest ++ [frame.body.tree], stop⟩
        frame.arrow g _ hg rfl
      rwa [hitems] at hread
    cases rest with
    | nil =>
        obtain ⟨item, hitem, hreturns⟩ := @ofTrees_around_of_clause _ file _ _ hclause
        obtain ⟨_, _, _, _⟩ := g
        obtain rfl : _ = Delimiter.paren := hg
        use item, hitem
        rw [hreturns]
        rfl
    | cons next rest =>
        have hplus : atPunct '+' [next] := by
          obtain ⟨delimiter, inside, opening, closing⟩ := g
          obtain rfl : delimiter = .paren := hg
          rcases (TypeExpr.paren_of_read h rfl).1 with hend | hplus
          · rw [hd] at hend
            cases hend
          · rwa [atPunct_cons] at hplus
        obtain ⟨_, _, _, _⟩ := g
        obtain rfl : _ = Delimiter.paren := hg
        apply ofTrees_around_of_plus hclause hplus
  · rw [Bool.not_eq_true] at hparen
    have hclause (stop : Span) : ReturnClause.readAfter frame.arrow
        ⟨trees ++ [frame.body.tree], stop⟩ =
          .ok (.plain frame.arrow type (frame.arrow.shaft.span.through type.run.span),
            ⟨[frame.body.tree], stop⟩) := by
      rw [ReturnClause.readAfter_of_not_paren]
      · apply bind_eq_ok.mpr
        use (type, ⟨[frame.body.tree], stop⟩)
        use TypeExpr.read_append_block h hd frame.body_delimiter stop
        rfl
      · obtain ⟨first, rest, rfl⟩ := List.exists_cons_of_ne_nil hne
        cases first <;> exact hparen
    obtain ⟨item, hitem, hreturns⟩ := @ofTrees_around_of_clause _ file _ _ hclause
    rw [behindParens_of_not_paren hparen]
    use item, hitem
    rw [hreturns, ReturnClause.trees, ← hrun]

/-- A type that ends with an exclamation mark does not take the body behind it for the arguments of a
macro call. -/
theorem ofTrees_around_never :
  ∃ (frame : ItemFrame) (trees : List TokenTree) (stop : Span) (type : TypeExpr) (d : Cursor),
    TokenTree.ofText "f.rs" "fn(u8) -> !".toList = .ok trees ∧
    TypeExpr.read true ⟨trees, stop⟩ = .ok (type, d) ∧ d.trees = [] ∧
    ∃ item, FunctionItem.ofTrees "f.rs" (frame.around trees) = .ok item ∧
      item.returns.trees = frame.arrow.trees ++ trees
  := by
  let span := Span.fileStart "f.rs"
  obtain ⟨trees, htrees, h⟩ := Outcome.exists_of_any
    (x := TokenTree.ofText "f.rs" "fn(u8) -> !".toList)
    (p := fun trees => (behindParens trees).isNone &&
      (TypeExpr.read true ⟨trees, Span.fileStart "f.rs"⟩).toOption.any fun a => a.2.atEnd)
    (by decide +kernel)
  rw [Bool.and_eq_true, Option.isNone_iff_eq_none] at h
  obtain ⟨⟨type, d⟩, hread, hd⟩ := Outcome.exists_of_any h.2
  rw [Cursor.atEnd, List.isEmpty_iff] at hd
  have hitem := ofTrees_around (.bare span) "f.rs" hread hd
  rw [h.1] at hitem
  exact ⟨_, trees, span, type, d, htrees, hread, hd, hitem⟩

/-- A type that goes on behind parentheses is not read behind an arrow. -/
theorem ofTrees_around_ne_paren :
  ∃ (frame : ItemFrame) (trees : List TokenTree) (stop : Span) (type : TypeExpr) (d : Cursor),
    TokenTree.ofText "f.rs" "(A) + B".toList = .ok trees ∧
    TypeExpr.read true ⟨trees, stop⟩ = .ok (type, d) ∧ d.trees = [] ∧
    ∀ item, FunctionItem.ofTrees "f.rs" (frame.around trees) ≠ .ok item
  := by
  let span := Span.fileStart "f.rs"
  obtain ⟨trees, htrees, h⟩ := Outcome.exists_of_any
    (x := TokenTree.ofText "f.rs" "(A) + B".toList)
    (p := fun trees =>
      (FunctionItem.ofTrees "f.rs" ((ItemFrame.bare span).around trees)).toOption.isNone &&
      (TypeExpr.read true ⟨trees, Span.fileStart "f.rs"⟩).toOption.any fun a => a.2.atEnd)
    (by decide +kernel)
  rw [Bool.and_eq_true, Option.isNone_iff_eq_none] at h
  obtain ⟨⟨type, d⟩, hread, hd⟩ := Outcome.exists_of_any h.2
  rw [Cursor.atEnd, List.isEmpty_iff] at hd
  refine ⟨.bare span, trees, span, type, d, htrees, hread, hd, ?_⟩
  intro item hitem
  rw [hitem] at h
  cases h.1

end ItemFrame

end ReturnCaptures
