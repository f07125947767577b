import ReturnCaptures.Proofs.RelocatedItems
import ReturnCaptures.Proofs.Sites

/-!
# Relocated sources

A stretch of a text may be copied into another text. The items that are marked in the trees of the
stretch are then marked in the trees of the copy, their renderings are the same, and their edits
are moved with them.
-/

namespace ReturnCaptures

open TokenTree

variable {φ : Nat → Nat}

/-! ### Expansions -/

/-- A declaration that stands elsewhere. -/
def Declaration.relocate (φ : Nat → Nat) (d : Declaration) : Declaration :=
  ⟨d.patterns.map (Pattern.relocate φ), d.types.map (TypeExpr.relocate φ), relocateAll φ d.trees⟩

/-- An expansion that stands elsewhere. -/
def Expansion.relocate (φ : Nat → Nat) (x : Expansion) : Expansion :=
  ⟨x.item.relocate φ, x.returnType.map (TypeExpr.relocate φ), x.replaced,
    x.declaration.map (Declaration.relocate φ)⟩

/-- An edit that stands elsewhere. -/
def Edit.relocate (φ : Nat → Nat) (edit : Edit) : Edit :=
  ⟨φ edit.start, φ edit.stop, edit.replacement⟩

theorem Capture.bounds_relocate (items : List Capture) :
  bounds (items.map (relocate φ)) =
    (bounds items).map fun b => (b.1.relocate φ, b.2.relocate φ)
  := by
  induction items with
  | nil => rfl
  | cons item items ih =>
      rw [bounds, bounds] at ih
      cases item <;> simpa [bounds, relocate, List.filterMap_cons] using ih

theorem joinRuns_relocate (span : Span) (runs : List Run) :
  joinRuns (span.relocate φ) (runs.map (Run.relocate φ)) = relocateAll φ (joinRuns span runs)
  := by
  induction runs with
  | nil => rfl
  | cons run runs ih =>
      cases runs with
      | nil => simp [joinRuns, List.intercalate, Run.relocate]
      | cons next runs =>
          simp only [joinRuns, List.intercalate, List.map_cons, List.intersperse_cons_cons,
            List.flatten_cons, relocateAll_append] at ih ⊢
          rw [ih]
          simp [Run.relocate, punctAt, Token.relocate]

theorem tupleOf_relocate (opening closing : Span) (runs : List Run) :
  tupleOf (opening.relocate φ) (closing.relocate φ) (runs.map (Run.relocate φ)) =
    (tupleOf opening closing runs).relocate φ
  := by
  rw [tupleOf, tupleOf, joinRuns_relocate, relocate_group]

theorem Declaration.ofBound_relocate (span : Span) (bound : List (Pattern × TypeExpr)) :
  ofBound (span.relocate φ) (bound.map fun b => (b.1.relocate φ, b.2.relocate φ)) =
    (ofBound span bound).relocate φ
  := by
  have hside (runs : List Run) :
      side (span.relocate φ) (runs.map (Run.relocate φ)) = relocateAll φ (side span runs) := by
    obtain _ | ⟨run, _ | ⟨next, runs⟩⟩ := runs
    · simp [side, ← tupleOf_relocate]
    · simp [side, Run.relocate]
    · simp [side, ← tupleOf_relocate]
  have hpatterns := hside (bound.map (·.1.run))
  have htypes := hside (bound.map (·.2.run))
  simp only [List.map_map, Function.comp_def] at hpatterns htypes
  simp [ofBound, relocate, Function.comp_def, hpatterns, htypes, TypeExpr.relocate, punctAt,
    Token.relocate]

namespace Expansion

theorem returnTypeOf_relocate (g : Group) (items : List Capture) :
  returnTypeOf (g.relocate φ) (items.map (Capture.relocate φ)) =
    (returnTypeOf g items).map (TypeExpr.relocate φ)
  := by
  have htype (item : Capture) : (item.relocate φ).type = item.type.relocate φ := by
    cases item <;> rfl
  obtain _ | ⟨item, _ | ⟨next, items⟩⟩ := items
  · rfl
  · simp [returnTypeOf, htype]
  · have hruns : ((item :: next :: items).map (Capture.relocate φ)).map (·.type.run) =
        ((item :: next :: items).map (·.type.run)).map (Run.relocate φ) := by
      rw [List.map_map, List.map_map]
      apply List.map_congr_left
      intro capture _
      rw [Function.comp_apply, htype]
      rfl
    have htuple : tupleOf (g.opening.relocate φ) (g.closing.relocate φ) _ = _ :=
      tupleOf_relocate g.opening g.closing ((item :: next :: items).map (·.type.run))
    rw [← hruns] at htuple
    simp only [List.map_cons] at htuple
    simp only [List.map_cons, returnTypeOf, Option.map_some, TypeExpr.relocate, Run.relocate,
      relocateAll_cons, relocateAll_nil, ← htuple]
    rfl

theorem ofCaptures_relocate (item : FunctionItem) (items : List Capture) (g : Group) :
  ofCaptures (item.relocate φ) (items.map (Capture.relocate φ)) (g.relocate φ) =
    (ofCaptures item items g).relocate φ
  := by
  have hcomma : ((g.relocate φ).trees.any fun tree => atPunct ',' [tree]) =
      g.trees.any fun tree => atPunct ',' [tree] := by
    simp only [Group.relocate, relocateAll_eq_map, List.any_map]
    congr 1
    funext tree
    cases tree <;> simp [atPunct, atLexeme]
  have hbody : (item.relocate φ).body?.isNone = item.body?.isNone := by
    simp only [FunctionItem.relocate, FunctionItem.body?]
    cases item.ending <;> rfl
  simp only [ofCaptures, hcomma, hbody, Capture.bounds_relocate, List.isEmpty_map]
  split
  case isTrue =>
    simp [relocate, TypeExpr.relocate, Run.relocate, Group.relocate, Group.tree, Group.span]
  case isFalse =>
    simp only [relocate, returnTypeOf_relocate, Expansion.mk.injEq, true_and]
    split
    case isTrue => rfl
    case isFalse =>
      simp only [Option.map_some, Option.some.injEq, ← Declaration.ofBound_relocate]
      rfl

theorem ofItem_relocate (item : FunctionItem) :
  ofItem (item.relocate φ) = (ofItem item).relocate φ
  := by
  have hrelocate : (item.relocate φ).returns = item.returns.relocate φ := rfl
  cases hreturns : item.returns with
  | absent => simp [ofItem, hrelocate, hreturns, ReturnClause.relocate, relocate]
  | plain arrow type span => simp [ofItem, hrelocate, hreturns, ReturnClause.relocate, relocate]
  | captures arrow items g span =>
      simp only [ofItem, hrelocate, hreturns, ReturnClause.relocate]
      apply ofCaptures_relocate

theorem splitInnerAttributes_relocateAll (trees : List TokenTree) :
  splitInnerAttributes (relocateAll φ trees) =
    (relocateAll φ (splitInnerAttributes trees).1, relocateAll φ (splitInnerAttributes trees).2)
  := by
  fun_induction splitInnerAttributes trees with
  | case1 => simp_all [splitInnerAttributes, Token.relocate]
  | case2 => simp_all [splitInnerAttributes, Token.relocate]
  | case3 trees hdoc hattribute =>
      obtain _ | ⟨⟨l, s⟩ | _, rest⟩ := trees
      · rfl
      · cases l with
        | doc inner text =>
            cases inner with
            | true => exact (hdoc text s rest rfl).elim
            | false => simp [splitInnerAttributes, Token.relocate]
        | punct symbol j =>
            by_cases hsymbol : symbol = '#'
            · subst hsymbol
              obtain _ | ⟨⟨l, t⟩ | _, rest⟩ := rest
              · rfl
              · cases l with
                | punct symbol k =>
                    by_cases hsymbol : symbol = '!'
                    · subst hsymbol
                      obtain _ | ⟨_ | ⟨_ | _ | _, inside, opening, closing⟩, rest⟩ := rest
                      case cons.group.bracket =>
                        exact (hattribute j s k t inside opening closing rest rfl).elim
                      all_goals
                        simp [splitInnerAttributes, Token.relocate]
                    · simp [splitInnerAttributes, Token.relocate, hsymbol]
                | _ => simp [splitInnerAttributes, Token.relocate]
              · simp [splitInnerAttributes, Token.relocate]
            · simp [splitInnerAttributes, Token.relocate, hsymbol]
        | _ => simp [splitInnerAttributes, Token.relocate]
      · simp [splitInnerAttributes]

theorem openTrees_relocate (x : Expansion) :
  (x.relocate φ).openTrees = relocateAll φ x.openTrees
  := by
  have hbody : (x.relocate φ).item.body? = x.item.body?.map (Group.relocate φ) := by
    simp only [relocate, FunctionItem.relocate, FunctionItem.body?]
    cases x.item.ending <;> rfl
  simp only [openTrees, hbody]
  simp only [relocate]
  cases x.item.body? with
  | none => simp
  | some body =>
      cases x.declaration with
      | none => simp [Group.relocate]
      | some declaration => simp [Group.relocate, splitInnerAttributes_relocateAll]

section Texts

variable {text text' : List Char} (h : ∀ m n, slice text' (φ m) (φ n) = slice text m n)

include h

theorem splice_relocate (m n : Nat) (edits : List Edit) :
  splice text' (φ m) (φ n) (edits.map (Edit.relocate φ)) = splice text m n edits
  := by
  induction edits generalizing m with
  | nil => apply h
  | cons edit edits ih => simp only [List.map_cons, splice, ih, Edit.relocate, h]

theorem textIn_relocate (s : Span) :
  (s.relocate φ).textIn text' = s.textIn text
  := h s.start s.stop

theorem declaration_textIn_relocate (d : Declaration) :
  (d.relocate φ).textIn text' = d.textIn text
  := by
  have htype (type : TypeExpr) : (type.relocate φ).run.span = type.run.span.relocate φ := rfl
  simp [Declaration.textIn, Declaration.relocate, Function.comp_def, Pattern.span, htype,
    textIn_relocate h, Run.relocate]

theorem returnText_relocate (x : Expansion) (start : Nat) :
  returnText text' (x.relocate φ) (φ start) =
    ((returnText text x start).1, φ (returnText text x start).2)
  := by
  have hreturns : (x.relocate φ).item.returns = x.item.returns.relocate φ := rfl
  have hreplaced : (x.relocate φ).replaced = x.replaced := rfl
  have hstop (s : Span) : (s.relocate φ).stop = φ s.stop := rfl
  simp only [returnText, hreturns, hreplaced]
  cases x.item.returns with
  | absent => rfl
  | plain arrow type span => simp [ReturnClause.relocate, hstop, h]
  | captures arrow items g span =>
      have htype (item : Capture) :
          (item.relocate φ).type.run.span = item.type.run.span.relocate φ := by
        cases item <;> rfl
      have htip : (arrow.relocate φ).tip.span = arrow.tip.span.relocate φ := rfl
      cases x.replaced <;>
        simp [ReturnClause.relocate, hstop, h, htip, Function.comp_def, htype, textIn_relocate h]

theorem bodyText_relocate (x : Expansion) (edits : List Edit) (body : Group) :
  bodyText text' (edits.map (Edit.relocate φ)) (x.relocate φ) (body.relocate φ) =
    bodyText text edits x body
  := by
  have hdeclaration : (x.relocate φ).declaration = x.declaration.map (Declaration.relocate φ) := rfl
  have hopening : (body.relocate φ).opening.stop = φ body.opening.stop := rfl
  have hclosing : (body.relocate φ).closing.start = φ body.closing.start := rfl
  have hstart : statementsStart (body.relocate φ) = φ (statementsStart body) := by
    simp only [statementsStart, Group.relocate, splitInnerAttributes_relocateAll,
      getLast?_relocateAll]
    cases (splitInnerAttributes body.trees).1.getLast? <;> simp [Span.relocate]
  simp only [bodyText, hdeclaration, hopening, hclosing, hstart]
  cases x.declaration with
  | none => apply splice_relocate h
  | some declaration => simp [h, declaration_textIn_relocate h, splice_relocate h]

/-- A copy of an item is rendered as the item is. -/
theorem textWith_relocate (edits : List Edit) (x : Expansion) :
  (x.relocate φ).textWith text' (edits.map (Edit.relocate φ)) = x.textWith text edits
  := by
  have hitem : (x.relocate φ).item = x.item.relocate φ := rfl
  have hhead : (x.item.relocate φ).params.group.closing.stop = φ x.item.params.group.closing.stop := rfl
  have hspan : (x.item.relocate φ).span.start = φ x.item.span.start := rfl
  have hending : (x.item.relocate φ).ending = x.item.ending.relocate φ := rfl
  simp only [textWith, hitem, hhead, returnText_relocate h, hspan, h, hending]
  cases x.item.ending with
  | semicolon t =>
      have hstop : (t.relocate φ).span.stop = φ t.span.stop := rfl
      simp [Ending.relocate, hstop, h]
  | body body =>
      have hopening : (body.relocate φ).opening.stop = φ body.opening.stop := rfl
      have hclosing : (body.relocate φ).closing.start = φ body.closing.start := rfl
      have hstop : (body.relocate φ).closing.stop = φ body.closing.stop := rfl
      simp [Ending.relocate, hopening, hclosing, hstop, h, bodyText_relocate h]

end Texts

end Expansion

/-! ### Marks -/

/-- A call that stands elsewhere. -/
def Invocation.relocate (φ : Nat → Nat) (call : Invocation) : Invocation :=
  ⟨call.arguments.relocate φ, φ call.stop, relocateAll φ call.after⟩

/-- What stands where a scan has arrived, elsewhere. -/
def Site.relocate (φ : Nat → Nat) : Site → Site
  | .invocation call => .invocation (call.relocate φ)
  | .attribute => .attribute
  | .unmarked => .unmarked

theorem pathEnd_relocateAll (name : String) (trees : List TokenTree) :
  pathEnd name (relocateAll φ trees) =
    ((pathEnd name trees).1, relocateAll φ (pathEnd name trees).2)
  := by
  have hcolons (colon colon' : TokenTree) :
      atOperator [':', ':'] [colon.relocate φ, colon'.relocate φ] =
        atOperator [':', ':'] [colon, colon'] := by
    cases colon <;> cases colon' <;> simp [atOperator, atPunct, atLexeme]
  fun_induction pathEnd name trees with
  | case1 name colon colon' t trees h ih =>
      simp_all [pathEnd, Token.text]
  | case2 name colon colon' t trees h =>
      simp_all [pathEnd, Token.text]
  | case3 name trees h =>
      obtain _ | ⟨colon, _ | ⟨colon', _ | ⟨_ | _, rest⟩⟩⟩ := trees
      case cons.cons.cons.token => exact (h _ _ _ _ rfl).elim
      all_goals
        simp [pathEnd]

theorem pathName?_relocateAll (trees : List TokenTree) :
  pathName? (relocateAll φ trees) =
    (pathName? trees).map fun path => (path.1, relocateAll φ path.2)
  := by
  have hstart : (if atOperator [':', ':'] (relocateAll φ trees) then (relocateAll φ trees).drop 2
      else relocateAll φ trees) =
      relocateAll φ (if atOperator [':', ':'] trees then trees.drop 2 else trees) := by
    rw [atOperator_relocateAll, drop_relocateAll]
    split <;> rfl
  rw [pathName?, pathName?, hstart]
  obtain _ | ⟨t | _, rest⟩ := if atOperator [':', ':'] trees then trees.drop 2 else trees
  · rfl
  · simp only [relocateAll_cons, relocate_token, lexeme_relocate, Outcome.map_ite, Option.map_some,
      Option.map_none, pathEnd_relocateAll]
    rfl
  · simp

theorem Invocation.ofArguments_relocate (arguments : Group) (after : List TokenTree) :
  ofArguments (arguments.relocate φ) (relocateAll φ after) = (ofArguments arguments after).relocate φ
  := by
  obtain ⟨d, inside, opening, closing⟩ := arguments
  cases d with
  | brace => rfl
  | paren | bracket =>
      obtain _ | ⟨⟨l, s⟩ | _, rest⟩ := after
      · rfl
      · cases l with
        | punct symbol j =>
            by_cases hsymbol : symbol = ';'
            · subst hsymbol
              simp [ofArguments, relocate, Group.relocate, Token.relocate, Span.relocate]
            · simp [ofArguments, relocate, Group.relocate, Token.relocate, Span.relocate, hsymbol]
        | _ => simp [ofArguments, relocate, Group.relocate, Token.relocate, Span.relocate]
      · simp [ofArguments, relocate, Group.relocate, Span.relocate]

theorem Invocation.after?_relocateAll (trees : List TokenTree) :
  after? (relocateAll φ trees) = (after? trees).map (relocate φ)
  := by
  rw [after?.eq_def, after?.eq_def, atSingle_relocateAll, Outcome.map_ite]
  congr 1
  obtain _ | ⟨_, _ | ⟨_ | ⟨d, inside, opening, closing⟩, rest⟩⟩ := trees
  case cons.cons.group =>
    simp only [relocateAll_cons, relocate_group, Option.map_some, ← ofArguments_relocate]
    rfl
  all_goals
    simp

theorem invocation?_relocateAll (markers : Markers) (trees : List TokenTree) :
  invocation? markers (relocateAll φ trees) =
    (invocation? markers trees).map (Option.map (Invocation.relocate φ))
  := by
  simp only [invocation?, pathName?_relocateAll, Option.map_map, Function.comp_def]
  congr 1
  funext marked
  cases marked with
  | false => rfl
  | true =>
      simp [Option.bind_map, Option.map_bind, Invocation.after?_relocateAll]

theorem namesMarker?_relocateAll (markers : Markers) (inside : List TokenTree) :
  namesMarker? markers (relocateAll φ inside) = namesMarker? markers inside
  := by
  simp only [namesMarker?, pathName?_relocateAll, Option.map_map, Function.comp_def,
    Option.any_map, atGroup_relocateAll, drop_relocateAll]
  congr 1
  funext marked
  congr 2
  funext path
  split <;> simp

theorem atMarkerAttribute?_relocateAll (markers : Markers) (trees : List TokenTree) :
  atMarkerAttribute? markers (relocateAll φ trees) = atMarkerAttribute? markers trees
  := by
  obtain _ | ⟨hash, _ | ⟨_ | ⟨_ | _ | _, inside, opening, closing⟩, rest⟩⟩ := trees
  case cons.cons.group.bracket =>
    have hhash : atPunct '#' [hash.relocate φ] = atPunct '#' [hash] := by
      cases hash <;> simp [atPunct, atLexeme]
    simp [atMarkerAttribute?, hhash, namesMarker?_relocateAll]
  all_goals
    simp [atMarkerAttribute?]

theorem site?_relocateAll (markers : Markers) (trees : List TokenTree) :
  site? markers (relocateAll φ trees) = (site? markers trees).map (Site.relocate φ)
  := by
  simp only [site?, invocation?_relocateAll, atMarkerAttribute?_relocateAll]
  obtain _ | _ | call := invocation? markers trees
  · rfl
  · obtain _ | _ | _ := atMarkerAttribute? markers trees <;> rfl
  · rfl

/-! ### Copies -/

/-- Trees are copies of others if they are these, relocated, but for their files, lines and
columns. -/
def TokenTree.Copies (φ : Nat → Nat) (trees' trees : List TokenTree) : Prop :=
  relocateAll id trees' = relocateAll φ trees

/-- An item is the copy of another one if it is that one, relocated. -/
def FunctionItem.Copies (φ : Nat → Nat) (item' item : FunctionItem) : Prop :=
  item'.relocate id = item.relocate φ

section Copies

variable {file file' : String} {trees trees' : List TokenTree} {item : FunctionItem}

theorem TokenTree.Copies.nil_iff (h : Copies φ trees' trees) :
  trees' = [] ↔ trees = []
  := by
  have hlength := congrArg List.length h
  simp only [length_relocateAll] at hlength
  rw [← List.length_eq_zero_iff, hlength, List.length_eq_zero_iff]

theorem TokenTree.Copies.drop (h : Copies φ trees' trees) (n : Nat) :
  Copies φ (trees'.drop n) (trees.drop n)
  := by
  rw [Copies, ← drop_relocateAll, h, drop_relocateAll]

theorem TokenTree.Copies.exists_cons {tree : TokenTree} (h : Copies φ trees' (tree :: trees)) :
  ∃ tree' rest', trees' = tree' :: rest' ∧ tree'.relocate id = tree.relocate φ ∧
    Copies φ rest' trees
  := by
  cases trees' with
  | nil => simp [Copies] at h
  | cons tree' rest' =>
      rw [Copies, relocateAll_cons, relocateAll_cons] at h
      obtain ⟨htree, hrest⟩ := List.cons_eq_cons.mp h
      use tree', rest', rfl, htree, hrest

theorem TokenTree.start_of_relocate {tree tree' : TokenTree}
    (h : tree'.relocate id = tree.relocate φ) :
  tree'.span.start = φ tree.span.start
  := by
  have hspan := congrArg (Span.start ∘ TokenTree.span) h
  simp only [Function.comp_apply, TokenTree.span_relocate] at hspan
  apply hspan

/-- A copy of trees is read from their end on as they are. -/
theorem TokenTree.Copies.relocate_ofTrees (h : Copies φ trees' trees) (hne : trees ≠ []) :
  (Cursor.ofTrees file' trees').relocate id = (Cursor.ofTrees file trees).relocate φ
  := by
  have hlast := congrArg List.getLast? h
  simp only [getLast?_relocateAll] at hlast
  have hlast' := List.getLast?_eq_some_getLast hne
  rw [hlast', Option.map_some, Option.map_eq_some_iff] at hlast
  obtain ⟨last', hlast, hrelocate⟩ := hlast
  have hspan := congrArg TokenTree.span hrelocate
  simp only [TokenTree.span_relocate, Span.relocate, Span.mk.injEq, true_and] at hspan
  simp only [Cursor.relocate, Cursor.ofTrees, hlast, hlast', Cursor.mk.injEq]
  use h
  simp only [Span.relocate, Span.past, hspan.2]

/-- A copy of an item is read from a copy of trees. -/
theorem FunctionItem.exists_read_of_relocate {c c' d : Cursor} (hc : c'.relocate id = c.relocate φ)
    (h : read c = .ok (item, d)) :
  ∃ item' d', read c' = .ok (item', d') ∧ Copies φ item' item ∧ d'.relocate id = d.relocate φ
  := by
  have hread : (read (c'.relocate id)).toOption = _ := read_relocate c'
  rw [hc, read_relocate, h, Outcome.toOption_ok, Option.map_some] at hread
  obtain ⟨⟨item', d'⟩, hread', heq⟩ := Option.map_eq_some_iff.mp hread.symm
  rw [Outcome.toOption_eq_some] at hread'
  obtain ⟨hitem, hd⟩ := Prod.mk.inj heq
  use item', d', hread', hitem, hd

theorem FunctionItem.exists_ofTrees_of_copies (file' : String) (h : TokenTree.Copies φ trees' trees)
    (hitem : ofTrees file trees = .ok item) :
  ∃ item', ofTrees file' trees' = .ok item' ∧ Copies φ item' item
  := by
  obtain ⟨d, hread, hd⟩ := ofTrees_eq_ok.mp hitem
  have hne : trees ≠ [] := by
    obtain ⟨u, hu, _⟩ := exists_trees_of_read hread
    rintro rfl
    simp [Cursor.ofTrees] at hu
  obtain ⟨item', d', hread', hcopies, hd'⟩ :=
    exists_read_of_relocate (h.relocate_ofTrees hne) hread
  use item', ofTrees_eq_ok.mpr ⟨d', hread', ?_⟩
  have htrees := congrArg Cursor.trees hd'
  rw [Cursor.trees_relocate, Cursor.trees_relocate] at htrees
  apply (TokenTree.Copies.nil_iff htrees).mpr hd

theorem FunctionItem.exists_readAt_of_copies {start next : Nat} (file' : String)
    (h : TokenTree.Copies φ trees' trees)
    (hitem : readAt file trees start = .ok (item, next)) :
  ∃ item', readAt file' trees' start = .ok (item', next) ∧ Copies φ item' item
  := by
  obtain ⟨d, hread, hnext⟩ := readAt_eq_ok.mp hitem
  have hne : trees ≠ [] := by
    obtain ⟨u, hu, _⟩ := exists_trees_of_read hread
    rintro rfl
    simp [Cursor.ofTrees] at hu
  have hskip : ((Cursor.ofTrees file' trees').skip start).relocate id =
      ((Cursor.ofTrees file trees).skip start).relocate φ := by
    rw [← Cursor.skip_relocate, h.relocate_ofTrees hne, Cursor.skip_relocate]
  obtain ⟨item', d', hread', hcopies, hd'⟩ := exists_read_of_relocate hskip hread
  use item', readAt_eq_ok.mpr ⟨d', hread', ?_⟩
  have htrees := congrArg (List.length ∘ Cursor.trees) hd'
  have hlength := congrArg List.length h
  simp only [Function.comp_apply, Cursor.trees_relocate, length_relocateAll] at htrees hlength
  rw [hnext, htrees, hlength]

theorem FunctionItem.Copies.name_eq {item' : FunctionItem} (h : Copies φ item' item) :
  item'.name = item.name
  := by
  have hname : (item'.relocate id).name = (item.relocate φ).name := congrArg name h
  apply hname

theorem FunctionItem.Copies.stop_eq {item' : FunctionItem} (h : Copies φ item' item) :
  item'.span.stop = φ item.span.stop
  := by
  have hspan : (item'.relocate id).span = (item.relocate φ).span := congrArg FunctionItem.span h
  apply congrArg Span.stop hspan

theorem FunctionItem.Copies.openTrees {item' : FunctionItem} (h : Copies φ item' item) :
  TokenTree.Copies φ (Expansion.ofItem item').openTrees (Expansion.ofItem item).openTrees
  := by
  rw [TokenTree.Copies, ← Expansion.openTrees_relocate, ← Expansion.openTrees_relocate,
    ← Expansion.ofItem_relocate, ← Expansion.ofItem_relocate, h]

/-- A copy of an item is rendered as the item is. -/
theorem FunctionItem.Copies.textWith {item' : FunctionItem} (h : Copies φ item' item)
    {text text' : List Char} (htext : ∀ m n, slice text' (φ m) (φ n) = slice text m n)
    (edits : List Edit) :
  (Expansion.ofItem item').textWith text' (edits.map (Edit.relocate φ)) =
    (Expansion.ofItem item).textWith text edits
  := by
  have hslice (m n : Nat) : slice text' (id m) (id n) = slice text' m n := rfl
  have hedits : (edits.map (Edit.relocate φ)).map (Edit.relocate id) =
      edits.map (Edit.relocate φ) := by
    rw [List.map_map]
    rfl
  rw [← Expansion.textWith_relocate hslice, ← Expansion.textWith_relocate htext,
    ← Expansion.ofItem_relocate, ← Expansion.ofItem_relocate, h, hedits]

end Copies

namespace Source

variable {source source' : Source} {trees trees' : List TokenTree} {edits : List Edit}
  {names : List String}

/-- What stands in front of a copy of trees is a copy of what stands in front of them. -/
theorem site?_of_copies (markers : Markers) (h : TokenTree.Copies φ trees' trees) :
  (site? markers trees').map (Site.relocate id) = (site? markers trees).map (Site.relocate φ)
  := by
  rw [← site?_relocateAll, h, site?_relocateAll]

theorem unmarked_of_copies {markers : Markers} (h : TokenTree.Copies φ trees' trees)
    (hunmarked : site? markers trees = some .unmarked) :
  site? markers trees' = some .unmarked
  := by
  have hsite := site?_of_copies markers h
  rw [hunmarked, Option.map_some, Option.map_eq_some_iff] at hsite
  obtain ⟨_ | _ | _, hsite', heq⟩ := hsite
  · cases heq
  · cases heq
  · apply hsite'

/-- The items that are marked in trees are marked in a copy of them. -/
theorem Marks.of_copies (h : source.Marks trees edits names)
    (hmarkers : source'.markers = source.markers)
    (htext : ∀ m n, slice source'.text (φ m) (φ n) = slice source.text m n)
    (htrees : TokenTree.Copies φ trees' trees) :
  source'.Marks trees' (edits.map (Edit.relocate φ)) names
  := by
  induction h generalizing trees' with
  | nil =>
      rw [htrees.nil_iff.mpr rfl]
      apply Marks.nil
  | @called tree rest call item inner edits within names hcall hitem _ _ ihinner ih =>
      have hsite := site?_of_copies source'.markers htrees
      obtain ⟨tree', rest', rfl, htree, _⟩ := htrees.exists_cons
      rw [hmarkers, site?_eq_invocation.mpr hcall, Option.map_some, Option.map_eq_some_iff] at hsite
      obtain ⟨call' | _ | _, hsite', heq⟩ := hsite
      · have hcall' : call'.relocate id = call.relocate φ := Site.invocation.inj heq
        have harguments : TokenTree.Copies φ call'.arguments.trees call.arguments.trees :=
          congrArg (Group.trees ∘ Invocation.arguments) hcall'
        obtain ⟨item', hitem', hcopies⟩ :=
          FunctionItem.exists_ofTrees_of_copies source'.file harguments hitem
        have hstop : call'.stop = φ call.stop := congrArg Invocation.stop hcall'
        rw [List.map_cons, Edit.relocate, ← TokenTree.start_of_relocate htree, ← hstop,
          ← hcopies.textWith htext, ← hcopies.name_eq]
        rw [← hmarkers, site?_eq_invocation] at hsite'
        apply Marks.called hsite' hitem' (ihinner hcopies.openTrees)
        apply ih (congrArg Invocation.after hcall')
      · cases heq
      · cases heq
  | @attributed tree rest item next inner edits within names hattribute hitem _ _ ihinner ih =>
      have hsite := site?_of_copies source'.markers htrees
      have hdrop := htrees.drop next
      obtain ⟨item', hitem', hcopies⟩ :=
        FunctionItem.exists_readAt_of_copies source'.file htrees hitem
      obtain ⟨tree', rest', rfl, htree, _⟩ := htrees.exists_cons
      rw [hmarkers, hattribute, Option.map_some, Option.map_eq_some_iff] at hsite
      obtain ⟨_ | _ | _, hsite', heq⟩ := hsite
      · cases heq
      · rw [List.map_cons, Edit.relocate, ← TokenTree.start_of_relocate htree, ← hcopies.stop_eq,
          ← hcopies.textWith htext, ← hcopies.name_eq]
        rw [← hmarkers] at hsite'
        apply Marks.attributed hsite' hitem' (ihinner hcopies.openTrees) (ih hdrop)
      · cases heq
  | @token t rest edits names hunmarked _ ih =>
      have hsite := unmarked_of_copies htrees hunmarked
      obtain ⟨tree', rest', rfl, htree, hrest⟩ := htrees.exists_cons
      cases tree' with
      | group => simp at htree
      | token t' =>
          rw [← hmarkers] at hsite
          apply Marks.token hsite (ih hrest)
  | @group d inside rest opening closing inner edits within names hunmarked _ _ ihinner ih =>
      have hsite := unmarked_of_copies htrees hunmarked
      obtain ⟨tree', rest', rfl, htree, hrest⟩ := htrees.exists_cons
      cases tree' with
      | token => simp at htree
      | group d' inside' opening' closing' =>
          rw [relocate_group, relocate_group, TokenTree.group.injEq] at htree
          rw [← hmarkers] at hsite
          rw [List.map_append]
          apply Marks.group hsite (ihinner htree.2.1) (ih hrest)

end Source

end ReturnCaptures
