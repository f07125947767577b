import ReturnCaptures.Proofs.ItemParts

/-!
# Expansion keeps the trees of an item

An expanded item consists of the trees that the item was read from, with two exceptions: the
return clause, if it is a list of captures, and one run of trees in the body. An item without a
return clause, or with a plain type in it, consists of the same trees as before, and so does one
whose captures are kept as the types of a tuple.
-/

namespace ReturnCaptures

open TokenTree Cursor

/-- The trees of a block are its inner attributes and its statements. -/
theorem append_splitInnerAttributes (trees : List TokenTree) :
  (splitInnerAttributes trees).1 ++ (splitInnerAttributes trees).2 = trees
  := by
  fun_induction splitInnerAttributes trees with
  | case1 text span trees inner statements hsplit ih => simpa [hsplit] using ih
  | case2 j s k t arguments opening closing trees inner statements hsplit ih =>
      simpa [hsplit] using ih
  | case3 trees => rfl

namespace Expansion

variable {item : FunctionItem}

/-- Whether a return clause stays as it is: there is none, it is a plain type, or it is a list
of captures that binds nothing and has a comma outside of groups. -/
def Stays : ReturnClause → Prop
  | .absent => True
  | .plain _ _ _ => True
  | .captures _ items g _ =>
    (∀ item ∈ items, item.pattern? = none) ∧ ∃ comma ∈ g.trees, atPunct ',' [comma]

/-- What becomes of a return clause: a plain type is kept behind its arrow, and in the place of a
list of captures stands the new type behind the same arrow, or nothing at all if there is no
capture. -/
def Replaces (x : Expansion) (clause clause' : List TokenTree) : Prop :=
  match x.item.returns with
  | .absent => clause = [] ∧ clause' = []
  | .plain _ type _ =>
    ∃ shaft tip, atOperator ['-', '>'] [shaft, tip] ∧
      clause = shaft :: tip :: type.run.trees ∧ clause' = clause
  | .captures _ items g _ =>
    ∃ shaft tip, atOperator ['-', '>'] [shaft, tip] ∧ clause = [shaft, tip, g.tree] ∧
      match x.returnType with
      | some type => clause' = shaft :: tip :: type.run.trees
      | none => items = [] ∧ clause' = []

/-- What becomes of the last tree of an item: it is kept, or it is the body, into whose
trees the declaration is inserted. -/
def Declares (x : Expansion) (last last' : TokenTree) : Prop :=
  match x.declaration with
  | none => last' = last
  | some declaration =>
    ∃ before after opening closing,
      last = .group .brace (before ++ after) opening closing ∧
      last' = .group .brace (before ++ declaration.trees ++ after) opening closing

/-- What an expansion makes of trees: it keeps them all, in order, except for the return
clause, which stands between the parameters and the where clause or the ending, and for a
declaration in the body; and it keeps them without exception if the return clause stays as it
is. -/
def Rewrites (x : Expansion) (trees : List TokenTree) : Prop :=
  ∃ head clause clause' tail last last',
    trees = head ++ clause ++ tail ++ [last] ∧
    x.trees = head ++ clause' ++ tail ++ [last'] ∧
    head.getLast? = some x.item.params.group.tree ∧
    (tail = [] ∨ atKeyword "where" tail) ∧
    (atGroup .brace [last] || atPunct ';' [last]) ∧
    x.Replaces clause clause' ∧
    x.Declares last last' ∧
    (Stays x.item.returns → x.trees = trees)

theorem item_ofItem (item : FunctionItem) :
  (ofItem item).item = item
  := by
  unfold ofItem
  split
  · rfl
  · rfl
  · unfold ofCaptures
    simp only
    split <;> rfl

theorem returnTypeOf_eq_none {g : Group} {items : List Capture} (h : returnTypeOf g items = none) :
  items = []
  := by
  match items with
  | [] => rfl
  | [_] => cases h
  | _ :: _ :: _ => cases h

/-- The expansion of a list of captures keeps the list as a type, or replaces it. -/
theorem ofCaptures_eq (item : FunctionItem) (items : List Capture) (g : Group) :
  ofCaptures item items g = ⟨item, some ⟨.tuple, ⟨[g.tree], g.span⟩⟩, false, none⟩ ∨
    ∃ declaration,
      ofCaptures item items g = ⟨item, returnTypeOf g items, true, declaration⟩
  := by
  unfold ofCaptures
  simp only
  split
  · exact .inl rfl
  · exact .inr ⟨_, rfl⟩

/-- The new return clause of an item, by the old one. -/
theorem replaces_ofItem {c d : Cursor} (h : ReturnClause.Follows c item.returns d) :
  (ofItem item).Replaces item.returns.trees (ofItem item).returnTrees
  := by
  rw [Replaces, item_ofItem]
  unfold ofItem Expansion.returnTrees
  generalize hreturns : item.returns = returns at h
  cases h with
  | absent _ => simp [hreturns, ReturnClause.arrow?, ReturnClause.trees]
  | @plain arrow type _ _ ha _ _ =>
      use .token arrow.shaft, .token arrow.tip, ha, rfl
      simp [hreturns, ReturnClause.arrow?, ReturnClause.trees]
  | @captures arrow items g _ _ ha _ _ _ _ =>
      use .token arrow.shaft, .token arrow.tip, ha, rfl
      rcases ofCaptures_eq item items g with hx | ⟨_, hx⟩
      · simp [hx, hreturns, ReturnClause.arrow?, Arrow.trees]
      · cases htype : returnTypeOf g items with
        | none =>
            obtain rfl := returnTypeOf_eq_none htype
            simp [hx, htype]
        | some type => simp [hx, htype, hreturns, ReturnClause.arrow?, Arrow.trees]

/-- A return clause that stays as it is counts as not replaced. -/
theorem replaced_of_stays (h : Stays item.returns) :
  (ofItem item).replaced = false
  := by
  unfold ofItem
  split
  case h_1 => rfl
  case h_2 => rfl
  case h_3 arrow items g span hreturns =>
    rw [hreturns] at h
    obtain ⟨hnone, comma, hmem, hcomma⟩ := h
    have hbounds : Capture.bounds items = [] := by
      apply List.filterMap_eq_nil_iff.mpr
      intro item hitem
      cases item with
      | bound pattern type => cases hnone _ hitem
      | unbound type => rfl
    have hany : g.trees.any (fun tree => atPunct ',' [tree]) :=
      List.any_eq_true.mpr ⟨comma, hmem, hcomma⟩
    rw [ofCaptures, hbounds, hany]
    rfl

/-- The trees of a return clause are kept if it counts as not replaced. -/
theorem returnTrees_of_kept {c d : Cursor} (h : ReturnClause.Follows c item.returns d)
    (hkept : (ofItem item).replaced = false) :
  (ofItem item).returnTrees = item.returns.trees
  := by
  unfold Expansion.returnTrees
  unfold ofItem at hkept ⊢
  generalize hreturns : item.returns = returns at h hkept
  cases h with
  | absent _ => simp [hreturns, ReturnClause.arrow?, ReturnClause.trees]
  | plain => simp [hreturns, ReturnClause.arrow?, ReturnClause.trees]
  | @captures _ items g =>
      rcases ofCaptures_eq item items g with hx | ⟨_, hx⟩
      · simp [hx, hreturns, ReturnClause.arrow?, ReturnClause.trees]
      · simp [hx] at hkept

/-- An item whose return clause is kept gets no declaration. -/
theorem declaration_of_kept (h : (ofItem item).replaced = false) :
  (ofItem item).declaration = none
  := by
  unfold ofItem at h ⊢
  split at h
  · rfl
  · rfl
  · unfold ofCaptures at h ⊢
    simp only at h ⊢
    split at h
    case isTrue hkept => rw [if_pos hkept]
    case isFalse => cases h

/-- An item gets a declaration only if it has a body. -/
theorem isSome_body?_of_declaration {declaration : Declaration}
    (h : (ofItem item).declaration = some declaration) :
  item.body?.isSome
  := by
  unfold ofItem at h
  split at h
  · cases h
  · cases h
  · unfold ofCaptures at h
    simp only at h
    split at h
    · cases h
    · simp only [ite_eq_iff, reduceCtorEq, and_false, Bool.or_eq_true, not_or, false_or] at h
      simpa [Option.isSome_iff_ne_none] using h.1.2

/-- The new ending of an item, by the old one. -/
theorem declares_ofItem (hending : atGroup .brace [item.ending.tree] || atPunct ';' [item.ending.tree]) :
  (ofItem item).Declares item.ending.tree (ofItem item).ending.tree
  := by
  unfold Declares
  cases hdeclaration : (ofItem item).declaration with
  | none =>
      simp only [Expansion.ending, Expansion.body?, hdeclaration, item_ofItem]
      cases hend : item.ending <;> simp [FunctionItem.body?, hend, Ending.body?]
  | some declaration =>
      obtain ⟨body, hbody⟩ := Option.isSome_iff_exists.mp (isSome_body?_of_declaration hdeclaration)
      have hend : item.ending = .body body := by
        cases hend : item.ending <;> simp_all [FunctionItem.body?, Ending.body?]
      have hbrace : body.delimiter = .brace := by
        simpa [hend, Ending.tree, Group.tree, atGroup, atPunct, atLexeme] using hending
      use (splitInnerAttributes body.trees).1, (splitInnerAttributes body.trees).2, body.opening,
        body.closing
      constructor
      · rw [hend, append_splitInnerAttributes, ← hbrace]
        rfl
      · simp [Expansion.ending, Expansion.body?, hdeclaration, item_ofItem, hbody, Ending.tree,
          Group.tree, hbrace]

/-- An item whose return clause is kept is expanded to the trees that form it. -/
theorem trees_of_kept {file : String} {trees : List TokenTree}
    (h : FunctionItem.ofTrees file trees = .ok item) (hkept : (ofItem item).replaced = false) :
  (ofItem item).trees = trees
  := by
  obtain ⟨d, ⟨s⟩, hd⟩ := FunctionItem.steps_of_ofTrees h
  have htrees : trees = headTrees item ++ item.returns.trees ++ tailTrees item ++
      [item.ending.tree] := by
    have hreads := s.reads.trees
    rwa [hd, List.append_nil] at hreads
  have hdeclares := declares_ofItem (FunctionItem.reads_readEnding s.ending_eq).2
  rw [Declares, declaration_of_kept hkept] at hdeclares
  rw [Expansion.trees, item_ofItem,
    returnTrees_of_kept (ReturnClause.follows_read s.returns_eq) hkept, hdeclares, htrees,
    tailTrees]

/-- The expansion of an item loses nothing of the trees that form the item. -/
theorem rewrites_ofItem {file : String} {trees : List TokenTree}
    (h : FunctionItem.ofTrees file trees = .ok item) :
  (ofItem item).Rewrites trees
  := by
  obtain ⟨d, ⟨s⟩, hd⟩ := FunctionItem.steps_of_ofTrees h
  have htrees : trees = headTrees item ++ item.returns.trees ++ tailTrees item ++
      [item.ending.tree] := by
    have hreads := s.reads.trees
    rwa [hd, List.append_nil] at hreads
  have hending := (FunctionItem.reads_readEnding s.ending_eq).2
  have hreplaces := replaces_ofItem (ReturnClause.follows_read s.returns_eq)
  have hdeclares := declares_ofItem hending
  have hexpansion : (ofItem item).trees = headTrees item ++ (ofItem item).returnTrees ++
      tailTrees item ++ [(ofItem item).ending.tree] := by
    rw [Expansion.trees, item_ofItem]
    rfl
  use headTrees item, item.returns.trees, (ofItem item).returnTrees, tailTrees item,
    item.ending.tree, (ofItem item).ending.tree, htrees, hexpansion
  rw [item_ofItem]
  use List.getLast?_concat .., (WhereClause.reads_read s.where_eq).2, hending, hreplaces, hdeclares
  intro hstays
  apply trees_of_kept h (replaced_of_stays hstays)

theorem rewrites_ofItem_declared :
  ∃ trees item,
    FunctionItem.ofTrees "f.rs" trees = .ok item ∧
    flatAll trees = ["fn", "f", "(", ")", "-", ">", "(", "a", ":", "u8", ")", "where", "u8", ":",
      "Copy", "\x7b", "a", "\x7d"] ∧
    (ofItem item).declaration.isSome ∧ (ofItem item).Rewrites trees
  := by
  obtain ⟨trees, htrees, hitem⟩ := Outcome.exists_of_any
    (x := TokenTree.ofText "f.rs" "fn f() -> (a: u8) where u8: Copy { a }".toList)
    (p := fun trees =>
      flatAll trees = ["fn", "f", "(", ")", "-", ">", "(", "a", ":", "u8", ")", "where", "u8", ":",
        "Copy", "\x7b", "a", "\x7d"] &&
      (FunctionItem.ofTrees "f.rs" trees).toOption.any (ofItem · |>.declaration.isSome))
    (by decide +kernel)
  rw [Bool.and_eq_true, decide_eq_true_eq] at hitem
  obtain ⟨item, h, hdeclaration⟩ := Outcome.exists_of_any hitem.2
  use trees, item, h, hitem.1, hdeclaration
  apply rewrites_ofItem h

end Expansion

end ReturnCaptures
