import ReturnCaptures.Proofs.CommaLists

/-!
# The collapse of a capture list

A capture list that binds nothing and has a comma between or after its captures is a tuple type as
it stands, and is kept. Any other list collapses: to nothing, to the type of its only capture, or to
a tuple that is read again as the types of the captures. The decision is made by the commas outside
of groups, of which generic arguments have some of their own: a single type that has one, and that
is not bound, is kept in its parentheses. Such lists are the only ones that do not collapse by the
rule.
-/

namespace ReturnCaptures

open TokenTree Cursor

/-- Whether trees end in a comma. -/
def TokenTree.endsInComma (trees : List TokenTree) : Bool :=
  trees.getLast?.any fun tree => atPunct ',' [tree]

/-- Whether there is a comma among trees, outside of groups. -/
def TokenTree.hasComma (trees : List TokenTree) : Bool := trees.any fun tree => atPunct ',' [tree]

theorem TokenTree.hasComma_of_endsInComma {trees : List TokenTree} (h : endsInComma trees) :
  hasComma trees
  := by
  rw [endsInComma] at h
  cases hlast : trees.getLast? with
  | none =>
      rw [hlast] at h
      cases h
  | some last =>
      rw [hlast] at h
      apply List.any_eq_true.mpr
      use last, List.mem_of_getLast? hlast, h

namespace Capture

variable {items : List Capture} {g : Group}

/-- Whether the captures between parentheses are a tuple type as they stand: none is bound, and
there is a comma between them or behind the last. -/
def isTuple (items : List Capture) (g : Group) : Bool :=
  items.all isUnbound && (2 ≤ items.length || items.length == 1 && endsInComma g.trees)

/-- Whether there is a single type between parentheses, not bound, that has a comma of its own but
none behind it. -/
def hidesComma : List Capture → Group → Bool
  | [.unbound type], g => hasComma type.run.trees && !endsInComma g.trees
  | _, _ => false

theorem isEmpty_bounds (items : List Capture) :
  (bounds items).isEmpty = items.all isUnbound
  := by
  induction items with
  | nil => rfl
  | cons item items ih =>
      cases item with
      | bound pattern type => rfl
      | unbound type => apply ih

/-- A list in which a comma stands behind a capture has several captures or ends in a comma. -/
theorem comma_of_cons {c d : Cursor} {item : Capture} (hread : ReadsAs c item d)
    (hcomma : atPunct ',' d.trees) (hrest : (d.skip 1).Separated ReadsAs items) :
  hasComma c.trees ∧ (items = [] → endsInComma c.trees)
  := by
  obtain ⟨u, hu⟩ := hread.isSuffix
  obtain ⟨comma, r, hd, hc⟩ := exists_of_atPunct hcomma
  rw [← hu, hd]
  constructor
  · apply List.any_eq_true.mpr
    use comma, by simp, hc
  · rintro rfl
    cases hrest with
    | nil hnil =>
        rw [trees_skip_one hd] at hnil
        rw [hnil, endsInComma, List.getLast?_concat]
        apply hc

/-- A list that binds nothing and has a comma outside of groups is a tuple type, or a single type
that has the comma. -/
theorem kept_eq (h : readList g = .ok items) :
  ((bounds items).isEmpty && hasComma g.trees) = (isTuple items g || hidesComma items g)
  := by
  rw [isEmpty_bounds]
  have hseparated := separated_of_readList h
  generalize hc : Cursor.into g = c at hseparated
  have hg : g.trees = c.trees := by
    rw [← hc]
    rfl
  cases hseparated with
  | nil hnil =>
      rw [hg, hnil]
      rfl
  | last hread hd =>
      cases hread with
      | bound _ _ _ _ => rfl
      | unbound htype =>
          have htrees := TypeExpr.trees_of_read htype
          rw [hd, List.append_nil, ← hg] at htrees
          cases hends : endsInComma g.trees with
          | true => simp [isTuple, isUnbound, hends, hasComma_of_endsInComma hends]
          | false => simp [isTuple, isUnbound, hidesComma, hends, ← htrees]
  | @cons _ d item items hread hcomma hrest =>
      obtain ⟨hhas, hends⟩ := comma_of_cons hread hcomma hrest
      rw [hg, hhas, Bool.and_true]
      cases items with
      | nil =>
          have hends' : endsInComma g.trees := by
            rw [hg]
            apply hends rfl
          cases item <;> simp [isTuple, hidesComma, hends']
      | cons next items => simp [isTuple, hidesComma]

theorem hidesComma_of_isTuple (h : isTuple items g) :
  hidesComma items g = false
  := by
  match items with
  | [] => rfl
  | [.bound _ _] => rfl
  | [.unbound type] =>
    have hends : endsInComma g.trees := by simpa [isTuple, isUnbound] using h
    simp [hidesComma, hends]
  | _ :: _ :: _ => simp [hidesComma]

end Capture

namespace Expansion

variable {file : String} {trees : List TokenTree} {item : FunctionItem} {arrow : Arrow}
  {items : List Capture} {g : Group} {span : Span}

/-- The new return clause is an arrow and the given trees. -/
def Returns (x : Expansion) (arrow : Arrow) (trees : List TokenTree) : Prop :=
  (∃ type, x.returnType = some type ∧ type.run.trees = trees) ∧
    x.returnTrees = arrow.trees ++ trees

/-- The captures of a list that is replaced, as a return type: no captures leave nothing, a single
one leaves its type, and several leave a group that is read as their types. -/
def ReturnsTypes (x : Expansion) (arrow : Arrow) : List Capture → Prop
  | [] => x.returnType = none ∧ x.returnTrees = []
  | [item] => x.Returns arrow item.type.run.trees
  | items =>
    ∃ tuple : Group, tuple.delimiter = .paren ∧ x.Returns arrow [tuple.tree] ∧
      Capture.readList tuple = .ok (items.map fun item => .unbound item.type)

/-- The rule by which the captures between parentheses become a return type: a tuple type is kept,
and all others are replaced. -/
def Collapses (x : Expansion) (arrow : Arrow) (items : List Capture) (g : Group) : Prop :=
  if Capture.isTuple items g then x.replaced = false ∧ x.Returns arrow [g.tree]
  else x.replaced = true ∧ x.ReturnsTypes arrow items

/-- A new return type stands behind the arrow of the old one. -/
theorem returns_of_returnType {x : Expansion} {type : TypeExpr}
    (ha : x.item.returns.arrow? = some arrow) (htype : x.returnType = some type) :
  x.Returns arrow type.run.trees
  := by
  use ⟨type, htype, rfl⟩
  rw [returnTrees, ha, htype]

/-- The new return type of captures is read as their types. -/
theorem returnsTypes_of_returnType {x : Expansion} (h : Capture.readList g = .ok items)
    (ha : x.item.returns.arrow? = some arrow) (htype : x.returnType = returnTypeOf g items) :
  x.ReturnsTypes arrow items
  := by
  match items with
  | [] =>
    use htype
    rw [returnTrees, ha, htype]
    rfl
  | [item] => apply returns_of_returnType ha htype
  | first :: second :: rest =>
    have hstands := Capture.stands_of_separated (Capture.separated_of_readList h)
    have hread := Capture.readList_joinRuns (List.forall_mem_map.mpr hstands) g.opening g.opening
      g.closing
    rw [List.map_map, List.map_map] at hread
    use ⟨.paren, joinRuns g.opening ((first :: second :: rest).map (·.type.run)), g.opening,
      g.closing⟩, rfl, returns_of_returnType ha htype
    apply hread

/-- A capture list is kept, or its captures become the new return type. -/
theorem ofItem_captures (hreturns : item.returns = .captures arrow items g span) :
  if (Capture.bounds items).isEmpty && hasComma g.trees then
    (ofItem item).replaced = false ∧ (ofItem item).returnType = some ⟨.tuple, ⟨[g.tree], g.span⟩⟩
  else (ofItem item).replaced = true ∧ (ofItem item).returnType = returnTypeOf g items
  := by
  rw [ofItem, hreturns]
  simp only [ofCaptures, hasComma]
  split
  case isTrue => exact ⟨rfl, rfl⟩
  case isFalse => exact ⟨rfl, rfl⟩

/-- A capture list becomes a return type by the rule, unless it holds a single type that has a comma
of its own. -/
theorem collapses_ofItem_iff (h : FunctionItem.ofTrees file trees = .ok item)
    (hreturns : item.returns = .captures arrow items g span) :
  (ofItem item).Collapses arrow items g ↔ Capture.hidesComma items g = false
  := by
  obtain ⟨d, ⟨s⟩, _⟩ := FunctionItem.steps_of_ofTrees h
  have hfollows := ReturnClause.follows_read s.returns_eq
  rw [hreturns] at hfollows
  generalize s.afterReturns = e at hfollows
  cases hfollows with
  | captures _ _ _ _ _ hitems =>
      have ha : (ofItem item).item.returns.arrow? = some arrow := by
        rw [item_ofItem, hreturns]
        rfl
      have hkept := ofItem_captures hreturns
      rw [Capture.kept_eq hitems] at hkept
      unfold Collapses
      cases htuple : Capture.isTuple items g with
      | true =>
          rw [htuple, Bool.true_or, if_pos rfl] at hkept
          rw [if_pos rfl, Capture.hidesComma_of_isTuple htuple, eq_self, iff_true]
          use hkept.1
          apply returns_of_returnType ha hkept.2
      | false =>
          rw [htuple, Bool.false_or] at hkept
          rw [if_neg Bool.false_ne_true]
          cases hhides : Capture.hidesComma items g with
          | true =>
              rw [hhides, if_pos rfl] at hkept
              simp [hkept.1]
          | false =>
              rw [hhides, if_neg Bool.false_ne_true] at hkept
              rw [eq_self, iff_true]
              use hkept.1
              apply returnsTypes_of_returnType hitems ha hkept.2

/-- Two types, of which one has a comma of its own, are read again from the new return type. -/
theorem collapses_ofItem_generic :
  ∃ trees item arrow items g span,
    FunctionItem.ofTrees "f.rs" trees = .ok item ∧
    item.returns = .captures arrow items g span ∧
    Capture.hidesComma items g = false ∧ items.length = 2 ∧
    (ofItem item).Collapses arrow items g
  := by
  obtain ⟨item, htext, hitem⟩ := Outcome.exists_of_any
    (x := FunctionItem.ofText "f.rs" "fn f() -> (a: Map<K, V>, (B, C)) { a }".toList)
    (p := fun item => match item.returns with
      | .captures _ items g _ => !Capture.hidesComma items g && items.length == 2
      | _ => false)
    (by decide +kernel)
  obtain ⟨trees, _, h⟩ := Outcome.bind_eq_ok.mp htext
  split at hitem
  case h_2 => cases hitem
  case h_1 arrow items g span hreturns =>
    simp only [Bool.and_eq_true, Bool.not_eq_true', beq_iff_eq] at hitem
    use trees, item, arrow, items, g, span, h, hreturns, hitem.1, hitem.2
    apply (collapses_ofItem_iff h hreturns).mpr hitem.1

/-- A single type with a comma between its angle brackets keeps its parentheses. -/
theorem not_collapses_ofItem_generic :
  ∃ trees item arrow items g span,
    FunctionItem.ofTrees "f.rs" trees = .ok item ∧
    item.returns = .captures arrow items g span ∧
    ¬ (ofItem item).Collapses arrow items g
  := by
  obtain ⟨item, htext, hitem⟩ := Outcome.exists_of_any
    (x := FunctionItem.ofText "f.rs" "fn f() -> (Map<K, V>) {}".toList)
    (p := fun item => match item.returns with
      | .captures _ items g _ => !Capture.isTuple items g && !(ofItem item).replaced
      | _ => false)
    (by decide +kernel)
  obtain ⟨trees, _, h⟩ := Outcome.bind_eq_ok.mp htext
  split at hitem
  case h_2 => cases hitem
  case h_1 arrow items g span hreturns =>
    simp only [Bool.and_eq_true, Bool.not_eq_true'] at hitem
    use trees, item, arrow, items, g, span, h, hreturns
    rw [Collapses, hitem.1, if_neg Bool.false_ne_true, hitem.2]
    rintro ⟨hreplaced, _⟩
    cases hreplaced

end Expansion

end ReturnCaptures
