import ReturnCaptures.Proofs.CaptureLists
import ReturnCaptures.Proofs.Lossless

/-!
# Expanding an expansion

An expanded item that is read again has the same head, and its return clause is the new one.
Expanding it again leaves it as it is, unless the new return type is a single type between
parentheses, or a pair of empty ones: what was put there as a type is then read as a capture
list, and collapsed.
-/

namespace ReturnCaptures

open TokenTree Cursor

/-! ### Heads of items -/

/-- The first element with a property divides a list in one way only. -/
theorem append_cons_inj_of_first {α : Type} {p : α → Bool} {u v r s : List α} {a b : α}
    (hu : ∀ x ∈ u, p x = false) (hv : ∀ x ∈ v, p x = false) (ha : p a) (hb : p b)
    (h : u ++ a :: r = v ++ b :: s) :
  u = v ∧ a = b ∧ r = s
  := by
  induction u generalizing v with
  | nil =>
      cases v with
      | nil => simpa using h
      | cons x v =>
          obtain ⟨rfl, _⟩ := List.cons_eq_cons.mp h
          simp [hv a (by simp)] at ha
  | cons x u ih =>
      cases v with
      | nil =>
          obtain ⟨rfl, _⟩ := List.cons_eq_cons.mp h
          simp [hu x (by simp)] at hb
      | cons y v =>
          obtain ⟨rfl, hrest⟩ := List.cons_eq_cons.mp h
          rw [List.forall_mem_cons] at hu hv
          obtain ⟨rfl, hab⟩ := ih hu.2 hv.2 hrest
          use rfl

/-- Trees that form the head of an item: what stands in front of its keyword, the keyword,
the name, generic parameters if there are any, and the group of the parameters. -/
def IsHead (trees : List TokenTree) : Prop :=
  ∃ u fn name generics params, trees = u ++ fn :: name :: (generics ++ [params]) ∧
    (∀ tree ∈ u, tree.isFn = false) ∧ fn.isFn ∧ (generics = [] ∨ IsAngled false generics) ∧
    atAnyGroup [params]

theorem TokenTree.IsAngled.not_atAnyGroup {strict : Bool} {trees r : List TokenTree} (h : IsAngled strict trees) :
  atAnyGroup (trees ++ r) = false
  := by
  obtain ⟨first, u, last, rfl, hf, _, _⟩ := h
  obtain ⟨t, rfl⟩ := exists_of_atPunct_singleton hf
  rfl

theorem TokenTree.IsAngled.append_inj {strict : Bool} {u v r s : List TokenTree} (hu : IsAngled strict u)
    (hv : IsAngled strict v) (h : u ++ r = v ++ s) :
  u = v ∧ r = s
  := by
  obtain ⟨first, u, last, rfl, _, hbu, hlast⟩ := hu
  obtain ⟨first', v, last', rfl, _, hbv, hlast'⟩ := hv
  simp only [List.cons_append, List.append_assoc, List.nil_append, List.cons.injEq] at h
  have hr : skim false 0 (last :: r) = last :: r := by
    apply skim_of_closing
    rwa [atPunct_cons]
  have hs : skim false 0 (last' :: s) = last' :: s := by
    apply skim_of_closing
    rwa [atPunct_cons]
  obtain ⟨rfl, hrest⟩ := hbu.append_cons_inj hbv (by simp) hr hs h.2
  obtain ⟨rfl, rfl⟩ := List.cons_eq_cons.mp hrest
  simp [h.1]

/-- Trees start with one head at most. -/
theorem IsHead.append_inj {h h' r r' : List TokenTree} (hh : IsHead h) (hh' : IsHead h')
    (heq : h ++ r = h' ++ r') :
  h = h' ∧ r = r'
  := by
  obtain ⟨u, fn, name, generics, params, rfl, hu, hfn, hgenerics, hparams⟩ := hh
  obtain ⟨v, fn', name', generics', params', rfl, hv, hfn', hgenerics', hparams'⟩ := hh'
  simp only [List.append_assoc, List.cons_append, List.nil_append] at heq
  obtain ⟨rfl, rfl, hname⟩ := append_cons_inj_of_first hu hv hfn hfn' heq
  obtain ⟨rfl, hrest⟩ := List.cons_eq_cons.mp hname
  have hp (r : List TokenTree) : atAnyGroup (params :: r) := by cases params <;> simp_all [atAnyGroup]
  have hp' (r : List TokenTree) : atAnyGroup (params' :: r) := by
    cases params' <;> simp_all [atAnyGroup]
  have hg : generics = generics' ∧ params :: r = params' :: r' := by
    rcases hgenerics with rfl | hgenerics <;> rcases hgenerics' with rfl | hgenerics'
    · use rfl, hrest
    · have hno := hgenerics'.not_atAnyGroup (r := params' :: r')
      rw [← hrest, List.nil_append, hp r] at hno
      cases hno
    · have hno := hgenerics.not_atAnyGroup (r := params :: r)
      rw [hrest, List.nil_append, hp' r'] at hno
      cases hno
    · apply hgenerics.append_inj hgenerics' hrest
  obtain ⟨rfl, hg⟩ := hg
  obtain ⟨rfl, rfl⟩ := List.cons_eq_cons.mp hg
  use rfl

/-! ### What follows a return clause -/

/-- Whether trees start with what ends a return clause: a where clause, a body or a
semicolon. -/
def endsClause (trees : List TokenTree) : Bool :=
  atKeyword "where" trees || atGroup .brace trees || atPunct ';' trees

theorem endsClause_append {tail r : List TokenTree} {last : TokenTree}
    (htail : tail = [] ∨ atKeyword "where" tail)
    (hlast : atGroup .brace [last] || atPunct ';' [last]) :
  endsClause (tail ++ last :: r)
  := by
  rcases htail with rfl | htail
  · cases last <;> simp_all [endsClause, atGroup, atPunct, atLexeme]
  · obtain ⟨t, r', rfl, ht⟩ := exists_of_atLexeme htail
    simp [endsClause, atKeyword, atLexeme, ht]

/-- A return clause ends neither at an arrow nor at a plus sign. -/
theorem atPunct_of_endsClause {trees : List TokenTree} (h : endsClause trees) {symbol : Char}
    (hs : symbol ≠ ';') :
  atPunct symbol trees = false
  := by
  obtain _ | ⟨⟨l, _⟩ | _, r⟩ := trees
  · rfl
  · cases l with
    | punct c j =>
        simp only [endsClause, atKeyword, atGroup, atPunct, atLexeme, Lexeme.isKeyword,
          Lexeme.isPunct, Bool.false_or, beq_iff_eq] at h
        simp [atPunct, atLexeme, Lexeme.isPunct, h, hs.symm]
    | _ => rfl
  · rfl

theorem Arrow.not_endsClause (arrow : Arrow) (ha : atOperator ['-', '>'] arrow.trees)
    (r : List TokenTree) :
  ¬ endsClause (arrow.trees ++ r)
  := by
  intro h
  have hno : atPunct '-' (arrow.trees ++ r) = false := atPunct_of_endsClause h (by decide)
  have hyes := atPunct_first_of_atOperator ha
  rw [Arrow.trees, List.cons_append, atPunct_cons, hyes] at hno
  cases hno

namespace FunctionItem.Steps

variable {c d : Cursor} {item : FunctionItem}

theorem isHead (s : Steps c item d) :
  IsHead (Expansion.headTrees item)
  := by
  use item.attributes.flatMap (·.trees) ++ item.visibility.toList.flatMap (·.trees) ++
    item.qualifiers.tokens.map .token, .token item.fnToken, .token item.nameToken,
    item.generics.trees, item.params.group.tree
  use by simp [Expansion.headTrees]
  constructor
  · intro tree htree
    simp only [List.mem_append] at htree
    rcases htree with (htree | htree) | htree
    · apply isFn_of_mem_outerAttributesOf c.trees
      rwa [(Prod.mk.inj s.attributes_eq).1]
    · apply (reads_visibility s.visibility_eq).2 tree htree
    · obtain ⟨t, ht, rfl⟩ := List.mem_map.mp htree
      apply (reads_qualifiers s.qualifiers_eq).2 t ht
  · use (expectToken_eq_ok.mp s.fn_eq).1, (Generics.reads_read s.generics_eq).2
    rfl

/-- The trees after the new return clause of an item are those after the old one, but for
the declaration in the body. -/
theorem endsClause_tail (s : Steps c item d) :
  endsClause (Expansion.tailTrees item ++ [(Expansion.ofItem item).ending.tree])
  := by
  apply endsClause_append (WhereClause.reads_read s.where_eq).2
  have hending := (reads_readEnding s.ending_eq).2
  have hdeclares := Expansion.declares_ofItem hending
  unfold Expansion.Declares at hdeclares
  split at hdeclares
  · rwa [hdeclares]
  · obtain ⟨_, _, _, _, _, hlast⟩ := hdeclares
    rw [hlast]
    rfl

theorem endsClause_afterReturns (s : Steps c item d) :
  endsClause s.afterReturns.trees
  := by
  obtain ⟨hwhere, hstart⟩ := WhereClause.reads_read s.where_eq
  obtain ⟨hending, hlast⟩ := reads_readEnding s.ending_eq
  rw [hwhere.trees, hending.trees, List.singleton_append]
  apply endsClause_append hstart hlast

end FunctionItem.Steps

/-! ### New return types -/

namespace Expansion

variable {file file' : String} {trees : List TokenTree} {item item' : FunctionItem}

/-- Whether the new return type would be collapsed if it were read again: it replaces a
capture list, and it is a pair of parentheses without a comma. -/
def collapsesAgain (x : Expansion) : Bool :=
  x.replaced &&
    match x.returnType with
    | some ⟨_, [.group .paren inside _ _], _⟩ => !inside.any fun tree => atPunct ',' [tree]
    | _ => false

theorem joinRuns_cons_cons (span : Span) (run next : Run) (runs : List Run) :
  joinRuns span (run :: next :: runs) =
    run.trees ++ punctAt span ',' :: joinRuns span (next :: runs)
  := by
  simp [joinRuns, List.intercalate]

/-- Runs with commas between them are a list of types if the runs are those of types. -/
theorem typeList_joinRuns (span : Span) {runs : List Run}
    (h : ∀ run ∈ runs, Balanced true false run.trees) :
  TypeList (joinRuns span runs)
  := by
  induction runs with
  | nil => apply TypeList.last .nil
  | cons run runs ih =>
      rw [List.forall_mem_cons] at h
      cases runs with
      | nil => simpa [joinRuns, List.intercalate] using TypeList.last h.1
      | cons next runs =>
          rw [joinRuns_cons_cons]
          apply TypeList.cons h.1 rfl (ih h.2)

/-- Captures none of which is bound declare nothing. -/
theorem bounds_of_isUnbound {items : List Capture} (h : ∀ item ∈ items, item.isUnbound) :
  Capture.bounds items = []
  := by
  induction items with
  | nil => rfl
  | cons item items ih =>
      rw [List.forall_mem_cons] at h
      cases item with
      | bound pattern type => cases h.1
      | unbound type => apply ih h.2

/-- Expanding a list of types that has a comma leaves it as it is. -/
theorem replaced_ofCaptures {items : List Capture} {g : Group} (hitems : Capture.readList g = .ok items)
    (hg : TypeList g.trees) :
  (ofCaptures item items g).replaced = !g.trees.any fun tree => atPunct ',' [tree]
  := by
  have hbounds := bounds_of_isUnbound (Capture.isUnbound_of_readList hitems hg)
  unfold ofCaptures
  simp only [hbounds, List.isEmpty_nil, Bool.true_and]
  split
  case isTrue h => simp [h]
  case isFalse h => simpa using h

theorem Group.tree_injective {g g' : Group} (h : g.tree = g'.tree) :
  g = g'
  := by
  obtain ⟨_, _, _, _⟩ := g
  obtain ⟨_, _, _, _⟩ := g'
  simpa [Group.tree] using h

/-! ### Reading an expansion -/

variable {c c' d d' : Cursor}

/-- The trees of an expansion, part by part. -/
theorem trees_eq (item : FunctionItem) :
  (ofItem item).trees = headTrees item ++ ((ofItem item).returnTrees ++
    (tailTrees item ++ [(ofItem item).ending.tree]))
  := by
  rw [Expansion.trees, item_ofItem, tailTrees]
  simp only [List.append_assoc]

/-- An item that is read from an expansion has the head of the expansion, and what follows
it is the new return clause. -/
theorem reread_head (s : FunctionItem.Steps c item d) (s' : FunctionItem.Steps c' item' d')
    (hc' : c'.trees = (ofItem item).trees) :
  headTrees item' = headTrees item ∧
    s'.afterParams.trees =
      (ofItem item).returnTrees ++ (tailTrees item ++ [(ofItem item).ending.tree])
  := by
  apply s'.isHead.append_inj s.isHead
  rw [← trees_eq, ← s'.reads_head.trees, hc']

/-- A new return type, as the type that a cursor reads or as the tuple of several. -/
theorem returnType_of_captures {g : Group} {items : List Capture} {type : TypeExpr}
    (hitems : Capture.readList g = .ok items) (h : returnTypeOf g items = some type) :
  (∃ d e, TypeExpr.read true d = .ok (type, e)) ∨
    ∃ inside, type.run.trees = [.group .paren inside g.opening g.closing] ∧ TypeList inside ∧
      inside.any fun tree => atPunct ',' [tree]
  := by
  have hread {item : Capture} (hitem : item ∈ items) :
      ∃ d e, TypeExpr.read true d = .ok (item.type, e) :=
    Capture.exists_read_of_mem (Capture.separated_of_readList hitems) hitem
  match items, h with
  | [item], h =>
      simp only [returnTypeOf, Option.some.injEq] at h
      subst h
      left
      apply hread
      simp
  | first :: second :: rest, h =>
      simp only [returnTypeOf, Option.some.injEq] at h
      subst h
      right
      use joinRuns g.opening ((first :: second :: rest).map (·.type.run)), rfl
      constructor
      · apply typeList_joinRuns
        intro run hrun
        obtain ⟨item, hitem, rfl⟩ := List.mem_map.mp hrun
        obtain ⟨d, e, htype⟩ := hread hitem
        obtain ⟨hpass, hrun⟩ := TypeExpr.passes_read htype
        rw [hrun]
        apply hpass.crosses.readUpTo.2
      · simp [joinRuns_cons_cons, punctAt, atPunct, atLexeme, Lexeme.isPunct]

/-- Where a new return type comes from: it was given as a type, it is a capture list that
is kept, or it replaces one, as a single type or as a tuple. -/
inductive TypeOrigin (x : Expansion) (type : TypeExpr) : Prop
  | given {c d : Cursor} : x.replaced = false → TypeExpr.read true c = .ok (type, d) →
      (∀ g : Group, g.delimiter = .paren → c.trees.head? = some g.tree →
        ∀ items, Capture.readList g ≠ .ok items) → TypeOrigin x type
  | kept {g : Group} {items : List Capture} : x.replaced = false → type.run.trees = [g.tree] →
      Capture.readList g = .ok items → Capture.bounds items = [] →
      (g.trees.any fun tree => atPunct ',' [tree]) → TypeOrigin x type
  | single {c d : Cursor} : x.replaced = true → TypeExpr.read true c = .ok (type, d) →
      TypeOrigin x type
  | tuple {g : Group} : x.replaced = true → type.run.trees = [g.tree] → TypeList g.trees →
      (g.trees.any fun tree => atPunct ',' [tree]) → TypeOrigin x type

/-- The new return clause is empty, or it is an arrow and a type of known origin. -/
theorem returnTrees_ofItem (s : FunctionItem.Steps c item d) :
  ((ofItem item).returnType = none ∧ (ofItem item).returnTrees = []) ∨
    ∃ (arrow : Arrow) (type : TypeExpr), (ofItem item).returnType = some type ∧
      (ofItem item).returnTrees = arrow.trees ++ type.run.trees ∧
      atOperator ['-', '>'] arrow.trees ∧ TypeOrigin (ofItem item) type
  := by
  have hfollows := ReturnClause.follows_read s.returns_eq
  unfold Expansion.returnTrees
  rw [item_ofItem]
  generalize hreturns : item.returns = returns at hfollows
  generalize s.afterReturns = e at hfollows
  cases hfollows with
  | absent _ =>
      left
      simp [ofItem, hreturns, ReturnClause.arrow?]
  | @plain arrow type _ _ ha htype hno =>
      right
      use arrow, type
      simp only [ofItem, hreturns, ReturnClause.arrow?]
      refine ⟨trivial, trivial, ha, TypeOrigin.given rfl htype hno⟩
  | @captures arrow items g _ _ ha hparen _ _ hitems =>
      simp only [ofItem, hreturns, ReturnClause.arrow?, ofCaptures]
      by_cases hkept : (Capture.bounds items).isEmpty && g.trees.any fun tree => atPunct ',' [tree]
      · simp only [if_pos hkept]
        right
        rw [Bool.and_eq_true, List.isEmpty_iff] at hkept
        refine ⟨arrow, _, rfl, rfl, ha, TypeOrigin.kept rfl rfl hitems hkept.1 hkept.2⟩
      · simp only [if_neg hkept]
        cases htype : returnTypeOf g items with
        | none =>
            left
            simp
        | some type =>
            right
            use arrow, type, rfl, rfl, ha
            rcases returnType_of_captures hitems htype with ⟨c, d, hread⟩ | ⟨inside, hrun, hlist, hcomma⟩
            · apply TypeOrigin.single rfl hread
            · apply TypeOrigin.tuple (g := ⟨.paren, inside, g.opening, g.closing⟩) rfl hrun hlist hcomma

theorem TypeOrigin.ne_nil {x : Expansion} {type : TypeExpr} (h : x.TypeOrigin type) :
  type.run.trees ≠ []
  := by
  cases h with
  | given _ htype _ => apply TypeExpr.ne_nil_of_read htype
  | kept _ hrun _ _ _ => simp [hrun]
  | single _ htype => apply TypeExpr.ne_nil_of_read htype
  | tuple _ hrun _ _ => simp [hrun]

/-- If the new return type starts with parentheses that are read as a capture list, then it is a
list that is kept, or all of it is a list of types that replaces one. -/
theorem TypeOrigin.of_paren {x : Expansion} {type : TypeExpr} (h : x.TypeOrigin type) {g : Group}
    {v : List TokenTree} {items : List Capture} (hg : g.delimiter = .paren)
    (hrun : type.run.trees = g.tree :: v) (hv : atPunct '+' v = false)
    (hitems : Capture.readList g = .ok items) :
  (x.replaced = false ∧ Capture.bounds items = [] ∧ g.trees.any fun tree => atPunct ',' [tree]) ∨
    (x.replaced = true ∧ v = [] ∧ TypeList g.trees)
  := by
  cases h with
  | given _ hread hno =>
      apply absurd hitems (hno g hg _ items)
      rw [TypeExpr.trees_of_read hread, hrun]
      rfl
  | kept hkept hone hitems' hbounds hcomma =>
      left
      rw [hone] at hrun
      obtain ⟨htree, rfl⟩ := List.cons_eq_cons.mp hrun
      obtain rfl := Group.tree_injective htree
      rw [hitems] at hitems'
      cases hitems'
      use hkept, hbounds, hcomma
  | @single c d hreplaced hread =>
      right
      have hc : c.trees = g.tree :: (v ++ d.trees) := by
        rw [TypeExpr.trees_of_read hread, hrun, List.cons_append]
      obtain ⟨delimiter, inside, opening, closing⟩ := g
      obtain rfl : delimiter = .paren := hg
      obtain ⟨hend, types, htypes⟩ := TypeExpr.paren_of_read hread hc
      have hlist : TypeList inside := htypes.typeList fun h => (TypeExpr.passes_read h).1
      have hnil : v = [] := by
        cases v with
        | nil => rfl
        | cons tree v =>
            rw [List.cons_append, atPunct_cons] at hend
            rw [atPunct_cons] at hv
            rcases hend with hend | hend
            · have hlength := congrArg List.length hend
              simp only [List.length_cons, List.length_append] at hlength
              omega
            · simp [hv] at hend
      use hreplaced, hnil, hlist
  | tuple hreplaced hone hlist _ =>
      right
      rw [hone] at hrun
      obtain ⟨htree, rfl⟩ := List.cons_eq_cons.mp hrun
      obtain rfl := Group.tree_injective htree
      use hreplaced, rfl, hlist

/-- A capture list that is read from an expansion is what the new return type starts with. -/
theorem exists_typeOrigin_of_reread (s : FunctionItem.Steps c item d)
    (s' : FunctionItem.Steps c' item' d') (hc' : c'.trees = (ofItem item).trees) {arrow : Arrow}
    {items : List Capture} {g : Group} {span : Span}
    (hreturns : item'.returns = .captures arrow items g span) :
  ∃ type v, (ofItem item).returnType = some type ∧ (ofItem item).TypeOrigin type ∧
    g.delimiter = .paren ∧ type.run.trees = g.tree :: v ∧ atPunct '+' v = false ∧
    Capture.readList g = .ok items
  := by
  have hafter := (reread_head s s' hc').2
  have htail := s.endsClause_tail
  have hend := s'.endsClause_afterReturns
  have hfollows := ReturnClause.follows_read s'.returns_eq
  rw [hreturns] at hfollows
  generalize s'.afterReturns = e at hfollows hend
  cases hfollows with
  | captures hskip ha hg hrest _ hitems =>
      rw [hskip, hrest] at hafter
      rcases returnTrees_ofItem s with ⟨_, hnil⟩ | ⟨arrow', type, htype, htrees, ha', horigin⟩
      · rw [hnil, List.nil_append] at hafter
        rw [← hafter] at htail
        apply absurd htail (arrow.not_endsClause ha _)
      · rw [htrees, List.append_assoc] at hafter
        obtain ⟨harrow, hrun⟩ := List.append_inj hafter rfl
        obtain ⟨first, v, hv⟩ := List.exists_cons_of_ne_nil horigin.ne_nil
        rw [hv, List.cons_append] at hrun
        obtain ⟨rfl, htrees'⟩ := List.cons_eq_cons.mp hrun
        have hplus : atPunct '+' v = false := by
          have hno : atPunct '+' e.trees = false := atPunct_of_endsClause hend (by decide)
          cases v with
          | nil => rfl
          | cons tree v =>
              rw [htrees', List.cons_append, atPunct_cons] at hno
              rwa [atPunct_cons]
        use type, v, htype, horigin, hg, hv, hplus, hitems

/-- A capture list that is read from an expansion is replaced if and only if the new return
type collapses again. -/
theorem replaced_reread (s : FunctionItem.Steps c item d) (s' : FunctionItem.Steps c' item' d')
    (hc' : c'.trees = (ofItem item).trees) {arrow : Arrow} {items : List Capture} {g : Group}
    {span : Span} (hreturns : item'.returns = .captures arrow items g span) :
  (ofItem item').replaced = (ofItem item).collapsesAgain
  := by
  obtain ⟨type, v, htype, horigin, hg, hrun, hv, hitems⟩ :=
    exists_typeOrigin_of_reread s s' hc' hreturns
  rw [ofItem, hreturns]
  rcases horigin.of_paren hg hrun hv hitems with ⟨hkept, hbounds, hcomma⟩ | ⟨hreplaced, rfl, hlist⟩
  · simp [ofCaptures, hbounds, hcomma, collapsesAgain, hkept]
  · simp only [replaced_ofCaptures hitems hlist]
    obtain ⟨delimiter, inside, opening, closing⟩ := g
    obtain rfl : delimiter = .paren := hg
    obtain ⟨kind, trees, span⟩ := type
    obtain rfl : trees = _ := hrun
    simp [collapsesAgain, htype, hreplaced, Group.tree]

/-- An expansion that does not collapse again is kept. -/
theorem kept_reread (s : FunctionItem.Steps c item d) (s' : FunctionItem.Steps c' item' d')
    (hc' : c'.trees = (ofItem item).trees) (h : (ofItem item).collapsesAgain = false) :
  (ofItem item').replaced = false
  := by
  cases hreturns : item'.returns with
  | absent => simp [ofItem, hreturns]
  | plain arrow type span => simp [ofItem, hreturns]
  | captures arrow items g span => rw [replaced_reread s s' hc' hreturns, h]

/-- No capture that is read from an expansion is bound. -/
theorem bounds_reread (s : FunctionItem.Steps c item d) (s' : FunctionItem.Steps c' item' d')
    (hc' : c'.trees = (ofItem item).trees) {arrow : Arrow} {items : List Capture} {g : Group}
    {span : Span} (hreturns : item'.returns = .captures arrow items g span) :
  Capture.bounds items = []
  := by
  obtain ⟨type, v, _, horigin, hg, hrun, hv, hitems⟩ :=
    exists_typeOrigin_of_reread s s' hc' hreturns
  rcases horigin.of_paren hg hrun hv hitems with ⟨_, hbounds, _⟩ | ⟨_, _, hlist⟩
  · apply hbounds
  · apply bounds_of_isUnbound (Capture.isUnbound_of_readList hitems hlist)

/-- A new return type that collapses again is a group of parentheses that is read as a
capture list, of nothing or of the one type that stands in it. -/
theorem exists_readList_of_collapsesAgain (s : FunctionItem.Steps c item d)
    (h : (ofItem item).collapsesAgain) :
  ∃ (arrow : Arrow) (g : Group) (items : List Capture),
    (ofItem item).returnTrees = arrow.trees ++ [g.tree] ∧ atOperator ['-', '>'] arrow.trees ∧
    g.delimiter = .paren ∧ Capture.readList g = .ok items ∧
    (items = [] ∨ ∃ type, items = [.unbound type] ∧ type.run.trees = g.trees)
  := by
  rw [collapsesAgain, Bool.and_eq_true] at h
  obtain ⟨hreplaced, h⟩ := h
  split at h
  case h_2 => cases h
  case h_1 kind inside opening closing span htype =>
  rcases returnTrees_ofItem s with ⟨hnone, _⟩ | ⟨arrow, type, htype', htrees, ha, horigin⟩
  · simp [htype] at hnone
  · obtain rfl : ⟨kind, [.group .paren inside opening closing], span⟩ = type := by
      simpa [htype] using htype'
    use arrow, ⟨.paren, inside, opening, closing⟩
    cases horigin with
    | given hkept _ _ => simp [hreplaced] at hkept
    | kept hkept _ _ _ _ => simp [hreplaced] at hkept
    | @tuple g _ hone _ hcomma =>
        obtain ⟨htree, _⟩ := List.cons_eq_cons.mp hone
        obtain rfl : (⟨.paren, inside, opening, closing⟩ : Group) = g := Group.tree_injective htree
        simp [hcomma] at h
    | @single c₁ d₁ _ hread =>
        have hc := TypeExpr.trees_of_read hread
        obtain ⟨_, types, htypes⟩ := TypeExpr.paren_of_read hread hc
        use types.map .unbound, htrees, ha, rfl, Capture.readList_of_separated htypes
        cases htypes with
        | nil _ =>
            left
            rfl
        | @last _ d type hread' hd =>
            right
            use type, rfl
            have htrees' := TypeExpr.trees_of_read hread'
            rwa [hd, List.append_nil, eq_comm] at htrees'
        | @cons _ d type _ hread' hcomma _ =>
            obtain ⟨comma, r', hd, hcomma⟩ := exists_of_atPunct hcomma
            simp only [Bool.not_eq_true', List.any_eq_false] at h
            apply absurd hcomma (h comma _)
            apply (TypeExpr.passes_read hread').1.crosses.isSuffix.subset
            simp [hd]

/-- An expansion that collapses again has a return clause of fewer tokens when it is expanded again,
and the same trees around it. -/
theorem collapse_reread (s : FunctionItem.Steps c item d) (s' : FunctionItem.Steps c' item' d')
    (hc' : c'.trees = (ofItem item).trees) (hd' : d'.trees = []) (h : (ofItem item).collapsesAgain) :
  (flatAll (ofItem item').returnTrees).length < (flatAll (ofItem item).returnTrees).length ∧
    tailTrees item' ++ [(ofItem item').ending.tree] =
      tailTrees item ++ [(ofItem item).ending.tree]
  := by
  obtain ⟨arrow, g, items, htrees, ha, hg, hitems, hone⟩ := exists_readList_of_collapsesAgain s h
  have hafter := (reread_head s s' hc').2
  rw [htrees, List.append_assoc, List.singleton_append] at hafter
  have hfollows := ReturnClause.follows_read s'.returns_eq
  have hwhere := (WhereClause.reads_read s'.where_eq).1
  have hending := (FunctionItem.reads_readEnding s'.ending_eq).1
  have hrest := (hwhere.append hending).trees
  rw [hd', List.append_nil] at hrest
  generalize hreturns : item'.returns = returns at hfollows
  generalize s'.afterReturns = e at hfollows hrest
  have hskip : (s'.afterParams.skip 2).trees =
      g.tree :: (tailTrees item ++ [(ofItem item).ending.tree]) := by simp [hafter, Arrow.trees]
  cases hfollows with
  | absent hno =>
      rw [hafter, Arrow.trees, List.cons_append, List.cons_append, atOperator_cons_cons] at hno
      rw [Arrow.trees, hno] at ha
      cases ha
  | plain _ _ _ hno =>
      apply absurd hitems (hno g hg _ items)
      rw [hskip]
      rfl
  | @captures arrow' items' g' _ harrow _ _ hgroup _ hitems' =>
      rw [hskip] at hgroup harrow
      obtain ⟨htree, he⟩ := List.cons_eq_cons.mp hgroup
      obtain rfl := Group.tree_injective htree
      rw [hitems] at hitems'
      cases hitems'
      rw [hafter] at harrow
      have hbounds := bounds_reread s s' hc' hreturns
      have hx : ofItem item' = ⟨item', returnTypeOf g items, true, none⟩ := by
        have hreplaced := replaced_reread s s' hc' hreturns
        rw [h, ofItem, hreturns] at hreplaced
        rw [ofItem, hreturns]
        unfold ofCaptures at hreplaced ⊢
        simp only at hreplaced ⊢
        split at hreplaced
        case isTrue => cases hreplaced
        case isFalse hcomma => rw [if_neg hcomma, hbounds]; rfl
      constructor
      · have harrow' : flatAll arrow.trees = flatAll arrow'.trees := by
          rw [(List.append_inj harrow rfl).1]
        rw [htrees]
        rcases hone with rfl | ⟨type, rfl, htype⟩
        · simp [hx, Expansion.returnTrees, returnTypeOf, Arrow.trees, flatAll, flat]
        · simp only [hx, Expansion.returnTrees, returnTypeOf, hreturns, ReturnClause.arrow?,
            flatAll_append, Group.tree, flatAll, flat, Capture.type, htype, harrow',
            List.append_nil, List.length_append, List.length_cons, List.length_nil]
          omega
      · have hsame : (ofItem item').ending = item'.ending := by
          rw [hx, Expansion.ending, Expansion.body?]
          cases hend : item'.ending <;> simp [FunctionItem.body?, hend, Ending.body?]
        rw [hsame, he, hrest]
        rfl

/-- An expansion that collapses again has fewer tokens when it is expanded again. -/
theorem length_flatAll_lt (s : FunctionItem.Steps c item d) (s' : FunctionItem.Steps c' item' d')
    (hc' : c'.trees = (ofItem item).trees) (hd' : d'.trees = []) (h : (ofItem item).collapsesAgain) :
  (flatAll (ofItem item').trees).length < (flatAll (ofItem item).trees).length
  := by
  obtain ⟨hclause, hrest⟩ := collapse_reread s s' hc' hd' h
  rw [trees_eq item, trees_eq item', hrest, (reread_head s s' hc').1]
  simp only [flatAll_append, List.length_append] at hclause ⊢
  omega

/-- Expanding the expansion of an item again changes nothing, unless the new return type
collapses again, and only then. -/
theorem flatAll_trees_ofItem_eq_iff (h : FunctionItem.ofTrees file trees = .ok item)
    (h' : FunctionItem.ofTrees file' (ofItem item).trees = .ok item') :
  flatAll (ofItem item').trees = flatAll (ofItem item).trees ↔
    (ofItem item).collapsesAgain = false
  := by
  obtain ⟨d, ⟨s⟩, _⟩ := FunctionItem.steps_of_ofTrees h
  obtain ⟨d', ⟨s'⟩, hd'⟩ := FunctionItem.steps_of_ofTrees h'
  constructor
  · intro heq
    apply Bool.eq_false_iff.mpr
    intro hcollapses
    have hlt := length_flatAll_lt s s' rfl hd' hcollapses
    rw [heq] at hlt
    apply Nat.lt_irrefl _ hlt
  · intro hkeeps
    rw [trees_of_kept h' (kept_reread s s' rfl hkeeps)]

theorem flatAll_trees_ofItem_eq_nested :
  ∃ trees item item',
    FunctionItem.ofTrees "f.rs" trees = .ok item ∧
    FunctionItem.ofTrees "f.rs" (ofItem item).trees = .ok item' ∧
    (ofItem item).replaced = true ∧
    flatAll (ofItem item').trees = flatAll (ofItem item).trees
  := by
  obtain ⟨item, htext, hitem⟩ := Outcome.exists_of_any
    (x := FunctionItem.ofText "f.rs" "fn f() -> (a: ((), (u8))) { a }".toList)
    (p := fun item => (ofItem item).replaced && !(ofItem item).collapsesAgain &&
      (FunctionItem.ofTrees "f.rs" (ofItem item).trees).toOption.isSome)
    (by decide +kernel)
  simp only [Bool.and_eq_true, Bool.not_eq_true'] at hitem
  obtain ⟨trees, _, h⟩ := Outcome.bind_eq_ok.mp htext
  obtain ⟨item', h', _⟩ := Outcome.exists_of_any (p := fun _ => true)
    (by simpa using hitem.2 : (FunctionItem.ofTrees "f.rs" (ofItem item).trees).toOption.any
      fun _ => true)
  use trees, item, item', h, h', hitem.1.1
  apply (flatAll_trees_ofItem_eq_iff h h').mpr hitem.1.2

/-- A single type in parentheses loses them when its expansion is expanded again. -/
theorem flatAll_trees_ofItem_ne_parenthesized :
  ∃ trees item item',
    FunctionItem.ofTrees "f.rs" trees = .ok item ∧
    FunctionItem.ofTrees "f.rs" (ofItem item).trees = .ok item' ∧
    flatAll (ofItem item').trees ≠ flatAll (ofItem item).trees
  := by
  obtain ⟨item, htext, hitem⟩ := Outcome.exists_of_any
    (x := FunctionItem.ofText "f.rs" "fn f() -> (a: (u8)) { a }".toList)
    (p := fun item => (FunctionItem.ofTrees "f.rs" (ofItem item).trees).toOption.any fun item' =>
      flatAll (ofItem item').trees ≠ flatAll (ofItem item).trees)
    (by decide +kernel)
  obtain ⟨trees, _, h⟩ := Outcome.bind_eq_ok.mp htext
  obtain ⟨item', h', hne⟩ := Outcome.exists_of_any hitem
  use trees, item, item', h, h'
  simpa using hne

end Expansion

end ReturnCaptures
