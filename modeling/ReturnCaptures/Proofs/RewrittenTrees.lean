import ReturnCaptures.Proofs.RecordedNames
import ReturnCaptures.Proofs.RenderedBodies
import ReturnCaptures.Proofs.UnmarkedTrees

/-!
# Trees with their marked items rewritten

An expansion rewrites the trees of a source: those that a marked item takes up become the trees of its
expansion, with the trees of its body rewritten too, and all others stay. A rewritten item starts with
an attribute or a keyword and ends in a semicolon or a body, so that no mark comes about where it
borders on other trees. The rewritten trees are therefore without marks if those of each expansion are,
apart from the statements of its body.
-/

namespace ReturnCaptures

open TokenTree MarkedItem

/-- The trees of an expansion around others, in the place of those in which edits may stand. -/
def Expansion.treesAround (x : Expansion) (trees : List TokenTree) : List TokenTree :=
  x.stemTrees ++ [x.endTree trees]

/-- Whether an item may start with a lexeme. -/
def Lexeme.startsItem : Lexeme → Bool
  | .doc _ _ | .keyword _ => true
  | .punct symbol _ => symbol == '#'
  | _ => false

/-- What the trees of a source become if the marked items that they hold are expanded. -/
inductive Source.Rewrites (source : Source) :
    List TokenTree → List MarkedItem → List TokenTree → Prop
  | nil : Rewrites source [] [] []
  | marked {u after opened rest : List TokenTree} {x : MarkedItem} {found : List MarkedItem} :
      x.TakesUp source u after → Rewrites source x.openTrees x.inner opened →
      Rewrites source after found rest →
      Rewrites source (u ++ after) (x :: found) ((Expansion.ofItem x.item).treesAround opened ++ rest)
  | token {t : Token} {trees rest : List TokenTree} {found : List MarkedItem} :
      source.itemAt (.token t :: trees) = .ok none → Rewrites source trees found rest →
      Rewrites source (.token t :: trees) found (.token t :: rest)
  | group {d : Delimiter} {inside inside' trees rest : List TokenTree} {opening closing : Span}
      {inner found : List MarkedItem} :
      source.itemAt (.group d inside opening closing :: trees) = .ok none →
      Rewrites source inside inner inside' → Rewrites source trees found rest →
      Rewrites source (.group d inside opening closing :: trees) (inner ++ found)
        (.group d inside' opening closing :: rest)

/-! ### Trees without marks side by side -/

section Clear

variable {markers : Markers} {trees u v inside inside' : List TokenTree} {t : Token}
  {opening closing : Span}

theorem atMarkerCall_of_not_word (h : t.lexeme.isPathWord = false) :
  atMarkerCall markers (.token t :: trees) = false
  := by
  match trees with
  | [] | [_] => rfl
  | bang :: tree :: rest => simp [atMarkerCall, h]

theorem atMarkerCall_of_not_bang {bang : TokenTree} (h : atPunct '!' [bang] = false) :
  atMarkerCall markers (.token t :: bang :: trees) = false
  := by
  match trees with
  | [] => rfl
  | tree :: rest => simp [atMarkerCall, h]

/-- Neither a name nor an exclamation mark ends an item. -/
theorem not_isEnding {tree : TokenTree} (h : tree.isEnding) :
  atPathStart [tree] = false ∧ atPunct '!' [tree] = false
  := by
  cases tree with
  | group => exact ⟨rfl, rfl⟩
  | token t =>
      obtain ⟨joint, span, rfl⟩ := Cursor.exists_of_isPunct h
      exact ⟨rfl, rfl⟩

/-- Closed trees start with a mark in front of others only if they do without them. -/
theorem atMark_append (h : Closed trees) (v : List TokenTree) :
  atMark markers (trees ++ v) = atMark markers trees
  := by
  rw [atMark, atMark, atMarkerAttribute?_append v markers h]
  congr 1
  rcases trees with _ | ⟨tree, trees⟩
  · cases not_closed_nil h
  cases tree with
  | group => rfl
  | token t =>
      rcases trees with _ | ⟨bang, _ | ⟨tree, rest⟩⟩
      · obtain ⟨last, hlast, hending⟩ := h
        obtain rfl := Option.some.inj hlast
        exact atMarkerCall_of_not_word (not_isEnding hending).1
      · obtain ⟨last, hlast, hending⟩ := h
        obtain rfl := Option.some.inj hlast
        exact atMarkerCall_of_not_bang (not_isEnding hending).2
      · rfl

/-- No mark comes about behind closed trees. -/
theorem Clear.append (hu : Clear markers u) (hclosed : u ≠ [] → Closed u) (hv : Clear markers v) :
  Clear markers (u ++ v)
  := by
  induction u with
  | nil => exact hv
  | cons tree u ih =>
      have hrest : u ≠ [] → Closed u :=
        fun hne => (hclosed (List.cons_ne_nil _ _)).of_isSuffix (List.suffix_cons tree u) hne
      cases tree with
      | token t =>
          rw [clear_token] at hu
          rw [List.cons_append, clear_token, ← List.cons_append,
            atMark_append (hclosed (List.cons_ne_nil _ _))]
          exact ⟨hu.1, ih hu.2 hrest⟩
      | group d inside opening closing =>
          rw [clear_group] at hu
          rw [List.cons_append, clear_group]
          exact ⟨hu.1, ih hu.2 hrest⟩

/-- A block at the end of trees without marks may hold any others without marks. -/
theorem Clear.replace_last (h : Clear markers (u ++ [.group .brace inside opening closing]))
    (hinside : Clear markers inside') :
  Clear markers (u ++ [.group .brace inside' opening closing])
  := by
  induction u with
  | nil =>
      rw [List.nil_append, clear_group] at h ⊢
      exact ⟨hinside, h.2⟩
  | cons tree u ih =>
      cases tree with
      | token t =>
          rw [List.cons_append, clear_token] at h ⊢
          refine ⟨?_, ih h.2⟩
          have hlook : Resembles (.token t :: (u ++ [.group .brace inside opening closing]))
              (.token t :: (u ++ [.group .brace inside' opening closing])) :=
            ((Resembles.group .nil).append_left u).token_cons t
          rw [← Bool.not_eq_true] at h ⊢
          intro hmark
          apply h.1 (hlook.atMark _ hmark)
          intro _ within _ _ _ _ within' _ _ _ heq heq' hnames
          obtain ⟨-, hu⟩ := List.cons_eq_cons.mp heq
          obtain ⟨-, hu'⟩ := List.cons_eq_cons.mp heq'
          obtain _ | ⟨tree, u⟩ := u
          · cases hu
          · obtain ⟨rfl, -⟩ := List.cons_eq_cons.mp hu
            obtain ⟨hgroup, -⟩ := List.cons_eq_cons.mp hu'
            obtain ⟨-, rfl, -, -⟩ := TokenTree.group.inj hgroup
            exact hnames
      | group d within opening closing =>
          rw [List.cons_append, clear_group] at h ⊢
          exact ⟨h.1, ih h.2⟩

end Clear

/-! ### Where items start -/

section Starts

open Cursor

variable {c d : Cursor} {item : FunctionItem} {u v : List TokenTree} {t : Token} {l : Lexeme}

theorem Lexeme.startsItem_of_isKeyword {word : String} (h : l.isKeyword word) :
  l.startsItem
  := by
  cases l <;> first | rfl | cases h

/-- Whether trees that are part of an item may be its first. -/
def opensItem (trees : List TokenTree) : Bool :=
  trees.isEmpty || atLexeme Lexeme.startsItem trees

theorem opensItem_append (hu : opensItem u) (hv : opensItem v) :
  opensItem (u ++ v)
  := by
  cases u with
  | nil => exact hv
  | cons tree u => cases tree <;> exact hu

theorem opensItem_outerAttributes {runs : List Run} (h : outerAttributes c = (runs, d)) :
  opensItem (runs.flatMap (·.trees))
  := by
  obtain ⟨rfl, -⟩ := Prod.mk.inj h
  rw [outerAttributesOf.eq_def]
  split <;> rfl

theorem opensItem_visibility {visibility : Option Run}
    (h : FunctionItem.readVisibility c = (visibility, d)) :
  opensItem (visibility.toList.flatMap (·.trees))
  := by
  unfold FunctionItem.readVisibility at h
  split at h
  case h_1 =>
    split at h
    case h_1 =>
      split at h <;> cases h <;> rfl
    case h_2 =>
      cases h
      rfl
  case h_2 =>
    cases h
    rfl

theorem opensItem_keyword? {word : String} {t : Option Token}
    (h : FunctionItem.readKeyword? word c = (t, d)) :
  opensItem (t.toList.map .token)
  := by
  unfold FunctionItem.readKeyword? at h
  split at h
  case h_1 =>
    split at h
    case isTrue hword =>
      cases h
      exact Lexeme.startsItem_of_isKeyword hword
    case isFalse =>
      cases h
      rfl
  case h_2 =>
    cases h
    rfl

theorem opensItem_qualifiers {q : Qualifiers} (h : FunctionItem.readQualifiers c = (q, d)) :
  opensItem (q.tokens.map .token)
  := by
  unfold FunctionItem.readQualifiers at h
  rcases h₁ : FunctionItem.readKeyword? "const" c with ⟨constness, c₁⟩
  rcases h₂ : FunctionItem.readKeyword? "async" c₁ with ⟨asyncness, c₂⟩
  rcases h₃ : FunctionItem.readKeyword? "unsafe" c₂ with ⟨unsafety, c₃⟩
  have hthree := opensItem_append (opensItem_append (opensItem_keyword? h₁) (opensItem_keyword? h₂))
    (opensItem_keyword? h₃)
  rw [← List.map_append, ← List.map_append] at hthree
  simp only [h₁, h₂, h₃] at h
  split at h
  case h_1 keyword c₄ h₄ =>
    rcases hname : FunctionItem.readAbiName c₄ with ⟨name, c₅⟩
    simp only [hname, Prod.mk.injEq] at h
    obtain ⟨rfl, -⟩ := h
    have hkeyword := opensItem_keyword? h₄
    rw [Qualifiers.tokens, List.map_append]
    exact opensItem_append hthree hkeyword
  case h_2 c₄ h₄ =>
    obtain ⟨rfl, -⟩ := Prod.mk.inj h
    rw [Qualifiers.tokens, List.append_nil]
    exact hthree

theorem exists_of_opensItem (h : opensItem u) (hne : u ≠ []) :
  ∃ t rest, u = .token t :: rest ∧ t.lexeme.startsItem
  := by
  match u with
  | .token t :: rest => exact ⟨t, rest, rfl, h⟩
  | .group .. :: _ => cases h
  | [] => cases hne rfl

/-- An item starts with an attribute, with documentation or with a keyword. -/
theorem FunctionItem.Steps.exists_first (s : Steps c item d) :
  ∃ t rest, Expansion.headTrees item = .token t :: rest ∧ t.lexeme.startsItem
  := by
  have hfn : opensItem [.token item.fnToken, .token item.nameToken] := by
    obtain ⟨hfn, _, _⟩ := expectToken_eq_ok.mp s.fn_eq
    exact Lexeme.startsItem_of_isKeyword hfn
  have hfront := opensItem_append (opensItem_append (opensItem_append
    (opensItem_outerAttributes s.attributes_eq) (opensItem_visibility s.visibility_eq))
    (opensItem_qualifiers s.qualifiers_eq)) hfn
  obtain ⟨t, rest, hrest, ht⟩ := exists_of_opensItem hfront
    (List.append_ne_nil_of_right_ne_nil _ (List.cons_ne_nil _ _))
  refine ⟨t, rest ++ (item.generics.trees ++ [item.params.group.tree]), ?_, ht⟩
  rw [Expansion.headTrees, List.append_assoc, hrest, List.cons_append]

end Starts

/-! ### Marked items in a source -/

section Marked

variable {source : Source} {trees u after opened : List TokenTree} {item : FunctionItem}
  {x : MarkedItem} {c d : Cursor}

theorem TokenTree.Occurs.areProper {place : List TokenTree} (h : Occurs place trees)
    (htrees : TokenTree.areProper trees) :
  TokenTree.areProper place
  := by
  induction h with
  | here => exact htrees
  | behind _ ih =>
      rw [TokenTree.areProper, Bool.and_eq_true] at htrees
      exact ih htrees.2
  | inside _ ih =>
      rw [TokenTree.areProper, isProper, Bool.and_eq_true] at htrees
      exact ih htrees.1

/-- A marked item is read from trees that occur where it stands. -/
theorem Source.exists_read_of_itemAt (h : source.itemAt trees = .ok (some (item, after))) :
  ∃ c d, FunctionItem.read c = .ok (item, d) ∧ Occurs c.trees trees
  := by
  obtain ⟨call, hsite, hitem, -⟩ | ⟨next, -, hitem, -⟩ := itemAt_eq_some h
  · obtain ⟨name, path, bang, rest, rfl, -⟩ := site?_eq_invocation.mp hsite
    obtain ⟨d, hread, -⟩ := FunctionItem.ofTrees_eq_ok.mp hitem
    refine ⟨_, d, hread, Occurs.of_group ?_⟩
    simp
  · obtain ⟨d, hread, -⟩ := FunctionItem.readAt_eq_ok.mp hitem
    exact ⟨_, d, hread, .of_isSuffix (List.drop_suffix 2 trees)⟩

/-- A marked item is read in steps, from trees that occur where it stands. -/
theorem MarkedItem.TakesUp.exists_steps (h : x.TakesUp source u after) :
  ∃ c d, Nonempty (FunctionItem.Steps c x.item d) ∧ Occurs c.trees (u ++ after)
  := by
  obtain ⟨c, d, hread, hplace⟩ := Source.exists_read_of_itemAt h.read
  exact ⟨c, d, FunctionItem.nonempty_steps hread, hplace⟩

/-- The trees of an expansion start with the first tree of the item. -/
theorem Expansion.exists_treesAround_eq (s : FunctionItem.Steps c item d) (opened : List TokenTree) :
  ∃ t rest, (ofItem item).treesAround opened = .token t :: rest ∧ t.lexeme.startsItem
  := by
  obtain ⟨t, rest, hrest, ht⟩ := s.exists_first
  rw [treesAround, stemTrees, item_ofItem, hrest]
  exact ⟨t, _, rfl, ht⟩

/-- The trees of an expansion are closed. -/
theorem Expansion.closed_treesAround (s : FunctionItem.Steps c item d) (opened : List TokenTree) :
  Closed ((ofItem item).treesAround opened)
  := by
  refine ⟨_, List.getLast?_concat, ?_⟩
  rw [endTree, item_ofItem]
  rcases s.ending_cases with ⟨body, hending, -⟩ | ⟨t, hending, ht⟩
  · rw [hending]
    rfl
  · rw [hending]
    exact ht

/-- A declaration closes the trees of a body in front of its statements. -/
theorem Expansion.closed_closedTrees (s : FunctionItem.Steps c item d) {body : Group}
    (hne : (ofItem item).closedTrees body ≠ []) :
  Closed ((ofItem item).closedTrees body)
  := by
  rw [closedTrees] at hne ⊢
  cases hd : (ofItem item).declaration with
  | none =>
      rw [hd] at hne
      cases hne rfl
  | some declaration =>
      obtain ⟨_, items, _, _, span, -, -, rfl⟩ := exists_captures_of_declaration s hd
      dsimp only
      rw [Declaration.ofBound, ← List.cons_append, ← List.append_assoc]
      exact ⟨_, List.getLast?_concat, rfl⟩

/-- The trees of an expansion are without marks if they are so without the statements of the body, and
if the statements are. -/
theorem Expansion.clear_treesAround {markers : Markers} (s : FunctionItem.Steps c item d)
    (h : Clear markers ((ofItem item).treesAround [])) (hopened : Clear markers opened) :
  Clear markers ((ofItem item).treesAround opened)
  := by
  rw [treesAround, endTree, item_ofItem] at h ⊢
  rcases s.ending_cases with ⟨body, hending, -⟩ | ⟨t, hending, -⟩
  · rw [hending] at h ⊢
    apply h.replace_last
    have hbody : Clear markers ((ofItem item).closedTrees body ++ []) := by
      intro place hplace
      apply h place
      exact hplace.trans ((Occurs.inside .here).trans (.of_isSuffix (List.suffix_append _ _)))
    rw [List.append_nil] at hbody
    exact hbody.append (closed_closedTrees s) hopened
  · rw [hending] at h ⊢
    exact h

theorem Source.Holds.exists_rewrites {found : List MarkedItem} (h : source.Holds trees found) :
  ∃ rest, source.Rewrites trees found rest
  := by
  induction h with
  | nil => exact ⟨[], .nil⟩
  | marked htakes _ _ ihinner ih =>
      obtain ⟨opened, hopened⟩ := ihinner
      obtain ⟨rest, hrest⟩ := ih
      exact ⟨_, .marked htakes hopened hrest⟩
  | token hitem _ ih =>
      obtain ⟨rest, hrest⟩ := ih
      exact ⟨_, .token hitem hrest⟩
  | group hitem _ _ ihinner ih =>
      obtain ⟨inside, hinside⟩ := ihinner
      obtain ⟨rest, hrest⟩ := ih
      exact ⟨_, .group hitem hinside hrest⟩

end Marked

/-! ### Rewritten trees without marks -/

section Names

variable {markers : Markers} {trees rest : List TokenTree} {name : String}

theorem not_isFn_of_isPathWord {t : Token} (h : t.lexeme.isPathWord) :
  (TokenTree.token t).isFn = false
  := by
  obtain ⟨l, span⟩ := t
  cases l with
  | keyword word =>
      by_contra hfn
      obtain rfl : word = "fn" := eq_of_beq (Bool.not_eq_false _ ▸ hfn)
      cases h
  | _ => rfl

theorem not_isFn_of_atPunct {symbol : Char} {tree : TokenTree} (h : atPunct symbol [tree]) :
  tree.isFn = false
  := by
  obtain ⟨⟨l, span⟩, rfl⟩ := Cursor.exists_of_atPunct_singleton h
  cases l <;> first | rfl | cases h

theorem not_isFn_of_atOperator {first second : TokenTree}
    (h : atOperator [':', ':'] [first, second]) :
  first.isFn = false ∧ second.isFn = false
  := ⟨not_isFn_of_atPunct (atPunct_first_of_atOperator h), not_isFn_of_atPunct (atPunct_of_atOperator h)⟩

/-- No path goes on over the keyword of an item. -/
theorem not_isFn_of_pathEnd (name : String) (h : ∀ tree ∈ (pathEnd name trees).2, tree.isFn = false) :
  ∀ tree ∈ trees, tree.isFn = false
  := by
  fun_induction pathEnd name trees with
  | case1 name colon colon' t trees hsegment ih =>
      obtain ⟨hoperator, hword⟩ := Bool.and_eq_true_iff.mp hsegment
      obtain ⟨hcolon, hcolon'⟩ := not_isFn_of_atOperator hoperator
      rw [List.forall_mem_cons, List.forall_mem_cons, List.forall_mem_cons]
      exact ⟨hcolon, hcolon', not_isFn_of_isPathWord hword, ih h⟩
  | case2 => exact h
  | case3 => exact h

theorem not_isFn_of_pathName? {path : String × List TokenTree} (h : pathName? trees = some path)
    (hrest : ∀ tree ∈ path.2, tree.isFn = false) :
  ∀ tree ∈ trees, tree.isFn = false
  := by
  have hstart : ∀ tree ∈ (if atOperator [':', ':'] trees then trees.drop 2 else trees),
      tree.isFn = false := by
    rw [pathName?] at h
    split at h
    case h_1 t rest hword =>
      split at h
      case isTrue hpath =>
        obtain rfl := Option.some.inj h
        rw [hword, List.forall_mem_cons]
        exact ⟨not_isFn_of_isPathWord hpath, not_isFn_of_pathEnd _ hrest⟩
      case isFalse => cases h
    case h_2 => cases h
  split at hstart
  case isTrue hoperator =>
    obtain ⟨colon, colon', rest, rfl, hcolons⟩ := Cursor.exists_of_atOperator hoperator
    obtain ⟨hcolon, hcolon'⟩ := not_isFn_of_atOperator hcolons
    rw [List.forall_mem_cons, List.forall_mem_cons]
    exact ⟨hcolon, hcolon', hstart⟩
  case isFalse => exact hstart

/-- The inside of a marker attribute has no keyword of an item among its trees. -/
theorem not_isFn_of_namesMarker? (h : namesMarker? markers trees = some true) :
  ∀ tree ∈ trees, tree.isFn = false
  := by
  rw [namesMarker?, Option.map_eq_some_iff] at h
  obtain ⟨marked, -, hmarked⟩ := h
  rw [Bool.and_eq_true, Option.any_eq_true] at hmarked
  obtain ⟨-, path, hpath, hends⟩ := hmarked
  apply not_isFn_of_pathName? hpath
  generalize path.2 = rest at hends
  rcases rest with _ | ⟨tree, rest⟩
  · simp
  cases tree with
  | token => cases hends
  | group d =>
      cases rest with
      | nil => simp [isFn, atKeyword, atLexeme]
      | cons => cases d <;> cases hends

end Names

namespace Source

variable {source : Source} {trees rest : List TokenTree} {found : List MarkedItem} {tree : TokenTree}
  {t : Token} {x : MarkedItem} {opened u after : List TokenTree}

/-- What a marked item becomes starts with a token that starts an item. -/
theorem exists_of_takesUp (h : x.TakesUp source u after) (opened : List TokenTree) :
  ∃ t v, (Expansion.ofItem x.item).treesAround opened = .token t :: v ∧ t.lexeme.startsItem
  := by
  obtain ⟨c, d, ⟨s⟩, -⟩ := h.exists_steps
  exact Expansion.exists_treesAround_eq s opened

/-- Rewritten trees that start with a token that starts no item have kept it. -/
theorem Rewrites.of_token (h : source.Rewrites trees found (.token t :: rest))
    (ht : t.lexeme.startsItem = false) :
  ∃ trees', trees = .token t :: trees' ∧ source.Rewrites trees' found rest
  := by
  generalize hrest : TokenTree.token t :: rest = v at h
  cases h with
  | nil => cases hrest
  | marked htakes =>
      obtain ⟨s, w, hfirst, hs⟩ := exists_of_takesUp htakes _
      rw [hfirst, List.cons_append] at hrest
      cases hrest
      rw [hs] at ht
      cases ht
  | token _ h =>
      cases hrest
      exact ⟨_, rfl, h⟩
  | group => cases hrest

/-- Rewritten trees that start with a group have kept it, with its inside rewritten. -/
theorem Rewrites.of_group {d : Delimiter} {inside : List TokenTree} {opening closing : Span}
    (h : source.Rewrites trees found (.group d inside opening closing :: rest)) :
  ∃ inner found' inside' trees', trees = .group d inside' opening closing :: trees' ∧
    source.Rewrites inside' inner inside ∧ source.Rewrites trees' found' rest
  := by
  generalize hrest : TokenTree.group d inside opening closing :: rest = v at h
  cases h with
  | nil => cases hrest
  | marked htakes =>
      obtain ⟨s, w, hfirst, -⟩ := exists_of_takesUp htakes _
      rw [hfirst] at hrest
      cases hrest
  | token => cases hrest
  | group _ hinside h =>
      cases hrest
      exact ⟨_, _, _, _, rfl, hinside, h⟩

/-- Trees among which no item has come look like those that they have been. -/
theorem Rewrites.resembles (h : source.Rewrites trees found rest)
    (hfn : ∀ tree ∈ rest, tree.isFn = false) :
  Resembles trees rest
  := by
  induction h with
  | nil => exact .nil
  | @marked _ _ _ _ x _ htakes =>
      obtain ⟨c, d, ⟨s⟩, -⟩ := htakes.exists_steps
      have hitem := hfn (.token x.item.fnToken) (by
        rw [Expansion.treesAround, Expansion.stemTrees, Expansion.item_ofItem, Expansion.headTrees]
        simp)
      obtain ⟨hkeyword, -, -⟩ := Cursor.expectToken_eq_ok.mp s.fn_eq
      rw [isFn, atKeyword, atLexeme, hkeyword] at hitem
      cases hitem
  | token _ _ ih => exact (ih (List.forall_mem_cons.mp hfn).2).token_cons _
  | group _ _ _ _ ih => exact .group (ih (List.forall_mem_cons.mp hfn).2)

/-- A token in front of rewritten trees starts a mark only if it did so in front of the trees
themselves. -/
theorem Rewrites.atMark (h : source.Rewrites trees found rest)
    (hmark : ReturnCaptures.atMark source.markers (.token t :: rest)) :
  ReturnCaptures.atMark source.markers (.token t :: trees)
  := by
  rw [ReturnCaptures.atMark, Bool.or_eq_true] at hmark ⊢
  rcases hmark with hcall | hattribute
  · left
    rcases rest with _ | ⟨bang, _ | ⟨tree, rest⟩⟩
    · cases hcall
    · cases hcall
    · rw [atMarkerCall, Bool.and_eq_true, Bool.and_eq_true] at hcall
      obtain ⟨⟨hname, hbang⟩, hgroup⟩ := hcall
      obtain ⟨s, rfl⟩ := Cursor.exists_of_atPunct_singleton hbang
      obtain ⟨joint, span, rfl⟩ := Cursor.exists_of_isPunct hbang
      obtain ⟨trees', rfl, h'⟩ := h.of_token rfl
      cases tree with
      | token => cases hgroup
      | group d inside opening closing =>
          obtain ⟨_, _, inside', trees'', rfl, -, -⟩ := h'.of_group
          rw [atMarkerCall, hname, hbang]
          rfl
  · right
    replace hattribute := eq_of_beq hattribute
    rw [atMarkerAttribute?.eq_def] at hattribute
    split at hattribute
    case h_1 hash inside opening closing rest' heq =>
      obtain ⟨rfl, rfl⟩ := List.cons_eq_cons.mp heq
      split at hattribute
      case isTrue hhash =>
        obtain ⟨_, _, inside', trees', rfl, hinside, -⟩ := h.of_group
        have hlook := hinside.resembles (not_isFn_of_namesMarker? hattribute)
        rw [atMarkerAttribute?, if_pos hhash, hlook.namesMarker?_eq, hattribute]
        rfl
      case isFalse => cases Option.some.inj hattribute
    case h_2 => cases Option.some.inj hattribute

/-- Rewritten trees are without marks if those of each expansion are, apart from the statements of its
body. -/
theorem Rewrites.clear (h : source.Rewrites trees found rest)
    (hfound : ∀ x ∈ listedAll found,
      Clear source.markers ((Expansion.ofItem x.item).treesAround [])) :
  Clear source.markers rest
  := by
  induction h with
  | nil => exact clear_nil
  | @marked _ _ _ _ x _ htakes _ _ ihinner ih =>
      obtain ⟨c, d, ⟨s⟩, -⟩ := htakes.exists_steps
      rw [MarkedItem.listedAll_cons, List.forall_mem_cons, List.forall_mem_append] at hfound
      obtain ⟨hshell, hinner, hfound⟩ := hfound
      exact (Expansion.clear_treesAround s hshell (ihinner hinner)).append
        (fun _ => Expansion.closed_treesAround s _) (ih hfound)
  | token hitem h ih =>
      rw [clear_token]
      refine ⟨?_, ih hfound⟩
      have hno := not_atMark_of_unmarked (site?_of_itemAt hitem)
      rw [← Bool.not_eq_true] at hno ⊢
      exact fun hmark => hno (h.atMark hmark)
  | group _ _ _ ihinner ih =>
      rw [MarkedItem.listedAll_append, List.forall_mem_append] at hfound
      exact clear_group.mpr ⟨ihinner hfound.1, ih hfound.2⟩

/-- Rewritten trees have no delimiters among their tokens if the trees have none. -/
theorem Rewrites.areProper (h : source.Rewrites trees found rest)
    (htrees : TokenTree.areProper trees) :
  TokenTree.areProper rest
  := by
  induction h with
  | nil => rfl
  | @marked _ _ opened _ x _ htakes _ _ ihinner ih =>
      obtain ⟨c, d, ⟨s⟩, hplace⟩ := htakes.exists_steps
      have hitem := hplace.areProper htrees
      rw [areProper_append] at htrees ⊢
      refine ⟨?_, ih htrees.2⟩
      have hopened := ihinner (Expansion.areProper_openTrees s hitem)
      rw [Expansion.treesAround, areProper_append, TokenTree.areProper,
        Expansion.isProper_endTree s hitem hopened]
      exact ⟨Expansion.areProper_stemTrees s hitem, rfl⟩
  | token _ _ ih =>
      rw [TokenTree.areProper, Bool.and_eq_true] at htrees ⊢
      exact ⟨htrees.1, ih htrees.2⟩
  | group _ _ _ ihinner ih =>
      rw [TokenTree.areProper, isProper, Bool.and_eq_true] at htrees ⊢
      exact ⟨ihinner htrees.1, ih htrees.2⟩

end Source

end ReturnCaptures
