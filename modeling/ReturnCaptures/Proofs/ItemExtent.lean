import ReturnCaptures.Proofs.ItemParts
import ReturnCaptures.Proofs.Neighbours

/-!
# The extent of an item

A function item ends with its body or its semicolon, and nothing behind that has a say in how the
item is read. Its parts are read alike at swapped cursors, where the juncture is the tree with which
the item ends and what stands behind it.
-/

namespace ReturnCaptures

open TokenTree Outcome

variable {r r' : List TokenTree} {c c' d d' : Cursor}

/-- The same is found in front of swapped cursors. -/
structure Cursor.SwapsWith {α : Type} (r r' : List TokenTree) (a b : α × Cursor) : Prop where
  found : a.1 = b.1
  swaps : a.2.Swaps r r' b.2

theorem Cursor.SwapsWith.exists_eq {α : Type} {a : α} {x : α × Cursor}
    (h : Cursor.SwapsWith r r' (a, d) x) :
  ∃ d', x = (a, d') ∧ d.Swaps r r' d'
  := by
  obtain ⟨b, d'⟩ := x
  obtain ⟨rfl, hd⟩ := h
  use d'

/-! ### Attributes, visibility and qualifiers -/

section Heads

variable (hs : Juncture r r')

/-- Whether the trees start with an outer attribute or an outer documentation comment. -/
def atOuterAttribute (trees : List TokenTree) : Bool :=
  atLexeme (fun | .doc false _ => true | _ => false) trees ||
    (atPunct '#' trees && atGroup .bracket (trees.drop 1))

theorem outerAttributesOf_of_not {trees : List TokenTree} (h : atOuterAttribute trees = false) :
  outerAttributesOf trees = ([], trees)
  := by
  rw [outerAttributesOf.eq_def]
  split
  case h_1 => cases h
  case h_2 => cases h
  case h_3 => rfl

/-- What trees start with that start with an outer attribute or documentation comment. -/
theorem exists_of_atOuterAttribute {trees : List TokenTree} (h : atOuterAttribute trees) :
  (∃ text span rest, trees = .token ⟨.doc false text, span⟩ :: rest) ∨
    ∃ joint span inside opening closing rest, trees =
      .token ⟨.punct '#' joint, span⟩ :: .group .bracket inside opening closing :: rest
  := by
  rcases Bool.or_eq_true_iff.mp h with h | h
  · left
    obtain ⟨⟨l, span⟩, rest, rfl, hl⟩ := Cursor.exists_of_atLexeme h
    simp only at hl
    split at hl
    case h_1 text _ => use text, span, rest
    case h_2 => cases hl
  · right
    rw [Bool.and_eq_true] at h
    obtain ⟨t, rest, rfl, ht⟩ := Cursor.exists_of_atLexeme h.1
    obtain ⟨joint, span, rfl⟩ := Cursor.exists_of_isPunct ht
    obtain _ | ⟨_ | ⟨d, inside, opening, closing⟩, rest⟩ := rest
    · cases h.2
    · cases h.2
    · obtain rfl : d = .bracket := eq_of_beq h.2
      use joint, span, inside, opening, closing, rest

/-- No attribute starts in front of an ending and goes on behind it. -/
theorem atOuterAttribute_append (hr : atEnding r) (u : List TokenTree) :
  atOuterAttribute (u ++ r) = atOuterAttribute u
  := by
  obtain _ | ⟨tree, _ | ⟨next, u⟩⟩ := u
  · rw [List.nil_append, atOuterAttribute, atPunct,
      atLexeme_of_atEnding hr (fun _ => rfl) fun _ => rfl,
      atLexeme_of_atEnding hr (fun _ => rfl) fun _ => rfl]
    rfl
  · have hgroup : atGroup .bracket r = false := atGroup_of_atEnding (by decide) hr
    rw [atOuterAttribute, atOuterAttribute, List.singleton_append, List.drop_one, List.tail_cons,
      hgroup, atPunct_cons, List.drop_one, List.tail_cons]
    cases tree <;> rfl
  · cases tree <;> cases next <;> rfl

include hs

/-- Outer attributes are the same at swapped cursors. -/
theorem Juncture.outerAttributesOf (u : List TokenTree) :
  ∃ runs v, ReturnCaptures.outerAttributesOf (u ++ r) = (runs, v ++ r) ∧
    ReturnCaptures.outerAttributesOf (u ++ r') = (runs, v ++ r')
  := by
  fun_induction ReturnCaptures.outerAttributesOf u with
  | case1 text span trees runs rest hrest ih =>
      obtain ⟨runs, v, hv, hv'⟩ := ih
      use ⟨[.token ⟨.doc false text, span⟩], span⟩ :: runs, v
      simp only [List.cons_append, ReturnCaptures.outerAttributesOf, hv, hv', and_self]
  | case2 joint span inside opening closing trees runs rest hrest ih =>
      obtain ⟨runs, v, hv, hv'⟩ := ih
      use ⟨[.token ⟨.punct '#' joint, span⟩, .group .bracket inside opening closing],
        span.through closing⟩ :: runs, v
      simp only [List.cons_append, ReturnCaptures.outerAttributesOf, hv, hv', and_self]
  | case3 trees hdoc hhash =>
      have hnot : atOuterAttribute trees = false := by
        rw [Bool.eq_false_iff]
        intro h
        rcases exists_of_atOuterAttribute h with ⟨text, span, rest, h⟩ | ⟨j, s, i, o, c, rest, h⟩
        · apply hdoc _ _ _ h
        · apply hhash _ _ _ _ _ _ h
      use [], trees
      rw [outerAttributesOf_of_not (by rwa [atOuterAttribute_append hs.left]),
        outerAttributesOf_of_not (by rwa [atOuterAttribute_append hs.right])]
      use rfl

/-- Outer attributes are the same at swapped cursors. -/
theorem Juncture.outerAttributes (hc : c.Swaps r r' c') :
  Cursor.SwapsWith r r' (ReturnCaptures.outerAttributes c) (ReturnCaptures.outerAttributes c')
  := by
  obtain ⟨u, hu, hu'⟩ := hc
  obtain ⟨runs, v, hv, hv'⟩ := hs.outerAttributesOf u
  rw [ReturnCaptures.outerAttributes, ReturnCaptures.outerAttributes, hu, hu', hv, hv']
  use rfl, v

namespace FunctionItem

/-- A token that may come next is the same at swapped cursors. -/
theorem token?_of_swaps {p : Lexeme → Bool} {find : Cursor → Option Token × Cursor}
    (hsome : ∀ {c t rest}, c.trees = .token t :: rest → p t.lexeme → find c = (some t, c.skip 1))
    (hnone : ∀ {c}, atLexeme p c.trees = false → find c = (none, c))
    (hcomma : ∀ j, p (.punct ',' j) = false) (hsemicolon : ∀ j, p (.punct ';' j) = false)
    (hc : c.Swaps r r' c') :
  Cursor.SwapsWith r r' (find c) (find c')
  := by
  have hlook := hc.look (hs.lexeme hcomma hsemicolon)
  by_cases hp : atLexeme p c.trees
  · have hskip := hc.skip hp (atLexeme_of_atEnding hs.left hcomma hsemicolon)
    obtain ⟨_ | ⟨tree, u⟩, hu, hu'⟩ := hc
    · rw [hu, List.nil_append, atLexeme_of_atEnding hs.left hcomma hsemicolon] at hp
      cases hp
    · obtain ⟨t, rest, ht, hl⟩ := Cursor.exists_of_atLexeme hp
      rw [hu, List.cons_append, List.cons_eq_cons] at ht
      obtain ⟨rfl, rfl⟩ := ht
      rw [hsome hu hl, hsome hu' hl]
      exact ⟨rfl, hskip⟩
  · rw [Bool.not_eq_true] at hp
    rw [hnone hp, hnone (hlook ▸ hp)]
    exact ⟨rfl, hc⟩

/-- A keyword that may come next is the same at swapped cursors. -/
theorem keyword?_of_swaps (word : String) (hc : c.Swaps r r' c') :
  Cursor.SwapsWith r r' (readKeyword? word c) (readKeyword? word c')
  := by
  apply token?_of_swaps hs (p := (·.isKeyword word)) _ _ (fun _ => rfl) (fun _ => rfl) hc
  · intro c t rest ht hl
    simp only [readKeyword?, ht, hl, if_true]
  · intro c hnot
    rw [readKeyword?]
    split
    case h_1 t rest ht =>
      rw [ht] at hnot
      apply if_neg
      rwa [Bool.not_eq_true]
    case h_2 => rfl

/-- The name of a calling convention is the same at swapped cursors. -/
theorem abiName_of_swaps (hc : c.Swaps r r' c') :
  Cursor.SwapsWith r r' (readAbiName c) (readAbiName c')
  := by
  have hname : ∃ p, TypeGrammar.atAbiName = atLexeme p ∧ (∀ j, p (.punct ',' j) = false) ∧
      ∀ j, p (.punct ';' j) = false := ⟨_, rfl, fun _ => rfl, fun _ => rfl⟩
  obtain ⟨p, hname, hcomma, hsemicolon⟩ := hname
  apply token?_of_swaps hs _ _ hcomma hsemicolon hc
  · intro c t rest ht hl
    simp only [readAbiName, ht, hname]
    apply if_pos hl
  · intro c hnot
    rw [readAbiName]
    split
    case h_1 t rest ht =>
      rw [hname, hnot]
      rfl
    case h_2 => rfl

omit hs in
theorem readQualifiers_eq (c : Cursor) :
  readQualifiers c =
    let constness := readKeyword? "const" c
    let asyncness := readKeyword? "async" constness.2
    let unsafety := readKeyword? "unsafe" asyncness.2
    let keyword := readKeyword? "extern" unsafety.2
    let name := readAbiName keyword.2
    (⟨constness.1, asyncness.1, unsafety.1, keyword.1.map fun k => ⟨k, name.1⟩⟩,
      if keyword.1.isSome then name.2 else keyword.2)
  := by
  simp only [readQualifiers]
  split
  case h_1 keyword d hkeyword =>
    rw [hkeyword]
    rfl
  case h_2 d hkeyword =>
    rw [hkeyword]
    rfl

/-- Qualifiers are the same at swapped cursors. -/
theorem qualifiers_of_swaps (hc : c.Swaps r r' c') :
  Cursor.SwapsWith r r' (readQualifiers c) (readQualifiers c')
  := by
  obtain ⟨hconst, hafterConst⟩ := keyword?_of_swaps hs "const" hc
  obtain ⟨hasync, hafterAsync⟩ := keyword?_of_swaps hs "async" hafterConst
  obtain ⟨hrisky, hafterUnsafe⟩ := keyword?_of_swaps hs "unsafe" hafterAsync
  obtain ⟨hforeign, hafterExtern⟩ := keyword?_of_swaps hs "extern" hafterUnsafe
  obtain ⟨hname, hafterName⟩ := abiName_of_swaps hs hafterExtern
  rw [readQualifiers_eq, readQualifiers_eq]
  constructor
  · simp only [hconst, hasync, hrisky, hforeign, hname]
  · simp only [← hforeign]
    split
    · apply hafterName
    · apply hafterExtern

omit hs in
theorem readVisibility_of_not (h : atKeyword "pub" c.trees = false) :
  readVisibility c = (none, c)
  := by
  rw [readVisibility]
  split
  case h_1 hpub =>
    rw [hpub] at h
    cases h
  case h_2 => rfl

omit hs in
/-- A visibility without parentheses. -/
theorem readVisibility_of_bare {span : Span} {rest : List TokenTree}
    (h : c.trees = .token ⟨.keyword "pub", span⟩ :: rest) (hparen : atGroup .paren rest = false) :
  readVisibility c = (some (.single (.token ⟨.keyword "pub", span⟩)), c.skip 1)
  := by
  simp only [readVisibility, h]
  split
  case h_1 => cases hparen
  case h_2 => rfl

/-- A visibility is the same at swapped cursors. -/
theorem visibility_of_swaps (hc : c.Swaps r r' c') :
  Cursor.SwapsWith r r' (readVisibility c) (readVisibility c')
  := by
  by_cases hpub : atKeyword "pub" c.trees
  · obtain ⟨_ | ⟨first, u⟩, hu, hu'⟩ := hc
    · rw [hu, List.nil_append, atKeyword, atLexeme_of_atEnding hs.left (fun _ => rfl) fun _ => rfl]
        at hpub
      cases hpub
    · obtain ⟨⟨l, span⟩, rest, hfirst, hl⟩ := Cursor.exists_of_atLexeme hpub
      rw [hu, List.cons_append, List.cons_eq_cons] at hfirst
      obtain rfl := hfirst.1
      obtain rfl : l = .keyword "pub" := by
        cases l with
        | keyword word => rw [eq_of_beq hl]
        | _ => cases hl
      have hbare (h : atGroup .paren (u ++ r) = false) :
          Cursor.SwapsWith r r' (readVisibility c) (readVisibility c') := by
        have hsame : atGroup .paren (u ++ r) = atGroup .paren (u ++ r') := hs.group (by decide) u
        rw [readVisibility_of_bare hu h, readVisibility_of_bare hu' (hsame ▸ h)]
        exact ⟨rfl, u, Cursor.trees_skip_one hu, Cursor.trees_skip_one hu'⟩
      obtain _ | ⟨_ | ⟨_ | _ | _, inside, opening, closing⟩, u⟩ := u
      · apply hbare (atGroup_of_atEnding (by decide) hs.left)
      · apply hbare rfl
      · simp only [readVisibility, hu, hu', List.cons_append]
        split
        · use rfl, u, by simp [hu], by simp [hu']
        · use rfl, .group .paren inside opening closing :: u, by simp [hu], by simp [hu']
      · apply hbare rfl
      · apply hbare rfl
  · rw [Bool.not_eq_true] at hpub
    rw [readVisibility_of_not hpub, readVisibility_of_not]
    · exact ⟨rfl, hc⟩
    · rwa [← hc.look (hs.keyword "pub")]

end FunctionItem

end Heads

/-! ### Types, bounds and lifetimes -/

section Parts

theorem TypeGrammar.bounds_level_eq_upTo {n : Nat} (c : Cursor) (hn : c.weight + 3 ≤ n) :
  (level n).bounds c = (upTo c).bounds c
  := by
  apply (agree_level _ _).bounds
  simp only [Cursor.weight] at hn ⊢
  omega

variable (hs : Juncture r r')

include hs

theorem Juncture.type (allowPlus : Bool) (c c' : Cursor) :
  FollowsWith r r' c c' (TypeExpr.read allowPlus c) (TypeExpr.read allowPlus c')
  := by
  constructor
  · rintro ⟨type, d⟩ h
    apply (TypeExpr.passes_read h).1.crosses.isSuffix
  · rintro hc ⟨type, d⟩ h hr -
    obtain ⟨d', h', hd⟩ := TypeExpr.read_of_swaps hs hc h hr
    exact ⟨(type, d'), h', rfl, hd⟩

theorem Juncture.optionalBounds (c c' : Cursor) :
  FollowsTo r r' c c' (ReturnCaptures.optionalBounds c) (ReturnCaptures.optionalBounds c')
  := by
  apply Follows.ite fun hc => hc.look hs.atBound
  · intro _
    rw [← TypeGrammar.bounds_level_eq_upTo c (Nat.le_max_left _ (c'.weight + 3)),
      ← TypeGrammar.bounds_level_eq_upTo c' (Nat.le_max_right (c.weight + 3) _)]
    apply hs.follows ((TypeGrammar.local_level hs.toEndings _).bounds c c')
  · intro _
    apply Follows.arrive .refl

omit hs in
theorem afterLifetimeBounds_of_not {trees : List TokenTree} (h : atLifetime trees = false) :
  ReturnCaptures.afterLifetimeBounds trees = trees
  := by
  rw [ReturnCaptures.afterLifetimeBounds.eq_def]
  split
  case h_1 tree plus rest =>
    rw [← atLifetime_cons tree (plus :: rest), h, if_neg Bool.false_ne_true]
  case h_2 => rw [h, if_neg Bool.false_ne_true]

omit hs in
/-- A lifetime without a plus sign behind it. -/
theorem afterLifetimeBounds_of_last {tree : TokenTree} {trees : List TokenTree}
    (h : atLifetime [tree]) (hplus : atSingle '+' trees = false) :
  ReturnCaptures.afterLifetimeBounds (tree :: trees) = trees
  := by
  cases trees with
  | nil => simp [ReturnCaptures.afterLifetimeBounds, h]
  | cons plus rest => simp [ReturnCaptures.afterLifetimeBounds, h, hplus]

/-- Lifetimes joined by plus signs are the same at swapped cursors. -/
theorem Juncture.afterLifetimeBounds (u : List TokenTree) :
  ∃ v, ReturnCaptures.afterLifetimeBounds (u ++ r) = v ++ r ∧
    ReturnCaptures.afterLifetimeBounds (u ++ r') = v ++ r'
  := by
  by_cases hlife : atLifetime (u ++ r)
  · obtain _ | ⟨tree, u⟩ := u
    · rw [List.nil_append, atLifetime, atLexeme_of_atEnding hs.left (fun _ => rfl) fun _ => rfl]
        at hlife
      cases hlife
    · rw [List.cons_append, atLifetime_cons] at hlife
      have hplus : atSingle '+' (u ++ r) = atSingle '+' (u ++ r') := hs.single (by decide) u
      by_cases hseen : atSingle '+' (u ++ r)
      · obtain _ | ⟨plus, u⟩ := u
        · rw [List.nil_append, atSingle, atPunct,
            atLexeme_of_atEnding hs.left (fun _ => rfl) fun _ => rfl] at hseen
          cases hseen
        · obtain ⟨v, hv, hv'⟩ := afterLifetimeBounds u
          use v
          rw [hseen] at hplus
          simp only [List.cons_append] at hseen hplus ⊢
          simp only [ReturnCaptures.afterLifetimeBounds, hlife, hseen, ← hplus, if_true]
          use hv
      · rw [Bool.not_eq_true] at hseen
        use u
        rw [List.cons_append, List.cons_append, afterLifetimeBounds_of_last hlife hseen,
          afterLifetimeBounds_of_last hlife (hplus ▸ hseen)]
        use rfl
  · rw [Bool.not_eq_true] at hlife
    use u
    rw [afterLifetimeBounds_of_not hlife, afterLifetimeBounds_of_not (hs.lifetime u ▸ hlife)]
    use rfl
termination_by u.length

theorem Juncture.moves_lifetimeBounds :
  Cursor.Moves r r' c c' (lifetimeBounds c) (lifetimeBounds c')
  := by
  have hcrosses : c.Crosses true true (lifetimeBounds c) := crosses_lifetimeBounds c
  use hcrosses.isSuffix
  rintro ⟨u, hu, hu'⟩
  obtain ⟨v, hv, hv'⟩ := hs.afterLifetimeBounds u
  use v
  rw [lifetimeBounds, lifetimeBounds, hu, hu']
  use hv

theorem Juncture.expectColon (c c' : Cursor) :
  FollowsTo r r' c c' c.expectColon c'.expectColon
  := Cursor.follows_expect hs.colon rfl

/-- A token that is asked for. -/
theorem Juncture.expectToken {what : String} {p : Lexeme → Bool} (c c' : Cursor)
    (hcomma : ∀ j, p (.punct ',' j) = false) (hsemicolon : ∀ j, p (.punct ';' j) = false) :
  FollowsWith r r' c c' (c.expectToken what p) (c'.expectToken what p)
  := by
  constructor
  · rintro ⟨t, d⟩ h
    obtain ⟨-, hc, -⟩ := Cursor.expectToken_eq_ok.mp h
    use [.token t], hc.symm
  · rintro ⟨u, hu, hu'⟩ ⟨t, d⟩ h - -
    obtain ⟨hp, hc, -⟩ := Cursor.expectToken_eq_ok.mp h
    obtain _ | ⟨first, u⟩ := u
    · have hnone := atLexeme_of_atEnding hs.left hcomma hsemicolon
      rw [List.nil_append] at hu
      rw [← hu, hc, atLexeme, hp] at hnone
      cases hnone
    · rw [hu, List.cons_append, List.cons_eq_cons] at hc
      obtain ⟨rfl, hd⟩ := hc
      use ⟨t, c'.skip 1⟩
      constructor
      · apply Cursor.expectToken_eq_ok.mpr
        use hp, by rw [Cursor.trees_skip_one hu', hu']; rfl
        rfl
      · exact ⟨rfl, u, hd.symm, Cursor.trees_skip_one hu'⟩

end Parts

/-! ### Generic parameters -/

section Generics

variable (hs : Juncture r r')

namespace GenericParam

/-- No parameter starts with what ends other things. -/
theorem readPlain_of_atEnding (h : atEnding c.trees) :
  readPlain c = c.fail "a generic parameter"
  := by
  obtain ⟨_ | ⟨⟨⟨l, span⟩⟩ | _, _⟩, stop⟩ := c
  · rfl
  · cases l with
    | punct => rfl
    | _ => cases h
  · rfl

/-- No parameter starts with a keyword other than that of constants. -/
theorem readPlain_of_keyword {word : String} {span : Span} {rest : List TokenTree}
    (h : c.trees = .token ⟨.keyword word, span⟩ :: rest) (hword : word ≠ "const") :
  readPlain c = c.fail "a generic parameter"
  := by
  rw [readPlain]
  split
  case h_2 hconst =>
    rw [h] at hconst
    cases hconst
    apply absurd rfl hword
  case h_4 => rfl
  all_goals
    simp_all

/-- The kind and name of a parameter with the cursor behind it follow others, which are the
same. -/
abbrev FollowsPlain (r r' : List TokenTree) (c c' : Cursor)
    (x y : Outcome (GenericParamKind × String × Cursor)) : Prop :=
  Outcome.Follows r r' (fun _ => False) (fun a => a.2.2) (fun a b => a.1 = b.1 ∧ a.2.1 = b.2.1) c c' x y

theorem FollowsPlain.give {kind : GenericParamKind} {name : String}
    (h : Cursor.Moves r r' c c' d d') :
  FollowsPlain r r' c c' (.ok (kind, name, d)) (.ok (kind, name, d'))
  := by
  constructor
  · rintro _ ⟨⟩
    apply h.isSuffix
  · rintro hc _ ⟨⟩ _ _
    exact ⟨(kind, name, d'), rfl, ⟨rfl, rfl⟩, h.swaps hc⟩

include hs

theorem local_readConst (c c' : Cursor) (hconst : atKeyword "const" c.trees) :
  FollowsPlain r r' c c' (readConst c) (readConst c')
  := by
  apply Follows.behind (hs.moves_keyword hconst)
  apply (hs.expectToken _ _ (fun _ => rfl) fun _ => rfl).bind_with
  intro t d d'
  apply (hs.expectColon d d').bind_to
  intro e e'
  apply (hs.type true e e').bind_with
  intro type f f'
  apply Follows.ite fun hf => hf.look (hs.single (by decide))
  · intro hequals
    apply Follows.behind (hs.moves_single hequals rfl rfl)
    apply (hs.constArgument _ _).bind_to
    intro g g'
    apply FollowsPlain.give .refl
  · intro _
    apply FollowsPlain.give .refl

theorem local_readType (name : String) (c c' : Cursor) :
  FollowsPlain r r' c c' (readType name c) (readType name c')
  := by
  have hdefault (d d' : Cursor) : FollowsPlain r r' d d'
      (do
        let d ← if atSingle '=' d.trees then (TypeExpr.read true (d.skip 1)).map (·.2) else pure d
        return (.type, name, d))
      (do
        let d' ← if atSingle '=' d'.trees then (TypeExpr.read true (d'.skip 1)).map (·.2)
          else pure d'
        return (.type, name, d')) := by
    apply Follows.ite fun hd => hd.look (hs.single (by decide))
    · intro hequals
      apply Follows.behind (hs.moves_single hequals rfl rfl)
      apply (hs.type true _ _).map_snd.bind_to
      intro e e'
      apply FollowsPlain.give .refl
    · intro _
      apply FollowsPlain.give .refl
  apply Follows.ite fun hc => hc.look hs.colon
  · intro hcolon
    rw [atColon, Bool.and_eq_true] at hcolon
    apply Follows.behind (hs.moves_punct hcolon.1 rfl rfl)
    apply (hs.optionalBounds _ _).bind_to
    intro d d'
    apply hdefault
  · intro _
    apply hdefault

/-- What follows the attributes of a parameter. -/
theorem local_readPlain (c c' : Cursor) :
  FollowsPlain r r' c c' (readPlain c) (readPlain c')
  := by
  apply Follows.of_swaps fun _ h => (passes_readPlain h).crosses.isSuffix
  rintro ⟨_ | ⟨⟨l, span⟩ | _, u⟩, hu, hu'⟩
  · have hending : atEnding c.trees := by
      rw [hu]
      apply hs.left
    rw [readPlain_of_atEnding hending]
    apply Follows.error
  · have hskip : Cursor.Moves r r' c c' (c.skip 1) (c'.skip 1) :=
      ⟨List.drop_suffix 1 c.trees,
        fun _ => ⟨u, Cursor.trees_skip_one hu, Cursor.trees_skip_one hu'⟩⟩
    cases l with
    | lifetime name =>
        simp only [readPlain, hu, hu', List.cons_append, readLifetime]
        apply FollowsPlain.give
        apply hskip.trans
        apply Cursor.Moves.ite fun hd => hd.look hs.colon
        intro hcolon
        rw [atColon, Bool.and_eq_true] at hcolon
        apply (hs.moves_punct hcolon.1 rfl rfl).trans hs.moves_lifetimeBounds
    | ident name =>
        simp only [readPlain, hu, hu', List.cons_append]
        apply Follows.behind hskip
        apply local_readType hs
    | keyword word =>
        by_cases hword : word = "const"
        · subst hword
          have hconst : atKeyword "const" c.trees := by
            rw [hu]
            rfl
          simp only [readPlain, hu, hu', List.cons_append]
          apply local_readConst hs c c' hconst
        · rw [readPlain_of_keyword hu hword]
          apply Follows.error
    | _ =>
        simp only [readPlain, hu, List.cons_append]
        apply Follows.error
  · simp only [readPlain, hu, List.cons_append]
    apply Follows.error

omit hs in
theorem not_atEnding_of_read {param : GenericParam} (h : GenericParam.read c = .ok (param, d)) :
  ¬ atEnding c.trees
  := by
  intro hending
  have hnone : atOuterAttribute c.trees = false := atOuterAttribute_append hending []
  obtain ⟨⟨kind, name, e⟩, hplain, -⟩ := bind_eq_ok.mp h
  rw [outerAttributesOf_of_not hnone, readPlain_of_atEnding hending] at hplain
  cases hplain

theorem local_read (c c' : Cursor) :
  FollowsWith r r' c c' (GenericParam.read c) (GenericParam.read c')
  := by
  constructor
  · rintro ⟨param, d⟩ h
    apply (passes_read h).crosses.isSuffix
  · rintro hc ⟨param, d⟩ h hr -
    have hlt := hc.length_lt hs.toEndings (not_atEnding_of_read h)
    obtain ⟨⟨kind, name, d⟩, hplain, ⟨⟩⟩ := bind_eq_ok.mp h
    obtain ⟨-, hattributed⟩ := hs.outerAttributes hc
    obtain ⟨⟨_, _, d'⟩, hplain', ⟨rfl, rfl⟩, hd⟩ :=
      (local_readPlain hs _ _).carries hattributed _ hplain hr id
    use ⟨⟨kind, name, c.runUpTo d⟩, d'⟩
    rw [hc.runUpTo hd hlt]
    exact ⟨bind_eq_ok.mpr ⟨_, hplain', rfl⟩, rfl, hd⟩

end GenericParam

namespace Generics

/-- Bounds that exceed the number of trees make no difference. -/
theorem readParams_congr {n m : Nat} (hn : c.trees.length < n) (hm : c.trees.length < m) :
  readParams n c = readParams m c
  := by
  induction n generalizing c m with
  | zero => omega
  | succ n ih =>
      obtain ⟨m, rfl⟩ : ∃ k, m = k + 1 := ⟨m - 1, by omega⟩
      apply ite_congr rfl
      · intro _
        rfl
      intro _
      apply bind_congr rfl
      rintro ⟨param, d⟩ hparam
      apply ite_congr rfl
      · intro hcomma
        obtain ⟨t, rest, hrest, -⟩ := Cursor.exists_of_atLexeme hcomma
        have hle := (GenericParam.passes_read hparam).crosses.isSuffix.length_le
        have hskip : (d.skip 1).trees = rest := Cursor.trees_skip_one hrest
        rw [hrest, List.length_cons, ← hskip] at hle
        rw [ih (m := m)]
        · omega
        · omega
      · intro _
        rfl

include hs

theorem local_readParams (n : Nat) (c c' : Cursor) :
  FollowsWith r r' c c' (readParams n c) (readParams n c')
  := by
  induction n generalizing c c' with
  | zero => apply Follows.error
  | succ n ih =>
      apply Follows.ite fun hc => hc.look (hs.punct rfl rfl)
      · intro hclose
        apply Follows.give (hs.moves_punct hclose rfl rfl)
      intro _
      apply (GenericParam.local_read hs c c').bind_with
      intro param d d'
      -- As among arguments, the `>` has to come yet.
      apply Follows.of_passes
      · rintro ⟨params, e⟩ he
        rcases ite_eq_iff.mp he with ⟨hcomma, he⟩ | ⟨-, he⟩
        · obtain ⟨⟨params, e⟩, hmore, ⟨⟩⟩ := bind_eq_ok.mp he
          exact ⟨Cursor.ne_nil_of_atLexeme hcomma, (closes_readParams hmore).isSuffix⟩
        · obtain ⟨e, hlast, ⟨⟩⟩ := bind_eq_ok.mp he
          obtain ⟨hseen, rfl⟩ := Cursor.expect_eq_ok.mp hlast
          exact ⟨Cursor.ne_nil_of_atLexeme hseen, List.suffix_refl _⟩
      · intro tree rest rest' hd hd' hskip
        have hcomma : atPunct ',' d.trees = atPunct ',' d'.trees := by
          rw [hd, hd', atPunct_cons, atPunct_cons ',' tree rest']
        apply Follows.ite fun _ => hcomma
        · intro _
          apply Follows.behind ⟨List.drop_suffix 1 d.trees, fun _ => hskip⟩
          apply (ih _ _).bind_with
          intro params e e'
          apply Follows.give .refl
        · intro _
          apply (Cursor.follows_expect (hs.punct rfl rfl) rfl).bind_to
          intro e e'
          apply Follows.give .refl

theorem local_read (c c' : Cursor) :
  FollowsWith r r' c c' (Generics.read c) (Generics.read c')
  := by
  constructor
  · rintro ⟨g, d⟩ h
    use g.trees, (reads_read h).1.trees.symm
  · rintro hc ⟨g, d⟩ h hr -
    have hopen : atPunct '<' c.trees = atPunct '<' c'.trees := hc.look (hs.punct rfl rfl)
    rcases ite_eq_iff.mp h with ⟨hnone, h⟩ | ⟨hsome, h⟩
    · cases h
      exact ⟨_, if_pos (hopen ▸ hnone), rfl, hc⟩
    · obtain ⟨⟨params, d⟩, hparams, ⟨⟩⟩ := bind_eq_ok.mp h
      have hlt : atPunct '<' c.trees := by simpa using hsome
      have hskip := hc.skip hlt (atLexeme_of_atEnding hs.left (fun _ => rfl) fun _ => rfl)
      have hlength (e : Cursor) : (e.skip 1).trees.length < e.trees.length + 1 :=
        Nat.lt_succ_of_le (List.drop_suffix 1 e.trees).length_le
      -- One bound serves both cursors.
      have hbound : ∃ n, readParams (c.trees.length + 1) (c.skip 1) = readParams n (c.skip 1) ∧
          readParams (c'.trees.length + 1) (c'.skip 1) = readParams n (c'.skip 1) := by
        use max (c.trees.length + 1) (c'.trees.length + 1)
        constructor
        · apply readParams_congr (hlength c)
          apply Nat.lt_of_lt_of_le (hlength c) (Nat.le_max_left _ _)
        · apply readParams_congr (hlength c')
          apply Nat.lt_of_lt_of_le (hlength c') (Nat.le_max_right _ _)
      obtain ⟨n, hleft, hright⟩ := hbound
      rw [hleft] at hparams
      obtain ⟨⟨_, d'⟩, hparams', rfl, hd⟩ :=
        (local_readParams hs n _ _).carries hskip _ hparams hr id
      rw [← hright] at hparams'
      rw [hc.readUpTo hd]
      use ⟨⟨params, c'.readUpTo d', none⟩, d'⟩
      constructor
      · rw [Generics.read, if_neg (hopen ▸ hsome)]
        apply bind_eq_ok.mpr
        use (params, d'), hparams'
        rfl
      · exact ⟨rfl, hd⟩

end Generics

end Generics

/-! ### Parameters and return clauses -/

section Clauses

variable (hs : Juncture r r')

include hs

theorem ParamList.local_read (c c' : Cursor) :
  FollowsWith r r' c c' (ParamList.read c) (ParamList.read c')
  := by
  apply (hs.expectGroup c c' (by decide)).bind_with
  intro group d d'
  apply Follows.bind_elsewhere
  intro entries
  apply Follows.give .refl

namespace ReturnClause

omit hs in
/-- Behind an arrow that no parenthesis follows stands a type. -/
theorem readAfter_of_not_paren {arrow : Arrow} (h : atGroup .paren c.trees = false) :
  readAfter arrow c = (do
    let (type, d) ← TypeExpr.read true c
    return (.plain arrow type (arrow.shaft.span.through type.run.span), d))
  := by
  rw [readAfter]
  split
  case h_1 hgroup =>
    rw [hgroup] at h
    cases h
  case h_2 => rfl

/-- What stands behind an arrow is the same at swapped cursors. -/
theorem readAfter_of_swaps {arrow : Arrow} {returns : ReturnClause} (hc : c.Swaps r r' c')
    (h : readAfter arrow c = .ok (returns, d)) (hr : r <:+ d.trees) :
  ∃ d', readAfter arrow c' = .ok (returns, d') ∧ d.Swaps r r' d'
  := by
  by_cases hparen : atGroup .paren c.trees
  · obtain ⟨inside, opening, closing, rest, rest', hrest, hrest', hskip⟩ :=
      hc.group hs.toEndings (by decide) hparen
    simp only [readAfter, hrest] at h
    simp only [readAfter, hrest']
    cases hitems : Capture.readList ⟨.paren, inside, opening, closing⟩ with
    | ok items =>
        simp only [hitems] at h ⊢
        cases h
        use c'.skip 1
    | error failure =>
        simp only [hitems] at h ⊢
        split at h
        case h_1 type e htype =>
          cases h
          obtain ⟨d', htype', hd⟩ := TypeExpr.read_of_swaps hs hc htype hr
          use d'
          rw [htype']
          use rfl
        case h_2 => cases h
  · rw [Bool.not_eq_true] at hparen
    rw [readAfter_of_not_paren hparen] at h
    have hsame : atGroup .paren c.trees = atGroup .paren c'.trees := hc.look (hs.group (by decide))
    rw [readAfter_of_not_paren (hsame ▸ hparen)]
    obtain ⟨⟨type, d⟩, htype, ⟨⟩⟩ := bind_eq_ok.mp h
    obtain ⟨d', htype', hd⟩ := TypeExpr.read_of_swaps hs hc htype hr
    use d'
    constructor
    · apply bind_eq_ok.mpr
      use (type, d'), htype'
      rfl
    · apply hd

omit hs in
theorem read_of_not_arrow (h : atOperator ['-', '>'] c.trees = false) :
  ReturnClause.read c = .ok (.absent, c)
  := by
  rw [ReturnClause.read]
  split
  case h_1 => rw [h, if_neg Bool.false_ne_true]
  case h_2 => rfl

/-- A return clause is the same at swapped cursors. -/
theorem read_of_swaps {returns : ReturnClause} (hc : c.Swaps r r' c')
    (h : ReturnClause.read c = .ok (returns, d)) (hr : r <:+ d.trees) :
  ∃ d', ReturnClause.read c' = .ok (returns, d') ∧ d.Swaps r r' d'
  := by
  have hlook : atOperator ['-', '>'] c.trees = atOperator ['-', '>'] c'.trees :=
    hc.look (hs.operator (by decide))
  by_cases harrow : atOperator ['-', '>'] c.trees
  · have hskip : (c.skip 2).Swaps r r' (c'.skip 2) :=
      (hs.moves_operator harrow (by decide) (by decide)).swaps hc
    obtain ⟨arrow, rest, rest', hrest, hrest'⟩ : ∃ arrow rest rest',
        c.trees = Arrow.trees arrow ++ rest ∧ c'.trees = Arrow.trees arrow ++ rest' := by
      obtain ⟨first, second, rest, rest', hrest, hrest', hpair⟩ :=
        hc.operator hs.toEndings harrow (by decide) (by decide)
      obtain ⟨shaft, rfl⟩ := Cursor.exists_of_atPunct_singleton (atPunct_first_of_atOperator hpair)
      obtain ⟨tip, rfl⟩ := Cursor.exists_of_atPunct_singleton (atPunct_of_atOperator hpair)
      use ⟨shaft, tip⟩, rest, rest', hrest
      exact hrest'
    rw [read_of_arrow hrest harrow] at h
    rw [read_of_arrow hrest' (hlook ▸ harrow)]
    apply readAfter_of_swaps hs hskip h hr
  · rw [Bool.not_eq_true] at harrow
    rw [read_of_not_arrow harrow] at h
    cases h
    use c', read_of_not_arrow (hlook ▸ harrow)

end ReturnClause

end Clauses

/-! ### Where clauses and endings -/

section Endings

variable {ending : TokenTree} {rest rest' : List TokenTree}

/-- Whether an item may end with a tree. -/
def TokenTree.isEnding (tree : TokenTree) : Bool :=
  atGroup .brace [tree] || atPunct ';' [tree]

/-- What an item ends with ends what is read, whatever stands behind it. -/
theorem Juncture.ofEnding (he : ending.isEnding) :
  Juncture (ending :: rest) (ending :: rest')
  := by
  have hending (trees : List TokenTree) : TokenTree.atEnding (ending :: trees) := by
    rw [TokenTree.isEnding, Bool.or_eq_true] at he
    rw [TokenTree.atEnding, atPunct_cons ';']
    rcases he with hblock | hsemicolon
    · have hgroup : atGroup .brace (ending :: trees) := by
        cases ending <;> apply hblock
      rw [hgroup, Bool.or_true]
    · rw [hsemicolon, Bool.or_true, Bool.true_or]
  use ⟨hending rest, hending rest'⟩
  cases ending <;> rfl

/-- A question that the first tree answers. -/
theorem Unseen.ofFirst {look : List TokenTree → Bool}
    (h : ∀ tree u u', look (tree :: u) = look (tree :: u')) :
  Unseen (ending :: rest) (ending :: rest') look
  := by
  rintro (_ | ⟨tree, u⟩)
  · apply h
  · apply h

namespace WhereClause

theorem local_predicate (hs : Juncture r r') (c c' : Cursor) :
  FollowsTo r r' c c' (predicate c) (predicate c')
  := by
  have htype (d d' : Cursor) : FollowsTo r r' d d'
      (do
        let (_, d) ← TypeExpr.read false d
        let d ← d.expectColon
        optionalBounds d)
      (do
        let (_, d') ← TypeExpr.read false d'
        let d' ← d'.expectColon
        optionalBounds d') := by
    apply (hs.type false d d').bind_with
    intro type e e'
    apply (hs.expectColon e e').bind_to
    intro f f'
    apply hs.optionalBounds
  apply Follows.ite fun hc => hc.look hs.lifetime
  · intro hlife
    apply Follows.behind (hs.moves_lifetime hlife)
    apply (hs.expectColon _ _).bind_to
    intro d d'
    apply Follows.arrive hs.moves_lifetimeBounds
  intro _
  apply Follows.ite fun hc => hc.look (hs.keyword "for")
  · intro _
    apply (hs.forBinder c c').bind_to
    intro d d'
    apply htype
  · intro _
    apply htype

theorem atStop_cons (tree : TokenTree) (u u' : List TokenTree) :
  atStop (tree :: u) = atStop (tree :: u')
  := by
  rw [atStop, atStop, atPunct_cons, atPunct_cons ';' tree u']
  cases tree <;> rfl

/-- Bounds that exceed the number of trees make no difference. -/
theorem readPredicates_congr {n m : Nat} (hn : c.trees.length < n) (hm : c.trees.length < m) :
  readPredicates n c = readPredicates m c
  := by
  induction n generalizing c m with
  | zero => omega
  | succ n ih =>
      obtain ⟨m, rfl⟩ : ∃ k, m = k + 1 := ⟨m - 1, by omega⟩
      apply ite_congr rfl
      · intro _
        rfl
      intro _
      apply bind_congr rfl
      intro d hpredicate
      apply ite_congr rfl
      · intro hcomma
        obtain ⟨t, v, hv, -⟩ := Cursor.exists_of_atLexeme hcomma
        have hle := (passes_predicate hpredicate).crosses.isSuffix.length_le
        have hskip : (d.skip 1).trees = v := Cursor.trees_skip_one hv
        rw [hv, List.length_cons, ← hskip] at hle
        rw [ih (m := m)]
        · omega
        · omega
      · intro _
        rfl

/-- Predicates in front of the ending of an item are read alike, whatever stands behind it. -/
theorem readPredicates_of_swaps (he : ending.isEnding) {n : Nat} {runs : List Run}
    (hc : c.Swaps (ending :: rest) (ending :: rest') c') (h : readPredicates n c = .ok (runs, d))
    (hr : ending :: rest <:+ d.trees) :
  ∃ d', readPredicates n c' = .ok (runs, d') ∧ d.Swaps (ending :: rest) (ending :: rest') d'
  := by
  have hs : Juncture (ending :: rest) (ending :: rest') := .ofEnding he
  induction n generalizing c c' runs with
  | zero => cases h
  | succ n ih =>
      have hstop : atStop c.trees = atStop c'.trees := hc.look (.ofFirst atStop_cons)
      rcases ite_eq_iff.mp h with ⟨hend, h⟩ | ⟨hgo, h⟩
      · cases h
        exact ⟨c', if_pos (hstop ▸ hend), hc⟩
      · obtain ⟨e, hpredicate, h⟩ := bind_eq_ok.mp h
        have hlt : (ending :: rest).length < c.trees.length := by
          obtain ⟨_ | ⟨tree, u⟩, hu, -⟩ := hc
          · apply absurd _ hgo
            rw [TokenTree.isEnding, Bool.or_eq_true] at he
            rw [hu, List.nil_append, atStop_cons ending rest []]
            simp [atStop, he]
          · rw [hu, List.length_append]
            apply Nat.lt_add_of_pos_left
            apply Nat.succ_pos
        have hfollows := local_predicate hs c c'
        rcases ite_eq_iff.mp h with ⟨hcomma, h⟩ | ⟨hlast, h⟩
        · obtain ⟨⟨runs, f⟩, hmore, ⟨⟩⟩ := bind_eq_ok.mp h
          have hd := (crosses_readPredicates hmore).isSuffix
          obtain ⟨e', hpredicate', -, hee⟩ := hfollows.carries hc e hpredicate
            ((hr.trans hd).trans (List.drop_suffix 1 e.trees)) id
          have hsame : atPunct ',' e.trees = atPunct ',' e'.trees :=
            hee.look (.ofFirst fun tree u u' => by rw [atPunct_cons, atPunct_cons ',' tree u'])
          have hending : atPunct ',' (ending :: rest) = false := by
            rw [atPunct_cons]
            obtain ⟨⟨l, s⟩⟩ | _ := ending
            · cases l with
              | punct symbol j =>
                  obtain rfl : symbol = ';' := eq_of_beq he
                  rfl
              | _ => rfl
            · rfl
          obtain ⟨d', hmore', hdd⟩ := ih (hee.skip hcomma hending) hmore
          use d'
          constructor
          · apply (if_neg (hstop ▸ hgo)).trans
            apply bind_eq_ok.mpr
            use e', hpredicate'
            apply (if_pos (hsame ▸ hcomma)).trans
            apply bind_eq_ok.mpr
            use (runs, d'), hmore'
            rw [hc.runUpTo hee hlt]
            rfl
          · apply hdd
        · cases h
          obtain ⟨e', hpredicate', -, hee⟩ := hfollows.carries hc d hpredicate hr id
          have hsame : atPunct ',' d.trees = atPunct ',' e'.trees :=
            hee.look (.ofFirst fun tree u u' => by rw [atPunct_cons, atPunct_cons ',' tree u'])
          use e'
          constructor
          · apply (if_neg (hstop ▸ hgo)).trans
            apply bind_eq_ok.mpr
            use e', hpredicate'
            apply (if_neg (hsame ▸ hlast)).trans
            rw [hc.runUpTo hee hlt]
            rfl
          · apply hee

/-- A where clause in front of the ending of an item is read alike, whatever stands behind it. -/
theorem read_of_swaps (he : ending.isEnding) {clause : Option WhereClause}
    (hc : c.Swaps (ending :: rest) (ending :: rest') c') (h : WhereClause.read c = .ok (clause, d))
    (hr : ending :: rest <:+ d.trees) :
  ∃ d', WhereClause.read c' = .ok (clause, d') ∧ d.Swaps (ending :: rest) (ending :: rest') d'
  := by
  have hs : Juncture (ending :: rest) (ending :: rest') := .ofEnding he
  have hword : atKeyword "where" c.trees = atKeyword "where" c'.trees :=
    hc.look (hs.keyword "where")
  rcases ite_eq_iff.mp h with ⟨hnone, h⟩ | ⟨hsome, h⟩
  · cases h
    exact ⟨c', if_pos (hword ▸ hnone), hc⟩
  · obtain ⟨⟨runs, d⟩, hruns, ⟨⟩⟩ := bind_eq_ok.mp h
    have hseen : atKeyword "where" c.trees := by simpa using hsome
    have hnone : atKeyword "where" (ending :: rest) = false :=
      atLexeme_of_atEnding hs.left (fun _ => rfl) fun _ => rfl
    have hskip : (c.skip 1).Swaps _ _ (c'.skip 1) := hc.skip hseen hnone
    have hlength (e : Cursor) : (e.skip 1).trees.length < e.trees.length + 1 :=
      Nat.lt_succ_of_le (List.drop_suffix 1 e.trees).length_le
    rw [readPredicates_congr (hlength c)
      (Nat.lt_of_lt_of_le (hlength c) (Nat.le_max_left _ (c'.trees.length + 1)))] at hruns
    obtain ⟨d', hruns', hdd⟩ := readPredicates_of_swaps he hskip hruns hr
    rw [readPredicates_congr (Nat.lt_of_lt_of_le (hlength c') (Nat.le_max_right _ _))
      (hlength c')] at hruns'
    have hlt : (ending :: rest).length < c.trees.length := by
      apply hc.length_lt hs.toEndings
      intro hending
      rw [atKeyword, atLexeme_of_atEnding hending (fun _ => rfl) fun _ => rfl] at hseen
      cases hseen
    use d'
    constructor
    · apply (if_neg (hword ▸ hsome)).trans
      apply bind_eq_ok.mpr
      use (runs, d'), hruns'
      rw [hc.runUpTo hdd hlt]
      rfl
    · apply hdd

end WhereClause

theorem FunctionItem.readEnding_cons {ending : Ending} {stop : Span}
    (h : readEnding c = .ok (ending, stop, d)) (trees : List TokenTree) (last : Span) :
  readEnding ⟨ending.tree :: trees, last⟩ = .ok (ending, stop, ⟨trees, last⟩)
  := by
  unfold readEnding at h
  split at h
  case h_1 inside opening closing rest hc =>
    cases h
    rfl
  case h_2 t rest hc =>
    split at h
    case isTrue hsemicolon =>
      cases h
      apply if_pos hsemicolon
    case isFalse => cases h
  case h_3 => cases h

end Endings

/-! ### Items -/

namespace FunctionItem

/-- An item is read from its own trees, whatever stands behind them. -/
theorem read_append {item : FunctionItem} (h : FunctionItem.read c = .ok (item, d)) :
  ∃ u, c.trees = u ++ d.trees ∧
    ∀ trees stop, FunctionItem.read ⟨u ++ trees, stop⟩ = .ok (item, ⟨trees, stop⟩)
  := by
  obtain ⟨s, hsame⟩ := exists_steps h
  obtain ⟨hends, hending⟩ := reads_readEnding s.ending_eq
  have hreads := s.reads
  use Expansion.headTrees item ++ item.returns.trees ++ Expansion.tailTrees item ++
    [item.ending.tree], hreads.trees
  intro trees stop
  have hs : Juncture (item.ending.tree :: d.trees) (item.ending.tree :: trees) := .ofEnding hending
  -- What stands behind each part ends with the ending of the item.
  have hwhere : item.ending.tree :: d.trees <:+ s.afterWhere.trees := by
    rw [hends.trees]
    apply List.suffix_refl
  have hreturns := hwhere.trans (WhereClause.reads_read s.where_eq).1.isSuffix
  have hparams := hreturns.trans (ReturnClause.follows_read s.returns_eq).reads.isSuffix
  have hgenerics := hparams.trans (ParamList.reads_read s.params_eq).1.isSuffix
  have hname := hgenerics.trans (Generics.reads_read s.generics_eq).1.isSuffix
  have hfn : item.ending.tree :: d.trees <:+ s.afterFn.trees := by
    obtain ⟨-, hnameToken, -⟩ := Cursor.expectIdent_eq_ok.mp s.name_eq
    rw [hnameToken]
    apply hname.trans (List.suffix_cons ..)
  -- Each part is read alike at the swapped cursors.
  set u := Expansion.headTrees item ++ item.returns.trees ++ Expansion.tailTrees item with hu
  have h₀ : c.Swaps (item.ending.tree :: d.trees) (item.ending.tree :: trees)
      ⟨u ++ [item.ending.tree] ++ trees, stop⟩ := by
    use u
    simp [hreads.trees]
  obtain ⟨c₁, hattributes, h₁⟩ := (s.attributes_eq ▸ hs.outerAttributes h₀).exists_eq
  obtain ⟨c₂, hvisibility, h₂⟩ := (s.visibility_eq ▸ visibility_of_swaps hs h₁).exists_eq
  obtain ⟨c₃, hqualifiers, h₃⟩ := (s.qualifiers_eq ▸ qualifiers_of_swaps hs h₂).exists_eq
  obtain ⟨⟨_, c₄⟩, hfn', rfl, h₄⟩ :=
    (hs.expectToken _ c₃ (fun _ => rfl) fun _ => rfl).carries h₃ _ s.fn_eq hfn id
  obtain ⟨⟨_, c₅⟩, hname', rfl, h₅⟩ :=
    (hs.expectToken _ c₄ (fun _ => rfl) fun _ => rfl).carries h₄ _ s.name_eq hname id
  obtain ⟨⟨_, c₆⟩, hgenerics', rfl, h₆⟩ :=
    (Generics.local_read hs _ c₅).carries h₅ _ s.generics_eq hgenerics id
  obtain ⟨⟨_, c₇⟩, hparams', rfl, h₇⟩ :=
    (ParamList.local_read hs _ c₆).carries h₆ _ s.params_eq hparams id
  obtain ⟨c₈, hreturns', h₈⟩ := ReturnClause.read_of_swaps hs h₇ s.returns_eq hreturns
  obtain ⟨⟨_, last⟩, hwhere', w, hw, rfl⟩ :=
    WhereClause.read_of_swaps hending h₈ s.where_eq hwhere
  obtain rfl : w = [] := by
    rw [hends.trees] at hw
    simpa using hw
  have hlt : (item.ending.tree :: d.trees).length < c.trees.length := by
    rw [hreads.trees, List.append_assoc, List.length_append]
    apply Nat.lt_add_of_pos_left
    apply List.length_pos_of_mem (a := .token item.fnToken)
    simp [hu, Expansion.headTrees]
  have hspan := s.span_eq
  rw [h₀.span_eq hlt] at hspan
  have hread := read_of_steps ⟨c₁, c₂, c₃, c₄, c₅, c₆, c₇, c₈, _, s.params, s.stop, hattributes,
    hvisibility, hqualifiers, hfn', hname', hgenerics', hparams', hreturns', hwhere',
    readEnding_cons s.ending_eq trees last, hspan⟩ hsame
  obtain ⟨t⟩ := nonempty_steps hread
  obtain rfl : last = stop := t.reads.stop
  exact hread

end FunctionItem

end ReturnCaptures
