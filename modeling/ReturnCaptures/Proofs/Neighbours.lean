import ReturnCaptures.Proofs.Junctures
import ReturnCaptures.Proofs.TypeLevels

/-!
# Neighbours of a type

What a type is read from does not depend on what stands behind it, as long as that ends a type: no
tree at all, a comma, a semicolon or a block. The productions for types, paths and bounds follow at
swapped cursors, one by one and level by level, so that a type that is read in front of one list of
a juncture, or earlier, is read in front of the other as well. Only in angle brackets is a comma
asked for and a block taken as an argument, and there the `>` has to come yet.

If only one of the endings is a block, there is an exception: a path with an exclamation mark behind
it is a macro call in front of the block and a mere path in front of the other. Nothing reads on
from that mark, so that a type that goes up to its end is read in front of the block too.
-/

namespace ReturnCaptures

open TokenTree Outcome

/-! ### Lifetimes, constants and marks -/

section Lifetimes

variable {r r' : List TokenTree} {c d : Cursor}

/-- Lifetimes with a comma behind each are the same in trees that go on with a `>`, whatever comes
then. -/
theorem afterLifetimesWithComma_append {u : List TokenTree} {tree : TokenTree}
    (htree : atPunct '>' [tree]) (hu : tree ∈ u) (v : List TokenTree) :
  afterLifetimesWithComma (u ++ v) = afterLifetimesWithComma u ++ v
  := by
  obtain ⟨⟨l, s⟩, rfl⟩ := Cursor.exists_of_atPunct_singleton htree
  have hl : l.isPunct '>' := htree
  have hnot : atLifetime [.token ⟨l, s⟩] = false := by
    cases l <;> first | rfl | cases hl
  fun_induction afterLifetimesWithComma u with
  | case1 lifetime comma rest h ih =>
      rw [List.cons_append, List.cons_append, afterLifetimesWithComma, if_pos h]
      apply ih
      simp only [Bool.and_eq_true] at h
      simp only [List.mem_cons] at hu
      rcases hu with rfl | rfl | hu
      · rw [hnot] at h
        cases h.1
      · have hcomma := h.2
        rw [atPunct_token] at hcomma
        cases l with
        | punct symbol j =>
            simp only [Lexeme.isPunct, beq_iff_eq] at hl hcomma
            subst hl
            cases hcomma
        | _ => cases hl
      · apply hu
  | case2 lifetime comma rest h =>
      rw [List.cons_append, List.cons_append, afterLifetimesWithComma, if_neg h]
  | case3 trees hshort =>
      obtain _ | ⟨first, _ | ⟨second, rest⟩⟩ := trees
      · cases hu
      · rw [List.mem_singleton] at hu
        subst hu
        cases v with
        | nil => rfl
        | cons next v =>
            rw [List.singleton_append, afterLifetimesWithComma, hnot, Bool.false_and, if_neg]
            simp
      · cases hshort _ _ _ rfl

/-- The end of a binder: its last lifetime, if no comma stands behind it, and `>`. -/
def binderEnd (c : Cursor) : Outcome Cursor := do
  let c ← if atPunct '>' c.trees then pure c else c.expectLifetime
  c.expectPunct '>'

theorem closes_binderEnd (h : binderEnd c = .ok d) :
  c.Closes true d
  := by
  obtain ⟨e, hlast, h⟩ := ite_bind_eq_ok.mp h
  obtain ⟨hgt, rfl⟩ := Cursor.expectPunct_eq_ok.mp h
  have he : c.Crosses true true e := by
    rcases ite_eq_iff.mp hlast with ⟨-, hlast⟩ | ⟨-, hlast⟩
    · cases hlast
      apply Cursor.Crosses.refl
    · obtain ⟨hl, rfl⟩ := Cursor.expectLifetime_eq_ok.mp hlast
      apply Cursor.Crosses.lifetime hl
  apply he.closes (Cursor.Closes.last hgt)

namespace Endings

variable (hs : Endings r r') (c c' : Cursor)

include hs

theorem binderEnd :
  FollowsTo r r' c c' (ReturnCaptures.binderEnd c) (ReturnCaptures.binderEnd c')
  := by
  apply Follows.ite fun hc => hc.look (hs.punct rfl rfl)
  · intro _
    apply hs.expectPunct _ _ rfl rfl
  · intro _
    apply (hs.expectLifetime c c').bind_to
    intro d d'
    apply hs.expectPunct _ _ rfl rfl

/-- What stands between the angle brackets of a binder. -/
theorem binderInside :
  FollowsTo r r' c c' (ReturnCaptures.binderEnd ⟨afterLifetimesWithComma c.trees, c.stop⟩)
    (ReturnCaptures.binderEnd ⟨afterLifetimesWithComma c'.trees, c'.stop⟩)
  := by
  have hclose (d : Cursor)
      (h : ReturnCaptures.binderEnd ⟨afterLifetimesWithComma c.trees, c.stop⟩ = .ok d) :
      c.Closes true d :=
    (crosses_afterLifetimesWithComma c.trees c.stop).closes (closes_binderEnd h)
  constructor
  · intro d hd
    apply (hclose d hd).isSuffix
  · rintro ⟨u, hu, hu'⟩ d hd hr hno
    apply (hs.binderEnd _ _).carries _ d hd hr hno
    -- The `>` stands in front of the juncture.
    obtain ⟨v, last, hv, -, hlast⟩ := (hclose d hd).run
    obtain ⟨y, hy⟩ : r <:+ d.trees := hr
    have hmem : last ∈ u := by
      rw [hu, ← hy, ← List.cons_append, ← List.append_assoc] at hv
      rw [List.append_cancel_right hv]
      simp
    use afterLifetimesWithComma u
    rw [hu, hu', afterLifetimesWithComma_append hlast hmem,
      afterLifetimesWithComma_append hlast hmem]
    use rfl

theorem forBinder :
  FollowsTo r r' c c' (ReturnCaptures.forBinder c) (ReturnCaptures.forBinder c')
  := by
  apply (hs.expectKeyword c c' "for").bind_to
  intro d d'
  apply (hs.expectPunct d d' rfl rfl).bind_to
  intro e e'
  apply hs.binderInside

theorem constArgument :
  FollowsTo r r' c c' (ReturnCaptures.constArgument c) (ReturnCaptures.constArgument c')
  := by
  have hminus : Cursor.Moves r r' c c' (if atPunct '-' c.trees then c.skip 1 else c)
      (if atPunct '-' c'.trees then c'.skip 1 else c') :=
    .ite (fun hc => hc.look (hs.punct rfl rfl)) fun hseen => hs.moves_punct hseen rfl rfl
  apply Follows.behind hminus
  apply @Cursor.follows_expect_of_cons _ _ _ _
    fun trees => atGroup .brace trees || atIdent trees || atLiteral trees
  · intro _ tree rest rest' hrest hrest'
    rw [hrest, hrest']
    cases tree <;> rfl
  · rfl

/-- The marks in front of a bound. -/
theorem boundMarks :
  FollowsTo r r' c c' (TypeGrammar.boundMarks c) (TypeGrammar.boundMarks c')
  := by
  have hask (d d' : Cursor) : FollowsTo r r' d d'
      (let d := if atPunct '?' d.trees then d.skip 1 else d
        if atKeyword "for" d.trees then ReturnCaptures.forBinder d else return d)
      (let d' := if atPunct '?' d'.trees then d'.skip 1 else d'
        if atKeyword "for" d'.trees then ReturnCaptures.forBinder d' else return d') := by
    have hmove : Cursor.Moves r r' d d' (if atPunct '?' d.trees then d.skip 1 else d)
        (if atPunct '?' d'.trees then d'.skip 1 else d') :=
      .ite (fun hd => hd.look (hs.punct rfl rfl)) fun hseen => hs.moves_punct hseen rfl rfl
    apply Follows.behind hmove
    apply Follows.ite fun hd => hd.look (hs.keyword "for")
    · intro _
      apply hs.forBinder
    · intro _
      apply Follows.arrive .refl
  apply Follows.ite fun hc => hc.look (hs.punct rfl rfl)
  · intro htilde
    apply Follows.behind (hs.moves_punct htilde rfl rfl)
    apply (hs.expectKeyword _ _ "const").bind_to
    intro d d'
    apply hask
  · intro _
    have hmove : Cursor.Moves r r' c c'
        (if atKeyword "const" c.trees || atKeyword "async" c.trees then c.skip 1 else c)
        (if atKeyword "const" c'.trees || atKeyword "async" c'.trees then c'.skip 1 else c') := by
      apply Cursor.Moves.ite fun hc => hc.look ((hs.keyword "const").or (hs.keyword "async"))
      intro hseen
      rcases Bool.or_eq_true_iff.mp hseen with hconst | hasync
      · apply hs.moves_keyword hconst
      · apply hs.moves_keyword hasync
    apply Follows.behind hmove
    apply hask

end Endings

/-- A constant argument moves over a tree. -/
theorem isSuffix_skip_of_constArgument (hconst : atConstArgument c.trees)
    (h : constArgument c = .ok d) :
  c.trees ≠ [] ∧ d.trees <:+ (c.skip 1).trees
  := by
  obtain ⟨-, rfl⟩ := Cursor.expect_eq_ok.mp h
  constructor
  · intro hnil
    rw [hnil] at hconst
    cases hconst
  · split
    case isTrue => apply List.drop_suffix
    case isFalse => apply List.suffix_refl

end Lifetimes

/-! ### Macro calls in front of a block -/

/-- Whether a cursor stands at an exclamation mark right in front of the ending, which may be the
block of a macro call at one cursor and is none at the other. -/
def Cursor.AtMacroMark (r r' : List TokenTree) (c : Cursor) : Prop :=
  atPunct '!' c.trees ∧ (c.skip 1).trees = r ∧ atGroup .brace r ≠ atGroup .brace r'

/-- A result that is a cursor follows another, unless it is at the mark of a macro call. -/
abbrev Outcome.NearlyTo (r r' : List TokenTree) (c c' : Cursor) (x y : Outcome Cursor) : Prop :=
  Follows r r' (Cursor.AtMacroMark r r') (fun d => d) (fun _ _ => True) c c' x y

/-- A result with the cursor behind it follows another, which gives the same result, unless it is at
the mark of a macro call. -/
abbrev Outcome.NearlyWith {α : Type} (r r' : List TokenTree) (c c' : Cursor)
    (x y : Outcome (α × Cursor)) : Prop :=
  Follows r r' (Cursor.AtMacroMark r r') Prod.snd (fun a b => a.1 = b.1) c c' x y

section MacroMarks

variable {r r' : List TokenTree} {c c' : Cursor}

/-- At a juncture no block is at one ending only. -/
theorem Juncture.not_atMacroMark (hs : Juncture r r') :
  ¬ c.AtMacroMark r r'
  := fun h => h.2.2 hs.block

theorem Juncture.follows {α : Type} {place : α → Cursor} {same : α → α → Prop} {x y : Outcome α}
    (hs : Juncture r r') (h : Follows r r' (Cursor.AtMacroMark r r') place same c c' x y) :
  Follows r r' (fun _ => False) place same c c' x y
  := h.mono fun _ => hs.not_atMacroMark

namespace Cursor.AtMacroMark

variable (h : c.AtMacroMark r r')

include h

/-- Nothing comes next but the mark. -/
theorem atLexeme {p : Lexeme → Bool} (hp : ∀ j, p (.punct '!' j) = false) :
  TokenTree.atLexeme p c.trees = false
  := by
  obtain ⟨t, _, hc, ht⟩ := exists_of_atLexeme h.1
  obtain ⟨joint, span, rfl⟩ := exists_of_isPunct ht
  rw [hc]
  apply hp

theorem atPunct {symbol : Char} (hsymbol : ('!' == symbol) = false) :
  TokenTree.atPunct symbol c.trees = false
  := h.atLexeme fun _ => hsymbol

theorem atSingle {symbol : Char} (hsymbol : ('!' == symbol) = false) :
  TokenTree.atSingle symbol c.trees = false
  := by
  rw [TokenTree.atSingle, h.atPunct hsymbol, Bool.false_and]

theorem moreSegments :
  TypeGrammar.moreSegments c.trees = false
  := by
  have hseparator : ¬ atOperator [':', ':'] c.trees := by
    intro hseparator
    obtain ⟨first, second, rest, hc, hpair⟩ := exists_of_atOperator hseparator
    have hcolon : TokenTree.atPunct ':' c.trees = false := h.atPunct rfl
    rw [hc, atPunct_cons, atPunct_first_of_atOperator hpair] at hcolon
    cases hcolon
  rw [Bool.not_eq_true] at hseparator
  rw [TypeGrammar.moreSegments, hseparator, Bool.false_and]

/-- A macro call would go on behind the ending. -/
theorem not_isSuffix (hcall : TypeGrammar.atMacroArguments c.trees) :
  ¬ r <:+ (c.skip 2).trees
  := by
  intro hr
  have hgroup : atAnyGroup (c.skip 1).trees := (Bool.and_eq_true_iff.mp hcall).2
  rw [← skip_skip c 1 1, trees_skip, h.2.1] at hr
  rw [h.2.1] at hgroup
  have hlength := hr.length_le
  cases r with
  | nil => cases hgroup
  | cons tree r =>
      rw [List.length_drop, List.length_cons] at hlength
      omega

end Cursor.AtMacroMark

/-- At swapped cursors there is a macro call at both or at none, but for a mark in front of an
ending. -/
theorem Cursor.Swaps.macroArguments (hs : Endings r r') (hc : c.Swaps r r' c')
    (hno : ¬ c.AtMacroMark r r') :
  TypeGrammar.atMacroArguments c.trees = TypeGrammar.atMacroArguments c'.trees
  := by
  have hsingle : TokenTree.atSingle '!' c.trees = TokenTree.atSingle '!' c'.trees :=
    hc.look (hs.single (by decide))
  obtain ⟨_ | ⟨tree, _ | ⟨next, u⟩⟩, hu, hu'⟩ := hc
  · have hnone {trees : List TokenTree} (h : atEnding trees) :
        TypeGrammar.atMacroArguments trees = false := by
      rw [TypeGrammar.atMacroArguments, TokenTree.atSingle, TokenTree.atPunct,
        atLexeme_of_atEnding h (fun _ => rfl) fun _ => rfl]
      rfl
    rw [hu, hu', List.nil_append, List.nil_append, hnone hs.left, hnone hs.right]
  · cases hmark : TokenTree.atSingle '!' c.trees with
    | false =>
        rw [TypeGrammar.atMacroArguments, TypeGrammar.atMacroArguments, ← hsingle, hmark]
        rfl
    | true =>
        have hblock : atGroup .brace r = atGroup .brace r' := by
          by_contra hne
          apply hno ⟨(Bool.and_eq_true_iff.mp hmark).1, trees_skip_one hu, hne⟩
        apply congrArg₂ Bool.and hsingle
        simp only [hu, hu', List.singleton_append, List.drop_one, List.tail_cons,
          atAnyGroup_of_atEnding hs.left, atAnyGroup_of_atEnding hs.right, hblock]
  · apply congrArg₂ Bool.and hsingle
    rw [hu, hu']
    cases next <;> rfl

end MacroMarks

/-! ### Productions -/

namespace TypeGrammar

/-- The productions that a grammar supplies do not look behind the ending, but for the arguments of a
macro call. -/
structure Local (r r' : List TokenTree) (G : TypeGrammar) : Prop where
  type : ∀ allowPlus c c', NearlyWith r r' c c' (G.type allowPlus c) (G.type allowPlus c')
  segments : ∀ c c', NearlyTo r r' c c' (G.segments c) (G.segments c')
  arguments : ∀ c c', NearlyTo r r' c c' (G.arguments c) (G.arguments c')
  bound : ∀ c c', NearlyTo r r' c c' (G.bound c) (G.bound c')
  bounds : ∀ c c', NearlyTo r r' c c' (G.bounds c) (G.bounds c')

/-- A bound that is no lifetime, in parentheses. -/
theorem readBound_of_paren {G : TypeGrammar} {c : Cursor} {inside rest : List TokenTree}
    {opening closing : Span} (h : c.trees = .group .paren inside opening closing :: rest) :
  G.readBound c = (do
    let d ← G.bound ⟨inside, closing⟩
    if d.atEnd then return c.skip 1 else d.fail (ticked ")"))
  := by
  simp only [TypeGrammar.readBound, h]
  rfl

/-- A bound that is neither a lifetime nor in parentheses. -/
theorem readBound_of_not_paren {G : TypeGrammar} {c : Cursor} (hlife : atLifetime c.trees = false)
    (hparen : atGroup .paren c.trees = false) :
  G.readBound c =
    if atKeyword "use" c.trees then G.angleArguments (c.skip 1)
    else boundMarks c >>= G.path
  := by
  rw [TypeGrammar.readBound, hlife, if_neg Bool.false_ne_true]
  split
  case h_1 hgroup =>
    rw [hgroup] at hparen
    cases hparen
  case h_2 => rfl

/-- A type that starts with neither a parenthesis nor a bracket. -/
theorem readType_of_plain {G : TypeGrammar} {allowPlus : Bool} {c : Cursor}
    (hparen : atGroup .paren c.trees = false) (hbracket : atGroup .bracket c.trees = false) :
  G.readType allowPlus c = G.readPlainType allowPlus c
  := by
  rw [TypeGrammar.readType]
  split
  case h_1 hgroup =>
    rw [hgroup] at hparen
    cases hparen
  case h_2 hgroup =>
    rw [hgroup] at hbracket
    cases hbracket
  case h_3 => rfl

section Productions

variable {r r' : List TokenTree} {G : TypeGrammar} (h : G.Local r r') (hs : Endings r r')
  (c c' : Cursor)

include h hs

theorem Local.argument (hG : G.Sound) :
  NearlyTo r r' c c' (G.argument c) (G.argument c')
  := by
  have hassociated : Unseen r r' fun trees => atIdent trees && atSingle '=' (trees.drop 1) :=
    hs.behind (fun _ => rfl) (fun _ => rfl) (hs.single (by decide))
  have hbounded : Unseen r r' fun trees => atIdent trees && atColon (trees.drop 1) :=
    hs.behind (fun _ => rfl) (fun _ => rfl) hs.colon
  apply Follows.ite fun hc => hc.look hs.lifetime
  · intro hlife
    apply Follows.arrive (hs.moves_lifetime hlife)
  intro _
  apply Follows.ite fun hc => hc.look hassociated
  · intro hseen
    simp only [atSingle, Bool.and_eq_true] at hseen
    apply Follows.behind (hs.moves_lexemes hseen.1 hseen.2.1 (fun _ => ⟨rfl, rfl⟩) fun _ => ⟨rfl, rfl⟩)
    apply (h.type true _ _).map_snd
  intro _
  apply Follows.ite fun hc => hc.look hbounded
  · intro hseen
    simp only [atColon, Bool.and_eq_true] at hseen
    apply Follows.behind (hs.moves_lexemes hseen.1 hseen.2.1 (fun _ => ⟨rfl, rfl⟩) fun _ => ⟨rfl, rfl⟩)
    apply h.bounds
  intro _
  -- A block at the ending is no argument, since the `>` has to come yet.
  apply Follows.of_passes
  · intro d hd
    rcases ite_eq_iff.mp hd with ⟨hconst, hd⟩ | ⟨-, hd⟩
    · apply isSuffix_skip_of_constArgument hconst hd
    · obtain ⟨_, htype, rfl⟩ := map_eq_ok.mp hd
      apply (hG.type htype).isSuffix_skip
  · intro tree rest rest' hrest hrest' hskip
    have hinteger : atInteger rest = atInteger rest' := by
      have hlook := hskip.look hs.integer
      rwa [Cursor.trees_skip_one hrest, Cursor.trees_skip_one hrest'] at hlook
    apply Follows.ite
    · intro _
      rw [hrest, hrest', atConstArgument, atConstArgument, atPunct_cons '-' tree rest,
        atPunct_cons '-' tree rest', List.drop_one, List.tail_cons, List.drop_one, List.tail_cons,
        hinteger]
      cases tree <;> rfl
    · intro _
      apply (hs.constArgument c c').everywhere
    · intro _
      apply (h.type true _ _).map_snd

theorem Local.readArguments (hG : G.Sound) :
  NearlyTo r r' c c' (G.readArguments c) (G.readArguments c')
  := by
  apply Follows.ite fun hc => hc.look (hs.punct rfl rfl)
  · intro hclose
    apply Follows.arrive (hs.moves_punct hclose rfl rfl)
  intro _
  apply (h.argument hs c c' hG).bind_to_of
  · intro d hd e he
    rw [hd.atPunct rfl, hd.atPunct rfl] at he
    cases he
  intro d d'
  -- A comma at the juncture ends no argument, since the `>` has to come yet.
  apply Follows.of_passes
  · intro e he
    rcases ite_eq_iff.mp he with ⟨hcomma, he⟩ | ⟨-, he⟩
    · use Cursor.ne_nil_of_atLexeme hcomma
      apply (h.arguments (d.skip 1) (d.skip 1)).isSuffix e he
    · obtain ⟨hclose, rfl⟩ := Cursor.expect_eq_ok.mp he
      exact ⟨Cursor.ne_nil_of_atLexeme hclose, List.suffix_refl _⟩
  · intro tree rest rest' hd hd' hskip
    have hcomma : atPunct ',' d.trees = atPunct ',' d'.trees := by
      rw [hd, hd', atPunct_cons, atPunct_cons ',' tree rest']
    apply Follows.ite fun _ => hcomma
    · intro _
      apply Follows.behind ⟨List.drop_suffix 1 d.trees, fun _ => hskip⟩
      apply h.arguments
    · intro _
      apply (Cursor.follows_expect (hs.punct rfl rfl) rfl).everywhere

theorem Local.angleArguments :
  NearlyTo r r' c c' (G.angleArguments c) (G.angleArguments c')
  := by
  apply (hs.expectPunct c c' rfl rfl).bind_to
  intro d d'
  apply h.arguments

theorem Local.resultType :
  NearlyTo r r' c c' (G.resultType c) (G.resultType c')
  := by
  apply Follows.ite fun hc => hc.look (hs.operator (by decide))
  · intro harrow
    apply Follows.behind (hs.moves_operator harrow (by decide) (by decide))
    apply (h.type false _ _).map_snd
  · intro _
    apply Follows.arrive .refl

theorem Local.segmentArguments (hG : G.Sound) :
  NearlyTo r r' c c' (G.segmentArguments c) (G.segmentArguments c')
  := by
  have hturbofish : Unseen r r' fun trees =>
      atOperator [':', ':'] trees && atPunct '<' (trees.drop 2) :=
    hs.behind_operator (by decide) (by decide) (hs.punct rfl rfl)
  apply Follows.of_swaps fun d hd => (hG.segmentArguments hd).isSuffix
  intro hc
  apply Follows.ite fun _ => hc.look hturbofish
  · intro hseen
    rw [Bool.and_eq_true] at hseen
    apply Follows.behind (hs.moves_operator hseen.1 (by decide) (by decide))
    apply h.angleArguments hs
  intro _
  apply Follows.ite fun _ => hc.look ((hs.punct rfl rfl).and (hs.operator (by decide)).not)
  · intro _
    apply h.angleArguments hs
  intro _
  by_cases hparen : atGroup .paren c.trees
  · obtain ⟨inside, opening, closing, rest, rest', hr, hr', hskip⟩ :=
      hc.group hs (by decide) hparen
    simp only [hr, hr']
    apply Follows.bind_elsewhere
    intro _
    apply Follows.behind ⟨List.drop_suffix 1 c.trees, fun _ => hskip⟩
    apply h.resultType hs
  · have hparen' : ¬ atGroup .paren c'.trees := by rwa [← hc.look (hs.group (by decide))]
    split
    case h_1 hgroup =>
      rw [hgroup] at hparen
      apply absurd rfl hparen
    split
    case h_1 hgroup =>
      rw [hgroup] at hparen'
      apply absurd rfl hparen'
    apply Follows.arrive .refl

theorem Local.readSegments (hG : G.Sound) :
  NearlyTo r r' c c' (G.readSegments c) (G.readSegments c')
  := by
  apply (Cursor.follows_expect hs.pathStart rfl).bind_to
  intro d d'
  apply (h.segmentArguments hs d d' hG).bind_to_of
  · intro e he f hf _
    rw [he.moreSegments] at hf
    cases hf
    apply he
  intro e e'
  apply Follows.ite fun he => he.look hs.moreSegments
  · intro hmore
    rw [moreSegments, Bool.and_eq_true] at hmore
    apply Follows.behind (hs.moves_operator hmore.1 (by decide) (by decide))
    apply h.segments
  · intro _
    apply Follows.arrive .refl

theorem Local.path :
  NearlyTo r r' c c' (G.path c) (G.path c')
  := by
  have hseparator : Cursor.Moves r r' c c' (skipSeparator c) (skipSeparator c') :=
    .ite (fun hc => hc.look (hs.operator (by decide))) fun hseen =>
      hs.moves_operator hseen (by decide) (by decide)
  apply Follows.behind hseparator
  apply h.segments

theorem Local.readBounds :
  NearlyTo r r' c c' (G.readBounds c) (G.readBounds c')
  := by
  apply (h.bound c c').bind_to_of
  · intro d hd e he _
    rw [hd.atSingle rfl] at he
    cases he
    apply hd
  intro d d'
  apply Follows.ite fun hd => hd.look (hs.single (by decide))
  · intro hplus
    apply Follows.behind (hs.moves_single hplus rfl rfl)
    apply Follows.ite fun hd => hd.look hs.atBound
    · intro _
      apply h.bounds
    · intro _
      apply Follows.arrive .refl
  · intro _
    apply Follows.arrive .refl

theorem Local.readBound (hG : G.Sound) :
  NearlyTo r r' c c' (G.readBound c) (G.readBound c')
  := by
  apply Follows.of_swaps fun d hd => (hG.readBound hd).isSuffix
  intro hc
  by_cases hparen : atGroup .paren c.trees
  · obtain ⟨inside, opening, closing, rest, rest', hr, hr', hskip⟩ :=
      hc.group hs (by decide) hparen
    rw [readBound_of_paren hr, readBound_of_paren hr']
    apply Follows.bind_elsewhere
    intro d
    apply Follows.ite fun _ => rfl
    · intro _
      apply Follows.arrive ⟨List.drop_suffix 1 c.trees, fun _ => hskip⟩
    · intro _
      apply Follows.error
  rw [Bool.not_eq_true] at hparen
  have hparen' : atGroup .paren c'.trees = false := by rwa [← hc.look (hs.group (by decide))]
  by_cases hlife : atLifetime c.trees
  · have hlife' : atLifetime c'.trees := by rwa [← hc.look hs.lifetime]
    rw [TypeGrammar.readBound, if_pos hlife, TypeGrammar.readBound, if_pos hlife']
    apply Follows.arrive (hs.moves_lifetime hlife)
  rw [Bool.not_eq_true] at hlife
  have hlife' : atLifetime c'.trees = false := by rwa [← hc.look hs.lifetime]
  rw [readBound_of_not_paren hlife hparen, readBound_of_not_paren hlife' hparen']
  apply Follows.ite fun _ => hc.look (hs.keyword "use")
  · intro huse
    apply Follows.behind (hs.moves_keyword huse)
    apply h.angleArguments hs
  · intro _
    apply (hs.boundMarks c c').bind_to
    intro d d'
    apply h.path hs

theorem Local.qualifiedPath :
  NearlyTo r r' c c' (G.qualifiedPath c) (G.qualifiedPath c')
  := by
  have hclose (d d' : Cursor) : NearlyTo r r' d d'
      (do
        let d ← d.expectPunct '>'
        if atOperator [':', ':'] d.trees then G.path (d.skip 2) else d.fail (ticked "::"))
      (do
        let d' ← d'.expectPunct '>'
        if atOperator [':', ':'] d'.trees then G.path (d'.skip 2) else d'.fail (ticked "::")) := by
    apply (hs.expectPunct d d' rfl rfl).bind_to
    intro e e'
    apply Follows.ite fun he => he.look (hs.operator (by decide))
    · intro hseparator
      apply Follows.behind (hs.moves_operator hseparator (by decide) (by decide))
      apply h.path hs
    · intro _
      apply Follows.error
  have hstuck {β : Type} {d : Cursor} {f : Cursor → Outcome β} {b : β} (hd : d.AtMacroMark r r') :
      d.expectPunct '>' >>= f ≠ .ok b := by
    rw [Cursor.expectPunct, hd.atPunct rfl]
    rintro ⟨⟩
  apply (hs.expectPunct c c' rfl rfl).bind_to
  intro d d'
  apply (h.type true d d').bind_with_of
  · intro kind e he f hf
    have has : atKeyword "as" e.trees = false := he.atLexeme fun _ => rfl
    simp only [has] at hf
    apply absurd hf (hstuck he)
  intro kind e e'
  apply Follows.ite fun he => he.look (hs.keyword "as")
  · intro has
    apply Follows.behind (hs.moves_keyword has)
    apply (h.path hs _ _).bind_to_of
    · intro f hf g hg
      apply absurd hg (hstuck hf)
    intro f f'
    apply hclose
  · intro _
    apply hclose

theorem Local.bareFn :
  NearlyTo r r' c c' (G.bareFn c) (G.bareFn c')
  := by
  have hrisky : Cursor.Moves r r' c c' (c.skipKeyword "unsafe") (c'.skipKeyword "unsafe") :=
    hs.moves_skipKeyword "unsafe"
  have habi (d d' : Cursor) : Cursor.Moves r r' d d'
      (if atAbiName d.trees then d.skip 1 else d) (if atAbiName d'.trees then d'.skip 1 else d') :=
    .ite (fun hd => hd.look hs.abiName) fun hseen =>
      hs.moves_lexeme hseen (fun _ => rfl) fun _ => rfl
  have hforeign (d d' : Cursor) : Cursor.Moves r r' d d'
      (if atKeyword "extern" d.trees then
        let d := d.skip 1
        if atAbiName d.trees then d.skip 1 else d
      else d)
      (if atKeyword "extern" d'.trees then
        let d' := d'.skip 1
        if atAbiName d'.trees then d'.skip 1 else d'
      else d') :=
    .ite (fun hd => hd.look (hs.keyword "extern")) fun hseen =>
      (hs.moves_keyword hseen).trans (habi (d.skip 1) (d'.skip 1))
  apply Follows.behind (hrisky.trans (hforeign _ _))
  apply (hs.expectKeyword _ _ "fn").bind_to
  intro e e'
  apply (hs.expectGroup e e' (by decide)).bind_with
  intro g f f'
  apply h.resultType hs

theorem Local.addedBounds (allowPlus : Bool) (kind : TypeKind) :
  NearlyWith r r' c c' (G.addedBounds allowPlus kind c) (G.addedBounds allowPlus kind c')
  := by
  apply Follows.ite fun hc => congrArg _ (hc.look (hs.single (by decide)))
  · intro hplus
    rw [Bool.and_eq_true] at hplus
    apply Follows.behind (hs.moves_single hplus.2 rfl rfl)
    apply (h.bounds _ _).give_to
  · intro _
    apply Follows.give .refl

theorem Local.readPlainType (allowPlus : Bool) :
  NearlyWith r r' c c' (G.readPlainType allowPlus c) (G.readPlainType allowPlus c')
  := by
  apply Follows.ite fun hc => hc.look (hs.punct rfl rfl)
  · intro hnever
    apply Follows.give (hs.moves_punct hnever rfl rfl)
  intro _
  apply Follows.ite fun hc => hc.look (hs.lexeme (fun _ => rfl) fun _ => rfl)
  · intro hblank
    apply Follows.give (hs.moves_lexeme hblank (fun _ => rfl) fun _ => rfl)
  intro _
  apply Follows.ite fun hc => hc.look (hs.punct rfl rfl)
  · intro href
    have hlife (d d' : Cursor) : Cursor.Moves r r' d d'
        (if atLifetime d.trees then d.skip 1 else d)
        (if atLifetime d'.trees then d'.skip 1 else d') :=
      .ite (fun hd => hd.look hs.lifetime) hs.moves_lifetime
    apply Follows.behind (((hs.moves_punct href rfl rfl).trans (hlife _ _)).trans
      (hs.moves_skipKeyword "mut"))
    apply (h.type false _ _).give_with
  intro _
  apply Follows.ite fun hc => hc.look (hs.punct rfl rfl)
  · intro hpointer
    apply Follows.behind (hs.moves_punct hpointer rfl rfl)
    apply (Cursor.follows_expect ((hs.keyword "const").or (hs.keyword "mut")) rfl).bind_to
    intro d d'
    apply (h.type false d d').give_with
  intro _
  apply Follows.ite fun hc => hc.look (hs.keyword "impl")
  · intro himpl
    apply Follows.behind (hs.moves_keyword himpl)
    apply (h.bounds _ _).give_to
  intro _
  apply Follows.ite fun hc => hc.look (hs.keyword "dyn")
  · intro hdyn
    apply Follows.behind (hs.moves_keyword hdyn)
    apply (h.bounds _ _).give_to
  intro _
  apply Follows.ite fun hc => hc.look (hs.keyword "for")
  · intro _
    apply (hs.forBinder c c').bind_to
    intro d d'
    apply Follows.ite fun hd => hd.look hs.bareFn
    · intro _
      apply (h.bareFn hs d d').give_to
    · intro _
      apply (h.bounds d d').give_to
  intro _
  apply Follows.ite fun hc => hc.look hs.bareFn
  · intro _
    apply (h.bareFn hs c c').give_to
  intro _
  apply Follows.ite fun hc => hc.look (hs.punct rfl rfl)
  · intro _
    apply (h.qualifiedPath hs c c').give_to
  intro _
  apply Follows.ite fun hc => hc.look (hs.pathStart.or (hs.operator (by decide)))
  · intro _
    have hstays (d : Cursor) (hd : d.AtMacroMark r r') (a : TypeKind × Cursor)
        (ha : (if atMacroArguments d.trees then .ok (.macroCall, d.skip 2)
          else G.addedBounds allowPlus .path d) = Except.ok a) (hr : r <:+ a.2.trees) :
        a.2.AtMacroMark r r' := by
      rcases ite_eq_iff.mp ha with ⟨hcall, ha⟩ | ⟨-, ha⟩
      · cases ha
        apply absurd hr (hd.not_isSuffix hcall)
      · rw [TypeGrammar.addedBounds, hd.atSingle rfl, Bool.and_false] at ha
        cases ha
        apply hd
    apply (h.path hs c c').bind_to_of hstays
    intro d d'
    apply Follows.of_not _ (hstays d)
    · intro hno
      apply Follows.ite fun hd => hd.macroArguments hs hno
      · intro hcall
        rw [atMacroArguments, Bool.and_eq_true] at hcall
        apply Follows.behind (hs.moves_single hcall.1 rfl rfl)
        rw [← Cursor.skip_skip d 1 1, ← Cursor.skip_skip d' 1 1]
        -- The arguments may be a block, but then that block is not the one at the ending.
        apply Follows.of_passes
        · rintro _ ⟨⟩
          constructor
          · rintro hnil
            have hgroup : atAnyGroup (d.skip 1).trees := hcall.2
            rw [hnil] at hgroup
            cases hgroup
          · apply List.suffix_refl
        · intro tree rest rest' _ _ hskip
          apply Follows.give ⟨List.drop_suffix 1 (d.skip 1).trees, fun _ => hskip⟩
      · intro _
        apply h.addedBounds hs
    · intro a ha
      rcases ite_eq_iff.mp ha with ⟨-, ha⟩ | ⟨-, ha⟩
      · cases ha
        apply List.drop_suffix
      · apply (h.addedBounds hs d d allowPlus .path).isSuffix a ha
  intro _
  apply Follows.error

/-- A type in parentheses or brackets. -/
theorem Local.readType (hG : G.Sound) (allowPlus : Bool) :
  NearlyWith r r' c c' (G.readType allowPlus c) (G.readType allowPlus c')
  := by
  apply Follows.of_swaps fun a ha => (hG.readType ha).crosses.isSuffix
  intro hc
  by_cases hparen : atGroup .paren c.trees
  · obtain ⟨inside, opening, closing, rest, rest', hr, hr', hskip⟩ :=
      hc.group hs (by decide) hparen
    simp only [TypeGrammar.readType, hr, hr']
    apply Follows.bind_elsewhere
    intro kind
    apply Follows.behind ⟨List.drop_suffix 1 c.trees, fun _ => hskip⟩
    apply h.addedBounds hs
  by_cases hbracket : atGroup .bracket c.trees
  · obtain ⟨inside, opening, closing, rest, rest', hr, hr', hskip⟩ :=
      hc.group hs (by decide) hbracket
    simp only [TypeGrammar.readType, hr, hr']
    apply Follows.bind_elsewhere
    intro kind
    apply Follows.give ⟨List.drop_suffix 1 c.trees, fun _ => hskip⟩
  rw [Bool.not_eq_true] at hparen hbracket
  rw [readType_of_plain hparen hbracket, readType_of_plain]
  · apply h.readPlainType hs
  · rwa [← hc.look (hs.group (by decide))]
  · rwa [← hc.look (hs.group (by decide))]

end Productions

/-- No level of the grammar looks behind an ending, but for the arguments of a macro call. -/
theorem local_level {r r' : List TokenTree} (hs : Endings r r') (n : Nat) :
  Local r r' (level n)
  := by
  induction n with
  | zero => constructor <;> intros <;> apply Follows.error
  | succ n ih =>
      have hG := sound_level n
      constructor
      · intro allowPlus c c'
        apply ih.readType hs c c' hG
      · intro c c'
        apply ih.readSegments hs c c' hG
      · intro c c'
        apply ih.readArguments hs c c' hG
      · intro c c'
        apply ih.readBound hs c c' hG
      · intro c c'
        apply ih.readBounds hs

end TypeGrammar

/-! ### Reading types -/

section Reading

variable {r r' : List TokenTree} {c c' d : Cursor}

namespace Cursor.Swaps

variable {d' : Cursor}

/-- What is read between swapped cursors is the same. -/
theorem readUpTo (hc : c.Swaps r r' c') (hd : d.Swaps r r' d') :
  c.readUpTo d = c'.readUpTo d'
  := by
  obtain ⟨u, hu, hu'⟩ := hc
  obtain ⟨v, hv, hv'⟩ := hd
  have hread : c.readUpTo d = u.take (u.length - v.length) := by
    rw [Cursor.readUpTo, hu, hv, List.length_append, List.length_append, Nat.add_sub_add_right,
      List.take_append_of_le_length (Nat.sub_le _ _)]
  have hread' : c'.readUpTo d' = u.take (u.length - v.length) := by
    rw [Cursor.readUpTo, hu', hv', List.length_append, List.length_append, Nat.add_sub_add_right,
      List.take_append_of_le_length (Nat.sub_le _ _)]
  rw [hread, hread']

theorem span_eq (hc : c.Swaps r r' c') (hlt : r.length < c.trees.length) :
  c.span = c'.span
  := by
  obtain ⟨_ | ⟨tree, u⟩, hu, hu'⟩ := hc
  · rw [hu] at hlt
    apply absurd hlt (Nat.lt_irrefl _)
  · rw [span, span, hu, hu']
    rfl

theorem runUpTo (hc : c.Swaps r r' c') (hd : d.Swaps r r' d') (hlt : r.length < c.trees.length) :
  c.runUpTo d = c'.runUpTo d'
  := by
  rw [Cursor.runUpTo, Cursor.runUpTo, hc.readUpTo hd, hc.span_eq hlt]

end Cursor.Swaps

/-- A type is read in front of one ending as it is in front of the other, if it is not followed by
the mark of a macro call that only one of them completes. -/
theorem TypeExpr.read_of_endings (hs : Endings r r') (hc : c.Swaps r r' c') {allowPlus : Bool}
    {type : TypeExpr} (h : TypeExpr.read allowPlus c = .ok (type, d)) (hr : r <:+ d.trees)
    (hd : ¬ d.AtMacroMark r r') :
  ∃ d', TypeExpr.read allowPlus c' = .ok (type, d') ∧ d.Swaps r r' d'
  := by
  obtain ⟨kind, htype, rfl⟩ := TypeExpr.read_eq_ok.mp h
  have hlt := ((TypeGrammar.sound_upTo c).type htype).shorter
  rw [← TypeGrammar.type_level_eq_upTo allowPlus c (Nat.le_max_left _ (c'.weight + 2))] at htype
  obtain ⟨⟨_, d'⟩, htype', rfl, hdd⟩ :=
    ((TypeGrammar.local_level hs _).type allowPlus c c').carries hc _ htype hr hd
  rw [TypeGrammar.type_level_eq_upTo allowPlus c' (Nat.le_max_right _ _)] at htype'
  use d'
  constructor
  · apply TypeExpr.read_eq_ok.mpr
    use kind, htype'
    rw [hc.runUpTo hdd (Nat.lt_of_le_of_lt hr.length_le hlt)]
  · apply hdd

/-- A type is read in front of one list of a juncture as it is in front of the other. -/
theorem TypeExpr.read_of_swaps (hs : Juncture r r') (hc : c.Swaps r r' c') {allowPlus : Bool}
    {type : TypeExpr} (h : TypeExpr.read allowPlus c = .ok (type, d)) (hr : r <:+ d.trees) :
  ∃ d', TypeExpr.read allowPlus c' = .ok (type, d') ∧ d.Swaps r r' d'
  := TypeExpr.read_of_endings hs.toEndings hc h hr hs.not_atMacroMark

end Reading

end ReturnCaptures
