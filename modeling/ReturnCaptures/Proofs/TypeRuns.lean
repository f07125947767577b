import ReturnCaptures.Grammar.TypeExpr
import ReturnCaptures.Proofs.Crossing

/-!
# Types cross balanced runs

Every production for types crosses a strict balanced run, and the productions for generic
arguments go up to the `>` that closes them, provided that the productions they refer to
do. By induction this holds at every level of the grammar.
-/

namespace ReturnCaptures

open TokenTree Outcome Cursor

variable {strict inner : Bool} {c d : Cursor}

/-! ### Lifetimes -/

theorem crosses_afterLifetimeBounds (trees : List TokenTree) (stop : Span) :
  Crosses true inner ⟨trees, stop⟩ ⟨afterLifetimeBounds trees, stop⟩
  := by
  fun_induction afterLifetimeBounds trees with
  | case1 tree plus rest hl hp ih =>
      rw [← atLifetime_cons tree (plus :: rest)] at hl
      apply Crosses.trans (Crosses.lifetime hl)
      apply Crosses.trans (Crosses.single hp _) ih
      cases inner <;> rfl
  | case2 tree plus rest hl hp =>
      rw [← atLifetime_cons tree (plus :: rest)] at hl
      apply Crosses.lifetime hl
  | case3 tree plus rest hl =>
      apply Crosses.refl
  | case4 trees hne hl =>
      obtain ⟨t, r, rfl, _⟩ := exists_of_atLexeme hl
      obtain rfl : r = [] := by
        cases r with
        | nil => rfl
        | cons next r => apply absurd rfl (hne _ _ _)
      apply Crosses.lifetime hl
  | case5 trees hne hl =>
      apply Crosses.refl

/-- Lifetimes joined by plus signs are a balanced run. -/
theorem crosses_lifetimeBounds (c : Cursor) :
  c.Crosses true inner (lifetimeBounds c)
  := crosses_afterLifetimeBounds c.trees c.stop

theorem crosses_afterLifetimesWithComma (trees : List TokenTree) (stop : Span) :
  Crosses strict true ⟨trees, stop⟩ ⟨afterLifetimesWithComma trees, stop⟩
  := by
  fun_induction afterLifetimesWithComma trees with
  | case1 tree comma rest h ih =>
      simp only [Bool.and_eq_true] at h
      rw [← atLifetime_cons tree (comma :: rest)] at h
      apply Crosses.trans (Crosses.lifetime h.1)
      apply Crosses.trans _ ih
      apply Crosses.mark
      simp only [skip, List.drop_one, List.tail_cons]
      rw [atPunct_cons, atPunct_cons ',', h.2, Bool.or_true]
  | case2 tree comma rest h =>
      apply Crosses.refl
  | case3 trees h =>
      apply Crosses.refl

/-- A binder of lifetimes is a balanced run. -/
theorem passes_forBinder (h : forBinder c = .ok d) :
  c.Passes true inner d
  := by
  obtain ⟨_, hword, h⟩ := bind_eq_ok.mp h
  obtain ⟨hfor, rfl⟩ := expectKeyword_eq_ok.mp hword
  obtain ⟨_, hopen, h⟩ := bind_eq_ok.mp h
  obtain ⟨hlt, rfl⟩ := expectPunct_eq_ok.mp hopen
  obtain ⟨e, hlast, h⟩ := ite_bind_eq_ok.mp h
  obtain ⟨hgt, rfl⟩ := expectPunct_eq_ok.mp h
  have he : ((c.skip 1).skip 1).Crosses true true e := by
    apply (crosses_afterLifetimesWithComma _ _).trans
    rcases ite_eq_iff.mp hlast with ⟨-, hlast⟩ | ⟨-, hlast⟩
    · cases hlast
      apply Crosses.refl
    · obtain ⟨hl, rfl⟩ := expectLifetime_eq_ok.mp hlast
      apply Crosses.lifetime hl
  apply Passes.skip hfor (Crosses.keyword hfor)
  apply Closes.crosses hlt
  apply he.closes (Closes.last hgt)

/-! ### Productions -/

/-- What a constant argument consists of, its sign apart. -/
theorem isPlain_of_constArgument (strict : Bool) {trees : List TokenTree}
    (h : atGroup .brace trees || atIdent trees || atLiteral trees) :
  ∃ tree r, trees = tree :: r ∧ tree.isPlain strict true
  := by
  obtain _ | ⟨⟨⟨l, s⟩⟩ | ⟨del, inside, opening, closing⟩, r⟩ := trees
  · simp [atGroup, atIdent, atLiteral, atLexeme] at h
  · use .token ⟨l, s⟩, r, rfl
    cases l with
    | ident | keyword => apply Lexeme.isPlain_of_isWord rfl
    | literal => simp [isPlain, Lexeme.isPlain, Lexeme.isMark, Lexeme.inTypes]
    | _ => simp [atGroup, atIdent, atLiteral, atLexeme, Lexeme.isLiteral] at h
  · use .group del inside opening closing, r, rfl
    rfl

/-- A constant argument is a balanced run between angle brackets. -/
theorem crosses_constArgument (h : constArgument c = .ok d) :
  c.Crosses strict true d
  := by
  obtain ⟨hseen, rfl⟩ := expect_eq_ok.mp h
  obtain ⟨tree, r, hc, hp⟩ := isPlain_of_constArgument strict hseen
  split at hc
  case isTrue hm =>
    obtain ⟨t, r', hc', ht⟩ := exists_of_atLexeme hm
    rw [if_pos hm, skip_skip]
    rw [trees_skip_one hc'] at hc
    subst hc
    apply Crosses.led hc' _ hp
    simp [leads, ht]
  case isFalse hm =>
    rw [if_neg hm]
    apply Crosses.tree hc hp

namespace TypeGrammar

/-- A grammar whose productions cross balanced runs. -/
structure Sound (G : TypeGrammar) : Prop where
  type : ∀ {allowPlus c kind d}, G.type allowPlus c = .ok (kind, d) → c.Passes true false d
  segments : ∀ {c d}, G.segments c = .ok d → c.Passes true false d
  arguments : ∀ {c d}, G.arguments c = .ok d → c.Closes true d
  bound : ∀ {c d}, G.bound c = .ok d → c.Crosses true false d
  bounds : ∀ {c d}, G.bounds c = .ok d → c.Crosses true false d

variable {G : TypeGrammar}

/-- The end of a type crosses what the type crosses. -/
theorem Sound.map_type (hG : G.Sound) {allowPlus : Bool}
    (h : (G.type allowPlus c).map (·.2) = .ok d) :
  c.Crosses true false d
  := by
  obtain ⟨_, htype, rfl⟩ := map_eq_ok.mp h
  apply (hG.type htype).crosses

theorem Sound.argument (hG : G.Sound) (h : G.argument c = .ok d) :
  c.Crosses true true d
  := by
  unfold TypeGrammar.argument at h
  split_ifs at h with hlife hassoc hcolon hconst
  · cases h
    apply Crosses.lifetime hlife
  · simp only [Bool.and_eq_true] at hassoc
    apply Crosses.trans (Crosses.ident hassoc.1)
    rw [← skip_skip c 1 1] at h
    apply Crosses.trans (Crosses.single hassoc.2 (by rfl)) (hG.map_type h).toInner
  · simp only [Bool.and_eq_true] at hcolon
    apply Crosses.trans (Crosses.ident hcolon.1)
    rw [← skip_skip c 1 1] at h
    apply Crosses.trans (Crosses.colon hcolon.2) (hG.bounds h).toInner
  · apply crosses_constArgument h
  · apply (hG.map_type h).toInner

theorem Sound.readArguments (hG : G.Sound) (h : G.readArguments c = .ok d) :
  c.Closes true d
  := by
  unfold TypeGrammar.readArguments at h
  split_ifs at h with hclose
  · cases h
    apply Closes.last hclose
  · obtain ⟨e, hargument, h⟩ := bind_eq_ok.mp h
    apply (hG.argument hargument).closes
    split_ifs at h with hcomma
    · apply (Crosses.mark (by simp [hcomma])).closes (hG.arguments h)
    · obtain ⟨hlast, rfl⟩ := expect_eq_ok.mp h
      apply Closes.last hlast

theorem Sound.angleArguments (hG : G.Sound) (h : G.angleArguments c = .ok d) :
  c.Crosses true false d
  := by
  obtain ⟨e, hopen, h⟩ := bind_eq_ok.mp h
  obtain ⟨hlt, rfl⟩ := expectPunct_eq_ok.mp hopen
  apply Closes.crosses hlt (hG.arguments h)

theorem Sound.resultType (hG : G.Sound) (h : G.resultType c = .ok d) :
  c.Crosses true false d
  := by
  unfold TypeGrammar.resultType at h
  split_ifs at h with harrow
  · apply Crosses.trans (Crosses.arrow harrow) (hG.map_type h)
  · cases h
    apply Crosses.refl

theorem Sound.segmentArguments (hG : G.Sound) (h : G.segmentArguments c = .ok d) :
  c.Crosses true false d
  := by
  unfold TypeGrammar.segmentArguments at h
  split_ifs at h with hpath hangle
  · simp only [Bool.and_eq_true] at hpath
    apply Crosses.trans (Crosses.separator hpath.1) (hG.angleArguments h)
  · apply hG.angleArguments h
  · split at h
    case h_1 inside _ closing r hc =>
      obtain ⟨_, _, h⟩ := bind_eq_ok.mp h
      apply Crosses.trans _ (hG.resultType h)
      apply Crosses.tree hc rfl
    case h_2 =>
      cases h
      apply Crosses.refl

theorem crosses_skipSeparator (c : Cursor) :
  c.Crosses strict inner (skipSeparator c)
  := Crosses.ite Crosses.separator

theorem Sound.path (hG : G.Sound) (h : G.path c = .ok d) :
  c.Passes true false d
  := (crosses_skipSeparator c).trans_passes (hG.segments h)

theorem Sound.readSegments (hG : G.Sound) (h : G.readSegments c = .ok d) :
  c.Passes true false d
  := by
  simp only [TypeGrammar.readSegments, bind_eq_ok, expect_eq_ok] at h
  obtain ⟨_, ⟨hstart, rfl⟩, e, harguments, h⟩ := h
  apply Passes.skip hstart (Crosses.pathStart hstart)
  apply Crosses.trans (hG.segmentArguments harguments)
  split_ifs at h with hmore
  · simp only [moreSegments, Bool.and_eq_true] at hmore
    apply Crosses.trans (Crosses.separator hmore.1) (hG.segments h).crosses
  · cases h
    apply Crosses.refl

theorem Sound.readBounds (hG : G.Sound) (h : G.readBounds c = .ok d) :
  c.Crosses true false d
  := by
  obtain ⟨e, hbound, h⟩ := bind_eq_ok.mp h
  apply Crosses.trans (hG.bound hbound)
  split at h
  case isTrue hplus =>
    apply Crosses.trans (Crosses.single hplus (by rfl))
    simp only at h
    split at h
    case isTrue => apply hG.bounds h
    case isFalse =>
      cases h
      apply Crosses.refl
  case isFalse =>
    cases h
    apply Crosses.refl

/-- The marks in front of a bound are a balanced run. -/
theorem crosses_boundMarks (h : boundMarks c = .ok d) :
  c.Crosses true false d
  := by
  obtain ⟨e, hword, h⟩ := ite_bind_eq_ok.mp h
  have he : c.Crosses true false e := by
    rcases ite_eq_iff.mp hword with ⟨htilde, hword⟩ | ⟨-, hword⟩
    · obtain ⟨hconst, rfl⟩ := expectKeyword_eq_ok.mp hword
      apply Crosses.trans (Crosses.punct htilde (by rfl)) (Crosses.keyword hconst)
    · cases hword
      apply Crosses.ite
      intro hseen
      rcases Bool.or_eq_true_iff.mp hseen with hconst | hasync
      · apply Crosses.keyword hconst
      · apply Crosses.keyword hasync
  apply he.trans
  apply Crosses.trans (Crosses.ite fun (hask : atPunct '?' e.trees) => Crosses.punct hask (by rfl))
  rcases ite_eq_iff.mp h with ⟨-, h⟩ | ⟨-, h⟩
  · apply (passes_forBinder h).crosses
  · cases h
    apply Crosses.refl

theorem Sound.readBound (hG : G.Sound) (h : G.readBound c = .ok d) :
  c.Crosses true false d
  := by
  unfold TypeGrammar.readBound at h
  split at h
  case isTrue hlife =>
    cases h
    apply Crosses.lifetime hlife
  case isFalse =>
    split at h
    case h_1 inside _ closing r hc =>
      obtain ⟨e, _, h⟩ := bind_eq_ok.mp h
      split at h
      case isTrue =>
        cases h
        apply Crosses.tree hc rfl
      case isFalse => cases h
    case h_2 =>
      split at h
      case isTrue huse => apply Crosses.trans (Crosses.keyword huse) (hG.angleArguments h)
      case isFalse =>
        obtain ⟨e, hmarks, h⟩ := bind_eq_ok.mp h
        apply Crosses.trans (crosses_boundMarks hmarks) (hG.path h).crosses

/-! ### Types -/

theorem Sound.qualifiedPath (hG : G.Sound) (h : G.qualifiedPath c = .ok d) :
  c.Passes true false d
  := by
  obtain ⟨_, hopen, h⟩ := bind_eq_ok.mp h
  obtain ⟨hlt, rfl⟩ := expectPunct_eq_ok.mp hopen
  obtain ⟨⟨kind, e⟩, htype, h⟩ := bind_eq_ok.mp h
  obtain ⟨f, htrait, h⟩ := ite_bind_eq_ok.mp h
  obtain ⟨_, hclose, h⟩ := bind_eq_ok.mp h
  obtain ⟨hgt, rfl⟩ := expectPunct_eq_ok.mp hclose
  have hf : e.Crosses true false f := by
    rcases ite_eq_iff.mp htrait with ⟨has, htrait⟩ | ⟨-, htrait⟩
    · apply Crosses.trans (Crosses.keyword has) (hG.path htrait).crosses
    · cases htrait
      apply Crosses.refl
  have hend : (f.skip 1).Crosses true false d := by
    rcases ite_eq_iff.mp h with ⟨hpath, h⟩ | ⟨-, h⟩
    · apply Crosses.trans (Crosses.separator hpath) (hG.path h).crosses
    · cases h
  have hangle : (c.skip 1).Closes true (f.skip 1) :=
    ((hG.type htype).crosses.trans hf).closes (Closes.last hgt)
  apply Passes.ofLexeme hlt ((Closes.crosses hlt hangle).trans hend)
  apply hend.isSuffix.trans hangle.isSuffix

/-- The name of a calling convention leads the keyword after it. -/
theorem crosses_abiName (h : atAbiName c.trees) (hfn : atKeyword "fn" (c.skip 1).trees) :
  c.Crosses true false (c.skip 2)
  := by
  obtain ⟨t, r, hc, ht⟩ := exists_of_atLexeme h
  rw [trees_skip_one hc] at hfn
  obtain ⟨t', r', rfl, ht'⟩ := exists_of_atLexeme hfn
  apply Crosses.led hc
  · cases ht'' : t.lexeme <;> simp_all [leads, Lexeme.isQuoted]
  · apply Lexeme.isPlain_of_isWord
    cases ht'' : t'.lexeme <;> simp_all [Lexeme.isWord, Lexeme.isKeyword]

/-- The words in front of the parameters of a function type are a balanced run. -/
theorem passes_fnWords
    (h : expectKeyword
      (if atKeyword "extern" (c.skipKeyword "unsafe").trees then
        if atAbiName ((c.skipKeyword "unsafe").skip 1).trees then
          ((c.skipKeyword "unsafe").skip 1).skip 1
        else (c.skipKeyword "unsafe").skip 1
      else c.skipKeyword "unsafe") "fn" = .ok d) :
  c.Passes true false d
  := by
  apply (Crosses.skipKeyword c "unsafe").trans_passes
  generalize c.skipKeyword "unsafe" = e at h
  obtain ⟨hfn, rfl⟩ := expectKeyword_eq_ok.mp h
  split at hfn
  case isTrue hextern =>
    rw [if_pos hextern]
    apply Passes.skip hextern (Crosses.keyword hextern)
    split at hfn
    case isTrue habi =>
      rw [if_pos habi, skip_skip]
      apply crosses_abiName habi hfn
    case isFalse habi =>
      rw [if_neg habi]
      apply Crosses.keyword hfn
  case isFalse hextern =>
    rw [if_neg hextern]
    apply Passes.skip hfn (Crosses.keyword hfn) .refl

theorem Sound.bareFn (hG : G.Sound) (h : G.bareFn c = .ok d) :
  c.Passes true false d
  := by
  obtain ⟨e, hfn, h⟩ := bind_eq_ok.mp h
  obtain ⟨⟨g, f⟩, hgroup, h⟩ := bind_eq_ok.mp h
  apply (passes_fnWords hfn).trans
  apply (Passes.expectGroup hgroup).crosses.trans (hG.resultType h)

theorem Sound.addedBounds (hG : G.Sound) {allowPlus : Bool} {kind kind' : TypeKind}
    (h : G.addedBounds allowPlus kind c = .ok (kind', d)) :
  c.Crosses true false d
  := by
  unfold TypeGrammar.addedBounds at h
  split at h
  case isTrue hplus =>
    obtain ⟨e, hbounds, ⟨⟩⟩ := bind_eq_ok.mp h
    rw [Bool.and_eq_true] at hplus
    apply Crosses.trans (Crosses.single hplus.2 (by rfl)) (hG.bounds hbounds)
  case isFalse =>
    cases h
    apply Crosses.refl

/-- An exclamation mark and a group are a balanced run. -/
theorem crosses_macroArguments (h : atMacroArguments c.trees) :
  c.Crosses strict inner (c.skip 2)
  := by
  simp only [atMacroArguments, Bool.and_eq_true] at h
  rw [← skip_skip c 1 1]
  apply Crosses.trans (Crosses.single h.1 _) (Crosses.anyGroup h.2)
  cases strict <;> cases inner <;> rfl

theorem Sound.readPlainType (hG : G.Sound) {allowPlus : Bool} {kind : TypeKind}
    (h : G.readPlainType allowPlus c = .ok (kind, d)) :
  c.Passes true false d
  := by
  unfold TypeGrammar.readPlainType at h
  rcases ite_eq_iff.mp h with ⟨hnever, h⟩ | ⟨-, h⟩
  · cases h
    apply Passes.skip hnever (Crosses.punct hnever (by rfl)) .refl
  rcases ite_eq_iff.mp h with ⟨hblank, h⟩ | ⟨-, h⟩
  · cases h
    apply Passes.skip hblank (Crosses.word hblank _) .refl
    intro l hl
    obtain rfl := eq_of_beq hl
    rfl
  rcases ite_eq_iff.mp h with ⟨href, h⟩ | ⟨-, h⟩
  · obtain ⟨⟨_, e⟩, htype, ⟨⟩⟩ := bind_eq_ok.mp h
    apply Passes.skip href (Crosses.punct href (by rfl))
    apply Crosses.trans (Crosses.ite Crosses.lifetime)
    apply Crosses.trans (Crosses.skipKeyword _ "mut") (hG.type htype).crosses
  rcases ite_eq_iff.mp h with ⟨hpointer, h⟩ | ⟨-, h⟩
  · obtain ⟨e, hword, h⟩ := bind_eq_ok.mp h
    obtain ⟨⟨_, f⟩, htype, ⟨⟩⟩ := bind_eq_ok.mp h
    obtain ⟨hseen, rfl⟩ := expect_eq_ok.mp hword
    apply Passes.skip hpointer (Crosses.punct hpointer (by rfl))
    apply Crosses.trans _ (hG.type htype).crosses
    rcases Bool.or_eq_true_iff.mp hseen with hconst | hmut
    · apply Crosses.keyword hconst
    · apply Crosses.keyword hmut
  rcases ite_eq_iff.mp h with ⟨himpl, h⟩ | ⟨-, h⟩
  · obtain ⟨e, hbounds, ⟨⟩⟩ := bind_eq_ok.mp h
    apply Passes.skip himpl (Crosses.keyword himpl) (hG.bounds hbounds)
  rcases ite_eq_iff.mp h with ⟨hdyn, h⟩ | ⟨-, h⟩
  · obtain ⟨e, hbounds, ⟨⟩⟩ := bind_eq_ok.mp h
    apply Passes.skip hdyn (Crosses.keyword hdyn) (hG.bounds hbounds)
  rcases ite_eq_iff.mp h with ⟨hfor, h⟩ | ⟨-, h⟩
  · obtain ⟨e, hbinder, h⟩ := bind_eq_ok.mp h
    apply (passes_forBinder hbinder).trans
    rcases ite_eq_iff.mp h with ⟨-, h⟩ | ⟨-, h⟩
    · obtain ⟨f, hfn, ⟨⟩⟩ := bind_eq_ok.mp h
      apply (hG.bareFn hfn).crosses
    · obtain ⟨f, hbounds, ⟨⟩⟩ := bind_eq_ok.mp h
      apply hG.bounds hbounds
  rcases ite_eq_iff.mp h with ⟨-, h⟩ | ⟨-, h⟩
  · obtain ⟨e, hfn, ⟨⟩⟩ := bind_eq_ok.mp h
    apply hG.bareFn hfn
  rcases ite_eq_iff.mp h with ⟨-, h⟩ | ⟨-, h⟩
  · obtain ⟨e, hpath, ⟨⟩⟩ := bind_eq_ok.mp h
    apply hG.qualifiedPath hpath
  rcases ite_eq_iff.mp h with ⟨-, h⟩ | ⟨-, h⟩
  · obtain ⟨e, hpath, h⟩ := bind_eq_ok.mp h
    apply (hG.path hpath).trans
    rcases ite_eq_iff.mp h with ⟨hcall, h⟩ | ⟨-, h⟩
    · cases h
      apply crosses_macroArguments hcall
    · apply hG.addedBounds h
  cases h

theorem Sound.readType (hG : G.Sound) {allowPlus : Bool} {kind : TypeKind}
    (h : G.readType allowPlus c = .ok (kind, d)) :
  c.Passes true false d
  := by
  unfold TypeGrammar.readType at h
  split at h
  case h_1 inside _ closing r hc =>
    obtain ⟨kind', _, h⟩ := bind_eq_ok.mp h
    apply Passes.trans (Passes.tree hc rfl) (hG.addedBounds h)
  case h_2 inside _ closing r hc =>
    obtain ⟨kind', _, ⟨⟩⟩ := bind_eq_ok.mp h
    apply Passes.tree hc rfl
  case h_3 => apply hG.readPlainType h

/-- The grammars of all levels cross balanced runs. -/
theorem sound_level (n : Nat) :
  (level n).Sound
  := by
  induction n with
  | zero => constructor <;> intros <;> contradiction
  | succ n ih =>
      constructor
      · exact ih.readType
      · exact ih.readSegments
      · exact ih.readArguments
      · exact ih.readBound
      · exact ih.readBounds

theorem sound_upTo (c : Cursor) :
  (upTo c).Sound
  := sound_level _

end TypeGrammar

theorem TypeExpr.read_eq_ok {allowPlus : Bool} {type : TypeExpr} :
  TypeExpr.read allowPlus c = .ok (type, d) ↔
    ∃ kind, (TypeGrammar.upTo c).type allowPlus c = .ok (kind, d) ∧ type = ⟨kind, c.runUpTo d⟩
  := by
  constructor
  · intro h
    obtain ⟨⟨kind, e⟩, htype, ⟨⟩⟩ := bind_eq_ok.mp h
    use kind
  · rintro ⟨kind, htype, rfl⟩
    rw [TypeExpr.read, htype]
    rfl

/-- Reading a type passes its run. -/
theorem TypeExpr.passes_read {allowPlus : Bool} {type : TypeExpr}
    (h : TypeExpr.read allowPlus c = .ok (type, d)) :
  c.Passes true false d ∧ type.run = c.runUpTo d
  := by
  obtain ⟨kind, htype, rfl⟩ := TypeExpr.read_eq_ok.mp h
  use (TypeGrammar.sound_upTo c).type htype

/-- The trees in front of a type are those of the type and those after it. -/
theorem TypeExpr.trees_of_read {allowPlus : Bool} {type : TypeExpr}
    (h : TypeExpr.read allowPlus c = .ok (type, d)) :
  c.trees = type.run.trees ++ d.trees
  := by
  obtain ⟨hpass, hrun⟩ := TypeExpr.passes_read h
  rw [hrun]
  apply hpass.crosses.readUpTo.1

theorem TypeExpr.ne_nil_of_read {allowPlus : Bool} {type : TypeExpr}
    (h : TypeExpr.read allowPlus c = .ok (type, d)) :
  type.run.trees ≠ []
  := by
  intro hnil
  have htrees := TypeExpr.trees_of_read h
  have hlt := (TypeExpr.passes_read h).1.shorter
  rw [htrees, hnil] at hlt
  apply Nat.lt_irrefl _ hlt

/-- What reading a type moves over is passed. -/
theorem TypeExpr.passes_map_read {allowPlus : Bool}
    (h : (TypeExpr.read allowPlus c).map (·.2) = .ok d) :
  c.Passes true false d
  := by
  obtain ⟨_, hread, rfl⟩ := map_eq_ok.mp h
  apply (TypeExpr.passes_read hread).1

end ReturnCaptures
