import ReturnCaptures.Proofs.Relocation
import ReturnCaptures.Proofs.TypeRuns

/-!
# Relocated types

The productions for types, paths and bounds read from relocated trees what they read from the trees
themselves, level by level.
-/

namespace ReturnCaptures

open TokenTree Outcome

variable {φ : Nat → Nat}

/-- A type that stands elsewhere. -/
def TypeExpr.relocate (φ : Nat → Nat) (type : TypeExpr) : TypeExpr :=
  ⟨type.kind, type.run.relocate φ⟩

/-! ### Lifetimes, arguments and bounds -/

section Steps

theorem atLifetime_relocate (tree : TokenTree) :
  atLifetime [tree.relocate φ] = atLifetime [tree]
  := by
  cases tree <;> simp [atLifetime, atLexeme]

theorem afterLifetimeBounds_relocateAll (trees : List TokenTree) :
  afterLifetimeBounds (relocateAll φ trees) = relocateAll φ (afterLifetimeBounds trees)
  := by
  have hplus (plus : TokenTree) (rest : List TokenTree) :
      atSingle '+' (plus.relocate φ :: relocateAll φ rest) = atSingle '+' (plus :: rest) := by
    rw [← relocateAll_cons, atSingle_relocateAll]
  fun_induction afterLifetimeBounds trees with
  | case1 tree plus rest ht hp ih =>
      simp [afterLifetimeBounds, atLifetime_relocate, hplus, ht, hp, ih]
  | case2 tree plus rest ht hp => simp [afterLifetimeBounds, atLifetime_relocate, hplus, ht, hp]
  | case3 tree plus rest ht => simp [afterLifetimeBounds, atLifetime_relocate, ht]
  | case4 trees hshort ht | case5 trees hshort ht =>
      obtain _ | ⟨tree, _ | ⟨plus, rest⟩⟩ := trees
      · simp_all [afterLifetimeBounds]
      · simp_all [afterLifetimeBounds, atLifetime_relocate]
      · exact (hshort _ _ _ rfl).elim

theorem afterLifetimesWithComma_relocateAll (trees : List TokenTree) :
  afterLifetimesWithComma (relocateAll φ trees) = relocateAll φ (afterLifetimesWithComma trees)
  := by
  have hcomma (comma : TokenTree) : atPunct ',' [comma.relocate φ] = atPunct ',' [comma] := by
    cases comma <;> simp [atPunct, atLexeme]
  fun_induction afterLifetimesWithComma trees with
  | case1 tree comma rest h ih =>
      simp_all [afterLifetimesWithComma, atLifetime_relocate]
  | case2 tree comma rest h =>
      simp_all [afterLifetimesWithComma, atLifetime_relocate]
  | case3 trees hshort =>
      obtain _ | ⟨tree, _ | ⟨comma, rest⟩⟩ := trees
      · rfl
      · rfl
      · exact (hshort _ _ _ rfl).elim

variable (c : Cursor)

@[simp]
theorem lifetimeBounds_relocate :
  lifetimeBounds (c.relocate φ) = (lifetimeBounds c).relocate φ
  := by
  rw [lifetimeBounds, Cursor.trees_relocate, afterLifetimeBounds_relocateAll]
  rfl

@[simp]
theorem forBinder_relocate :
  (forBinder (c.relocate φ)).toOption = (forBinder c).toOption.map (Cursor.relocate φ)
  := by
  simp [forBinder, afterLifetimesWithComma_relocateAll, map_ite, Option.map_bind, Option.bind_map]

@[simp]
theorem atConstArgument_relocateAll (trees : List TokenTree) :
  atConstArgument (relocateAll φ trees) = atConstArgument trees
  := by
  simp [atConstArgument]

@[simp]
theorem constArgument_relocate :
  (constArgument (c.relocate φ)).toOption = (constArgument c).toOption.map (Cursor.relocate φ)
  := by
  simp [constArgument]

@[simp]
theorem atBound_relocateAll (trees : List TokenTree) :
  atBound (relocateAll φ trees) = atBound trees
  := by
  simp [atBound]

end Steps

/-! ### Productions -/

namespace TypeGrammar

@[simp]
theorem moreSegments_relocateAll (trees : List TokenTree) :
  moreSegments (relocateAll φ trees) = moreSegments trees
  := by
  simp [moreSegments]

@[simp]
theorem skipSeparator_relocate (c : Cursor) :
  skipSeparator (c.relocate φ) = (skipSeparator c).relocate φ
  := by
  simp [skipSeparator]

@[simp]
theorem atAbiName_relocateAll (trees : List TokenTree) :
  atAbiName (relocateAll φ trees) = atAbiName trees
  := atLexeme_relocateAll ..

@[simp]
theorem atBareFn_relocateAll (trees : List TokenTree) :
  atBareFn (relocateAll φ trees) = atBareFn trees
  := by
  simp [atBareFn]

@[simp]
theorem atMacroArguments_relocateAll (trees : List TokenTree) :
  atMacroArguments (relocateAll φ trees) = atMacroArguments trees
  := by
  simp [atMacroArguments]

@[simp]
theorem boundMarks_relocate (c : Cursor) :
  (boundMarks (c.relocate φ)).toOption = (boundMarks c).toOption.map (Cursor.relocate φ)
  := by
  simp [boundMarks, map_ite, Option.map_bind, Option.bind_map]

/-- The productions that a grammar supplies read relocated trees. -/
structure Relocates (φ : Nat → Nat) (G : TypeGrammar) : Prop where
  type : ∀ allowPlus c, (G.type allowPlus (c.relocate φ)).toOption =
    (G.type allowPlus c).toOption.map fun r => (r.1, r.2.relocate φ)
  segments : ∀ c, (G.segments (c.relocate φ)).toOption =
    (G.segments c).toOption.map (Cursor.relocate φ)
  arguments : ∀ c, (G.arguments (c.relocate φ)).toOption =
    (G.arguments c).toOption.map (Cursor.relocate φ)
  bound : ∀ c, (G.bound (c.relocate φ)).toOption = (G.bound c).toOption.map (Cursor.relocate φ)
  bounds : ∀ c, (G.bounds (c.relocate φ)).toOption = (G.bounds c).toOption.map (Cursor.relocate φ)

namespace Relocates

variable {G : TypeGrammar} (h : G.Relocates φ) (c : Cursor)

include h

theorem argument :
  (G.argument (c.relocate φ)).toOption = (G.argument c).toOption.map (Cursor.relocate φ)
  := by
  simp [TypeGrammar.argument, h.type, h.bounds, map_ite, Function.comp_def]

theorem readArguments :
  (G.readArguments (c.relocate φ)).toOption = (G.readArguments c).toOption.map (Cursor.relocate φ)
  := by
  simp [TypeGrammar.readArguments, h.argument, h.arguments, map_ite, Option.map_bind,
    Option.bind_map]

theorem angleArguments :
  (G.angleArguments (c.relocate φ)).toOption =
    (G.angleArguments c).toOption.map (Cursor.relocate φ)
  := by
  simp [TypeGrammar.angleArguments, h.arguments, Option.map_bind, Option.bind_map]

theorem parenthesized :
  (G.parenthesized (c.relocate φ)).toOption = (G.parenthesized c).toOption
  := by
  have hlist (d : Cursor) :
      ((d.relocate φ).commaSeparated fun _ => G.type true).toOption =
        (d.commaSeparated fun _ => G.type true).toOption.map (List.map id) :=
    d.commaSeparated_relocate fun _ => h.type true
  simp [TypeGrammar.parenthesized, h.type, hlist, Option.bind_map]

theorem resultType :
  (G.resultType (c.relocate φ)).toOption = (G.resultType c).toOption.map (Cursor.relocate φ)
  := by
  simp [TypeGrammar.resultType, h.type, map_ite, Function.comp_def]

theorem segmentArguments :
  (G.segmentArguments (c.relocate φ)).toOption =
    (G.segmentArguments c).toOption.map (Cursor.relocate φ)
  := by
  simp only [TypeGrammar.segmentArguments, Cursor.trees_relocate, drop_relocateAll,
    atOperator_relocateAll, atPunct_relocateAll, Cursor.skip_relocate, toOption_ite, map_ite,
    h.angleArguments]
  congr 2
  -- Only a parenthesis in front is looked into.
  obtain ⟨_ | ⟨_ | ⟨_ | _ | _, _, _, _⟩, rest⟩, stop⟩ := c <;>
    simp [h.parenthesized, h.resultType, Option.map_bind]

theorem readSegments :
  (G.readSegments (c.relocate φ)).toOption = (G.readSegments c).toOption.map (Cursor.relocate φ)
  := by
  simp [TypeGrammar.readSegments, h.segmentArguments, h.segments, map_ite, Option.map_bind,
    Option.bind_map]

theorem path :
  (G.path (c.relocate φ)).toOption = (G.path c).toOption.map (Cursor.relocate φ)
  := by
  simp [TypeGrammar.path, h.segments]

theorem readBounds :
  (G.readBounds (c.relocate φ)).toOption = (G.readBounds c).toOption.map (Cursor.relocate φ)
  := by
  simp [TypeGrammar.readBounds, h.bound, h.bounds, map_ite, Option.map_bind, Option.bind_map]

theorem readBound :
  (G.readBound (c.relocate φ)).toOption = (G.readBound c).toOption.map (Cursor.relocate φ)
  := by
  simp only [TypeGrammar.readBound, Cursor.trees_relocate, atLifetime_relocateAll, toOption_ite,
    map_ite]
  congr 1
  · simp
  · have hplain : (do
          if atKeyword "use" (c.relocate φ).trees then G.angleArguments ((c.relocate φ).skip 1)
          else G.path (← boundMarks (c.relocate φ)) : Outcome Cursor).toOption =
        (do
          if atKeyword "use" c.trees then G.angleArguments (c.skip 1)
          else G.path (← boundMarks c) : Outcome Cursor).toOption.map (Cursor.relocate φ) := by
      simp [h.angleArguments, h.path, map_ite, Option.map_bind, Option.bind_map]
    obtain ⟨_ | ⟨_ | ⟨_ | _ | _, _, _, _⟩, rest⟩, stop⟩ := c
    case cons.group.paren =>
      simp [h.bound, map_ite, Option.map_bind, Option.bind_map]
    all_goals
      apply hplain

theorem qualifiedPath :
  (G.qualifiedPath (c.relocate φ)).toOption = (G.qualifiedPath c).toOption.map (Cursor.relocate φ)
  := by
  simp [TypeGrammar.qualifiedPath, h.type, h.path, map_ite, Option.map_bind, Option.bind_map]

theorem bareFn :
  (G.bareFn (c.relocate φ)).toOption = (G.bareFn c).toOption.map (Cursor.relocate φ)
  := by
  simp [TypeGrammar.bareFn, h.resultType, Option.map_bind, Option.bind_map]

theorem addedBounds (allowPlus : Bool) (kind : TypeKind) :
  (G.addedBounds allowPlus kind (c.relocate φ)).toOption =
    (G.addedBounds allowPlus kind c).toOption.map fun r => (r.1, r.2.relocate φ)
  := by
  simp [TypeGrammar.addedBounds, h.bounds, map_ite, Function.comp_def]

theorem bracketed :
  (G.bracketed (c.relocate φ)).toOption = (G.bracketed c).toOption
  := by
  simp [TypeGrammar.bracketed, h.type, Option.bind_map]

theorem readPlainType (allowPlus : Bool) :
  (G.readPlainType allowPlus (c.relocate φ)).toOption =
    (G.readPlainType allowPlus c).toOption.map fun r => (r.1, r.2.relocate φ)
  := by
  simp [TypeGrammar.readPlainType, h.type, h.bounds, h.bareFn, h.qualifiedPath, h.path,
    h.addedBounds, map_ite, Option.map_bind, Option.bind_map, Function.comp_def]

theorem readType (allowPlus : Bool) :
  (G.readType allowPlus (c.relocate φ)).toOption =
    (G.readType allowPlus c).toOption.map fun r => (r.1, r.2.relocate φ)
  := by
  have hplain := h.readPlainType c allowPlus
  obtain ⟨_ | ⟨_ | ⟨_ | _ | _, _, _, _⟩, rest⟩, stop⟩ := c
  case cons.group.paren =>
    simp [TypeGrammar.readType, h.parenthesized, h.addedBounds, Option.map_bind]
  case cons.group.bracket =>
    simp [TypeGrammar.readType, h.bracketed, Function.comp_def]
  all_goals
    apply hplain

end Relocates

/-- Every level of the grammar reads relocated trees. -/
theorem relocates_level (n : Nat) :
  (level n).Relocates φ
  := by
  induction n with
  | zero => constructor <;> intros <;> rfl
  | succ n ih =>
      constructor
      · intro allowPlus c
        apply ih.readType
      · apply ih.readSegments
      · apply ih.readArguments
      · apply ih.readBound
      · apply ih.readBounds

@[simp]
theorem upTo_relocate (c : Cursor) :
  upTo (c.relocate φ) = upTo c
  := by
  simp [upTo]

theorem relocates_upTo (c : Cursor) :
  (upTo c).Relocates φ
  := relocates_level _

end TypeGrammar

@[simp]
theorem TypeExpr.read_relocate (allowPlus : Bool) (c : Cursor) :
  (read allowPlus (c.relocate φ)).toOption =
    (read allowPlus c).toOption.map fun r => (r.1.relocate φ, r.2.relocate φ)
  := by
  simp [read, (TypeGrammar.relocates_upTo c).type, Function.comp_def, relocate]

end ReturnCaptures
