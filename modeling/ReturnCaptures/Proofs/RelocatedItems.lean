import ReturnCaptures.Proofs.Lossless
import ReturnCaptures.Proofs.RelocatedTypes

/-!
# Relocated function items

The productions for patterns, for the parts of a function item and for the item as a whole read
from relocated trees what they read from the trees themselves, relocated.
-/

namespace ReturnCaptures

open TokenTree Outcome

variable {φ : Nat → Nat}

/-! ### Patterns -/

namespace Pattern

section Relocate

variable (φ : Nat → Nat)

mutual

/-- A pattern that stands elsewhere. -/
def relocate : Pattern → Pattern
  | mk kind run parts => mk kind (run.relocate φ) (relocateAll parts)

/-- Patterns that stand elsewhere. -/
def relocateAll : List Pattern → List Pattern
  | [] => []
  | p :: ps => p.relocate :: relocateAll ps

end

end Relocate

@[simp]
theorem relocateAll_eq_map (ps : List Pattern) :
  relocateAll φ ps = ps.map (relocate φ)
  := by
  induction ps with
  | nil => rw [relocateAll, List.map_nil]
  | cons p ps ih => rw [relocateAll, ih, List.map_cons]

@[simp]
theorem relocate_mk (kind : PatternKind) (run : Run) (parts : List Pattern) :
  (mk kind run parts).relocate φ = mk kind (run.relocate φ) (parts.map (relocate φ))
  := by
  rw [relocate, relocateAll_eq_map]

@[simp]
theorem run_relocate (p : Pattern) :
  (p.relocate φ).run = p.run.relocate φ
  := by
  cases p
  rw [relocate_mk]
  rfl

@[simp]
theorem kind_relocate (p : Pattern) :
  (p.relocate φ).kind = p.kind
  := by
  cases p
  rw [relocate_mk]
  rfl

end Pattern

namespace PatternGrammar

@[simp]
theorem segmentArguments_relocate (c : Cursor) :
  (segmentArguments (c.relocate φ)).toOption =
    (segmentArguments c).toOption.map (Cursor.relocate φ)
  := by
  simp [segmentArguments, (TypeGrammar.relocates_upTo c).angleArguments, map_ite]

@[simp]
theorem atRest_relocateAll (trees : List TokenTree) :
  atRest (relocateAll φ trees) = atRest trees
  := by
  simp [atRest]

@[simp]
theorem atPathContinuation_relocateAll (trees : List TokenTree) :
  atPathContinuation (relocateAll φ trees) = atPathContinuation trees
  := by
  simp [atPathContinuation]

@[simp]
theorem atBinding_relocateAll (trees : List TokenTree) :
  atBinding (relocateAll φ trees) = atBinding trees
  := by
  simp [atBinding]

/-- The productions that a grammar supplies read relocated trees. -/
structure Relocates (φ : Nat → Nat) (G : PatternGrammar) : Prop where
  pattern : ∀ c, (G.pattern (c.relocate φ)).toOption =
    (G.pattern c).toOption.map fun r => (r.1.relocate φ, r.2.relocate φ)
  segments : ∀ c, (G.segments (c.relocate φ)).toOption =
    (G.segments c).toOption.map (Cursor.relocate φ)

/-- What a pattern is made of, elsewhere. -/
def Shape.relocate (φ : Nat → Nat) (shape : Shape) : Shape :=
  (shape.1, shape.2.1.map (Pattern.relocate φ), shape.2.2.relocate φ)

namespace Relocates

variable {G : PatternGrammar} (h : G.Relocates φ) (c : Cursor)

include h

theorem readSegments :
  (G.readSegments (c.relocate φ)).toOption = (G.readSegments c).toOption.map (Cursor.relocate φ)
  := by
  simp [PatternGrammar.readSegments, h.segments, map_ite, Option.map_bind, Option.bind_map]

theorem elements :
  (G.elements (c.relocate φ)).toOption =
    (G.elements c).toOption.map (List.map (Pattern.relocate φ))
  := c.commaSeparated_relocate fun _ => h.pattern

theorem readBinding :
  (G.readBinding (c.relocate φ)).toOption = (G.readBinding c).toOption.map (Shape.relocate φ)
  := by
  simp [PatternGrammar.readBinding, h.pattern, map_ite, Option.map_bind, Option.bind_map,
    Function.comp_def, Shape.relocate, Token.text]

theorem readPath :
  (G.readPath (c.relocate φ)).toOption = (G.readPath c).toOption.map (Shape.relocate φ)
  := by
  simp only [PatternGrammar.readPath, Cursor.trees_relocate, atPunct_relocateAll,
    TypeGrammar.upTo_relocate, TypeGrammar.skipSeparator_relocate]
  split
  case' isTrue =>
    have hc : (TypeGrammar.upTo c).Relocates φ := TypeGrammar.relocates_upTo c
    apply toOption_bind_of (hc.qualifiedPath c)
  case' isFalse => apply toOption_bind_of (h.segments (TypeGrammar.skipSeparator c))
  all_goals
    rintro ⟨_ | ⟨tree, rest⟩, stop⟩
    · simp [Shape.relocate]
    · have hmacro : TypeGrammar.atMacroArguments (tree.relocate φ :: relocateAll φ rest) =
          TypeGrammar.atMacroArguments (tree :: rest) := by
        rw [← relocateAll_cons, TypeGrammar.atMacroArguments_relocateAll]
      -- A group behind the path decides on the kind of the pattern.
      obtain _ | ⟨_ | _ | _, _, _, _⟩ := tree
      all_goals
        simp only [relocate_token, relocate_group] at hmacro
        simp [h.elements, Shape.relocate, Function.comp_def, hmacro]

theorem readPlain :
  (G.readPlain (c.relocate φ)).toOption = (G.readPlain c).toOption.map (Shape.relocate φ)
  := by
  simp [PatternGrammar.readPlain, h.pattern, h.readBinding, h.readPath, map_ite,
    Function.comp_def, Shape.relocate]

theorem readShape :
  (G.readShape (c.relocate φ)).toOption = (G.readShape c).toOption.map (Shape.relocate φ)
  := by
  have hplain := h.readPlain c
  obtain ⟨_ | ⟨_ | ⟨_ | _ | _, _, _, _⟩, rest⟩, stop⟩ := c
  case cons.group.paren | cons.group.bracket =>
    simp [PatternGrammar.readShape, h.elements, Function.comp_def, Shape.relocate]
  all_goals
    apply hplain

theorem readPattern :
  (G.readPattern (c.relocate φ)).toOption =
    (G.readPattern c).toOption.map fun r => (r.1.relocate φ, r.2.relocate φ)
  := by
  simp [PatternGrammar.readPattern, h.readShape, Function.comp_def, Shape.relocate]

end Relocates

/-- Every level of the grammar reads relocated trees. -/
theorem relocates_level (n : Nat) :
  (level n).Relocates φ
  := by
  induction n with
  | zero => constructor <;> intros <;> rfl
  | succ n ih =>
      constructor
      · apply ih.readPattern
      · apply ih.readSegments

@[simp]
theorem upTo_relocate (c : Cursor) :
  upTo (c.relocate φ) = upTo c
  := by
  simp [upTo]

theorem relocates_upTo (c : Cursor) :
  (upTo c).Relocates φ
  := relocates_level _

end PatternGrammar

@[simp]
theorem Pattern.read_relocate (c : Cursor) :
  (read (c.relocate φ)).toOption =
    (read c).toOption.map fun r => (r.1.relocate φ, r.2.relocate φ)
  := by
  rw [read, PatternGrammar.upTo_relocate]
  apply (PatternGrammar.relocates_upTo c).pattern

/-! ### Attributes, generic parameters and where clauses -/

/-- A generic parameter that stands elsewhere. -/
def GenericParam.relocate (φ : Nat → Nat) (param : GenericParam) : GenericParam :=
  ⟨param.kind, param.name, param.run.relocate φ⟩

/-- A where clause that stands elsewhere. -/
def WhereClause.relocate (φ : Nat → Nat) (clause : WhereClause) : WhereClause :=
  ⟨clause.predicates.map (Run.relocate φ), clause.run.relocate φ⟩

/-- Generic parameters that stand elsewhere. -/
def Generics.relocate (φ : Nat → Nat) (generics : Generics) : Generics :=
  ⟨generics.params.map (GenericParam.relocate φ), relocateAll φ generics.trees,
    generics.whereClause.map (WhereClause.relocate φ)⟩

theorem outerAttributesOf_relocateAll (trees : List TokenTree) :
  outerAttributesOf (relocateAll φ trees) =
    ((outerAttributesOf trees).1.map (Run.relocate φ), relocateAll φ (outerAttributesOf trees).2)
  := by
  fun_induction outerAttributesOf trees with
  | case1 => simp_all [outerAttributesOf, Token.relocate, Run.relocate]
  | case2 => simp_all [outerAttributesOf, Token.relocate, Run.relocate]
  | case3 trees hdoc hattribute =>
      obtain _ | ⟨⟨l, s⟩ | _, rest⟩ := trees
      · rfl
      · cases l with
        | doc inner text =>
            cases inner with
            | false => exact (hdoc text s rest rfl).elim
            | true => simp [outerAttributesOf, Token.relocate]
        | punct symbol j =>
            by_cases hsymbol : symbol = '#'
            · subst hsymbol
              obtain _ | ⟨_ | ⟨_ | _ | _, inside, opening, closing⟩, rest⟩ := rest
              case cons.group.bracket => exact (hattribute j s inside opening closing rest rfl).elim
              all_goals
                simp [outerAttributesOf, Token.relocate]
            · simp [outerAttributesOf, Token.relocate, hsymbol]
        | _ => simp [outerAttributesOf, Token.relocate]
      · simp [outerAttributesOf]

@[simp]
theorem outerAttributes_relocate (c : Cursor) :
  outerAttributes (c.relocate φ) =
    ((outerAttributes c).1.map (Run.relocate φ), (outerAttributes c).2.relocate φ)
  := by
  simp [outerAttributes, outerAttributesOf_relocateAll]

@[simp]
theorem optionalBounds_relocate (c : Cursor) :
  (optionalBounds (c.relocate φ)).toOption = (optionalBounds c).toOption.map (Cursor.relocate φ)
  := by
  simp [optionalBounds, (TypeGrammar.relocates_upTo c).bounds, map_ite]

namespace GenericParam

@[simp]
theorem readLifetime_relocate (name : String) (c : Cursor) :
  readLifetime name (c.relocate φ) =
    ((readLifetime name c).1, (readLifetime name c).2.1, (readLifetime name c).2.2.relocate φ)
  := by
  simp [readLifetime]

@[simp]
theorem readConst_relocate (c : Cursor) :
  (readConst (c.relocate φ)).toOption =
    (readConst c).toOption.map fun r => (r.1, r.2.1, r.2.2.relocate φ)
  := by
  simp [readConst, map_ite, Option.map_bind, Option.bind_map, Function.comp_def, Token.text]

@[simp]
theorem readType_relocate (name : String) (c : Cursor) :
  (readType name (c.relocate φ)).toOption =
    (readType name c).toOption.map fun r => (r.1, r.2.1, r.2.2.relocate φ)
  := by
  simp [readType, map_ite, Option.map_bind, Option.bind_map, Function.comp_def]

@[simp]
theorem readPlain_relocate (c : Cursor) :
  (readPlain (c.relocate φ)).toOption =
    (readPlain c).toOption.map fun r => (r.1, r.2.1, r.2.2.relocate φ)
  := by
  obtain ⟨_ | ⟨⟨l, s⟩ | _, rest⟩, stop⟩ := c
  · simp [readPlain]
  · cases l with
    | keyword word =>
        by_cases hword : word = "const"
        · simp [readPlain, Token.relocate, hword]
        · simp [readPlain, Token.relocate, hword]
    | _ => simp [readPlain, Token.relocate]
  · simp [readPlain]

@[simp]
theorem read_relocate (c : Cursor) :
  (read (c.relocate φ)).toOption =
    (read c).toOption.map fun r => (r.1.relocate φ, r.2.relocate φ)
  := by
  simp [read, relocate, Function.comp_def]

end GenericParam

namespace Generics

@[simp]
theorem readParams_relocate (bound : Nat) (c : Cursor) :
  (readParams bound (c.relocate φ)).toOption =
    (readParams bound c).toOption.map fun r => (r.1.map (GenericParam.relocate φ), r.2.relocate φ)
  := by
  induction bound generalizing c with
  | zero => rfl
  | succ bound ih =>
      simp [readParams, ih, map_ite, Option.map_bind, Option.bind_map, Function.comp_def]

@[simp]
theorem read_relocate (c : Cursor) :
  (read (c.relocate φ)).toOption =
    (read c).toOption.map fun r => (r.1.relocate φ, r.2.relocate φ)
  := by
  simp [read, relocate, map_ite, Function.comp_def]

end Generics

namespace WhereClause

@[simp]
theorem atStop_relocateAll (trees : List TokenTree) :
  atStop (relocateAll φ trees) = atStop trees
  := by
  simp [atStop]

@[simp]
theorem predicate_relocate (c : Cursor) :
  (predicate (c.relocate φ)).toOption = (predicate c).toOption.map (Cursor.relocate φ)
  := by
  simp [predicate, map_ite, Option.map_bind, Option.bind_map, Function.comp_def]

@[simp]
theorem readPredicates_relocate (bound : Nat) (c : Cursor) :
  (readPredicates bound (c.relocate φ)).toOption =
    (readPredicates bound c).toOption.map fun r => (r.1.map (Run.relocate φ), r.2.relocate φ)
  := by
  induction bound generalizing c with
  | zero => rfl
  | succ bound ih =>
      simp [readPredicates, ih, map_ite, Option.map_bind, Option.bind_map, Function.comp_def]

@[simp]
theorem read_relocate (c : Cursor) :
  (read (c.relocate φ)).toOption =
    (read c).toOption.map fun r => (r.1.map (WhereClause.relocate φ), r.2.relocate φ)
  := by
  simp [read, relocate, map_ite, Function.comp_def]

end WhereClause

/-! ### Parameter lists -/

/-- A parameter that stands elsewhere. -/
def Param.relocate (φ : Nat → Nat) : Param → Param
  | receiver run reference mutable => receiver (run.relocate φ) reference mutable
  | typed attributes pattern type =>
    typed (attributes.map (Run.relocate φ)) (pattern.relocate φ) (type.relocate φ)

namespace ParamList

/-- A parameter list that stands elsewhere. -/
def relocate (φ : Nat → Nat) (list : ParamList) : ParamList :=
  ⟨list.params.map (Param.relocate φ), list.variadic.map (Run.relocate φ), list.group.relocate φ⟩

/-- An entry that stands elsewhere. -/
def Entry.relocate (φ : Nat → Nat) : Entry → Entry
  | param p => param (p.relocate φ)
  | variadic run => variadic (run.relocate φ)

@[simp]
theorem atDots_relocateAll (trees : List TokenTree) :
  atDots (relocateAll φ trees) = atDots trees
  := by
  simp [atDots]

@[simp]
theorem readReceiver_relocate (c : Cursor) :
  (readReceiver (c.relocate φ)).toOption =
    (readReceiver c).toOption.map (Option.map fun r => (r.1.relocate φ, r.2.relocate φ))
  := by
  simp [readReceiver, map_ite, Function.comp_def, Param.relocate]

@[simp]
theorem readPlainEntry_relocate (start c : Cursor) (attributes : List Run) :
  (readPlainEntry (start.relocate φ) (attributes.map (Run.relocate φ)) (c.relocate φ)).toOption =
    (readPlainEntry start attributes c).toOption.map fun r => (r.1.relocate φ, r.2.relocate φ)
  := by
  simp [readPlainEntry, map_ite, Option.map_bind, Option.bind_map, Function.comp_def,
    Entry.relocate, Param.relocate]

@[simp]
theorem readEntry_relocate (done : List Entry) (c : Cursor) :
  (readEntry (done.map (Entry.relocate φ)) (c.relocate φ)).toOption =
    (readEntry done c).toOption.map fun r => (r.1.relocate φ, r.2.relocate φ)
  := by
  obtain _ | ⟨_ | _, done⟩ := done
  · simp only [List.map_nil, readEntry, outerAttributes_relocate, List.isEmpty_nil, if_true]
    apply toOption_bind_of (readReceiver_relocate _)
    rintro (_ | _) <;> simp [Entry.relocate]
  · simp [readEntry, Entry.relocate]
  · simp [readEntry, Entry.relocate]

@[simp]
theorem read_relocate (c : Cursor) :
  (read (c.relocate φ)).toOption =
    (read c).toOption.map fun r => (r.1.relocate φ, r.2.relocate φ)
  := by
  have hentries (d : Cursor) :
      ((d.relocate φ).commaSeparated readEntry).toOption =
        (d.commaSeparated readEntry).toOption.map (List.map (Entry.relocate φ)) :=
    d.commaSeparated_relocate readEntry_relocate
  apply toOption_bind_of (Cursor.expectGroup_relocate c .paren)
  rintro ⟨g, d⟩
  apply toOption_bind_of (hentries (Cursor.into g))
  intro entries
  simp only [toOption_pure, Option.map_some, relocate, Option.some.injEq, Prod.mk.injEq,
    ParamList.mk.injEq, and_true]
  constructor
  · induction entries with
    | nil => rfl
    | cons entry entries ih => cases entry <;> simp [Entry.relocate, ih]
  · induction entries with
    | nil => rfl
    | cons entry entries ih =>
        cases entry with
        | param param => simpa [Entry.relocate] using ih
        | variadic run => simp [Entry.relocate]

end ParamList

/-! ### Return clauses -/

/-- An arrow that stands elsewhere. -/
def Arrow.relocate (φ : Nat → Nat) (arrow : Arrow) : Arrow :=
  ⟨arrow.shaft.relocate φ, arrow.tip.relocate φ⟩

/-- A capture that stands elsewhere. -/
def Capture.relocate (φ : Nat → Nat) : Capture → Capture
  | bound pattern type => bound (pattern.relocate φ) (type.relocate φ)
  | unbound type => unbound (type.relocate φ)

/-- A return clause that stands elsewhere. -/
def ReturnClause.relocate (φ : Nat → Nat) : ReturnClause → ReturnClause
  | absent => absent
  | plain arrow type span => plain (arrow.relocate φ) (type.relocate φ) (span.relocate φ)
  | captures arrow items g span =>
    captures (arrow.relocate φ) (items.map (Capture.relocate φ)) (g.relocate φ) (span.relocate φ)

namespace Pattern

mutual

theorem bindings_relocate (p : Pattern) :
  (p.relocate φ).bindings = p.bindings.map fun b => (b.1, b.2.relocate φ)
  := by
  obtain ⟨kind, run, parts⟩ := p
  have hparts := bindingsAll_relocate parts
  cases kind <;> simp [bindings, hparts, Run.relocate]

theorem bindingsAll_relocate (ps : List Pattern) :
  bindingsAll (ps.map (relocate φ)) = (bindingsAll ps).map fun b => (b.1, b.2.relocate φ)
  := by
  cases ps with
  | nil => rfl
  | cons p ps => simp [bindingsAll, bindings_relocate p, bindingsAll_relocate ps]

end

end Pattern

namespace Capture

@[simp]
theorem expectEnd_relocate (c : Cursor) :
  (expectEnd (c.relocate φ)).toOption = (expectEnd c).toOption
  := by
  simp [expectEnd]

@[simp]
theorem readBound_relocate (c : Cursor) :
  (readBound (c.relocate φ)).toOption =
    (readBound c).toOption.map fun r => (r.1.relocate φ, r.2.1.relocate φ, r.2.2.relocate φ)
  := by
  simp [readBound, Option.map_bind, Option.bind_map, Function.comp_def]

@[simp]
theorem readUnbound_relocate (c : Cursor) :
  (readUnbound (c.relocate φ)).toOption =
    (readUnbound c).toOption.map fun r => (r.1.relocate φ, r.2.relocate φ)
  := by
  simp [readUnbound, Option.map_bind, Option.bind_map, Function.comp_def]

@[simp]
theorem admits_relocate (p : Pattern) :
  admits (p.relocate φ) = admits p
  := by
  obtain ⟨kind, run, parts⟩ := p
  cases kind <;> simp [admits]

mutual

theorem checkPattern_relocate (p : Pattern) :
  (checkPattern (p.relocate φ)).toOption = (checkPattern p).toOption
  := by
  obtain ⟨kind, run, parts⟩ := p
  have hparts := checkParts_relocate parts
  have hadmits : admits (Pattern.relocate φ (.mk kind run parts)) = _ := admits_relocate _
  rw [Pattern.relocate_mk] at hadmits
  simp [checkPattern, hadmits, hparts]

theorem checkParts_relocate (ps : List Pattern) :
  (checkParts (ps.map (Pattern.relocate φ))).toOption = (checkParts ps).toOption
  := by
  cases ps with
  | nil => rfl
  | cons p ps => simp [checkParts, checkPattern_relocate p, checkParts_relocate ps]

end

theorem checkDistinct_relocate (seen : List String) (bindings : List (String × Span)) :
  (checkDistinct seen (bindings.map fun b => (b.1, b.2.relocate φ))).toOption =
    (checkDistinct seen bindings).toOption
  := by
  induction bindings generalizing seen with
  | nil => rfl
  | cons b bindings ih => simp [checkDistinct, ih]

@[simp]
theorem bindings_relocate (captures : List Capture) :
  bindings (captures.map (relocate φ)) = (bindings captures).map fun b => (b.1, b.2.relocate φ)
  := by
  induction captures with
  | nil => rfl
  | cons capture captures ih =>
      rw [bindings, bindings] at ih
      cases capture <;>
        simpa [bindings, relocate, pattern?, List.filterMap_cons, Pattern.bindings_relocate] using ih

theorem read_relocate (index : Nat) (c : Cursor) :
  (read index (c.relocate φ)).toOption =
    (read index c).toOption.map fun r => (r.1.relocate φ, r.2.relocate φ)
  := by
  have hbound : (readBound (c.relocate φ)).toOption = _ := readBound_relocate c
  have hunbound : (readUnbound (c.relocate φ)).toOption = _ := readUnbound_relocate c
  simp only [read]
  cases hb : readBound c with
  | ok r =>
      rw [hb, toOption_ok, Option.map_some, toOption_eq_some] at hbound
      simp [hbound, checkPattern_relocate, relocate, Function.comp_def]
  | error e =>
      rw [hb, toOption_error, Option.map_none, toOption_eq_none] at hbound
      obtain ⟨e', hb'⟩ := hbound
      simp only [hb']
      cases hu : readUnbound c with
      | ok r =>
          rw [hu, toOption_ok, Option.map_some, toOption_eq_some] at hunbound
          simp [hunbound, relocate]
      | error e =>
          rw [hu, toOption_error, Option.map_none, toOption_eq_none] at hunbound
          obtain ⟨e', hu'⟩ := hunbound
          simp [hu']

theorem readList_relocate (g : Group) :
  (readList (g.relocate φ)).toOption = (readList g).toOption.map (List.map (relocate φ))
  := by
  have hlist : ((Cursor.into (g.relocate φ)).commaSeparated fun done => read done.length).toOption =
      ((Cursor.into g).commaSeparated fun done => read done.length).toOption.map
        (List.map (relocate φ)) := by
    apply (Cursor.into g).commaSeparated_relocate
    intro done d
    rw [List.length_map]
    apply read_relocate
  apply toOption_bind_of hlist
  intro captures
  simp [checkDistinct_relocate, Function.comp_def]

end Capture

namespace ReturnClause

theorem readAfter_relocate (arrow : Arrow) (c : Cursor) :
  (readAfter (arrow.relocate φ) (c.relocate φ)).toOption =
    (readAfter arrow c).toOption.map fun r => (r.1.relocate φ, r.2.relocate φ)
  := by
  have htype : (TypeExpr.read true (c.relocate φ)).toOption = _ := TypeExpr.read_relocate true c
  obtain ⟨_ | ⟨_ | ⟨_ | _ | _, inside, opening, closing⟩, rest⟩, stop⟩ := c
  case cons.group.paren =>
    have hlist : (Capture.readList (Group.relocate φ ⟨.paren, inside, opening, closing⟩)).toOption =
        _ := Capture.readList_relocate _
    simp only [readAfter, Cursor.trees_relocate, relocateAll_cons, relocate_group]
    simp only [Group.relocate] at hlist
    cases hl : Capture.readList ⟨.paren, inside, opening, closing⟩ with
    | ok items =>
        rw [hl, toOption_ok, Option.map_some, toOption_eq_some] at hlist
        simp [hlist, relocate, Arrow.relocate, Group.relocate, Token.relocate]
    | error e =>
        rw [hl, toOption_error, Option.map_none, toOption_eq_none] at hlist
        obtain ⟨e', hl'⟩ := hlist
        simp only [hl']
        cases ht : TypeExpr.read true ⟨.group .paren inside opening closing :: rest, stop⟩ with
        | ok r =>
            rw [ht, toOption_ok, Option.map_some, toOption_eq_some] at htype
            simp [htype, relocate, Arrow.relocate, Token.relocate, TypeExpr.relocate, Run.relocate]
        | error e =>
            rw [ht, toOption_error, Option.map_none, toOption_eq_none] at htype
            obtain ⟨e', ht'⟩ := htype
            simp [ht']
  all_goals
    apply toOption_bind_of htype
    intro r
    simp [relocate, Arrow.relocate, Token.relocate, TypeExpr.relocate, Run.relocate]

@[simp]
theorem read_relocate (c : Cursor) :
  (read (c.relocate φ)).toOption =
    (read c).toOption.map fun r => (r.1.relocate φ, r.2.relocate φ)
  := by
  obtain ⟨_ | ⟨_ | _, _ | ⟨_ | _, rest⟩⟩, stop⟩ := c
  case cons.token.cons.token shaft tip =>
    have hafter : (readAfter (Arrow.relocate φ ⟨shaft, tip⟩) (Cursor.relocate φ ⟨rest, stop⟩)).toOption =
        _ := readAfter_relocate _ _
    have harrow : atOperator ['-', '>'] (relocateAll φ (.token shaft :: .token tip :: rest)) =
        atOperator ['-', '>'] (.token shaft :: .token tip :: rest) := atOperator_relocateAll _ _
    simp only [relocateAll_cons, relocate_token] at harrow
    simp only [Arrow.relocate] at hafter
    simp only [read, Cursor.trees_relocate, relocateAll_cons, relocate_token, harrow]
    split
    case isTrue => apply hafter
    case isFalse => simp [relocate]
  all_goals
    simp [read, relocate]

end ReturnClause

/-! ### Function items -/

/-- A calling convention that stands elsewhere. -/
def Abi.relocate (φ : Nat → Nat) (abi : Abi) : Abi :=
  ⟨abi.keyword.relocate φ, abi.name.map (Token.relocate φ)⟩

/-- Qualifiers that stand elsewhere. -/
def Qualifiers.relocate (φ : Nat → Nat) (q : Qualifiers) : Qualifiers :=
  ⟨q.constness.map (Token.relocate φ), q.asyncness.map (Token.relocate φ),
    q.unsafety.map (Token.relocate φ), q.abi.map (Abi.relocate φ)⟩

/-- An ending that stands elsewhere. -/
def Ending.relocate (φ : Nat → Nat) : Ending → Ending
  | body g => body (g.relocate φ)
  | semicolon t => semicolon (t.relocate φ)

namespace FunctionItem

/-- A function item that stands elsewhere. -/
def relocate (φ : Nat → Nat) (item : FunctionItem) : FunctionItem where
  attributes := item.attributes.map (Run.relocate φ)
  visibility := item.visibility.map (Run.relocate φ)
  qualifiers := item.qualifiers.relocate φ
  fnToken := item.fnToken.relocate φ
  nameToken := item.nameToken.relocate φ
  generics := item.generics.relocate φ
  params := item.params.relocate φ
  returns := item.returns.relocate φ
  ending := item.ending.relocate φ
  span := item.span.relocate φ

@[simp]
theorem readVisibility_relocate (c : Cursor) :
  readVisibility (c.relocate φ) =
    ((readVisibility c).1.map (Run.relocate φ), (readVisibility c).2.relocate φ)
  := by
  obtain ⟨_ | ⟨⟨l, s⟩ | _, rest⟩, stop⟩ := c
  · rfl
  · cases l with
    | keyword word =>
        by_cases hword : word = "pub"
        · subst hword
          obtain _ | ⟨_ | ⟨_ | _ | _, inside, opening, closing⟩, rest⟩ := rest
          case cons.group.paren =>
            have hscope : atVisibilityScope (relocateAll φ inside) = atVisibilityScope inside := by
              simp [atVisibilityScope]
            by_cases h : atVisibilityScope inside <;>
              simp [readVisibility, hscope, h, Run.relocate, Run.single, Token.relocate, TokenTree.span]
          all_goals
            simp [readVisibility, Run.relocate, Run.single, Token.relocate, TokenTree.span]
        · simp [readVisibility, Token.relocate, hword]
    | _ => simp [readVisibility, Token.relocate]
  · simp [readVisibility]

@[simp]
theorem readKeyword?_relocate (word : String) (c : Cursor) :
  readKeyword? word (c.relocate φ) =
    ((readKeyword? word c).1.map (Token.relocate φ), (readKeyword? word c).2.relocate φ)
  := by
  obtain ⟨_ | ⟨_ | _, rest⟩, stop⟩ := c
  · rfl
  · simp only [readKeyword?, Cursor.trees_relocate, relocateAll_cons, relocate_token,
      lexeme_relocate]
    split <;> simp_all
  · simp [readKeyword?]

@[simp]
theorem readAbiName_relocate (c : Cursor) :
  readAbiName (c.relocate φ) =
    ((readAbiName c).1.map (Token.relocate φ), (readAbiName c).2.relocate φ)
  := by
  obtain ⟨_ | ⟨t | _, rest⟩, stop⟩ := c
  · rfl
  · have hname : TypeGrammar.atAbiName (relocateAll φ (.token t :: rest)) =
        TypeGrammar.atAbiName (.token t :: rest) := TypeGrammar.atAbiName_relocateAll _
    rw [relocateAll_cons, relocate_token] at hname
    simp only [readAbiName, Cursor.trees_relocate, relocateAll_cons, relocate_token, hname]
    split <;> simp_all
  · simp [readAbiName]

@[simp]
theorem readQualifiers_relocate (c : Cursor) :
  readQualifiers (c.relocate φ) =
    ((readQualifiers c).1.relocate φ, (readQualifiers c).2.relocate φ)
  := by
  simp only [readQualifiers, readKeyword?_relocate]
  generalize readKeyword? "extern" _ = abi
  obtain ⟨_ | _, _⟩ := abi <;> simp [Qualifiers.relocate, Abi.relocate]

@[simp]
theorem readEnding_relocate (c : Cursor) :
  (readEnding (c.relocate φ)).toOption =
    (readEnding c).toOption.map fun r => (r.1.relocate φ, r.2.1.relocate φ, r.2.2.relocate φ)
  := by
  obtain ⟨_ | ⟨_ | ⟨_ | _ | _, _, _, _⟩, rest⟩, stop⟩ := c <;>
    simp [readEnding, Ending.relocate, Group.relocate, Token.relocate, map_ite]

theorem toOption_during {α : Type} (stage : Stage) (x : Outcome α) :
  (x.during stage).toOption = x.toOption
  := by
  cases x <;> rfl

/-- An item is read from relocated trees as it is from the trees themselves. -/
theorem read_relocate (c : Cursor) :
  (read (c.relocate φ)).toOption =
    (read c).toOption.map fun r => (r.1.relocate φ, r.2.relocate φ)
  := by
  simp [read, toOption_during, relocate, Generics.relocate, Option.map_bind, Option.bind_map,
    Function.comp_def]

end FunctionItem

end ReturnCaptures
