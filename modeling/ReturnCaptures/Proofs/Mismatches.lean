import ReturnCaptures.Grammar.FunctionItem
import ReturnCaptures.Proofs.Crossing

/-!
# Productions that fail with mismatches

The productions of the grammar share most of their steps, and a step fails where the grammar does
not admit what comes next. Only what is read of a capture as a capture fails otherwise: a capture
that is neither bound nor a type, one with a pattern that captures may not have, and a name bound
twice. So everything outside of capture lists fails with mismatches, no matter which production
refers to it.
-/

namespace ReturnCaptures

open TokenTree

/-- Whether a problem is one of captures. -/
def Problem.isOfCapture : Problem → Bool
  | malformedCapture .. => true
  | unsupportedPattern => true
  | boundTwice _ => true
  | _ => false

/-- Whether a problem is that the grammar does not admit what comes next, and none of captures. -/
def Problem.isMismatch (problem : Problem) : Bool := !problem.isOfCapture

/-- An outcome that fails, if it does, with a problem of one sort. -/
def Outcome.FailsWith (sort : Problem → Bool) {α : Type} (x : Outcome α) : Prop :=
  ∀ failure, x = .error failure → sort failure.problem

/-- An outcome that fails, if it does, with a mismatch. -/
abbrev Outcome.FailsByMismatch {α : Type} (x : Outcome α) : Prop :=
  x.FailsWith Problem.isMismatch

namespace Outcome

variable {α β : Type} {sort : Problem → Bool}

@[simp]
theorem failsWith_ok (a : α) :
  FailsWith sort (.ok a)
  := by rintro _ ⟨⟩

@[simp]
theorem failsWith_pure (a : α) :
  FailsWith sort (pure a)
  := failsWith_ok a

@[simp]
theorem failsWith_error {failure : Failure} :
  FailsWith sort (.error failure : Outcome α) ↔ sort failure.problem
  := by simp [FailsWith]

/-- A chain of two steps fails with problems of a sort if the first step does, and the second one
after everything that the first one reads. -/
@[simp]
theorem failsWith_bind {x : Outcome α} {f : α → Outcome β} (hx : FailsWith sort x) :
  FailsWith sort (x >>= f) ↔ ∀ a, x = .ok a → FailsWith sort (f a)
  := by
  cases x with
  | ok a => exact ⟨by rintro h _ ⟨⟩; exact h, fun h => h a rfl⟩
  | error failure =>
      constructor
      · rintro _ a ⟨⟩
      · rintro _ _ ⟨⟩
        exact hx failure rfl

@[simp]
theorem failsWith_map {x : Outcome α} {f : α → β} :
  FailsWith sort (Except.map f x) ↔ FailsWith sort x
  := by cases x <;> simp [Except.map]

@[simp]
theorem failsWith_functor_map {x : Outcome α} {f : α → β} :
  FailsWith sort (f <$> x) ↔ FailsWith sort x
  := failsWith_map

@[simp]
theorem failsWith_ite {p : Prop} [Decidable p] {x y : Outcome α} :
  FailsWith sort (if p then x else y) ↔ (p → FailsWith sort x) ∧ (¬ p → FailsWith sort y)
  := by by_cases hp : p <;> simp [hp]

/-- A step that depends on a condition, followed by another. -/
theorem failsWith_ite_bind {p : Prop} [Decidable p] {x y : Outcome α} {f : α → Outcome β}
    (hx : FailsWith sort x) (hy : FailsWith sort y) (hf : ∀ a, FailsWith sort (f a)) :
  FailsWith sort (if p then x >>= f else y >>= f)
  := by simp [hx, hy, hf]

end Outcome

open Outcome

/-! ### Steps -/

namespace Cursor

variable {α : Type}

@[simp]
theorem failsWith_failWith {sort : Problem → Bool} {c : Cursor} {problem : Problem} :
  FailsWith sort (c.failWith problem : Outcome α) ↔ sort problem
  := failsWith_error

@[simp]
theorem failsByMismatch_fail (c : Cursor) (what : String) :
  FailsByMismatch (c.fail what : Outcome α)
  := failsWith_failWith.mpr rfl

@[simp]
theorem failsByMismatch_expectToken (c : Cursor) (what : String) (p : Lexeme → Bool) :
  FailsByMismatch (c.expectToken what p)
  := by
  rw [expectToken]
  split
  · simp
  · simp

@[simp]
theorem failsByMismatch_expectIdent (c : Cursor) (role : String) :
  FailsByMismatch (c.expectIdent role)
  := c.failsByMismatch_expectToken role _

@[simp]
theorem failsByMismatch_expectGroup (c : Cursor) (delimiter : Delimiter) :
  FailsByMismatch (c.expectGroup delimiter)
  := by
  rw [expectGroup]
  split
  · simp
  · simp

@[simp]
theorem failsByMismatch_expect (c : Cursor) (what : String) (seen : Bool) :
  FailsByMismatch (c.expect what seen)
  := by simp [expect]

@[simp]
theorem failsByMismatch_expectPunct (c : Cursor) (symbol : Char) :
  FailsByMismatch (c.expectPunct symbol)
  := c.failsByMismatch_expect _ _

@[simp]
theorem failsByMismatch_expectColon (c : Cursor) :
  FailsByMismatch c.expectColon
  := c.failsByMismatch_expect _ _

@[simp]
theorem failsByMismatch_expectKeyword (c : Cursor) (word : String) :
  FailsByMismatch (c.expectKeyword word)
  := c.failsByMismatch_expect _ _

@[simp]
theorem failsByMismatch_expectLifetime (c : Cursor) :
  FailsByMismatch c.expectLifetime
  := c.failsByMismatch_expect _ _

/-- Items separated by commas fail with mismatches if each of them does. -/
theorem failsByMismatch_commaSeparated {item : List α → Cursor → Outcome (α × Cursor)}
    (hitem : ∀ done c, FailsByMismatch (item done c)) (c : Cursor) :
  FailsByMismatch (c.commaSeparated item)
  := by
  rw [commaSeparated]
  generalize c.trees.length + 1 = bound, ([] : List α) = done
  induction bound generalizing c done with
  | zero => simp [commaSeparatedAfter, Problem.isMismatch, Problem.isOfCapture]
  | succ bound ih => simp [commaSeparatedAfter, hitem, ih]

end Cursor

/-! ### Types -/

@[simp]
theorem failsByMismatch_forBinder (c : Cursor) :
  FailsByMismatch (forBinder c)
  := by simp [forBinder]

@[simp]
theorem failsByMismatch_constArgument (c : Cursor) :
  FailsByMismatch (constArgument c)
  := by simp [constArgument]

namespace TypeGrammar

/-- A grammar whose productions fail with mismatches. -/
structure FailsByMismatch (G : TypeGrammar) : Prop where
  type : ∀ allowPlus c, Outcome.FailsByMismatch (G.type allowPlus c)
  segments : ∀ c, Outcome.FailsByMismatch (G.segments c)
  arguments : ∀ c, Outcome.FailsByMismatch (G.arguments c)
  bound : ∀ c, Outcome.FailsByMismatch (G.bound c)
  bounds : ∀ c, Outcome.FailsByMismatch (G.bounds c)

variable {G : TypeGrammar}

namespace FailsByMismatch

variable (hG : G.FailsByMismatch) (c : Cursor)
include hG

theorem argument :
  Outcome.FailsByMismatch (G.argument c)
  := by simp [TypeGrammar.argument, hG.type, hG.bounds]

theorem readArguments :
  Outcome.FailsByMismatch (G.readArguments c)
  := by simp [TypeGrammar.readArguments, hG.argument, hG.arguments]

theorem angleArguments :
  Outcome.FailsByMismatch (G.angleArguments c)
  := by simp [TypeGrammar.angleArguments, hG.arguments]

theorem parenthesized :
  Outcome.FailsByMismatch (G.parenthesized c)
  := by
  have hrest (d : Cursor) : Outcome.FailsByMismatch (d.commaSeparated fun _ => G.type true) :=
    Cursor.failsByMismatch_commaSeparated (fun _ => hG.type true) d
  simp [TypeGrammar.parenthesized, hG.type, hrest]

theorem resultType :
  Outcome.FailsByMismatch (G.resultType c)
  := by simp [TypeGrammar.resultType, hG.type]

theorem segmentArguments :
  Outcome.FailsByMismatch (G.segmentArguments c)
  := by
  rw [TypeGrammar.segmentArguments]
  split_ifs
  · exact hG.angleArguments _
  · exact hG.angleArguments c
  · split
    · simp [hG.parenthesized, hG.resultType]
    · simp

theorem path :
  Outcome.FailsByMismatch (G.path c)
  := hG.segments _

theorem readSegments :
  Outcome.FailsByMismatch (G.readSegments c)
  := by simp [TypeGrammar.readSegments, hG.segmentArguments, hG.segments]

theorem readBounds :
  Outcome.FailsByMismatch (G.readBounds c)
  := by simp [TypeGrammar.readBounds, hG.bound, hG.bounds]

omit hG in
theorem boundMarks :
  Outcome.FailsByMismatch (boundMarks c)
  := by simp [TypeGrammar.boundMarks]

theorem readBound :
  Outcome.FailsByMismatch (G.readBound c)
  := by
  rw [TypeGrammar.readBound]
  split
  · simp
  · split
    · simp [hG.bound]
    · simp [hG.angleArguments, hG.path, boundMarks]

theorem qualifiedPath :
  Outcome.FailsByMismatch (G.qualifiedPath c)
  := by simp [TypeGrammar.qualifiedPath, hG.type, hG.path]

theorem bareFn :
  Outcome.FailsByMismatch (G.bareFn c)
  := by simp [TypeGrammar.bareFn, hG.resultType]

theorem addedBounds (allowPlus : Bool) (kind : TypeKind) :
  Outcome.FailsByMismatch (G.addedBounds allowPlus kind c)
  := by simp [TypeGrammar.addedBounds, hG.bounds]

theorem bracketed :
  Outcome.FailsByMismatch (G.bracketed c)
  := by simp [TypeGrammar.bracketed, hG.type, Problem.isMismatch, Problem.isOfCapture]

theorem readPlainType (allowPlus : Bool) :
  Outcome.FailsByMismatch (G.readPlainType allowPlus c)
  := by
  simp [TypeGrammar.readPlainType, hG.type, hG.bounds, hG.bareFn, hG.qualifiedPath, hG.path,
    hG.addedBounds]

theorem readType (allowPlus : Bool) :
  Outcome.FailsByMismatch (G.readType allowPlus c)
  := by
  rw [TypeGrammar.readType]
  split
  · simp [hG.parenthesized, hG.addedBounds]
  · simp [hG.bracketed]
  · exact hG.readPlainType c allowPlus

end FailsByMismatch

theorem failsByMismatch_level (n : Nat) :
  (level n).FailsByMismatch
  := by
  -- By induction on the level, since the productions at one level refer to those at the one below.
  induction n with
  | zero => constructor <;> simp [level, Problem.isMismatch, Problem.isOfCapture]
  | succ n ih =>
      constructor
      · exact fun allowPlus c => ih.readType c allowPlus
      · exact ih.readSegments
      · exact ih.readArguments
      · exact ih.readBound
      · exact ih.readBounds

end TypeGrammar

@[simp]
theorem TypeExpr.failsByMismatch_read (allowPlus : Bool) (c : Cursor) :
  FailsByMismatch (TypeExpr.read allowPlus c)
  := by simp [TypeExpr.read, TypeGrammar.upTo, (TypeGrammar.failsByMismatch_level _).type]

/-! ### Patterns -/

namespace PatternGrammar

/-- A grammar whose productions fail with mismatches. -/
structure FailsByMismatch (G : PatternGrammar) : Prop where
  pattern : ∀ c, Outcome.FailsByMismatch (G.pattern c)
  segments : ∀ c, Outcome.FailsByMismatch (G.segments c)

variable {G : PatternGrammar}

namespace FailsByMismatch

variable (hG : G.FailsByMismatch) (c : Cursor)

theorem segmentArguments :
  Outcome.FailsByMismatch (segmentArguments c)
  := by
  simp [PatternGrammar.segmentArguments, TypeGrammar.upTo,
    (TypeGrammar.failsByMismatch_level _).angleArguments]

include hG

theorem readSegments :
  Outcome.FailsByMismatch (G.readSegments c)
  := by simp [PatternGrammar.readSegments, segmentArguments, hG.segments]

theorem elements :
  Outcome.FailsByMismatch (G.elements c)
  := Cursor.failsByMismatch_commaSeparated (fun _ => hG.pattern) c

theorem readBinding :
  Outcome.FailsByMismatch (G.readBinding c)
  := by simp [PatternGrammar.readBinding, hG.pattern]

theorem readPath :
  Outcome.FailsByMismatch (G.readPath c)
  := by
  have hqualified : Outcome.FailsByMismatch ((TypeGrammar.upTo c).qualifiedPath c) :=
    (TypeGrammar.failsByMismatch_level _).qualifiedPath c
  rw [PatternGrammar.readPath]
  apply failsWith_ite_bind hqualified (hG.segments _)
  intro d
  dsimp only
  split
  · simp [hG.elements]
  · simp
  · simp

theorem readPlain :
  Outcome.FailsByMismatch (G.readPlain c)
  := by simp [PatternGrammar.readPlain, hG.pattern, hG.readBinding, hG.readPath]

theorem readPattern :
  Outcome.FailsByMismatch (G.readPattern c)
  := by
  have hshape : Outcome.FailsByMismatch (G.readShape c) := by
    rw [readShape]
    split
    · simp [hG.elements]
    · simp [hG.elements]
    · exact hG.readPlain c
  simp [PatternGrammar.readPattern, hshape]

end FailsByMismatch

theorem failsByMismatch_level (n : Nat) :
  (level n).FailsByMismatch
  := by
  induction n with
  | zero => constructor <;> simp [level, Problem.isMismatch, Problem.isOfCapture]
  | succ n ih => exact ⟨ih.readPattern, ih.readSegments⟩

end PatternGrammar

@[simp]
theorem Pattern.failsByMismatch_read (c : Cursor) :
  FailsByMismatch (Pattern.read c)
  := (PatternGrammar.failsByMismatch_level _).pattern c

/-! ### Parts of an item -/

theorem failsByMismatch_optionalBounds (c : Cursor) :
  FailsByMismatch (optionalBounds c)
  := by simp [optionalBounds, TypeGrammar.upTo, (TypeGrammar.failsByMismatch_level _).bounds]

theorem GenericParam.failsByMismatch_read (c : Cursor) :
  FailsByMismatch (GenericParam.read c)
  := by
  have hplain (d : Cursor) : FailsByMismatch (readPlain d) := by
    rw [readPlain]
    split
    · simp
    · simp [readConst]
    · simp [readType, failsByMismatch_optionalBounds]
    · simp
  simp [GenericParam.read, hplain]

theorem Generics.failsByMismatch_read (c : Cursor) :
  FailsByMismatch (Generics.read c)
  := by
  have hparams (bound : Nat) (d : Cursor) : FailsByMismatch (readParams bound d) := by
    induction bound generalizing d with
    | zero => simp [readParams, Problem.isMismatch, Problem.isOfCapture]
    | succ bound ih => simp [readParams, GenericParam.failsByMismatch_read, ih]
  simp [Generics.read, hparams]

theorem WhereClause.failsByMismatch_read (c : Cursor) :
  FailsByMismatch (WhereClause.read c)
  := by
  have hpredicate (d : Cursor) : FailsByMismatch (predicate d) := by
    simp [predicate, failsByMismatch_optionalBounds]
  have hpredicates (bound : Nat) (d : Cursor) : FailsByMismatch (readPredicates bound d) := by
    induction bound generalizing d with
    | zero => simp [readPredicates, Problem.isMismatch, Problem.isOfCapture]
    | succ bound ih => simp [readPredicates, hpredicate, ih]
  simp [WhereClause.read, hpredicates]

theorem ParamList.failsByMismatch_read (c : Cursor) :
  FailsByMismatch (ParamList.read c)
  := by
  have hreceiver (d : Cursor) : FailsByMismatch (readReceiver d) := by
    simp [readReceiver]
  have hplain (start : Cursor) (attributes : List Run) (d : Cursor) :
      FailsByMismatch (readPlainEntry start attributes d) := by
    simp [readPlainEntry]
  have hentry (done : List Entry) (d : Cursor) : FailsByMismatch (readEntry done d) := by
    rw [readEntry.eq_def]
    split
    · rintro _ ⟨⟩
      rfl
    · rcases outerAttributes d with ⟨attributes, e⟩
      apply failsWith_ite_bind (hreceiver e) (failsWith_pure none)
      intro receiver
      dsimp only
      split
      · simp
      · exact hplain _ _ _
  simp [ParamList.read, Cursor.failsByMismatch_commaSeparated hentry]

theorem FunctionItem.failsByMismatch_readEnding (c : Cursor) :
  FailsByMismatch (readEnding c)
  := by
  rw [readEnding]
  split
  · simp
  · simp [Problem.isMismatch, Problem.isOfCapture]
  · simp [Problem.isMismatch, Problem.isOfCapture]

end ReturnCaptures
