import Mathlib.Data.Option.Basic
import ReturnCaptures.Grammar.FunctionItem

/-!
# Relocated trees

Trees are relocated by moving the offsets of their spans and forgetting the file, lines and
columns. What the grammar asks of trees does not depend on where they stand, so that the same
productions succeed on relocated trees, and what they read is relocated with them. That is proved
here for the questions and the primitive steps of which productions are made.
-/

namespace ReturnCaptures

open TokenTree

/-! ### Relocating -/

section Relocate

variable (φ : Nat → Nat)

/-- A span of which only the offsets are kept, moved by `φ`. -/
def Span.relocate (s : Span) : Span := ⟨"", 0, 0, 0, 0, φ s.start, φ s.stop⟩

/-- A token that stands elsewhere. -/
def Token.relocate (t : Token) : Token := ⟨t.lexeme, t.span.relocate φ⟩

mutual

/-- A tree that stands elsewhere. -/
def TokenTree.relocate : TokenTree → TokenTree
  | .token t => .token (t.relocate φ)
  | .group d trees opening closing =>
    .group d (relocateAll trees) (opening.relocate φ) (closing.relocate φ)

/-- Trees that stand elsewhere. -/
def TokenTree.relocateAll : List TokenTree → List TokenTree
  | [] => []
  | tree :: trees => tree.relocate :: relocateAll trees

end

/-- A group that stands elsewhere. -/
def Group.relocate (g : Group) : Group :=
  ⟨g.delimiter, relocateAll φ g.trees, g.opening.relocate φ, g.closing.relocate φ⟩

/-- A run that stands elsewhere. -/
def Run.relocate (run : Run) : Run := ⟨relocateAll φ run.trees, run.span.relocate φ⟩

/-- A cursor in trees that stand elsewhere. -/
def Cursor.relocate (c : Cursor) : Cursor := ⟨relocateAll φ c.trees, c.stop.relocate φ⟩

end Relocate

/-! ### Looking at relocated trees -/

section Looks

variable {φ : Nat → Nat} (trees : List TokenTree)

@[simp]
theorem Span.relocate_through (a b : Span) :
  (a.through b).relocate φ = (a.relocate φ).through (b.relocate φ)
  := rfl

namespace TokenTree

theorem relocateAll_eq_map :
  relocateAll φ trees = trees.map (relocate φ)
  := by
  induction trees with
  | nil => rw [relocateAll, List.map_nil]
  | cons tree trees ih => rw [relocateAll, ih, List.map_cons]

@[simp]
theorem relocateAll_nil :
  relocateAll φ [] = []
  := by
  rw [relocateAll]

@[simp]
theorem relocateAll_cons (tree : TokenTree) :
  relocateAll φ (tree :: trees) = tree.relocate φ :: relocateAll φ trees
  := by
  rw [relocateAll]

@[simp]
theorem relocate_token (t : Token) :
  (token t).relocate φ = token (t.relocate φ)
  := by
  rw [relocate]

@[simp]
theorem relocate_group (d : Delimiter) (opening closing : Span) :
  (group d trees opening closing).relocate φ =
    group d (relocateAll φ trees) (opening.relocate φ) (closing.relocate φ)
  := by
  rw [relocate]

@[simp]
theorem lexeme_relocate (t : Token) :
  (t.relocate φ).lexeme = t.lexeme
  := rfl

@[simp]
theorem span_relocate (tree : TokenTree) :
  (tree.relocate φ).span = tree.span.relocate φ
  := by
  cases tree <;> simp [span, Token.relocate]

@[simp]
theorem relocateAll_append (u v : List TokenTree) :
  relocateAll φ (u ++ v) = relocateAll φ u ++ relocateAll φ v
  := by
  simp [relocateAll_eq_map]

@[simp]
theorem drop_relocateAll (n : Nat) :
  (relocateAll φ trees).drop n = relocateAll φ (trees.drop n)
  := by
  simp [relocateAll_eq_map]

@[simp]
theorem tail_relocateAll :
  (relocateAll φ trees).tail = relocateAll φ trees.tail
  := by
  simp [relocateAll_eq_map]

@[simp]
theorem take_relocateAll (n : Nat) :
  (relocateAll φ trees).take n = relocateAll φ (trees.take n)
  := by
  simp [relocateAll_eq_map]

@[simp]
theorem length_relocateAll :
  (relocateAll φ trees).length = trees.length
  := by
  simp [relocateAll_eq_map]

@[simp]
theorem isEmpty_relocateAll :
  (relocateAll φ trees).isEmpty = trees.isEmpty
  := by
  simp [relocateAll_eq_map]

@[simp]
theorem getLast?_relocateAll :
  (relocateAll φ trees).getLast? = trees.getLast?.map (relocate φ)
  := by
  simp [relocateAll_eq_map]

mutual

theorem size_relocate (tree : TokenTree) :
  (tree.relocate φ).size = tree.size
  := by
  cases tree with
  | token t => simp [size]
  | group d trees opening closing => rw [relocate_group, size, size, sizeAll_relocateAll]

@[simp]
theorem sizeAll_relocateAll (trees : List TokenTree) :
  sizeAll (relocateAll φ trees) = sizeAll trees
  := by
  cases trees with
  | nil => rw [relocateAll_nil]
  | cons tree trees => rw [relocateAll_cons, sizeAll, sizeAll, size_relocate, sizeAll_relocateAll]

end

@[simp]
theorem atLexeme_relocateAll (p : Lexeme → Bool) :
  atLexeme p (relocateAll φ trees) = atLexeme p trees
  := by
  obtain _ | ⟨_ | _, _⟩ := trees <;> simp [atLexeme]

@[simp]
theorem atPunct_relocateAll (c : Char) :
  atPunct c (relocateAll φ trees) = atPunct c trees
  := atLexeme_relocateAll ..

@[simp]
theorem atKeyword_relocateAll (word : String) :
  atKeyword word (relocateAll φ trees) = atKeyword word trees
  := atLexeme_relocateAll ..

@[simp]
theorem atIdent_relocateAll :
  atIdent (relocateAll φ trees) = atIdent trees
  := atLexeme_relocateAll ..

@[simp]
theorem atLifetime_relocateAll :
  atLifetime (relocateAll φ trees) = atLifetime trees
  := atLexeme_relocateAll ..

@[simp]
theorem atInteger_relocateAll :
  atInteger (relocateAll φ trees) = atInteger trees
  := atLexeme_relocateAll ..

@[simp]
theorem atPathStart_relocateAll :
  atPathStart (relocateAll φ trees) = atPathStart trees
  := atLexeme_relocateAll ..

@[simp]
theorem atLiteral_relocateAll :
  atLiteral (relocateAll φ trees) = atLiteral trees
  := atLexeme_relocateAll ..

@[simp]
theorem atOperator_relocateAll (op : List Char) :
  atOperator op (relocateAll φ trees) = atOperator op trees
  := by
  induction op generalizing trees with
  | nil => simp [atOperator]
  | cons c cs ih =>
      cases cs with
      | nil => simp [atOperator]
      | cons c' cs => obtain _ | ⟨_ | _, _⟩ := trees <;> simp [atOperator, ih]

@[simp]
theorem atSingle_relocateAll (c : Char) :
  atSingle c (relocateAll φ trees) = atSingle c trees
  := by
  simp [atSingle]

@[simp]
theorem atColon_relocateAll :
  atColon (relocateAll φ trees) = atColon trees
  := by
  simp [atColon]

@[simp]
theorem atGroup_relocateAll (d : Delimiter) :
  atGroup d (relocateAll φ trees) = atGroup d trees
  := by
  obtain _ | ⟨_ | _, _⟩ := trees <;> simp [atGroup]

@[simp]
theorem atAnyGroup_relocateAll :
  atAnyGroup (relocateAll φ trees) = atAnyGroup trees
  := by
  obtain _ | ⟨_ | _, _⟩ := trees <;> simp [atAnyGroup]

end TokenTree

end Looks

/-! ### Cursors -/

namespace Cursor

variable {φ : Nat → Nat} (c d : Cursor)

@[simp]
theorem trees_relocate :
  (c.relocate φ).trees = relocateAll φ c.trees
  := rfl

@[simp]
theorem mk_relocate (trees : List TokenTree) (stop : Span) :
  (⟨relocateAll φ trees, stop.relocate φ⟩ : Cursor) = relocate φ ⟨trees, stop⟩
  := rfl

@[simp]
theorem stop_relocate :
  (c.relocate φ).stop = c.stop.relocate φ
  := rfl

@[simp]
theorem skip_relocate (n : Nat) :
  (c.relocate φ).skip n = (c.skip n).relocate φ
  := by
  simp [skip]

@[simp]
theorem skipKeyword_relocate (word : String) :
  (c.relocate φ).skipKeyword word = (c.skipKeyword word).relocate φ
  := by
  simp only [skipKeyword, trees_relocate, atKeyword_relocateAll, skip_relocate]
  split <;> rfl

@[simp]
theorem atEnd_relocate :
  (c.relocate φ).atEnd = c.atEnd
  := by
  simp [atEnd]

@[simp]
theorem span_relocate :
  (c.relocate φ).span = c.span.relocate φ
  := by
  obtain ⟨_ | _, _⟩ := c <;> simp [span]

@[simp]
theorem readUpTo_relocate :
  (c.relocate φ).readUpTo (d.relocate φ) = relocateAll φ (c.readUpTo d)
  := by
  simp [readUpTo]

@[simp]
theorem runUpTo_relocate :
  (c.relocate φ).runUpTo (d.relocate φ) = (c.runUpTo d).relocate φ
  := by
  simp only [runUpTo, Run.relocate, readUpTo_relocate, getLast?_relocateAll, span_relocate,
    Option.map_map, Run.mk.injEq, true_and]
  cases (c.readUpTo d).getLast? <;> simp

end Cursor

/-! ### Outcomes -/

namespace Outcome

variable {ε α β γ δ : Type}

@[simp]
theorem toOption_ok (a : α) :
  (.ok a : Except ε α).toOption = some a
  := rfl

@[simp]
theorem toOption_error (e : ε) :
  (.error e : Except ε α).toOption = none
  := rfl

@[simp]
theorem toOption_pure (a : α) :
  (pure a : Except ε α).toOption = some a
  := rfl

@[simp]
theorem toOption_bind (x : Except ε α) (f : α → Except ε β) :
  (x >>= f).toOption = x.toOption.bind fun a => (f a).toOption
  := by
  cases x <;> rfl

@[simp]
theorem toOption_map (x : Except ε α) (f : α → β) :
  (x.map f).toOption = x.toOption.map f
  := by
  cases x <;> rfl

@[simp]
theorem toOption_functor_map (x : Except ε α) (f : α → β) :
  (f <$> x).toOption = x.toOption.map f
  := toOption_map x f

@[simp]
theorem toOption_ite (p : Prop) [Decidable p] (x y : Except ε α) :
  (if p then x else y).toOption = if p then x.toOption else y.toOption
  := apply_ite _ p x y

theorem map_ite (p : Prop) [Decidable p] (x y : Option α) (f : α → β) :
  (if p then x else y).map f = if p then x.map f else y.map f
  := apply_ite _ p x y

/-- Chains succeed alike if their first steps do, and their second steps on what these give. -/
theorem toOption_bind_of {x : Except ε α} {y : Except ε β} {s : α → β} {t : γ → δ}
    {f : α → Except ε γ} {g : β → Except ε δ} (h : y.toOption = x.toOption.map s)
    (hf : ∀ a, (g (s a)).toOption = (f a).toOption.map t) :
  (y >>= g).toOption = (x >>= f).toOption.map t
  := by
  simp [h, hf, Option.map_bind, Option.bind_map]

theorem toOption_eq_some {x : Except ε α} {a : α} :
  x.toOption = some a ↔ x = .ok a
  := by
  cases x <;> simp [Except.toOption]

theorem toOption_eq_none {x : Except ε α} :
  x.toOption = none ↔ ∃ e, x = .error e
  := by
  cases x <;> simp [Except.toOption]

end Outcome

/-! ### Primitive steps -/

namespace Cursor

variable {φ : Nat → Nat} {α β : Type} (c : Cursor)

@[simp]
theorem toOption_failWith (problem : Problem) :
  (c.failWith problem : Outcome α).toOption = none
  := rfl

@[simp]
theorem toOption_fail (what : String) :
  (c.fail what : Outcome α).toOption = none
  := rfl

@[simp]
theorem ite_relocate (p : Prop) [Decidable p] (c d : Cursor) :
  (if p then c.relocate φ else d.relocate φ) = (if p then c else d).relocate φ
  := (apply_ite _ p c d).symm

@[simp]
theorem expect_relocate (what : String) (seen : Bool) :
  ((c.relocate φ).expect what seen).toOption = (c.expect what seen).toOption.map (relocate φ)
  := by
  cases seen <;> simp [expect]

@[simp]
theorem expectPunct_relocate (symbol : Char) :
  ((c.relocate φ).expectPunct symbol).toOption = (c.expectPunct symbol).toOption.map (relocate φ)
  := by
  simp [expectPunct]

@[simp]
theorem expectColon_relocate :
  (c.relocate φ).expectColon.toOption = c.expectColon.toOption.map (relocate φ)
  := by
  simp [expectColon]

@[simp]
theorem expectKeyword_relocate (word : String) :
  ((c.relocate φ).expectKeyword word).toOption = (c.expectKeyword word).toOption.map (relocate φ)
  := by
  simp [expectKeyword]

@[simp]
theorem expectLifetime_relocate :
  (c.relocate φ).expectLifetime.toOption = c.expectLifetime.toOption.map (relocate φ)
  := by
  simp [expectLifetime]

@[simp]
theorem expectToken_relocate (what : String) (p : Lexeme → Bool) :
  ((c.relocate φ).expectToken what p).toOption =
    (c.expectToken what p).toOption.map fun r => (r.1.relocate φ, r.2.relocate φ)
  := by
  obtain ⟨_ | ⟨_ | _, rest⟩, stop⟩ := c <;> simp [expectToken, skip, Outcome.map_ite]

@[simp]
theorem expectIdent_relocate (role : String) :
  ((c.relocate φ).expectIdent role).toOption =
    (c.expectIdent role).toOption.map fun r => (r.1.relocate φ, r.2.relocate φ)
  := expectToken_relocate ..

@[simp]
theorem expectGroup_relocate (d : Delimiter) :
  ((c.relocate φ).expectGroup d).toOption =
    (c.expectGroup d).toOption.map fun r => (r.1.relocate φ, r.2.relocate φ)
  := by
  obtain ⟨_ | ⟨_ | _, rest⟩, stop⟩ := c <;>
    simp [expectGroup, peek, group?, Group.relocate, skip, Outcome.map_ite]

/-- Items separated by commas are relocated if every item is. -/
theorem commaSeparatedAfter_relocate {s : α → β} {item : List α → Cursor → Outcome (α × Cursor)}
    {item' : List β → Cursor → Outcome (β × Cursor)}
    (hitem : ∀ done c, (item' (done.map s) (c.relocate φ)).toOption =
      (item done c).toOption.map fun r => (s r.1, r.2.relocate φ)) (bound : Nat) (done : List α) :
  ((c.relocate φ).commaSeparatedAfter item' bound (done.map s)).toOption =
    (c.commaSeparatedAfter item bound done).toOption.map (List.map s)
  := by
  induction bound generalizing c done with
  | zero => rfl
  | succ bound ih =>
      have hrest (a : α) (d : Cursor) :
          ((d.relocate φ).commaSeparatedAfter item' bound (s a :: done.map s)).toOption =
            (d.commaSeparatedAfter item bound (a :: done)).toOption.map (List.map s) :=
        ih d (a :: done)
      simp [commaSeparatedAfter, hitem, hrest, Outcome.map_ite, Option.map_bind, Option.bind_map]

theorem commaSeparated_relocate {s : α → β} {item : List α → Cursor → Outcome (α × Cursor)}
    {item' : List β → Cursor → Outcome (β × Cursor)}
    (hitem : ∀ done c, (item' (done.map s) (c.relocate φ)).toOption =
      (item done c).toOption.map fun r => (s r.1, r.2.relocate φ)) :
  ((c.relocate φ).commaSeparated item').toOption = (c.commaSeparated item).toOption.map (List.map s)
  := by
  rw [commaSeparated, commaSeparated, trees_relocate, length_relocateAll]
  apply commaSeparatedAfter_relocate c hitem _ []

end Cursor

end ReturnCaptures
