import ReturnCaptures.Proofs.TypeLevels

/-!
# Checked steps

The productions of the grammar move over trees, record runs and repeat themselves without asking
each time whether they may, because an earlier question has told them so. A *checked* reading asks
each time. It *slips* where it would take a tree although none is left, look for the last tree of
an empty run, or go on beyond the bound of a repetition. A production never slips if its checked
form comes to the same outcome.
-/

namespace ReturnCaptures

open TokenTree Cursor

/-- What is asked of a text or of trees that do not have it. -/
inductive Slip where
  /-- A character behind the end of the text. -/
  | pastText
  /-- A piece of a text that takes none of its characters. -/
  | emptyPiece
  /-- A tree behind the last one. -/
  | pastTrees
  /-- The last tree of an empty run. -/
  | emptyRun
  /-- The third character of a documentation comment. -/
  | shortDoc
  /-- A comma behind a capture. -/
  | noComma
  /-- The indentation of lines that are all blank. -/
  | noIndentation
  /-- One repetition or one level more than the bound. -/
  | pastBound
deriving DecidableEq, Repr

/-- An outcome of a checked computation: a slip, or an outcome as without the checks. -/
abbrev Checked (ε α : Type) := Except (Slip ⊕ ε) α

namespace Checked

variable {δ ε α β : Type}

/-- A slip. -/
def slip (cause : Slip) : Checked ε α := .error (.inl cause)

/-- An outcome that came about without a slip. -/
def of (x : Except ε α) : Checked ε α := x.mapError .inr

/-- A chain of two steps does not slip if neither of them does. -/
theorem bind_eq_of {x : Checked ε α} {y : Except ε α} {f : α → Checked ε β} {g : α → Except ε β}
    (hx : x = of y) (hf : ∀ a, y = .ok a → f a = of (g a)) :
  x >>= f = of (y >>= g)
  := by
  subst hx
  cases y with
  | error e => rfl
  | ok a => apply hf a rfl

/-- A step that is sure to succeed, and the step after it. -/
theorem ok_bind_eq {x : Checked ε α} {a : α} {f : α → Checked ε β} {y : Checked ε β}
    (hx : x = .ok a) (hf : f a = y) :
  x >>= f = y
  := by
  subst hx
  apply hf

theorem map_eq_of {x : Checked ε α} {y : Except ε α} {f : α → β} (hx : x = of y) :
  x.map f = of (y.map f)
  := by
  subst hx
  cases y <;> rfl

theorem ite_eq_of {p : Prop} [Decidable p] {x x' : Checked ε α} {y y' : Except ε α}
    (ht : p → x = of y) (he : ¬ p → x' = of y') :
  (if p then x else x') = of (if p then y else y')
  := by
  by_cases hp : p
  · rw [if_pos hp, if_pos hp, ht hp]
  · rw [if_neg hp, if_neg hp, he hp]

/-- A step that depends on a condition, followed by another. -/
theorem ite_bind_eq_of {p : Prop} [Decidable p] {x : Checked ε α} {y y' : Except ε α}
    {f : α → Checked ε β} {g : α → Except ε β} (hx : x = of (if p then y else y'))
    (hf : ∀ a, (if p then y else y') = .ok a → f a = of (g a)) :
  x >>= f = of (if p then y >>= g else y' >>= g)
  := by
  rw [bind_eq_of hx hf]
  split <;> rfl

/-- Says a failure in other terms. -/
def mapFailure (f : ε → δ) (x : Checked ε α) : Checked δ α := x.mapError (Sum.map id f)

theorem mapFailure_eq {x : Checked ε α} {y : Except ε α} (f : ε → δ) (hx : x = of y) :
  x.mapFailure f = of (y.mapError f)
  := by
  subst hx
  cases y <;> rfl

/-- Tries a computation whose failure is no failure of the whole. -/
def attempt (x : Checked ε α) : Checked ε (Except ε α) :=
  match x with
  | .ok a => .ok (.ok a)
  | .error (.inl cause) => slip cause
  | .error (.inr e) => .ok (.error e)

theorem attempt_eq {x : Checked ε α} {y : Except ε α} (hx : x = of y) :
  attempt x = .ok y
  := by
  subst hx
  cases y <;> rfl

end Checked

namespace Cursor

variable {c d : Cursor} {α : Type}

/-! ### Moving over trees -/

/-- Moves over one tree. -/
def step (c : Cursor) : Checked Failure Cursor :=
  if c.atEnd then Checked.slip .pastTrees else .ok (c.skip 1)

theorem step_eq (h : c.trees ≠ []) :
  c.step = .ok (c.skip 1)
  := by
  have hend : ¬ c.atEnd := by
    rwa [atEnd, List.isEmpty_iff]
  rw [step, if_neg hend]

theorem step_eq_of_cons {tree : TokenTree} {r : List TokenTree} (h : c.trees = tree :: r) :
  c.step = .ok (c.skip 1)
  := by
  apply step_eq
  simp [h]

theorem step_eq_of_atLexeme {p : Lexeme → Bool} (h : atLexeme p c.trees) :
  c.step = .ok (c.skip 1)
  := step_eq (ne_nil_of_atLexeme h)

theorem step_eq_of_atSingle {symbol : Char} (h : atSingle symbol c.trees) :
  c.step = .ok (c.skip 1)
  := step_eq (ne_nil_of_atSingle h)

theorem ne_nil_of_or_atLexeme {p q : Lexeme → Bool} {trees : List TokenTree}
    (h : atLexeme p trees || atLexeme q trees) :
  trees ≠ []
  := by
  rcases Bool.or_eq_true_iff.mp h with h | h
  · apply ne_nil_of_atLexeme h
  · apply ne_nil_of_atLexeme h

/-- Moves over one tree if `seen` holds. -/
def stepIf (c : Cursor) (seen : Bool) : Checked Failure Cursor :=
  if seen then c.step else .ok c

theorem stepIf_eq {seen : Bool} (h : seen → c.trees ≠ []) :
  c.stepIf seen = .ok (if seen then c.skip 1 else c)
  := by
  rw [stepIf]
  split
  case isTrue hs => apply step_eq (h hs)
  case isFalse => rfl

theorem stepIf_atLexeme (p : Lexeme → Bool) :
  c.stepIf (atLexeme p c.trees) = .ok (if atLexeme p c.trees then c.skip 1 else c)
  := stepIf_eq ne_nil_of_atLexeme

theorem stepIf_keyword (c : Cursor) (word : String) :
  c.stepIf (atKeyword word c.trees) = .ok (c.skipKeyword word)
  := stepIf_atLexeme _

/-- Moves over one tree if `seen` holds, and fails otherwise. -/
def checkedExpect (c : Cursor) (what : String) (seen : Bool) : Checked Failure Cursor :=
  if seen then c.step else Checked.of (c.fail what)

theorem checkedExpect_eq {what : String} {seen : Bool} (h : seen → c.trees ≠ []) :
  c.checkedExpect what seen = Checked.of (c.expect what seen)
  := by
  apply Checked.ite_eq_of
  · intro hs
    apply step_eq (h hs)
  · intro _
    rfl

/-- Moves over the punctuation character `symbol`. -/
def checkedPunct (c : Cursor) (symbol : Char) : Checked Failure Cursor :=
  c.checkedExpect (ticked (String.singleton symbol)) (atPunct symbol c.trees)

theorem checkedPunct_eq (c : Cursor) (symbol : Char) :
  c.checkedPunct symbol = Checked.of (c.expectPunct symbol)
  := checkedExpect_eq ne_nil_of_atLexeme

theorem ne_nil_of_atColon {trees : List TokenTree} (h : atColon trees) :
  trees ≠ []
  := by
  rw [atColon, Bool.and_eq_true] at h
  apply ne_nil_of_atLexeme h.1

/-- Moves over a colon that is not the first half of a path separator. -/
def checkedColon (c : Cursor) : Checked Failure Cursor :=
  c.checkedExpect (ticked ":") (atColon c.trees)

theorem checkedColon_eq (c : Cursor) :
  c.checkedColon = Checked.of c.expectColon
  := checkedExpect_eq ne_nil_of_atColon

/-- Moves over the keyword `word`. -/
def checkedKeyword (c : Cursor) (word : String) : Checked Failure Cursor :=
  c.checkedExpect (ticked word) (atKeyword word c.trees)

theorem checkedKeyword_eq (c : Cursor) (word : String) :
  c.checkedKeyword word = Checked.of (c.expectKeyword word)
  := checkedExpect_eq ne_nil_of_atLexeme

/-- Reads a token whose lexeme satisfies `p`. -/
def checkedToken (c : Cursor) (what : String) (p : Lexeme → Bool) :
    Checked Failure (Token × Cursor) :=
  match c.trees with
  | .token t :: _ => if p t.lexeme then return (t, ← c.step) else Checked.of (c.fail what)
  | _ => Checked.of (c.fail what)

theorem checkedToken_eq (c : Cursor) (what : String) (p : Lexeme → Bool) :
  c.checkedToken what p = Checked.of (c.expectToken what p)
  := by
  rw [checkedToken, expectToken]
  rcases hc : c.trees with _ | ⟨t | _, r⟩
  · rfl
  · apply Checked.ite_eq_of
    · intro _
      apply Checked.ok_bind_eq (step_eq_of_cons hc) rfl
    · intro _
      rfl
  · rfl

/-- Reads an identifier that serves as `role`. -/
def checkedIdent (c : Cursor) (role : String) : Checked Failure (Token × Cursor) :=
  c.checkedToken role fun
    | .ident _ => true
    | _ => false

theorem checkedIdent_eq (c : Cursor) (role : String) :
  c.checkedIdent role = Checked.of (c.expectIdent role)
  := checkedToken_eq c role _

/-- Reads a group with the given delimiter. -/
def checkedGroup (c : Cursor) (delimiter : Delimiter) : Checked Failure (Group × Cursor) :=
  match c.trees with
  | .group d inner opening closing :: _ =>
    if d = delimiter then return (⟨d, inner, opening, closing⟩, ← c.step)
    else Checked.of (c.fail (ticked (String.singleton delimiter.opening)))
  | _ => Checked.of (c.fail (ticked (String.singleton delimiter.opening)))

theorem checkedGroup_eq (c : Cursor) (delimiter : Delimiter) :
  c.checkedGroup delimiter = Checked.of (c.expectGroup delimiter)
  := by
  rw [checkedGroup, expectGroup, peek]
  rcases hc : c.trees with _ | ⟨_ | ⟨d, inside, opening, closing⟩, r⟩
  · rfl
  · rfl
  · apply Checked.ite_eq_of
    · intro _
      apply Checked.ok_bind_eq (step_eq_of_cons hc) rfl
    · intro _
      rfl

/-! ### Recording runs -/

/-- The run of the trees read between `c` and the later cursor `d`. -/
def checkedRun (c d : Cursor) : Checked Failure Run :=
  match (c.readUpTo d).getLast? with
  | some last => .ok ⟨c.readUpTo d, c.span.through last.span⟩
  | none => Checked.slip .emptyRun

/-- There is a run between two cursors of which one stands behind the other. -/
theorem checkedRun_eq (hd : d.trees <:+ c.trees) (hlt : d.trees.length < c.trees.length) :
  c.checkedRun d = .ok (c.runUpTo d)
  := by
  obtain ⟨u, hu⟩ := hd
  have hne : u ≠ [] := by
    rintro rfl
    rw [← hu] at hlt
    apply Nat.lt_irrefl _ hlt
  rw [checkedRun, runUpTo, readUpTo_of_append hu.symm, List.getLast?_eq_some_getLast hne]
  rfl

theorem checkedRun_eq_of_passes {strict inner : Bool} (h : c.Passes strict inner d) :
  c.checkedRun d = .ok (c.runUpTo d)
  := checkedRun_eq h.crosses.isSuffix h.shorter

/-! ### Items separated by commas -/

/-- Reads items up to the end of the cursor, at most `bound` of them; `comma` moves over what
separates two of them. -/
def checkedSeparatedAfter (comma : Cursor → Checked Failure Cursor)
    (item : List α → Cursor → Checked Failure (α × Cursor)) :
    (bound : Nat) → (done : List α) → Cursor → Checked Failure (List α)
  | 0, _, _ => Checked.slip .pastBound
  | bound + 1, done, c => do
    if c.atEnd then return done.reverse
    let (a, c) ← item done c
    if c.atEnd then return (a :: done).reverse
    let c ← comma c
    checkedSeparatedAfter comma item bound (a :: done) c

/-- Reads all items, separated by commas, up to the end of the cursor. -/
def checkedSeparated (comma : Cursor → Checked Failure Cursor)
    (item : List α → Cursor → Checked Failure (α × Cursor)) (c : Cursor) :
    Checked Failure (List α) :=
  checkedSeparatedAfter comma item (c.trees.length + 1) [] c

section Separated

variable {comma : Cursor → Checked Failure Cursor}
  {checked : List α → Cursor → Checked Failure (α × Cursor)}
  {item : List α → Cursor → Outcome (α × Cursor)}

/-- No list of items slips if none of its items does, and if there is a comma behind every item
that is not the last, or its absence is a failure. -/
theorem checkedSeparatedAfter_eq {bound : Nat} {done : List α}
    (hitem : ∀ done d, d.trees <:+ c.trees → checked done d = Checked.of (item done d))
    (hsuffix : ∀ done d a e, item done d = .ok (a, e) → e.trees <:+ d.trees)
    (hcomma : ∀ done d a e, item done d = .ok (a, e) → e.atEnd = false →
      comma e = Checked.of (e.expectPunct ','))
    (hbound : c.trees.length < bound) :
  c.checkedSeparatedAfter comma checked bound done =
    Checked.of (c.commaSeparatedAfter item bound done)
  := by
  induction bound generalizing c done with
  | zero => cases hbound
  | succ bound ih =>
      apply Checked.ite_eq_of
      · intro _
        rfl
      intro _
      apply Checked.bind_eq_of (hitem done c (List.suffix_refl _))
      rintro ⟨a, d⟩ hd
      apply Checked.ite_eq_of
      · intro _
        rfl
      intro hend
      rw [Bool.not_eq_true] at hend
      apply Checked.bind_eq_of (hcomma _ _ _ _ hd hend)
      intro e he
      obtain ⟨hseen, rfl⟩ := expectPunct_eq_ok.mp he
      have hd' := hsuffix _ _ _ _ hd
      have hskip : (d.skip 1).trees <:+ d.trees := List.drop_suffix 1 d.trees
      apply ih
      · intro done f hf
        apply hitem
        apply hf.trans (hskip.trans hd')
      · have hpos := List.length_pos_iff.mpr (ne_nil_of_atLexeme hseen)
        have hle := hd'.length_le
        rw [trees_skip, List.length_drop]
        omega

theorem checkedSeparated_eq
    (hitem : ∀ done d, d.trees <:+ c.trees → checked done d = Checked.of (item done d))
    (hsuffix : ∀ done d a e, item done d = .ok (a, e) → e.trees <:+ d.trees)
    (hcomma : ∀ done d a e, item done d = .ok (a, e) → e.atEnd = false →
      comma e = Checked.of (e.expectPunct ',')) :
  c.checkedSeparated comma checked = Checked.of (c.commaSeparated item)
  := checkedSeparatedAfter_eq hitem hsuffix hcomma (Nat.lt_succ_self _)

end Separated

end Cursor

end ReturnCaptures
