import ReturnCaptures.Proofs.CheckedParts

/-!
# Items are read without a slip

Function items with every step checked, and the block of an item with the documentation comments
that it starts with. Both come to the same outcome as without the checks if the documentation
comments among the trees tell on which side they document.
-/

namespace ReturnCaptures

open TokenTree Cursor Checked

variable {c d : Cursor}

namespace FunctionItem

/-! ### Visibility, qualifiers and ending -/

/-- Reads the visibility, if there is one. -/
def checkedVisibility (c : Cursor) : Checked Failure (Option Run × Cursor) :=
  match c.trees with
  | .token ⟨.keyword "pub", place⟩ :: rest => do
    let word := .token ⟨.keyword "pub", place⟩
    let d ← c.step
    match rest with
    | .group .paren inner opening closing :: _ =>
      if atVisibilityScope inner then
        return (some ⟨[word, .group .paren inner opening closing], place.through closing⟩, ← d.step)
      else return (some (.single word), d)
    | _ => return (some (.single word), d)
  | _ => return (none, c)

theorem checkedVisibility_eq (c : Cursor) :
  checkedVisibility c = .ok (readVisibility c)
  := by
  rw [readVisibility]
  split
  case h_1 place rest hc =>
    dsimp only
    split
    case h_1 inside opening closing r =>
      rw [checkedVisibility, hc]
      apply ok_bind_eq (step_eq_of_cons hc)
      dsimp only
      split
      case isTrue =>
        apply ok_bind_eq (step_eq_of_cons (trees_skip_one hc))
        rw [skip_skip]
        rfl
      case isFalse => rfl
    case h_2 hparen =>
      rw [checkedVisibility, hc]
      apply ok_bind_eq (step_eq_of_cons hc)
      split
      case h_1 => apply absurd rfl (hparen _ _ _ _)
      case h_2 => rfl
  case h_2 hpub =>
    rw [checkedVisibility]
    split
    case h_1 hc => apply absurd hc (hpub _ _)
    case h_2 => rfl

/-- Reads the keyword `word`, if it comes next. -/
def checkedKeyword? (word : String) (c : Cursor) : Checked Failure (Option Token × Cursor) :=
  match c.trees with
  | .token t :: _ =>
    if t.lexeme.isKeyword word then return (some t, ← c.step) else return (none, c)
  | _ => return (none, c)

theorem checkedKeyword?_eq (word : String) (c : Cursor) :
  checkedKeyword? word c = .ok (readKeyword? word c)
  := by
  rw [readKeyword?]
  split
  case h_1 t r hc =>
    rw [checkedKeyword?, hc]
    dsimp only
    split
    case isTrue => apply ok_bind_eq (step_eq_of_cons hc) rfl
    case isFalse => rfl
  case h_2 htoken =>
    rw [checkedKeyword?]
    split
    case h_1 hc => apply absurd hc (htoken _ _)
    case h_2 => rfl

/-- Reads the literal that names a calling convention, if it comes next. -/
def checkedAbiName (c : Cursor) : Checked Failure (Option Token × Cursor) :=
  match c.trees with
  | .token t :: _ =>
    if TypeGrammar.atAbiName c.trees then return (some t, ← c.step) else return (none, c)
  | _ => return (none, c)

theorem checkedAbiName_eq (c : Cursor) :
  checkedAbiName c = .ok (readAbiName c)
  := by
  rw [readAbiName]
  split
  case h_1 t r hc =>
    rw [checkedAbiName, hc]
    dsimp only
    split
    case isTrue => apply ok_bind_eq (step_eq_of_cons hc) rfl
    case isFalse => rfl
  case h_2 htoken =>
    rw [checkedAbiName]
    split
    case h_1 hc => apply absurd hc (htoken _ _)
    case h_2 => rfl

/-- Reads the qualifiers. -/
def checkedQualifiers (c : Cursor) : Checked Failure (Qualifiers × Cursor) := do
  let (constness, c) ← checkedKeyword? "const" c
  let (asyncness, c) ← checkedKeyword? "async" c
  let (unsafety, c) ← checkedKeyword? "unsafe" c
  match ← checkedKeyword? "extern" c with
  | (some keyword, c) =>
    let (name, c) ← checkedAbiName c
    return (⟨constness, asyncness, unsafety, some ⟨keyword, name⟩⟩, c)
  | (none, c) => return (⟨constness, asyncness, unsafety, none⟩, c)

theorem checkedQualifiers_eq (c : Cursor) :
  checkedQualifiers c = .ok (readQualifiers c)
  := by
  rcases h₁ : readKeyword? "const" c with ⟨constness, c₁⟩
  rcases h₂ : readKeyword? "async" c₁ with ⟨asyncness, c₂⟩
  rcases h₃ : readKeyword? "unsafe" c₂ with ⟨unsafety, c₃⟩
  rcases h₄ : readKeyword? "extern" c₃ with ⟨keyword, c₄⟩
  simp only [readQualifiers, h₁, h₂, h₃, h₄]
  apply ok_bind_eq ((checkedKeyword?_eq _ c).trans (congrArg _ h₁))
  apply ok_bind_eq ((checkedKeyword?_eq _ c₁).trans (congrArg _ h₂))
  apply ok_bind_eq ((checkedKeyword?_eq _ c₂).trans (congrArg _ h₃))
  apply ok_bind_eq ((checkedKeyword?_eq _ c₃).trans (congrArg _ h₄))
  cases keyword with
  | none => rfl
  | some keyword => apply ok_bind_eq (checkedAbiName_eq c₄) rfl

/-- Reads what a function item ends in. -/
def checkedEnding (c : Cursor) : Checked Failure (Ending × Span × Cursor) :=
  match c.trees with
  | .group .brace inner opening closing :: _ =>
    return (.body ⟨.brace, inner, opening, closing⟩, closing, ← c.step)
  | .token t :: _ =>
    if t.lexeme.isPunct ';' then return (.semicolon t, t.span, ← c.step)
    else of (c.failWith (.expectedBody c.peek))
  | _ => of (c.failWith (.expectedBody c.peek))

theorem checkedEnding_eq (c : Cursor) :
  checkedEnding c = of (readEnding c)
  := by
  rw [readEnding]
  split
  case h_1 inside opening closing r hc =>
    rw [checkedEnding, hc]
    apply ok_bind_eq (step_eq_of_cons hc) rfl
  case h_2 t r hc =>
    rw [checkedEnding, hc]
    apply ite_eq_of
    · intro _
      apply ok_bind_eq (step_eq_of_cons hc) rfl
    · intro _
      rfl
  case h_3 hgroup htoken =>
    rw [checkedEnding]
    split
    case h_1 hc => apply absurd hc (hgroup _ _ _ _)
    case h_2 hc => apply absurd hc (htoken _ _)
    case h_3 => rfl

/-! ### Items -/

/-- A checked outcome during a stage, with its failure as a diagnostic. -/
def checkedDuring {α : Type} (stage : Stage) (outcome : Checked Failure α) :
    Checked Diagnostic α :=
  outcome.mapFailure (Failure.diagnostic stage)

theorem checkedDuring_eq {α : Type} {x : Checked Failure α} {y : Outcome α} (stage : Stage)
    (hx : x = of y) :
  checkedDuring stage x = of (y.during stage)
  := mapFailure_eq _ hx

theorem checkedDuring_eq_ok {α : Type} {x : Checked Failure α} {a : α} (stage : Stage)
    (hx : x = .ok a) :
  checkedDuring stage x = .ok a
  := by
  subst hx
  rfl

/-- Reads a function item. -/
def checkedRead (c : Cursor) : Checked Diagnostic (FunctionItem × Cursor) := do
  let start := c.span
  let (attributes, c) ← checkedDuring .attributes (checkedAttributes c)
  let (visibility, c) ← checkedDuring .visibility (checkedVisibility c)
  let (qualifiers, c) ← checkedDuring .qualifiers (checkedQualifiers c)
  let (fnToken, c) ←
    checkedDuring .functionKeyword (c.checkedToken (ticked "fn") (·.isKeyword "fn"))
  let (nameToken, c) ← checkedDuring .functionName (c.checkedIdent "function name")
  let (generics, c) ← checkedDuring .generics (Generics.checkedRead c)
  let (params, c) ← checkedDuring .params (ParamList.checkedRead c)
  let (returns, c) ← checkedDuring .returnClause (ReturnClause.checkedRead c)
  let (whereClause, c) ← checkedDuring .whereClause (WhereClause.checkedRead c)
  let (ending, stop, c) ← checkedDuring .body (checkedEnding c)
  let generics := { generics with whereClause }
  let span := start.through stop
  return (⟨attributes, visibility, qualifiers, fnToken, nameToken, generics, params, returns,
    ending, span⟩, c)

theorem checkedRead_eq (h : AreTold c.trees) :
  checkedRead c = of (read c)
  := by
  rcases hattributes : outerAttributes c with ⟨attributes, c₁⟩
  rcases hvisibility : readVisibility c₁ with ⟨visibility, c₂⟩
  rcases hqualifiers : readQualifiers c₂ with ⟨qualifiers, c₃⟩
  have h₁ := h.of_isSuffix (reads_outerAttributes hattributes).isSuffix
  have h₂ := h₁.of_isSuffix (reads_visibility hvisibility).1.isSuffix
  have h₃ := h₂.of_isSuffix (reads_qualifiers hqualifiers).1.isSuffix
  unfold read
  simp only [hattributes, hvisibility, hqualifiers]
  apply ok_bind_eq (checkedDuring_eq_ok _ (checkedAttributes_eq h))
  rw [hattributes]
  apply ok_bind_eq (checkedDuring_eq_ok _ (checkedVisibility_eq c₁))
  rw [hvisibility]
  apply ok_bind_eq (checkedDuring_eq_ok _ (checkedQualifiers_eq c₂))
  rw [hqualifiers]
  apply bind_eq_of (checkedDuring_eq _ (checkedToken_eq c₃ _ _))
  rintro ⟨fnToken, c₄⟩ hfn
  obtain ⟨_, hfn, _⟩ := expectToken_eq_ok.mp (during_eq_ok.mp hfn)
  apply bind_eq_of (checkedDuring_eq _ (checkedIdent_eq c₄ _))
  rintro ⟨nameToken, c₅⟩ hname
  obtain ⟨_, hname, _⟩ := expectIdent_eq_ok.mp (during_eq_ok.mp hname)
  have h₅ : AreTold c₅.trees := by
    apply h₃.of_isSuffix
    rw [hfn, hname]
    apply (List.suffix_cons _ _).trans (List.suffix_cons _ _)
  apply bind_eq_of (checkedDuring_eq _ (Generics.checkedRead_eq h₅))
  rintro ⟨generics, c₆⟩ hgenerics
  have h₆ := h₅.of_isSuffix (Generics.reads_read (during_eq_ok.mp hgenerics)).1.isSuffix
  apply bind_eq_of (checkedDuring_eq _ (ParamList.checkedRead_eq h₆))
  rintro ⟨params, c₇⟩ _
  apply bind_eq_of (checkedDuring_eq _ (ReturnClause.checkedRead_eq c₇))
  rintro ⟨returns, c₈⟩ _
  apply bind_eq_of (checkedDuring_eq _ (WhereClause.checkedRead_eq c₈))
  rintro ⟨whereClause, c₉⟩ _
  apply bind_eq_of (checkedDuring_eq _ (checkedEnding_eq c₉))
  rintro ⟨ending, stop, c₁₀⟩ _
  rfl

/-- Reads the function item that starts at the tree with index `start` among the top-level trees of
a file; also gives the index of the tree after it. -/
def checkedAt (file : String) (trees : List TokenTree) (start : Nat) :
    Checked Rejection (FunctionItem × Nat) := do
  let (item, c) ← (checkedRead ((Cursor.ofTrees file trees).skip start)).mapFailure fun d => [d]
  return (item, trees.length - c.trees.length)

theorem checkedAt_eq {trees : List TokenTree} (h : AreTold trees) (file : String) (start : Nat) :
  checkedAt file trees start = of (readAt file trees start)
  := by
  rw [checkedAt, readAt, checkedRead_eq (h.of_isSuffix (List.drop_suffix _ _))]
  cases read ((Cursor.ofTrees file trees).skip start) <;> rfl

/-- The function item that trees form. -/
def checkedOf (file : String) (trees : List TokenTree) : Checked Rejection FunctionItem := do
  let (item, c) ← (checkedRead (.ofTrees file trees)).mapFailure fun d => [d]
  if c.atEnd then return item
  else of (.error [Failure.diagnostic .body ⟨.afterItem c.peek, c.span⟩])

theorem checkedOf_eq {trees : List TokenTree} (h : AreTold trees) (file : String) :
  checkedOf file trees = of (ofTrees file trees)
  := by
  rw [checkedOf, ofTrees, checkedRead_eq h]
  cases read (.ofTrees file trees) with
  | error d => rfl
  | ok found =>
      apply ite_eq_of
      · intro _
        rfl
      · intro _
        rfl

end FunctionItem

/-! ### Blocks -/

variable {ε : Type}

/-- Splits the trees of a block into the inner attributes and inner documentation comments it starts
with, and the rest. -/
def checkedSplit : List TokenTree → Checked ε (List TokenTree × List TokenTree)
  | .token ⟨.doc inner text, place⟩ :: trees => do
    let third ← checkedThird text
    if third = '!' then
      let (first, statements) ← checkedSplit trees
      return (.token ⟨.doc inner text, place⟩ :: first, statements)
    else return ([], .token ⟨.doc inner text, place⟩ :: trees)
  | .token ⟨.punct '#' j, s⟩ :: .token ⟨.punct '!' k, t⟩ ::
      .group .bracket arguments opening closing :: trees => do
    let (first, statements) ← checkedSplit trees
    return (.token ⟨.punct '#' j, s⟩ :: .token ⟨.punct '!' k, t⟩ ::
      .group .bracket arguments opening closing :: first, statements)
  | trees => return ([], trees)

theorem checkedSplit_eq {trees : List TokenTree} (h : AreTold trees) :
  (checkedSplit trees : Checked ε _) = .ok (splitInnerAttributes trees)
  := by
  fun_induction splitInnerAttributes trees with
  | case1 text span trees inner statements hsplit ih =>
      obtain ⟨c, hc, _, hside⟩ := exists_checkedThird_eq ε h.of_cons.1
      apply ok_bind_eq hc
      rw [if_pos (hside.mpr rfl)]
      apply ok_bind_eq (ih h.of_cons.2)
      rw [hsplit]
      rfl
  | case2 j s k t arguments opening closing trees inner statements hsplit ih =>
      apply ok_bind_eq (ih (h.of_isSuffix _))
      · rw [hsplit]
        rfl
      · apply (List.suffix_cons _ _).trans ((List.suffix_cons _ _).trans (List.suffix_cons _ _))
  | case3 trees hdoc hattribute =>
      rw [checkedSplit.eq_def]
      split
      case h_1 inner text span r =>
        obtain ⟨c, hc, _, hside⟩ := exists_checkedThird_eq ε h.of_cons.1
        apply ok_bind_eq hc
        rw [if_neg]
        · rfl
        · intro hthird
          obtain rfl : inner = true := hside.mp hthird
          apply hdoc _ _ _ rfl
      case h_2 => apply absurd rfl (hattribute _ _ _ _ _ _ _ _)
      case h_3 => rfl

end ReturnCaptures
