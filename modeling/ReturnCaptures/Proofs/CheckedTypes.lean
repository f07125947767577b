import ReturnCaptures.Proofs.CheckedSteps

/-!
# Types are read without a slip

The productions for types with every step checked. They also check what is not kept of a type: that
the run of every type inside another one has a last tree. By induction on the level none of them
slips, as long as the trees are few enough for the level, and the level at which a type is read is
always high enough.
-/

namespace ReturnCaptures

open TokenTree Outcome Cursor Checked

/-- Moves over `for<'a, 'b>`. -/
def checkedForBinder (c : Cursor) : Checked Failure Cursor := do
  let c ← c.checkedKeyword "for"
  let c ← c.checkedPunct '<'
  let c := { c with trees := afterLifetimesWithComma c.trees }
  let c ← if atPunct '>' c.trees then pure c else c.checkedExpect "lifetime" (atLifetime c.trees)
  c.checkedPunct '>'

theorem checkedForBinder_eq (c : Cursor) :
  checkedForBinder c = of (forBinder c)
  := by
  apply bind_eq_of (checkedKeyword_eq c "for")
  intro d _
  apply bind_eq_of (checkedPunct_eq d '<')
  intro e _
  apply ite_eq_of
  · intro _
    apply checkedPunct_eq
  · intro _
    apply bind_eq_of (checkedExpect_eq ne_nil_of_atLexeme)
    intro f _
    apply checkedPunct_eq

/-- Moves over a constant generic argument. -/
def checkedConstArgument (c : Cursor) : Checked Failure Cursor := do
  let c ← c.stepIf (atPunct '-' c.trees)
  c.checkedExpect "a const argument"
    (atGroup .brace c.trees || atIdent c.trees || atLiteral c.trees)

theorem checkedConstArgument_eq (c : Cursor) :
  checkedConstArgument c = of (constArgument c)
  := by
  apply ok_bind_eq (stepIf_atLexeme _)
  apply checkedExpect_eq
  intro hseen
  obtain ⟨tree, r, hc, _⟩ := isPlain_of_constArgument false hseen
  simp [hc]

/-- The checked productions that other productions refer to. -/
structure CheckedTypes where
  type : (allowPlus : Bool) → Cursor → Checked Failure (TypeKind × Cursor)
  segments : Cursor → Checked Failure Cursor
  arguments : Cursor → Checked Failure Cursor
  bound : Cursor → Checked Failure Cursor
  bounds : Cursor → Checked Failure Cursor

namespace CheckedTypes

variable {w : Nat} {K : CheckedTypes} {G : TypeGrammar} {c d : Cursor}

/-- Checked productions that come to what a grammar comes to, up to a weight. -/
structure Refines (w : Nat) (K : CheckedTypes) (G : TypeGrammar) : Prop where
  type : ∀ allowPlus {c}, c.weight + 1 < w → K.type allowPlus c = of (G.type allowPlus c)
  segments : ∀ {c}, c.weight < w → K.segments c = of (G.segments c)
  arguments : ∀ {c}, c.weight + 2 < w → K.arguments c = of (G.arguments c)
  bound : ∀ {c}, c.weight + 1 < w → K.bound c = of (G.bound c)
  bounds : ∀ {c}, c.weight + 2 < w → K.bounds c = of (G.bounds c)

/-! ### Arguments -/

/-- One generic argument. -/
def argument (K : CheckedTypes) (c : Cursor) : Checked Failure Cursor :=
  if atLifetime c.trees then c.step
  else if atIdent c.trees && atSingle '=' (c.trees.drop 1) then
    (K.type true (c.skip 2)).map (·.2)
  else if atIdent c.trees && atColon (c.trees.drop 1) then K.bounds (c.skip 2)
  else if atConstArgument c.trees then checkedConstArgument c
  else (K.type true c).map (·.2)

theorem Refines.argument (h : Refines w K G) (hc : c.weight + 2 ≤ w) :
  K.argument c = of (G.argument c)
  := by
  have hle := weight_skip_le c 2
  apply ite_eq_of
  · intro hlife
    apply step_eq_of_atLexeme hlife
  intro _
  apply ite_eq_of
  · intro _
    apply map_eq_of (h.type true (by omega))
  intro _
  apply ite_eq_of
  · intro hcolon
    rw [Bool.and_eq_true] at hcolon
    apply h.bounds
    have hlt := weight_lt (skip_two_isSuffix c) (ne_nil_of_atLexeme hcolon.1)
    omega
  intro _
  apply ite_eq_of
  · intro _
    apply checkedConstArgument_eq
  intro _
  apply map_eq_of (h.type true (by omega))

/-- Generic arguments, from after `<` or a comma up to and with `>`. -/
def readArguments (K : CheckedTypes) (c : Cursor) : Checked Failure Cursor := do
  if atPunct '>' c.trees then return ← c.step
  let c ← K.argument c
  if atPunct ',' c.trees then K.arguments (← c.step)
  else c.checkedExpect "`,` or `>`" (atPunct '>' c.trees)

theorem Refines.readArguments (h : Refines w K G) (hG : G.Sound) (hc : c.weight + 2 ≤ w) :
  K.readArguments c = of (G.readArguments c)
  := by
  apply ite_eq_of
  · intro hclose
    apply step_eq_of_atLexeme hclose
  intro _
  apply bind_eq_of (h.argument hc)
  intro d hd
  apply ite_eq_of
  · intro hcomma
    apply ok_bind_eq (step_eq_of_atLexeme hcomma)
    apply h.arguments
    have hle := weight_le (hG.argument hd).isSuffix
    have hskip := weight_skip (ne_nil_of_atLexeme hcomma)
    omega
  · intro _
    apply checkedExpect_eq ne_nil_of_atLexeme

/-- Generic arguments between `<` and `>`. -/
def angleArguments (K : CheckedTypes) (c : Cursor) : Checked Failure Cursor := do
  K.arguments (← c.checkedPunct '<')

theorem Refines.angleArguments (h : Refines w K G) (hc : c.weight ≤ w) :
  K.angleArguments c = of (G.angleArguments c)
  := by
  apply bind_eq_of (checkedPunct_eq c '<')
  intro d hd
  obtain ⟨hlt, rfl⟩ := expectPunct_eq_ok.mp hd
  apply h.arguments
  have hskip := weight_skip (ne_nil_of_atLexeme hlt)
  omega

/-- The types between parentheses. -/
def parenthesized (K : CheckedTypes) (c : Cursor) : Checked Failure TypeKind := do
  if c.atEnd then return .tuple
  let (_, c) ← K.type true c
  if c.atEnd then return .paren
  let c ← c.checkedPunct ','
  let _ ← c.checkedSeparated (·.checkedPunct ',') fun _ => K.type true
  return .tuple

theorem Refines.parenthesized (h : Refines w K G) (hG : G.Sound) (hc : c.weight + 1 < w) :
  K.parenthesized c = of (G.parenthesized c)
  := by
  apply ite_eq_of
  · intro _
    rfl
  intro _
  apply bind_eq_of (h.type true hc)
  rintro ⟨kind, d⟩ hd
  apply ite_eq_of
  · intro _
    rfl
  intro _
  apply bind_eq_of (checkedPunct_eq d ',')
  intro e he
  obtain ⟨-, rfl⟩ := expectPunct_eq_ok.mp he
  have hsuffix := (hG.type hd).crosses.isSuffix
  apply bind_eq_of
  · apply checkedSeparated_eq
    · intro done f hf
      apply h.type
      have hle := weight_le (hf.trans ((List.drop_suffix 1 d.trees).trans hsuffix))
      omega
    · intro done f kind g hg
      apply (hG.type hg).crosses.isSuffix
    · intro _ _ _ g _ _
      apply checkedPunct_eq
  · intro _ _
    rfl

/-- The type that a function type or the parenthesised arguments of a path return, if it is
given. -/
def resultType (K : CheckedTypes) (c : Cursor) : Checked Failure Cursor :=
  if atOperator ['-', '>'] c.trees then (K.type false (c.skip 2)).map (·.2) else .ok c

theorem Refines.resultType (h : Refines w K G) (hc : c.weight + 1 < w) :
  K.resultType c = of (G.resultType c)
  := by
  have hle := weight_skip_le c 2
  apply ite_eq_of
  · intro _
    apply map_eq_of (h.type false (by omega))
  · intro _
    rfl

/-! ### Paths -/

/-- The arguments of a path segment in parentheses, with a result type, if there are any. -/
def signature (K : CheckedTypes) (c : Cursor) : Checked Failure Cursor :=
  match c.trees with
  | .group .paren inner _ closing :: _ => do
    let d ← c.step
    let _ ← K.parenthesized ⟨inner, closing⟩
    K.resultType d
  | _ => .ok c

/-- The arguments of a path segment, in angle brackets or parentheses, if there are any. -/
def segmentArguments (K : CheckedTypes) (c : Cursor) : Checked Failure Cursor :=
  if atOperator [':', ':'] c.trees && atPunct '<' (c.trees.drop 2) then
    K.angleArguments (c.skip 2)
  else if atPunct '<' c.trees && !atOperator ['<', '='] c.trees then K.angleArguments c
  else K.signature c

theorem Refines.segmentArguments (h : Refines w K G) (hG : G.Sound) (hc : c.weight ≤ w) :
  K.segmentArguments c = of (G.segmentArguments c)
  := by
  apply ite_eq_of
  · intro _
    apply h.angleArguments
    have hle := weight_skip_le c 2
    omega
  intro _
  apply ite_eq_of
  · intro _
    apply h.angleArguments hc
  intro _
  split
  case h_1 inside opening closing r hr =>
    rw [signature, hr]
    have hinside := weight_inside hr
    apply ok_bind_eq (step_eq_of_cons hr)
    apply bind_eq_of (h.parenthesized hG (by omega))
    intro _ _
    apply h.resultType
    have hskip := weight_skip (c := c) (by simp [hr])
    omega
  case h_2 hne =>
    rw [signature]
    split
    case h_1 hr => apply absurd hr (hne _ _ _ _)
    case h_2 => rfl

/-- The segments of a path. -/
def readSegments (K : CheckedTypes) (c : Cursor) : Checked Failure Cursor := do
  let c ← c.checkedExpect "a path segment" (atPathStart c.trees)
  let c ← K.segmentArguments c
  if TypeGrammar.moreSegments c.trees then K.segments (c.skip 2) else return c

theorem Refines.readSegments (h : Refines w K G) (hG : G.Sound) (hc : c.weight ≤ w) :
  K.readSegments c = of (G.readSegments c)
  := by
  apply bind_eq_of (checkedExpect_eq ne_nil_of_atLexeme)
  intro d hd
  obtain ⟨hstart, rfl⟩ := expect_eq_ok.mp hd
  have hskip := weight_skip (ne_nil_of_atLexeme hstart)
  apply bind_eq_of (h.segmentArguments hG (by omega))
  intro e he
  apply ite_eq_of
  · intro _
    apply h.segments
    have hle := weight_le (hG.segmentArguments he).isSuffix
    have htwo := weight_skip_le e 2
    omega
  · intro _
    rfl

/-- A path. -/
def path (K : CheckedTypes) (c : Cursor) : Checked Failure Cursor :=
  K.segments (TypeGrammar.skipSeparator c)

theorem Refines.path (h : Refines w K G) (hc : c.weight < w) :
  K.path c = of (G.path c)
  := by
  apply h.segments
  have hcross : c.Crosses true true (TypeGrammar.skipSeparator c) :=
    TypeGrammar.crosses_skipSeparator c
  have hle := weight_le hcross.isSuffix
  omega

/-! ### Bounds -/

/-- Bounds joined by plus signs. -/
def readBounds (K : CheckedTypes) (c : Cursor) : Checked Failure Cursor := do
  let c ← K.bound c
  if atSingle '+' c.trees then
    let c ← c.step
    if atBound c.trees then K.bounds c else return c
  else return c

theorem Refines.readBounds (h : Refines w K G) (hG : G.Sound) (hc : c.weight + 2 ≤ w) :
  K.readBounds c = of (G.readBounds c)
  := by
  apply bind_eq_of (h.bound (by omega))
  intro d hd
  apply ite_eq_of
  · intro hplus
    apply ok_bind_eq (step_eq_of_atSingle hplus)
    apply ite_eq_of
    · intro _
      apply h.bounds
      have hle := weight_le (hG.bound hd).isSuffix
      have hskip := weight_skip (ne_nil_of_atSingle hplus)
      omega
    · intro _
      rfl
  · intro _
    rfl

/-- The keyword in front of a trait bound, if there is one. -/
def boundWord (c : Cursor) : Checked Failure Cursor :=
  if atPunct '~' c.trees then do (← c.step).checkedKeyword "const"
  else c.stepIf (atKeyword "const" c.trees || atKeyword "async" c.trees)

theorem boundWord_eq (c : Cursor) :
  boundWord c = of (if atPunct '~' c.trees then (c.skip 1).expectKeyword "const"
    else pure (if atKeyword "const" c.trees || atKeyword "async" c.trees then c.skip 1 else c))
  := by
  apply ite_eq_of
  · intro htilde
    apply ok_bind_eq (step_eq_of_atLexeme htilde)
    apply checkedKeyword_eq
  · intro _
    apply stepIf_eq ne_nil_of_or_atLexeme

/-- The marks in front of a trait bound. -/
def boundMarks (c : Cursor) : Checked Failure Cursor := do
  let c ← boundWord c
  let c ← c.stepIf (atPunct '?' c.trees)
  if atKeyword "for" c.trees then checkedForBinder c else return c

theorem boundMarks_eq (c : Cursor) :
  boundMarks c = of (TypeGrammar.boundMarks c)
  := by
  apply ite_bind_eq_of (boundWord_eq c)
  intro d _
  apply ok_bind_eq (stepIf_atLexeme _)
  apply ite_eq_of
  · intro _
    apply checkedForBinder_eq
  · intro _
    rfl

/-- A bound that is no lifetime and does not stand in parentheses. -/
def plainBound (K : CheckedTypes) (c : Cursor) : Checked Failure Cursor := do
  if atKeyword "use" c.trees then K.angleArguments (← c.step)
  else K.path (← boundMarks c)

/-- A bound that is no lifetime. -/
def traitBound (K : CheckedTypes) (c : Cursor) : Checked Failure Cursor :=
  match c.trees with
  | .group .paren inner _ closing :: _ => do
    let c ← c.step
    let d ← K.bound ⟨inner, closing⟩
    if d.atEnd then return c else of (d.fail (ticked ")"))
  | _ => K.plainBound c

/-- One bound. -/
def readBound (K : CheckedTypes) (c : Cursor) : Checked Failure Cursor :=
  if atLifetime c.trees then c.step else K.traitBound c

theorem Refines.readBound (h : Refines w K G) (hc : c.weight + 1 ≤ w) :
  K.readBound c = of (G.readBound c)
  := by
  apply ite_eq_of
  · intro hlife
    apply step_eq_of_atLexeme hlife
  intro _
  split
  case h_1 inside opening closing r hr =>
    rw [traitBound, hr]
    have hinside := weight_inside hr
    apply ok_bind_eq (step_eq_of_cons hr)
    apply bind_eq_of (h.bound (by omega))
    intro d _
    apply ite_eq_of
    · intro _
      rfl
    · intro _
      rfl
  case h_2 hne =>
    rw [traitBound]
    split
    case h_1 hr => apply absurd hr (hne _ _ _ _)
    case h_2 =>
      apply ite_eq_of
      · intro huse
        apply ok_bind_eq (step_eq_of_atLexeme huse)
        apply h.angleArguments
        have hle := weight_skip_le c 1
        omega
      · intro _
        apply bind_eq_of (boundMarks_eq c)
        intro d hd
        apply h.path
        have hle := weight_le (TypeGrammar.crosses_boundMarks hd).isSuffix
        omega

/-! ### Types -/

/-- The trait as which a type is seen, if one is given. -/
def traitPath (K : CheckedTypes) (c : Cursor) : Checked Failure Cursor :=
  if atKeyword "as" c.trees then do K.path (← c.step) else pure c

theorem Refines.traitPath (h : Refines w K G) (hc : c.weight < w) :
  K.traitPath c = of (if atKeyword "as" c.trees then G.path (c.skip 1) else pure c)
  := by
  apply ite_eq_of
  · intro has
    apply ok_bind_eq (step_eq_of_atLexeme has)
    apply h.path
    have hle := weight_skip_le c 1
    omega
  · intro _
    rfl

/-- A path that starts from a type in angle brackets, possibly seen as a trait. -/
def qualifiedPath (K : CheckedTypes) (c : Cursor) : Checked Failure Cursor := do
  let c ← c.checkedPunct '<'
  let (_, c) ← K.type true c
  let c ← K.traitPath c
  let c ← c.checkedPunct '>'
  if atOperator [':', ':'] c.trees then K.path (c.skip 2) else of (c.fail (ticked "::"))

theorem Refines.qualifiedPath (h : Refines w K G) (hG : G.Sound) (hc : c.weight + 1 ≤ w) :
  K.qualifiedPath c = of (G.qualifiedPath c)
  := by
  apply bind_eq_of (checkedPunct_eq c '<')
  intro d hd
  obtain ⟨hlt, rfl⟩ := expectPunct_eq_ok.mp hd
  have hskip := weight_skip (ne_nil_of_atLexeme hlt)
  apply bind_eq_of (h.type true (by omega))
  rintro ⟨kind, e⟩ he
  have hle := weight_le (hG.type he).crosses.isSuffix
  apply ite_bind_eq_of (h.traitPath (by omega))
  intro f hf
  have hf' : f.weight ≤ e.weight := by
    rcases ite_eq_iff.mp hf with ⟨_, hf⟩ | ⟨_, hf⟩
    · have hpath := weight_le (hG.path hf).crosses.isSuffix
      have hone := weight_skip_le e 1
      omega
    · cases hf
      apply Nat.le_refl
  apply bind_eq_of (checkedPunct_eq f '>')
  intro g hg
  obtain ⟨-, rfl⟩ := expectPunct_eq_ok.mp hg
  apply ite_eq_of
  · intro _
    apply h.path
    have hone := weight_skip_le f 1
    have htwo := weight_skip_le (f.skip 1) 2
    omega
  · intro _
    rfl

/-- Moves over the keyword for a calling convention and its name, if they come next. -/
def externWords (c : Cursor) : Checked Failure Cursor :=
  if atKeyword "extern" c.trees then do
    let c ← c.step
    c.stepIf (TypeGrammar.atAbiName c.trees)
  else .ok c

theorem externWords_eq (c : Cursor) :
  externWords c = .ok
    (if atKeyword "extern" c.trees then
      if TypeGrammar.atAbiName (c.skip 1).trees then (c.skip 1).skip 1 else c.skip 1
    else c)
  := by
  rw [externWords]
  split
  case isTrue hextern =>
    apply ok_bind_eq (step_eq_of_atLexeme hextern)
    apply stepIf_atLexeme
  case isFalse => rfl

/-- A function type. -/
def bareFn (K : CheckedTypes) (c : Cursor) : Checked Failure Cursor := do
  let c ← c.stepIf (atKeyword "unsafe" c.trees)
  let c ← externWords c
  let c ← c.checkedKeyword "fn"
  let (_, c) ← c.checkedGroup .paren
  K.resultType c

theorem Refines.bareFn (h : Refines w K G) (hc : c.weight + 1 ≤ w) :
  K.bareFn c = of (G.bareFn c)
  := by
  apply ok_bind_eq (stepIf_keyword c "unsafe")
  apply ok_bind_eq (externWords_eq _)
  apply bind_eq_of (checkedKeyword_eq _ _)
  intro d hd
  apply bind_eq_of (checkedGroup_eq d .paren)
  rintro ⟨g, e⟩ he
  apply h.resultType
  have hgroup : d.Passes true false e := Passes.expectGroup he
  have hlt := weight_lt_of_passes ((TypeGrammar.passes_fnWords hd).trans hgroup.crosses)
  omega

/-- Bounds that make a trait object of what stands before them, if a plus sign follows. -/
def addedBounds (K : CheckedTypes) (allowPlus : Bool) (kind : TypeKind) (c : Cursor) :
    Checked Failure (TypeKind × Cursor) := do
  if allowPlus && atSingle '+' c.trees then return (.traitObject, ← K.bounds (← c.step))
  else return (kind, c)

theorem Refines.addedBounds (h : Refines w K G) {allowPlus : Bool} {kind : TypeKind}
    (hc : c.weight ≤ w) :
  K.addedBounds allowPlus kind c = of (G.addedBounds allowPlus kind c)
  := by
  apply ite_eq_of
  · intro hplus
    rw [Bool.and_eq_true] at hplus
    have hskip := weight_skip (ne_nil_of_atSingle hplus.2)
    apply ok_bind_eq (step_eq_of_atSingle hplus.2)
    apply bind_eq_of (h.bounds (by omega))
    intro _ _
    rfl
  · intro _
    rfl

/-- The inside of brackets. -/
def bracketed (K : CheckedTypes) (c : Cursor) : Checked Failure TypeKind := do
  let (_, c) ← K.type true c
  if c.atEnd then return .slice
  let c ← c.checkedPunct ';'
  if c.atEnd then of (c.failWith .noArrayLength) else return .array

theorem Refines.bracketed (h : Refines w K G) (hc : c.weight + 1 < w) :
  K.bracketed c = of (G.bracketed c)
  := by
  apply bind_eq_of (h.type true hc)
  rintro ⟨kind, d⟩ _
  apply ite_eq_of
  · intro _
    rfl
  intro _
  apply bind_eq_of (checkedPunct_eq d ';')
  intro e _
  apply ite_eq_of
  · intro _
    rfl
  · intro _
    rfl

/-- A type that starts with a token. -/
def readPlainType (K : CheckedTypes) (allowPlus : Bool) (c : Cursor) :
    Checked Failure (TypeKind × Cursor) := do
  if atPunct '!' c.trees then return (.never, ← c.step)
  if atLexeme (· == .ident "_") c.trees then return (.inferred, ← c.step)
  if atPunct '&' c.trees then
    let c ← c.step
    let c ← c.stepIf (atLifetime c.trees)
    let c ← c.stepIf (atKeyword "mut" c.trees)
    let (_, c) ← K.type false c
    return (.reference, c)
  if atPunct '*' c.trees then
    let c ← c.step
    let c ← c.checkedExpect "`const` or `mut` after `*`"
      (atKeyword "const" c.trees || atKeyword "mut" c.trees)
    let (_, c) ← K.type false c
    return (.pointer, c)
  if atKeyword "impl" c.trees then return (.implTrait, ← K.bounds (← c.step))
  if atKeyword "dyn" c.trees then return (.traitObject, ← K.bounds (← c.step))
  if atKeyword "for" c.trees then
    let c ← checkedForBinder c
    if TypeGrammar.atBareFn c.trees then return (.bareFn, ← K.bareFn c)
    else return (.traitObject, ← K.bounds c)
  if TypeGrammar.atBareFn c.trees then return (.bareFn, ← K.bareFn c)
  if atPunct '<' c.trees then return (.qualifiedPath, ← K.qualifiedPath c)
  if atPathStart c.trees || atOperator [':', ':'] c.trees then
    let c ← K.path c
    if TypeGrammar.atMacroArguments c.trees then return (.macroCall, c.skip 2)
    else return ← K.addedBounds allowPlus .path c
  of (c.fail "a type")

theorem Refines.readPlainType (h : Refines w K G) (hG : G.Sound) {allowPlus : Bool}
    (hc : c.weight + 1 ≤ w) :
  K.readPlainType allowPlus c = of (G.readPlainType allowPlus c)
  := by
  apply ite_eq_of
  · intro hnever
    apply ok_bind_eq (step_eq_of_atLexeme hnever) rfl
  intro _
  apply ite_eq_of
  · intro hblank
    apply ok_bind_eq (step_eq_of_atLexeme hblank) rfl
  intro _
  apply ite_eq_of
  · intro href
    have hskip := weight_skip (ne_nil_of_atLexeme href)
    have hlife : (c.skip 1).Crosses true false
        (if atLifetime (c.skip 1).trees then (c.skip 1).skip 1 else c.skip 1) :=
      Crosses.ite Crosses.lifetime
    have hle := weight_le (hlife.trans (Crosses.skipKeyword _ "mut")).isSuffix
    apply ok_bind_eq (step_eq_of_atLexeme href)
    apply ok_bind_eq (stepIf_atLexeme _)
    apply ok_bind_eq (stepIf_keyword _ "mut")
    apply bind_eq_of (h.type false (Nat.lt_of_le_of_lt (Nat.succ_le_succ hle) (by omega)))
    intro _ _
    rfl
  intro _
  apply ite_eq_of
  · intro hpointer
    have hskip := weight_skip (ne_nil_of_atLexeme hpointer)
    apply ok_bind_eq (step_eq_of_atLexeme hpointer)
    apply bind_eq_of (checkedExpect_eq ne_nil_of_or_atLexeme)
    intro d hd
    obtain ⟨_, rfl⟩ := expect_eq_ok.mp hd
    have hle := weight_skip_le (c.skip 1) 1
    apply bind_eq_of (h.type false (by omega))
    intro _ _
    rfl
  intro _
  apply ite_eq_of
  · intro himpl
    have hskip := weight_skip (ne_nil_of_atLexeme himpl)
    apply ok_bind_eq (step_eq_of_atLexeme himpl)
    apply bind_eq_of (h.bounds (by omega))
    intro _ _
    rfl
  intro _
  apply ite_eq_of
  · intro hdyn
    have hskip := weight_skip (ne_nil_of_atLexeme hdyn)
    apply ok_bind_eq (step_eq_of_atLexeme hdyn)
    apply bind_eq_of (h.bounds (by omega))
    intro _ _
    rfl
  intro _
  apply ite_eq_of
  · intro hfor
    apply bind_eq_of (checkedForBinder_eq c)
    intro d hd
    have hbinder : c.Passes true false d := passes_forBinder hd
    have hlt := weight_lt_of_passes hbinder
    apply ite_eq_of
    · intro _
      apply bind_eq_of (h.bareFn (by omega))
      intro _ _
      rfl
    · intro _
      apply bind_eq_of (h.bounds (by omega))
      intro _ _
      rfl
  intro _
  apply ite_eq_of
  · intro _
    apply bind_eq_of (h.bareFn hc)
    intro _ _
    rfl
  intro _
  apply ite_eq_of
  · intro _
    apply bind_eq_of (h.qualifiedPath hG hc)
    intro _ _
    rfl
  intro _
  apply ite_eq_of
  · intro _
    apply bind_eq_of (h.path (by omega))
    intro d hd
    apply ite_eq_of
    · intro _
      rfl
    · intro _
      apply h.addedBounds
      have hle := weight_le (hG.path hd).crosses.isSuffix
      omega
  intro _
  rfl

/-- A type. -/
def readType (K : CheckedTypes) (allowPlus : Bool) (c : Cursor) :
    Checked Failure (TypeKind × Cursor) :=
  match c.trees with
  | .group .paren inner _ closing :: _ => do
    let d ← c.step
    let kind ← K.parenthesized ⟨inner, closing⟩
    K.addedBounds (allowPlus && kind == .paren) kind d
  | .group .bracket inner _ closing :: _ => do
    let d ← c.step
    return (← K.bracketed ⟨inner, closing⟩, d)
  | _ => K.readPlainType allowPlus c

theorem Refines.readType (h : Refines w K G) (hG : G.Sound) {allowPlus : Bool}
    (hc : c.weight + 1 ≤ w) :
  K.readType allowPlus c = of (G.readType allowPlus c)
  := by
  rw [TypeGrammar.readType]
  split
  case h_1 inside opening closing r hr =>
    rw [CheckedTypes.readType, hr]
    have hinside := weight_inside hr
    have hle := weight_skip_le c 1
    apply ok_bind_eq (step_eq_of_cons hr)
    apply bind_eq_of (h.parenthesized hG (by omega))
    intro kind _
    apply h.addedBounds (by omega)
  case h_2 inside opening closing r hr =>
    rw [CheckedTypes.readType, hr]
    have hinside := weight_inside hr
    apply ok_bind_eq (step_eq_of_cons hr)
    apply bind_eq_of (h.bracketed (by omega))
    intro _ _
    rfl
  case h_3 hparen hbracket =>
    rw [CheckedTypes.readType]
    split
    case h_1 hr => apply absurd hr (hparen _ _ _ _)
    case h_2 hr => apply absurd hr (hbracket _ _ _ _)
    case h_3 => apply h.readPlainType hG hc

/-- A type whose run has a last tree. -/
def readRun (K : CheckedTypes) (allowPlus : Bool) (c : Cursor) :
    Checked Failure (TypeKind × Cursor) := do
  let (kind, d) ← K.readType allowPlus c
  let _ ← c.checkedRun d
  return (kind, d)

/-- The checked productions of the grammar of a level. -/
def level : Nat → CheckedTypes
  | 0 =>
    { type := fun _ _ => slip .pastBound
      segments := fun _ => slip .pastBound
      arguments := fun _ => slip .pastBound
      bound := fun _ => slip .pastBound
      bounds := fun _ => slip .pastBound }
  | n + 1 =>
    { type := fun allowPlus c => (level n).readRun allowPlus c
      segments := fun c => (level n).readSegments c
      arguments := fun c => (level n).readArguments c
      bound := fun c => (level n).readBound c
      bounds := fun c => (level n).readBounds c }

theorem Refines.readRun (h : Refines w K G) (hG : G.Sound) {allowPlus : Bool}
    (hc : c.weight + 1 ≤ w) :
  K.readRun allowPlus c = of (G.readType allowPlus c)
  := by
  rw [← bind_pure (G.readType allowPlus c)]
  apply bind_eq_of (h.readType hG hc)
  rintro ⟨kind, d⟩ hd
  apply ok_bind_eq (checkedRun_eq_of_passes (hG.readType hd)) rfl

/-- No level slips on what it is high enough for. -/
theorem refines_level (n : Nat) :
  Refines n (level n) (TypeGrammar.level n)
  := by
  induction n with
  | zero => constructor <;> intros <;> omega
  | succ n ih =>
      have hG := TypeGrammar.sound_level n
      constructor
      · intro allowPlus c hc
        apply ih.readRun hG (by omega)
      · intro c hc
        apply ih.readSegments hG (by omega)
      · intro c hc
        apply ih.readArguments hG (by omega)
      · intro c hc
        apply ih.readBound (by omega)
      · intro c hc
        apply ih.readBounds hG (by omega)

/-- The checked productions for what can be read at a cursor. -/
def upTo (c : Cursor) : CheckedTypes := level (4 * (sizeAll c.trees + 1))

theorem refines_upTo (c : Cursor) :
  Refines (c.weight + 4) (upTo c) (TypeGrammar.upTo c)
  := by
  have h := refines_level (4 * (sizeAll c.trees + 1))
  have hw : c.weight + 4 ≤ 4 * (sizeAll c.trees + 1) := by
    rw [weight]
    omega
  constructor
  · intro allowPlus d hd
    apply h.type allowPlus (by omega)
  · intro d hd
    apply h.segments (by omega)
  · intro d hd
    apply h.arguments (by omega)
  · intro d hd
    apply h.bound (by omega)
  · intro d hd
    apply h.bounds (by omega)

end CheckedTypes

/-- Reads a type. -/
def TypeExpr.checkedRead (allowPlus : Bool) (c : Cursor) : Checked Failure (TypeExpr × Cursor) := do
  let (kind, d) ← (CheckedTypes.upTo c).type allowPlus c
  return (⟨kind, ← c.checkedRun d⟩, d)

theorem TypeExpr.checkedRead_eq (allowPlus : Bool) (c : Cursor) :
  TypeExpr.checkedRead allowPlus c = of (TypeExpr.read allowPlus c)
  := by
  apply bind_eq_of ((CheckedTypes.refines_upTo c).type allowPlus (by omega))
  rintro ⟨kind, d⟩ hd
  apply ok_bind_eq (checkedRun_eq_of_passes ((TypeGrammar.sound_upTo c).type hd)) rfl

end ReturnCaptures
