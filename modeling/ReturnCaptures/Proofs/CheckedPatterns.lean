import ReturnCaptures.Proofs.CheckedTypes
import ReturnCaptures.Proofs.PatternRuns

/-!
# Patterns are read without a slip

The productions for patterns with every step checked. As for types, none of them slips as long as
the trees are few enough for the level.
-/

namespace ReturnCaptures

open TokenTree Outcome Cursor Checked

/-- The checked productions that other productions refer to. -/
structure CheckedPatterns where
  pattern : Cursor → Checked Failure (Pattern × Cursor)
  segments : Cursor → Checked Failure Cursor

namespace CheckedPatterns

variable {w : Nat} {K : CheckedPatterns} {G : PatternGrammar} {c d : Cursor}

/-- Checked productions that come to what a grammar comes to, up to a weight. -/
structure Refines (w : Nat) (K : CheckedPatterns) (G : PatternGrammar) : Prop where
  pattern : ∀ {c}, c.weight + 1 < w → K.pattern c = of (G.pattern c)
  segments : ∀ {c}, c.weight < w → K.segments c = of (G.segments c)

/-! ### Paths -/

/-- The generic arguments of a segment of a path in a pattern, if there are any. -/
def segmentArguments (c : Cursor) : Checked Failure Cursor :=
  if atOperator [':', ':'] c.trees && atPunct '<' (c.trees.drop 2) then
    (CheckedTypes.upTo c).angleArguments (c.skip 2)
  else .ok c

theorem segmentArguments_eq (c : Cursor) :
  segmentArguments c = of (PatternGrammar.segmentArguments c)
  := by
  apply ite_eq_of
  · intro _
    apply (CheckedTypes.refines_upTo c).angleArguments
    have hle := weight_skip_le c 2
    omega
  · intro _
    rfl

/-- The segments of a path. -/
def readSegments (K : CheckedPatterns) (c : Cursor) : Checked Failure Cursor := do
  let c ← c.checkedExpect "a path segment" (atPathStart c.trees)
  let c ← segmentArguments c
  if TypeGrammar.moreSegments c.trees then K.segments (c.skip 2) else return c

theorem Refines.readSegments (h : Refines w K G) (hc : c.weight ≤ w) :
  K.readSegments c = of (G.readSegments c)
  := by
  apply bind_eq_of (checkedExpect_eq ne_nil_of_atLexeme)
  intro d hd
  obtain ⟨hstart, rfl⟩ := expect_eq_ok.mp hd
  have hskip := weight_skip (ne_nil_of_atLexeme hstart)
  apply bind_eq_of (segmentArguments_eq _)
  intro e he
  apply ite_eq_of
  · intro _
    apply h.segments
    have hle := weight_le (PatternGrammar.crosses_segmentArguments he).isSuffix
    have htwo := weight_skip_le e 2
    omega
  · intro _
    rfl

/-- The path that a pattern starts with. -/
def readPathOnly (K : CheckedPatterns) (c : Cursor) : Checked Failure Cursor :=
  if atPunct '<' c.trees then (CheckedTypes.upTo c).qualifiedPath c
  else K.segments (TypeGrammar.skipSeparator c)

theorem Refines.readPathOnly (h : Refines w K G) (hc : c.weight < w) :
  K.readPathOnly c = of (if atPunct '<' c.trees then (TypeGrammar.upTo c).qualifiedPath c
    else G.segments (TypeGrammar.skipSeparator c))
  := by
  apply ite_eq_of
  · intro _
    apply (CheckedTypes.refines_upTo c).qualifiedPath (TypeGrammar.sound_upTo c)
    omega
  · intro _
    apply h.segments
    have hcross : c.Crosses true true (TypeGrammar.skipSeparator c) :=
      TypeGrammar.crosses_skipSeparator c
    have hle := weight_le hcross.isSuffix
    omega

/-! ### Patterns -/

/-- The patterns inside a group, separated by commas. -/
def elements (K : CheckedPatterns) (c : Cursor) : Checked Failure (List Pattern) :=
  c.checkedSeparated (·.checkedPunct ',') fun _ => K.pattern

theorem Refines.elements (h : Refines w K G) (hG : G.Sound) (hc : c.weight + 1 < w) :
  K.elements c = of (G.elements c)
  := by
  apply checkedSeparated_eq
  · intro done d hd
    apply h.pattern
    have hle := weight_le hd
    omega
  · intro done d p e he
    apply (hG.pattern he).1.crosses.isSuffix
  · intro _ _ _ e _ _
    apply checkedPunct_eq

/-- A pattern that binds a name, and after `@` the pattern that it restricts it to. -/
def readBinding (K : CheckedPatterns) (c : Cursor) : Checked Failure PatternGrammar.Shape := do
  let c ← c.stepIf (atKeyword "ref" c.trees)
  let c ← c.stepIf (atKeyword "mut" c.trees)
  let (t, c) ← c.checkedIdent "a binding name"
  if atSingle '@' c.trees then
    let (p, c) ← K.pattern (← c.step)
    return (.binding t.text, [p], c)
  else return (.binding t.text, [], c)

theorem Refines.readBinding (h : Refines w K G) (hc : c.weight + 1 ≤ w) :
  K.readBinding c = of (G.readBinding c)
  := by
  apply ok_bind_eq (stepIf_keyword c "ref")
  apply ok_bind_eq (stepIf_keyword _ "mut")
  apply bind_eq_of (checkedIdent_eq _ _)
  rintro ⟨t, d⟩ hd
  apply ite_eq_of
  · intro hat
    apply ok_bind_eq (step_eq_of_atSingle hat)
    apply bind_eq_of
    · apply h.pattern
      have hcross : c.Crosses false false ((c.skipKeyword "ref").skipKeyword "mut") :=
        (Crosses.skipKeyword c "ref").trans (Crosses.skipKeyword _ "mut")
      have hle := weight_le (hcross.trans (Passes.expectIdent hd).crosses).isSuffix
      have hskip := weight_skip (ne_nil_of_atSingle hat)
      omega
    · rintro ⟨p, e⟩ _
      rfl
  · intro _
    rfl

/-- What the path at the start of a pattern is followed by. -/
def afterPath (K : CheckedPatterns) (c : Cursor) : Checked Failure PatternGrammar.Shape :=
  match c.trees with
  | .group .paren inner _ closing :: _ => do
    let d ← c.step
    return (.tupleStruct, ← K.elements ⟨inner, closing⟩, d)
  | .group .brace _ _ _ :: _ => do return (.struct, [], ← c.step)
  | trees => return (.path, [], if TypeGrammar.atMacroArguments trees then c.skip 2 else c)

/-- A pattern that starts with a path. -/
def readPath (K : CheckedPatterns) (c : Cursor) : Checked Failure PatternGrammar.Shape := do
  K.afterPath (← K.readPathOnly c)

theorem Refines.readPath (h : Refines w K G) (hG : G.Sound) (hc : c.weight < w) :
  K.readPath c = of (G.readPath c)
  := by
  apply ite_bind_eq_of (h.readPathOnly hc)
  intro d hd
  have hle : d.weight ≤ c.weight := by
    apply weight_le
    rcases ite_eq_iff.mp hd with ⟨_, hd⟩ | ⟨_, hd⟩
    · apply ((TypeGrammar.sound_upTo c).qualifiedPath hd).crosses.isSuffix
    · have hskip : c.Crosses true true (TypeGrammar.skipSeparator c) :=
        TypeGrammar.crosses_skipSeparator c
      apply (hG.segments hd).crosses.isSuffix.trans hskip.isSuffix
  dsimp only
  split
  case h_1 inside opening closing r hr =>
    rw [afterPath, hr]
    have hinside := weight_inside hr
    apply ok_bind_eq (step_eq_of_cons hr)
    apply bind_eq_of (h.elements hG (by omega))
    intro _ _
    rfl
  case h_2 hr =>
    rw [afterPath, hr]
    apply ok_bind_eq (step_eq_of_cons hr) rfl
  case h_3 hparen hbrace =>
    rw [afterPath]
    split
    case h_1 hr => apply absurd hr (hparen _ _ _ _)
    case h_2 hr => apply absurd hr (hbrace _ _ _ _)
    case h_3 => rfl

/-- A pattern that starts with a token. -/
def readPlain (K : CheckedPatterns) (c : Cursor) : Checked Failure PatternGrammar.Shape := do
  if atLexeme (· == .ident "_") c.trees then return (.wildcard, [], ← c.step)
  if PatternGrammar.atRest c.trees then return (.rest, [], c.skip 2)
  if atPunct '&' c.trees then
    let c ← c.step
    let c ← c.stepIf (atKeyword "mut" c.trees)
    let (p, c) ← K.pattern c
    return (.reference, [p], c)
  if PatternGrammar.atBinding c.trees then return ← K.readBinding c
  if atLiteral c.trees then return (.literal, [], ← c.step)
  if atPunct '-' c.trees && atInteger (c.trees.drop 1) then return (.literal, [], c.skip 2)
  if atPathStart c.trees || atOperator [':', ':'] c.trees || atPunct '<' c.trees then
    return ← K.readPath c
  of (c.fail "a pattern")

theorem Refines.readPlain (h : Refines w K G) (hG : G.Sound) (hc : c.weight + 1 ≤ w) :
  K.readPlain c = of (G.readPlain c)
  := by
  apply ite_eq_of
  · intro hblank
    apply ok_bind_eq (step_eq_of_atLexeme hblank) rfl
  intro _
  apply ite_eq_of
  · intro _
    rfl
  intro _
  apply ite_eq_of
  · intro href
    apply ok_bind_eq (step_eq_of_atLexeme href)
    apply ok_bind_eq (stepIf_keyword _ "mut")
    apply bind_eq_of
    · apply h.pattern
      have hcross : (c.skip 1).Crosses true true ((c.skip 1).skipKeyword "mut") :=
        Crosses.skipKeyword _ "mut"
      have hle := weight_le hcross.isSuffix
      have hskip := weight_skip (ne_nil_of_atLexeme href)
      omega
    · rintro ⟨p, d⟩ _
      rfl
  intro _
  apply ite_eq_of
  · intro _
    apply h.readBinding hc
  intro _
  apply ite_eq_of
  · intro hliteral
    apply ok_bind_eq (step_eq_of_atLexeme hliteral) rfl
  intro _
  apply ite_eq_of
  · intro _
    rfl
  intro _
  apply ite_eq_of
  · intro _
    apply h.readPath hG (by omega)
  intro _
  rfl

/-- What stands at a cursor, read as a pattern. -/
def readShape (K : CheckedPatterns) (c : Cursor) : Checked Failure PatternGrammar.Shape :=
  match c.trees with
  | .group .paren inner _ closing :: _ => do
    let d ← c.step
    return (.tuple, ← K.elements ⟨inner, closing⟩, d)
  | .group .bracket inner _ closing :: _ => do
    let d ← c.step
    return (.slice, ← K.elements ⟨inner, closing⟩, d)
  | _ => K.readPlain c

theorem Refines.readShape (h : Refines w K G) (hG : G.Sound) (hc : c.weight + 1 ≤ w) :
  K.readShape c = of (G.readShape c)
  := by
  rw [PatternGrammar.readShape]
  split
  case h_1 inside opening closing r hr =>
    rw [CheckedPatterns.readShape, hr]
    have hinside := weight_inside hr
    apply ok_bind_eq (step_eq_of_cons hr)
    apply bind_eq_of (h.elements hG (by omega))
    intro _ _
    rfl
  case h_2 inside opening closing r hr =>
    rw [CheckedPatterns.readShape, hr]
    have hinside := weight_inside hr
    apply ok_bind_eq (step_eq_of_cons hr)
    apply bind_eq_of (h.elements hG (by omega))
    intro _ _
    rfl
  case h_3 hparen hbracket =>
    rw [CheckedPatterns.readShape]
    split
    case h_1 hr => apply absurd hr (hparen _ _ _ _)
    case h_2 hr => apply absurd hr (hbracket _ _ _ _)
    case h_3 => apply h.readPlain hG hc

/-- A pattern. -/
def readPattern (K : CheckedPatterns) (c : Cursor) : Checked Failure (Pattern × Cursor) := do
  let (kind, parts, d) ← K.readShape c
  return (.mk kind (← c.checkedRun d) parts, d)

theorem Refines.readPattern (h : Refines w K G) (hG : G.Sound) (hc : c.weight + 1 ≤ w) :
  K.readPattern c = of (G.readPattern c)
  := by
  apply bind_eq_of (h.readShape hG hc)
  rintro ⟨kind, parts, d⟩ hd
  have hread : G.readPattern c = .ok (.mk kind (c.runUpTo d) parts, d) :=
    bind_eq_ok.mpr ⟨_, hd, rfl⟩
  apply ok_bind_eq (checkedRun_eq_of_passes (hG.readPattern hread).1) rfl

/-- The checked productions of the grammar of a level. -/
def level : Nat → CheckedPatterns
  | 0 =>
    { pattern := fun _ => slip .pastBound
      segments := fun _ => slip .pastBound }
  | n + 1 =>
    { pattern := fun c => (level n).readPattern c
      segments := fun c => (level n).readSegments c }

/-- No level slips on what it is high enough for. -/
theorem refines_level (n : Nat) :
  Refines n (level n) (PatternGrammar.level n)
  := by
  induction n with
  | zero => constructor <;> intros <;> omega
  | succ n ih =>
      constructor
      · intro c hc
        apply ih.readPattern (PatternGrammar.sound_level n) (by omega)
      · intro c hc
        apply ih.readSegments (by omega)

end CheckedPatterns

/-- Reads a pattern. -/
def Pattern.checkedRead (c : Cursor) : Checked Failure (Pattern × Cursor) :=
  (CheckedPatterns.level (4 * (sizeAll c.trees + 1))).pattern c

theorem Pattern.checkedRead_eq (c : Cursor) :
  Pattern.checkedRead c = of (Pattern.read c)
  := by
  apply (CheckedPatterns.refines_level _).pattern
  rw [weight]
  omega

end ReturnCaptures
