import ReturnCaptures.Proofs.CheckedPatterns
import ReturnCaptures.Proofs.RecordedParts

/-!
# The parts of an item are read without a slip

Attributes, generic parameters, where clauses, parameters and captures with every step checked. An
outer documentation comment is told from an inner one by its third character, so that the trees
have to come from a text in which every documentation comment has one that tells.
-/

namespace ReturnCaptures

open TokenTree Outcome Cursor Checked

variable {c d : Cursor}

/-! ### Documentation comments -/

/-- Whether the third character of a documentation comment tells on which side it documents. -/
def Lexeme.isTold : Lexeme → Bool
  | .doc true text => text.toList[2]? == some '!'
  | .doc false text => text.toList[2]? == some '/' || text.toList[2]? == some '*'
  | _ => true

namespace TokenTree

/-- Trees whose documentation comments tell on which side they document. -/
def AreTold (trees : List TokenTree) : Prop := ∀ t ∈ tokensAll trees, t.lexeme.isTold

variable {u v trees : List TokenTree}

theorem AreTold.of_isSuffix (h : AreTold u) (hv : v <:+ u) :
  AreTold v
  := by
  obtain ⟨w, rfl⟩ := hv
  intro t ht
  apply h
  rw [tokensAll_append]
  apply List.mem_append_right _ ht

theorem AreTold.of_cons {t : Token} (h : AreTold (.token t :: trees)) :
  t.lexeme.isTold ∧ AreTold trees
  := by
  constructor
  · apply h
    simp [tokensAll, tokens]
  · apply h.of_isSuffix (List.suffix_cons _ _)

theorem AreTold.of_group {d : Delimiter} {opening closing : Span}
    (h : AreTold (.group d u opening closing :: trees)) :
  AreTold u
  := by
  intro t ht
  apply h
  simp [tokensAll, tokens, ht]

end TokenTree

/-- The third character of a documentation comment. -/
def checkedThird {ε : Type} (text : String) : Checked ε Char :=
  match text.toList[2]? with
  | some c => .ok c
  | none => slip .shortDoc

/-- A third character that tells is that of an outer comment or of an inner one. -/
theorem exists_checkedThird_eq (ε : Type) {text : String} {inner : Bool}
    (h : (Lexeme.doc inner text).isTold) :
  ∃ c, (checkedThird text : Checked ε Char) = .ok c ∧ (c = '/' ∨ c = '*' ↔ inner = false) ∧
    (c = '!' ↔ inner = true)
  := by
  cases inner with
  | true =>
      rw [Lexeme.isTold, beq_iff_eq] at h
      use '!', by rw [checkedThird, h]
      decide
  | false =>
      rw [Lexeme.isTold, Bool.or_eq_true, beq_iff_eq, beq_iff_eq] at h
      rcases h with h | h
      · use '/', by rw [checkedThird, h]
        decide
      · use '*', by rw [checkedThird, h]
        decide

/-- Two slashes alone are no documentation comment, and have no third character. -/
example : (checkedThird "//" : Checked Failure Char) = slip .shortDoc := rfl

/-! ### Attributes -/

/-- The outer attributes and outer documentation comments that trees start with, and the trees after
them. -/
def checkedAttributesOf : List TokenTree → Checked Failure (List Run × List TokenTree)
  | .token ⟨.doc inner text, place⟩ :: trees => do
    let third ← checkedThird text
    if third = '/' ∨ third = '*' then
      let (runs, rest) ← checkedAttributesOf trees
      return (⟨[.token ⟨.doc inner text, place⟩], place⟩ :: runs, rest)
    else return ([], .token ⟨.doc inner text, place⟩ :: trees)
  | .token ⟨.punct '#' joint, place⟩ :: .group .bracket inner opening closing :: trees => do
    let (runs, rest) ← checkedAttributesOf trees
    return (⟨[.token ⟨.punct '#' joint, place⟩, .group .bracket inner opening closing],
      place.through closing⟩ :: runs, rest)
  | trees => return ([], trees)

theorem checkedAttributesOf_eq {trees : List TokenTree} (h : AreTold trees) :
  checkedAttributesOf trees = .ok (outerAttributesOf trees)
  := by
  fun_induction checkedAttributesOf trees with
  | case1 inner text place trees ih =>
      obtain ⟨c, hc, hside, _⟩ := exists_checkedThird_eq Failure h.of_cons.1
      apply ok_bind_eq hc
      cases inner with
      | false =>
          rw [if_pos (hside.mpr rfl)]
          apply ok_bind_eq (ih h.of_cons.2)
          rfl
      | true =>
          rw [if_neg (by simp [hside])]
          rfl
  | case2 joint place inner opening closing trees ih =>
      apply ok_bind_eq (ih (h.of_isSuffix _))
      · rfl
      · apply (List.suffix_cons _ _).trans (List.suffix_cons _ _)
  | case3 trees hdoc hattribute =>
      rw [outerAttributesOf]
      · rfl
      · intro text place r
        apply hdoc
      · apply hattribute

/-- Reads outer attributes and outer documentation comments. -/
def checkedAttributes (c : Cursor) : Checked Failure (List Run × Cursor) := do
  let (runs, rest) ← checkedAttributesOf c.trees
  return (runs, { c with trees := rest })

theorem checkedAttributes_eq (h : AreTold c.trees) :
  checkedAttributes c = .ok (outerAttributes c)
  := by
  apply ok_bind_eq (checkedAttributesOf_eq h)
  rfl

/-! ### Generic parameters -/

/-- Moves over bounds, if any follow. -/
def checkedOptionalBounds (c : Cursor) : Checked Failure Cursor :=
  if atBound c.trees then (CheckedTypes.upTo c).bounds c else .ok c

theorem checkedOptionalBounds_eq (c : Cursor) :
  checkedOptionalBounds c = of (optionalBounds c)
  := by
  apply ite_eq_of
  · intro _
    apply (CheckedTypes.refines_upTo c).bounds
    omega
  · intro _
    rfl

namespace GenericParam

/-- Reads a lifetime parameter whose name is `name`, from after the name. -/
def checkedLifetime (name : String) (c : Cursor) :
    Checked Failure (GenericParamKind × String × Cursor) := do
  if atColon c.trees then return (.lifetime, name, lifetimeBounds (← c.step))
  else return (.lifetime, name, c)

theorem checkedLifetime_eq (name : String) (c : Cursor) :
  checkedLifetime name c = .ok (readLifetime name c)
  := by
  rw [checkedLifetime, readLifetime]
  split
  case isTrue hcolon => apply ok_bind_eq (step_eq (ne_nil_of_atColon hcolon)) rfl
  case isFalse => rfl

/-- Reads the default of a constant parameter, if there is one. -/
def checkedConstDefault (c : Cursor) : Checked Failure Cursor :=
  if atSingle '=' c.trees then do checkedConstArgument (← c.step) else pure c

theorem checkedConstDefault_eq (c : Cursor) :
  checkedConstDefault c = of (if atSingle '=' c.trees then constArgument (c.skip 1) else pure c)
  := by
  apply ite_eq_of
  · intro hequals
    apply ok_bind_eq (step_eq_of_atSingle hequals)
    apply checkedConstArgument_eq
  · intro _
    rfl

/-- Reads a constant parameter. -/
def checkedConst (c : Cursor) : Checked Failure (GenericParamKind × String × Cursor) := do
  let (t, c) ← (← c.step).checkedIdent "const parameter name"
  let c ← c.checkedColon
  let (_, c) ← TypeExpr.checkedRead true c
  let c ← checkedConstDefault c
  return (.const, t.text, c)

theorem checkedConst_eq (h : c.trees ≠ []) :
  checkedConst c = of (readConst c)
  := by
  apply ok_bind_eq (step_eq h)
  apply bind_eq_of (checkedIdent_eq _ _)
  rintro ⟨t, d⟩ _
  apply bind_eq_of (checkedColon_eq d)
  intro e _
  apply bind_eq_of (TypeExpr.checkedRead_eq true e)
  rintro ⟨type, f⟩ _
  apply ite_bind_eq_of (checkedConstDefault_eq f)
  intro g _
  rfl

/-- Reads the bounds of a type parameter, if there are any. -/
def checkedTypeBounds (c : Cursor) : Checked Failure Cursor :=
  if atColon c.trees then do checkedOptionalBounds (← c.step) else pure c

theorem checkedTypeBounds_eq (c : Cursor) :
  checkedTypeBounds c = of (if atColon c.trees then optionalBounds (c.skip 1) else pure c)
  := by
  apply ite_eq_of
  · intro hcolon
    apply ok_bind_eq (step_eq (ne_nil_of_atColon hcolon))
    apply checkedOptionalBounds_eq
  · intro _
    rfl

/-- Reads the default of a type parameter, if there is one. -/
def checkedTypeDefault (c : Cursor) : Checked Failure Cursor :=
  if atSingle '=' c.trees then do
    let (_, d) ← TypeExpr.checkedRead true (← c.step)
    return d
  else pure c

theorem checkedTypeDefault_eq (c : Cursor) :
  checkedTypeDefault c =
    of (if atSingle '=' c.trees then (TypeExpr.read true (c.skip 1)).map (·.2) else pure c)
  := by
  apply ite_eq_of
  · intro hequals
    apply ok_bind_eq (step_eq_of_atSingle hequals)
    apply map_eq_of (TypeExpr.checkedRead_eq _ _)
  · intro _
    rfl

/-- Reads a type parameter whose name is `name`, from after the name. -/
def checkedType (name : String) (c : Cursor) :
    Checked Failure (GenericParamKind × String × Cursor) := do
  let c ← checkedTypeBounds c
  let c ← checkedTypeDefault c
  return (.type, name, c)

theorem checkedType_eq (name : String) (c : Cursor) :
  checkedType name c = of (readType name c)
  := by
  apply ite_bind_eq_of (checkedTypeBounds_eq c)
  intro d _
  apply ite_bind_eq_of (checkedTypeDefault_eq d)
  intro e _
  rfl

/-- Reads what follows the attributes of a generic parameter. -/
def checkedPlain (c : Cursor) : Checked Failure (GenericParamKind × String × Cursor) :=
  match c.trees with
  | .token ⟨.lifetime name, _⟩ :: _ => do checkedLifetime name (← c.step)
  | .token ⟨.keyword "const", _⟩ :: _ => checkedConst c
  | .token ⟨.ident name, _⟩ :: _ => do checkedType name (← c.step)
  | _ => of (c.fail "a generic parameter")

theorem checkedPlain_eq (c : Cursor) :
  checkedPlain c = of (readPlain c)
  := by
  rw [readPlain]
  split
  case h_1 name place r hc =>
    rw [checkedPlain, hc]
    apply ok_bind_eq (step_eq_of_cons hc)
    apply checkedLifetime_eq
  case h_2 place r hc =>
    rw [checkedPlain, hc]
    apply checkedConst_eq
    simp [hc]
  case h_3 name place r hc =>
    rw [checkedPlain, hc]
    apply ok_bind_eq (step_eq_of_cons hc)
    apply checkedType_eq
  case h_4 hlifetime hconst hident =>
    rw [checkedPlain]
    split
    case h_1 hc => apply absurd hc (hlifetime _ _ _)
    case h_2 hc => apply absurd hc (hconst _ _)
    case h_3 hc => apply absurd hc (hident _ _ _)
    case h_4 => rfl

/-- Reads a generic parameter. -/
def checkedRead (c : Cursor) : Checked Failure (GenericParam × Cursor) := do
  let (_, attributed) ← checkedAttributes c
  let (kind, name, d) ← checkedPlain attributed
  return (⟨kind, name, ← c.checkedRun d⟩, d)

theorem checkedRead_eq (h : AreTold c.trees) :
  checkedRead c = of (GenericParam.read c)
  := by
  apply ok_bind_eq (checkedAttributes_eq h)
  apply bind_eq_of (checkedPlain_eq _)
  rintro ⟨kind, name, d⟩ hd
  have hpasses := (crosses_outerAttributes c).trans_passes (passes_readPlain hd)
  apply ok_bind_eq (checkedRun_eq_of_passes hpasses) rfl

end GenericParam

namespace Generics

/-- Reads generic parameters from after `<` or a comma up to and with `>`, at most `bound` of
them. -/
def checkedParams : (bound : Nat) → Cursor → Checked Failure (List GenericParam × Cursor)
  | 0, _ => slip .pastBound
  | bound + 1, c => do
    if atPunct '>' c.trees then return ([], ← c.step)
    let (param, c) ← GenericParam.checkedRead c
    if atPunct ',' c.trees then
      let (params, c) ← checkedParams bound (← c.step)
      return (param :: params, c)
    else
      let c ← c.checkedExpect "`,` or `>` in generic parameters" (atPunct '>' c.trees)
      return ([param], c)

theorem checkedParams_eq {bound : Nat} (h : AreTold c.trees) (hbound : c.trees.length < bound) :
  checkedParams bound c = of (readParams bound c)
  := by
  induction bound generalizing c with
  | zero => cases hbound
  | succ bound ih =>
      apply ite_eq_of
      · intro hclose
        apply ok_bind_eq (step_eq_of_atLexeme hclose) rfl
      intro _
      apply bind_eq_of (GenericParam.checkedRead_eq h)
      rintro ⟨param, d⟩ hd
      have hpasses := GenericParam.passes_read hd
      apply ite_eq_of
      · intro hcomma
        apply ok_bind_eq (step_eq_of_atLexeme hcomma)
        apply bind_eq_of
        · apply ih
          · apply h.of_isSuffix
            apply (List.drop_suffix _ _).trans hpasses.crosses.isSuffix
          · have hlt := hpasses.shorter
            rw [trees_skip, List.length_drop]
            omega
        · rintro ⟨params, e⟩ _
          rfl
      · intro _
        apply bind_eq_of (checkedExpect_eq ne_nil_of_atLexeme)
        intro e _
        rfl

/-- Reads generic parameters between `<` and `>`, if there are any. -/
def checkedRead (c : Cursor) : Checked Failure (Generics × Cursor) := do
  if !atPunct '<' c.trees then return (⟨[], [], none⟩, c)
  let (params, d) ← checkedParams (c.trees.length + 1) (← c.step)
  return (⟨params, c.readUpTo d, none⟩, d)

theorem checkedRead_eq (h : AreTold c.trees) :
  checkedRead c = of (Generics.read c)
  := by
  apply ite_eq_of
  · intro _
    rfl
  intro hopen
  have hopen : atPunct '<' c.trees := by simpa using hopen
  apply ok_bind_eq (step_eq_of_atLexeme hopen)
  apply bind_eq_of
  · apply checkedParams_eq (h.of_isSuffix (List.drop_suffix _ _))
    rw [trees_skip, List.length_drop]
    omega
  · rintro ⟨params, d⟩ _
    rfl

end Generics

/-! ### Where clauses -/

namespace WhereClause

/-- Moves over a binder of lifetimes, if one comes next. -/
def checkedBinder (c : Cursor) : Checked Failure Cursor :=
  if atKeyword "for" c.trees then checkedForBinder c else pure c

theorem checkedBinder_eq (c : Cursor) :
  checkedBinder c = of (if atKeyword "for" c.trees then forBinder c else pure c)
  := by
  apply ite_eq_of
  · intro _
    apply checkedForBinder_eq
  · intro _
    rfl

/-- Moves over a predicate on a lifetime or a type. -/
def checkedPredicate (c : Cursor) : Checked Failure Cursor := do
  if atLifetime c.trees then
    let c ← (← c.step).checkedColon
    return lifetimeBounds c
  else
    let c ← checkedBinder c
    let (_, c) ← TypeExpr.checkedRead false c
    let c ← c.checkedColon
    checkedOptionalBounds c

theorem checkedPredicate_eq (c : Cursor) :
  checkedPredicate c = of (predicate c)
  := by
  apply ite_eq_of
  · intro hlife
    apply ok_bind_eq (step_eq_of_atLexeme hlife)
    apply bind_eq_of (checkedColon_eq _)
    intro d _
    rfl
  · intro _
    apply ite_bind_eq_of (checkedBinder_eq c)
    intro d _
    apply bind_eq_of (TypeExpr.checkedRead_eq false d)
    rintro ⟨type, e⟩ _
    apply bind_eq_of (checkedColon_eq e)
    intro f _
    apply checkedOptionalBounds_eq

/-- Reads predicates separated by commas, at most `bound` of them. -/
def checkedPredicates : (bound : Nat) → Cursor → Checked Failure (List Run × Cursor)
  | 0, _ => slip .pastBound
  | bound + 1, c => do
    if atStop c.trees then return ([], c)
    let d ← checkedPredicate c
    let run ← c.checkedRun d
    if atPunct ',' d.trees then
      let (runs, e) ← checkedPredicates bound (← d.step)
      return (run :: runs, e)
    else return ([run], d)

theorem checkedPredicates_eq {bound : Nat} (hbound : c.trees.length < bound) :
  checkedPredicates bound c = of (readPredicates bound c)
  := by
  induction bound generalizing c with
  | zero => cases hbound
  | succ bound ih =>
      apply ite_eq_of
      · intro _
        rfl
      intro _
      apply bind_eq_of (checkedPredicate_eq c)
      intro d hd
      have hpasses := passes_predicate hd
      apply ok_bind_eq (checkedRun_eq_of_passes hpasses)
      apply ite_eq_of
      · intro hcomma
        apply ok_bind_eq (step_eq_of_atLexeme hcomma)
        apply bind_eq_of
        · apply ih
          have hlt := hpasses.shorter
          rw [trees_skip, List.length_drop]
          omega
        · rintro ⟨runs, e⟩ _
          rfl
      · intro _
        rfl

/-- Reads a where clause, if there is one. -/
def checkedRead (c : Cursor) : Checked Failure (Option WhereClause × Cursor) := do
  if !atKeyword "where" c.trees then return (none, c)
  let (predicates, d) ← checkedPredicates (c.trees.length + 1) (← c.step)
  return (some ⟨predicates, ← c.checkedRun d⟩, d)

theorem checkedRead_eq (c : Cursor) :
  checkedRead c = of (WhereClause.read c)
  := by
  apply ite_eq_of
  · intro _
    rfl
  intro hword
  have hword : atKeyword "where" c.trees := by simpa using hword
  apply ok_bind_eq (step_eq_of_atLexeme hword)
  apply bind_eq_of
  · apply checkedPredicates_eq
    rw [trees_skip, List.length_drop]
    omega
  · rintro ⟨predicates, d⟩ hd
    have hpasses := Passes.skip hword (Crosses.keyword hword) (crosses_readPredicates hd)
    apply ok_bind_eq (checkedRun_eq_of_passes hpasses) rfl

end WhereClause

/-! ### Parameters -/

namespace ParamList

/-- Moves over the type of a receiver, if one is given. -/
def checkedReceiverType (reference : Bool) (c : Cursor) : Checked Failure Cursor :=
  if !reference && atColon c.trees then do
    let (_, d) ← TypeExpr.checkedRead true (← c.step)
    return d
  else pure c

theorem checkedReceiverType_eq (reference : Bool) (c : Cursor) :
  checkedReceiverType reference c = of (if !reference && atColon c.trees then
    (TypeExpr.read true (c.skip 1)).map (·.2) else pure c)
  := by
  apply ite_eq_of
  · intro hcolon
    rw [Bool.and_eq_true] at hcolon
    apply ok_bind_eq (step_eq (ne_nil_of_atColon hcolon.2))
    apply map_eq_of (TypeExpr.checkedRead_eq _ _)
  · intro _
    rfl

/-- Moves over the marks of a reference that a receiver starts with. -/
def checkedReference (c : Cursor) : Checked Failure Cursor :=
  if atPunct '&' c.trees then do
    let d ← c.step
    d.stepIf (atLifetime d.trees)
  else .ok c

theorem checkedReference_eq (c : Cursor) :
  checkedReference c = .ok (if atPunct '&' c.trees then
    if atLifetime (c.skip 1).trees then (c.skip 1).skip 1 else c.skip 1 else c)
  := by
  rw [checkedReference]
  split
  case isTrue hamp => apply ok_bind_eq (step_eq_of_atLexeme hamp) (stepIf_atLexeme _)
  case isFalse => rfl

/-- Reads a receiver, if one comes next. -/
def checkedReceiver (c : Cursor) : Checked Failure (Option (Param × Cursor)) := do
  let marked ← checkedReference c
  let bare ← marked.stepIf (atKeyword "mut" marked.trees)
  if !atKeyword "self" bare.trees || atOperator [':', ':'] (bare.trees.drop 1) then
    return none
  let reference := atPunct '&' c.trees
  let d ← checkedReceiverType reference (← bare.step)
  return some (.receiver (← c.checkedRun d) reference (atKeyword "mut" marked.trees), d)

theorem checkedReceiver_eq (c : Cursor) :
  checkedReceiver c = of (readReceiver c)
  := by
  apply ok_bind_eq (checkedReference_eq c)
  apply ok_bind_eq (stepIf_keyword _ "mut")
  apply ite_eq_of
  · intro _
    rfl
  intro hself
  have hself' := hself
  rw [Bool.or_eq_true, not_or, Bool.not_eq_true', Bool.not_eq_false] at hself'
  apply ok_bind_eq (step_eq_of_atLexeme hself'.1)
  apply ite_bind_eq_of (checkedReceiverType_eq _ _)
  intro d hd
  have hread : ∃ mutable, readReceiver c =
      .ok (some (.receiver (c.runUpTo d) (atPunct '&' c.trees) mutable, d)) := by
    rw [readReceiver]
    dsimp only
    rw [if_neg hself]
    apply Exists.intro
    refine ite_bind_eq_ok.mpr ⟨d, hd, ?_⟩
    rfl
  obtain ⟨mutable, hread⟩ := hread
  obtain ⟨_, _, _, hpasses⟩ := exists_of_readReceiver hread
  apply ok_bind_eq (checkedRun_eq_of_passes hpasses) rfl

/-- Reads an entry that is no receiver, from after its attributes; `start` is the cursor before
them. -/
def checkedPlainEntry (start : Cursor) (attributes : List Run) (c : Cursor) :
    Checked Failure (Entry × Cursor) := do
  if atDots c.trees then return (.variadic (← start.checkedRun (c.skip 3)), c.skip 3)
  let (pattern, d) ← Pattern.checkedRead c
  let d ← d.checkedColon
  if atDots d.trees then return (.variadic (← start.checkedRun (d.skip 3)), d.skip 3)
  let (type, d) ← TypeExpr.checkedRead true d
  return (.param (.typed attributes pattern type), d)

theorem checkedPlainEntry_eq {start : Cursor} {attributes : List Run}
    (h : c.trees <:+ start.trees) :
  checkedPlainEntry start attributes c = of (readPlainEntry start attributes c)
  := by
  have hrun {d : Cursor} (hd : d.trees <:+ start.trees) (hdots : atDots d.trees) :
      start.checkedRun (d.skip 3) = .ok (start.runUpTo (d.skip 3)) := by
    apply checkedRun_eq ((List.drop_suffix _ _).trans hd)
    apply Nat.lt_of_lt_of_le (length_skip_of_atDots hdots) hd.length_le
  apply ite_eq_of
  · intro hdots
    apply ok_bind_eq (hrun h hdots) rfl
  intro _
  apply bind_eq_of (Pattern.checkedRead_eq c)
  rintro ⟨pattern, d⟩ hd
  apply bind_eq_of (checkedColon_eq d)
  intro e he
  obtain ⟨_, rfl⟩ := expectColon_eq_ok.mp he
  apply ite_eq_of
  · intro hdots
    have hpassed := (Pattern.passes_read hd).1.crosses.isSuffix
    apply ok_bind_eq (hrun ((List.drop_suffix _ _).trans (hpassed.trans h)) hdots) rfl
  intro _
  apply bind_eq_of (TypeExpr.checkedRead_eq _ _)
  rintro ⟨type, f⟩ _
  rfl

/-- Reads a receiver, if one comes next and may stand there. -/
def checkedReceiverIf (first : Bool) (c : Cursor) : Checked Failure (Option (Param × Cursor)) :=
  if first then checkedReceiver c else pure none

theorem checkedReceiverIf_eq (first : Bool) (c : Cursor) :
  checkedReceiverIf first c = of (if first then readReceiver c else pure none)
  := by
  apply ite_eq_of
  · intro _
    apply checkedReceiver_eq
  · intro _
    rfl

/-- Reads an entry. -/
def checkedEntry (done : List Entry) (c : Cursor) : Checked Failure (Entry × Cursor) :=
  match done with
  | .variadic run :: _ => of (.error ⟨.variadicNotLast, run.span⟩)
  | _ => do
    let (attributes, d) ← checkedAttributes c
    match ← checkedReceiverIf done.isEmpty d with
    | some (param, e) => return (.param param, e)
    | none => checkedPlainEntry c attributes d

theorem checkedEntry_eq {done : List Entry} (h : AreTold c.trees) :
  checkedEntry done c = of (readEntry done c)
  := by
  rw [readEntry.eq_def]
  split
  case h_1 => rfl
  case h_2 hvariadic =>
    rw [checkedEntry.eq_def]
    split
    case h_1 => apply absurd rfl (hvariadic _ _)
    case h_2 =>
      apply ok_bind_eq (checkedAttributes_eq h)
      apply ite_bind_eq_of (checkedReceiverIf_eq _ _)
      intro receiver _
      cases receiver with
      | some _ => rfl
      | none => apply checkedPlainEntry_eq (isSuffix_outerAttributes c)

/-- Reads a parameter list. -/
def checkedRead (c : Cursor) : Checked Failure (ParamList × Cursor) := do
  let (group, d) ← c.checkedGroup .paren
  let entries ← (Cursor.into group).checkedSeparated (·.checkedPunct ',') checkedEntry
  let params := entries.filterMap fun
    | .param param => some param
    | .variadic _ => none
  let variadics := entries.filterMap fun
    | .variadic run => some run
    | .param _ => none
  return (⟨params, variadics.head?, group⟩, d)

theorem checkedRead_eq (h : AreTold c.trees) :
  checkedRead c = of (ParamList.read c)
  := by
  apply bind_eq_of (checkedGroup_eq c .paren)
  rintro ⟨g, d⟩ hg
  obtain ⟨_, hc, _⟩ := expectGroup_eq_ok.mp hg
  rw [hc] at h
  apply bind_eq_of
  · apply checkedSeparated_eq
    · intro done e he
      apply checkedEntry_eq
      apply AreTold.of_isSuffix (AreTold.of_group h) he
    · intro done e entry f hf
      apply (readsEntry_of_readEntry hf).isSuffix
    · intro _ _ _ f _ _
      apply checkedPunct_eq
  · intro _ _
    rfl

end ParamList

/-! ### Return clauses -/

namespace Capture

/-- Reads a capture with a pattern. -/
def checkedBound (c : Cursor) : Checked Failure (Pattern × TypeExpr × Cursor) := do
  let (pattern, c) ← Pattern.checkedRead c
  let c ← c.checkedColon
  let (type, c) ← TypeExpr.checkedRead true c
  of (expectEnd c)
  return (pattern, type, c)

theorem checkedBound_eq (c : Cursor) :
  checkedBound c = of (readBound c)
  := by
  apply bind_eq_of (Pattern.checkedRead_eq c)
  rintro ⟨pattern, d⟩ _
  apply bind_eq_of (checkedColon_eq d)
  intro e _
  apply bind_eq_of (TypeExpr.checkedRead_eq true e)
  rintro ⟨type, f⟩ _
  apply bind_eq_of rfl
  intro _ _
  rfl

/-- Reads a capture that is a bare type. -/
def checkedUnbound (c : Cursor) : Checked Failure (TypeExpr × Cursor) := do
  let (type, c) ← TypeExpr.checkedRead true c
  of (expectEnd c)
  return (type, c)

theorem checkedUnbound_eq (c : Cursor) :
  checkedUnbound c = of (readUnbound c)
  := by
  apply bind_eq_of (TypeExpr.checkedRead_eq true c)
  rintro ⟨type, d⟩ _
  apply bind_eq_of rfl
  intro _ _
  rfl

/-- Reads a capture, given how many stand before it. -/
def checkedRead (index : Nat) (c : Cursor) : Checked Failure (Capture × Cursor) := do
  match ← attempt (checkedBound c) with
  | .ok (pattern, type, d) =>
    of (checkPattern pattern)
    return (.bound pattern type, d)
  | .error asBound =>
    match ← attempt (checkedUnbound c) with
    | .ok (type, d) => return (.unbound type, d)
    | .error asBare => of (c.failWith (.malformedCapture index asBound.problem asBare.problem))

theorem checkedRead_eq (index : Nat) (c : Cursor) :
  checkedRead index c = of (Capture.read index c)
  := by
  apply ok_bind_eq (attempt_eq (checkedBound_eq c))
  rw [Capture.read]
  cases readBound c with
  | ok result =>
      apply bind_eq_of rfl
      intro _ _
      rfl
  | error asBound =>
      apply ok_bind_eq (attempt_eq (checkedUnbound_eq c))
      cases readUnbound c with
      | ok result => rfl
      | error asBare => rfl

/-- Moves over the comma behind a capture. -/
def checkedComma (c : Cursor) : Checked Failure Cursor :=
  if atPunct ',' c.trees then c.step else slip .noComma

/-- Reads the captures inside a group. -/
def checkedList (group : Group) : Checked Failure (List Capture) := do
  let captures ← (Cursor.into group).checkedSeparated checkedComma fun done =>
    checkedRead done.length
  of (checkDistinct [] (bindings captures))
  return captures

theorem checkedList_eq (g : Group) :
  checkedList g = of (readList g)
  := by
  apply bind_eq_of
  · apply checkedSeparated_eq
    · intro done d _
      apply checkedRead_eq
    · intro done d capture e he
      apply (readsAs_of_read he).isSuffix
    · intro done d capture e he hend
      have hcomma := end_of_read he
      rw [hend, Bool.false_or] at hcomma
      rw [checkedComma, if_pos hcomma, step_eq_of_atLexeme hcomma,
        expectPunct_eq_ok.mpr ⟨hcomma, rfl⟩]
      rfl
  · intro captures _
    apply bind_eq_of rfl
    intro _ _
    rfl

end Capture

namespace ReturnClause

/-- Reads what follows an arrow: a capture list or a type. -/
def checkedAfter (arrow : Arrow) (c : Cursor) : Checked Failure (ReturnClause × Cursor) :=
  match c.trees with
  | .group .paren inner opening closing :: _ => do
    let group : Group := ⟨.paren, inner, opening, closing⟩
    match ← attempt (Capture.checkedList group) with
    | .ok items =>
      return (.captures arrow items group (arrow.shaft.span.through closing), ← c.step)
    | .error failure =>
      match ← attempt (TypeExpr.checkedRead true c) with
      | .ok (type, d) =>
        return (.plain arrow type (arrow.shaft.span.through type.run.span), d)
      | .error _ => of (.error failure)
  | _ => do
    let (type, d) ← TypeExpr.checkedRead true c
    return (.plain arrow type (arrow.shaft.span.through type.run.span), d)

theorem checkedAfter_eq (arrow : Arrow) (c : Cursor) :
  checkedAfter arrow c = of (readAfter arrow c)
  := by
  rw [readAfter]
  split
  case h_1 inside opening closing r hc =>
    rw [checkedAfter, hc]
    apply ok_bind_eq (attempt_eq (Capture.checkedList_eq _))
    dsimp only
    cases Capture.readList ⟨.paren, inside, opening, closing⟩ with
    | ok items => apply ok_bind_eq (step_eq_of_cons hc) rfl
    | error failure =>
        apply ok_bind_eq (attempt_eq (TypeExpr.checkedRead_eq true c))
        cases TypeExpr.read true c with
        | ok result => rfl
        | error _ => rfl
  case h_2 hparen =>
    rw [checkedAfter]
    split
    case h_1 hc => apply absurd hc (hparen _ _ _ _)
    case h_2 =>
      apply bind_eq_of (TypeExpr.checkedRead_eq true c)
      rintro ⟨type, d⟩ _
      rfl

/-- Reads a return clause, if there is one. -/
def checkedRead (c : Cursor) : Checked Failure (ReturnClause × Cursor) :=
  match c.trees with
  | .token shaft :: .token tip :: _ => do
    if atOperator ['-', '>'] c.trees then checkedAfter ⟨shaft, tip⟩ (← (← c.step).step)
    else return (.absent, c)
  | _ => return (.absent, c)

theorem checkedRead_eq (c : Cursor) :
  checkedRead c = of (ReturnClause.read c)
  := by
  rw [ReturnClause.read]
  split
  case h_1 shaft tip r hc =>
    rw [checkedRead, hc]
    apply ite_eq_of
    · intro _
      apply ok_bind_eq (step_eq_of_cons hc)
      apply ok_bind_eq (step_eq_of_cons (trees_skip_one hc))
      rw [skip_skip]
      apply checkedAfter_eq
    · intro _
      rfl
  case h_2 htokens =>
    rw [checkedRead]
    split
    case h_1 hc => apply absurd hc (htokens _ _ _)
    case h_2 => rfl

end ReturnClause

end ReturnCaptures
