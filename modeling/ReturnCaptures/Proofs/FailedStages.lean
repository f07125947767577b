import ReturnCaptures.Proofs.Ambiguity
import ReturnCaptures.Proofs.ItemExtent
import ReturnCaptures.Proofs.Mismatches

/-!
# The parts at which reading fails

The parts of a function item are read in one order, and a text that is not a function item is
refused for one problem, which arises in the part that is reached when the reading stops. The
diagnostic names that part, and its code says what was read there: generic parameters or a where
clause, a capture list behind an arrow, or anything else.
-/

namespace ReturnCaptures

open TokenTree Outcome Cursor FunctionItem

/-! ### Captures -/

/-- An outcome that fails, if it does, with a problem of captures. -/
abbrev Outcome.FailsByCapture {α : Type} (x : Outcome α) : Prop :=
  x.FailsWith Problem.isOfCapture

namespace Capture

mutual

theorem failsByCapture_checkPattern (p : Pattern) :
  FailsByCapture (checkPattern p)
  := by
  obtain ⟨kind, run, parts⟩ := p
  simp [checkPattern, failsByCapture_checkParts parts, Problem.isOfCapture]

theorem failsByCapture_checkParts (ps : List Pattern) :
  FailsByCapture (checkParts ps)
  := by
  cases ps with
  | nil => exact failsWith_ok ()
  | cons p ps =>
      simp [checkParts, failsByCapture_checkPattern p, failsByCapture_checkParts ps]

end

theorem failsByCapture_checkDistinct (seen : List String) (bindings : List (String × Span)) :
  FailsByCapture (checkDistinct seen bindings)
  := by
  induction bindings generalizing seen with
  | nil => exact failsWith_ok ()
  | cons b bindings ih => simp [checkDistinct, ih, Problem.isOfCapture]

/-- A capture that can be read in neither way is a problem of captures, whatever it is that keeps it
from being read in either. -/
theorem failsByCapture_read (index : Nat) (c : Cursor) :
  FailsByCapture (Capture.read index c)
  := by
  rw [Capture.read]
  split
  · simp [failsByCapture_checkPattern]
  · split
    · simp
    · simp [Problem.isOfCapture]

variable {c d : Cursor}

theorem failsByCapture_commaSeparatedAfter {bound : Nat} (done : List Capture)
    (hbound : c.trees.length < bound) :
  FailsByCapture (c.commaSeparatedAfter (fun done => Capture.read done.length) bound done)
  := by
  -- The bound is never met, since every capture leaves fewer trees to be read.
  induction bound generalizing c done with
  | zero => omega
  | succ bound ih =>
      rw [commaSeparatedAfter]
      simp only [failsWith_ite, failsWith_pure, failsWith_bind, failsByCapture_read, implies_true,
        true_and, Prod.forall]
      intro _ capture d hread hmore
      have hcomma : atPunct ',' d.trees := by simpa [hmore] using end_of_read hread
      rw [expectPunct_eq_ok.mpr ⟨hcomma, rfl⟩]
      apply ih
      have hskip : (d.skip 1).trees.length ≤ d.trees.length := (List.drop_suffix ..).length_le
      have hshorter := (readsAs_of_read hread).shorter
      omega

theorem failsByCapture_readList (g : Group) :
  FailsByCapture (readList g)
  := by
  have hcaptures : FailsByCapture ((Cursor.into g).commaSeparated
      fun done : List Capture => Capture.read done.length) :=
    failsByCapture_commaSeparatedAfter [] (Nat.lt_succ_self _)
  simp [readList, hcaptures, failsByCapture_checkDistinct]

end Capture

/-! ### Return clauses -/

namespace ReturnClause

variable {c : Cursor} {failure : Failure}

/-- Whether trees start with an arrow and a group that may be a capture list. -/
def atCaptureList (trees : List TokenTree) : Bool :=
  atOperator ['-', '>'] trees && atGroup .paren (trees.drop 2)

/-- What fails behind an arrow is a capture list if there is a group for one, even where a type was
tried as well, and a type otherwise. -/
theorem isOfCapture_of_readAfter {arrow : Arrow} (h : readAfter arrow c = .error failure) :
  failure.problem.isOfCapture = atGroup .paren c.trees
  := by
  cases hparen : atGroup .paren c.trees with
  | true =>
      obtain ⟨g, r, hc, hg⟩ := exists_of_atGroup hparen
      have hafter := @readAfter_paren c arrow g r hg hc
      cases hlist : Capture.readList g with
      | ok items =>
          simp only [hlist] at hafter
          cases hafter.symm.trans h
      | error failure' =>
          simp only [hlist] at hafter
          cases hafter.1.symm.trans h
          exact Capture.failsByCapture_readList g failure hlist
  | false =>
      have hmismatch : FailsByMismatch (readAfter arrow c) := by
        rw [readAfter_of_not_paren hparen]
        simp
      simpa [Problem.isMismatch] using hmismatch failure h

theorem isOfCapture_of_read (h : ReturnClause.read c = .error failure) :
  failure.problem.isOfCapture = atCaptureList c.trees
  := by
  rw [ReturnClause.read.eq_def] at h
  split at h
  case h_1 shaft tip r hc =>
    rcases ite_eq_iff.mp h with ⟨harrow, h⟩ | ⟨-, h⟩
    · rw [isOfCapture_of_readAfter h, atCaptureList, harrow, trees_skip, Bool.true_and]
    · cases h
  case h_2 => cases h

end ReturnClause

/-! ### Parts in their order -/

namespace Stage

/-- The parts of a function item. -/
def inOrder : List Stage :=
  [attributes, visibility, qualifiers, functionKeyword, functionName, generics, params,
    returnClause, whereClause, body]

/-- Moves over a part. -/
def readPart : Stage → Cursor → Outcome Cursor
  | item, c => .ok c
  | attributes, c => .ok (outerAttributes c).2
  | visibility, c => .ok (FunctionItem.readVisibility c).2
  | qualifiers, c => .ok (FunctionItem.readQualifiers c).2
  | functionKeyword, c => (c.expectToken (ticked "fn") (·.isKeyword "fn")).map (·.2)
  | functionName, c => (c.expectIdent "function name").map (·.2)
  | generics, c => (Generics.read c).map (·.2)
  | params, c => (ParamList.read c).map (·.2)
  | returnClause, c => (ReturnClause.read c).map (·.2)
  | whereClause, c => (WhereClause.read c).map (·.2)
  | body, c => (FunctionItem.readEnding c).map (·.2.2)

/-- Moves over parts one after the other. -/
def readParts (stages : List Stage) (c : Cursor) : Except Diagnostic Cursor :=
  stages.foldlM (fun c stage => (stage.readPart c).during stage) c

/-- The part that is reached when a part and others behind it are read one after the other, and
where it starts. -/
def reached (stage : Stage) : List Stage → Cursor → Stage × Cursor
  | [], c => (stage, c)
  | next :: stages, c =>
    match stage.readPart c with
    | .ok d => next.reached stages d
    | .error _ => (stage, c)

variable {stage : Stage} {stages : List Stage} {c d : Cursor}

/-- Parts cannot be read for what is wrong with the one that is reached. -/
theorem exists_of_readParts_eq_error {diagnostic : Diagnostic}
    (h : readParts (stage :: stages) c = .error diagnostic) :
  ∃ stage' d failure, stage.reached stages c = (stage', d) ∧ stage'.readPart d = .error failure ∧
    diagnostic = failure.diagnostic stage'
  := by
  induction stages generalizing stage c with
  | nil =>
      rcases bind_eq_error.mp h with h | ⟨e, _, ⟨⟩⟩
      obtain ⟨failure, hfailure, rfl⟩ := during_eq_error.mp h
      exact ⟨stage, c, failure, rfl, hfailure, rfl⟩
  | cons next stages ih =>
      rcases bind_eq_error.mp h with h | ⟨e, he, h⟩
      · obtain ⟨failure, hfailure, rfl⟩ := during_eq_error.mp h
        use stage, c, failure
        simp only [reached, hfailure, and_self]
      · simp only [reached, during_eq_ok.mp he]
        exact ih h

/-- If all parts can be read, the last of them is reached. -/
theorem exists_reached_of_readParts (h : readParts (stage :: stages) c = .ok d) :
  ∃ e, stage.reached stages c = (stages.getLastD stage, e)
  := by
  induction stages generalizing stage c with
  | nil => exact ⟨c, rfl⟩
  | cons next stages ih =>
      obtain ⟨e, he, h⟩ := bind_eq_ok.mp h
      simp only [reached, during_eq_ok.mp he, List.getLastD_cons]
      exact ih h

/-- Of all parts, only a return clause fails for what is wrong with captures, and it does so if it
starts as a capture list. -/
theorem isOfCapture_of_readPart {failure : Failure} (h : stage.readPart c = .error failure) :
  failure.problem.isOfCapture ↔ stage = returnClause ∧ ReturnClause.atCaptureList c.trees
  := by
  by_cases hstage : stage = returnClause
  · subst hstage
    simp [ReturnClause.isOfCapture_of_read (map_eq_error.mp h)]
  · have hmismatch : FailsByMismatch (stage.readPart c) := by
      cases stage
      case returnClause => contradiction
      all_goals
        simp [readPart, Generics.failsByMismatch_read, ParamList.failsByMismatch_read,
          WhereClause.failsByMismatch_read, failsByMismatch_readEnding]
    have hproblem := hmismatch failure h
    simp only [Problem.isMismatch, Bool.not_eq_true'] at hproblem
    simp [hstage, hproblem]

end Stage

/-- A problem of captures is of one kind wherever it arises, and any other is of the kind that
belongs to the part in which it arises. -/
theorem Problem.kind_eq (problem : Problem) (stage : Stage) :
  problem.kind stage =
    if problem.isOfCapture then .capture
    else if stage = .generics ∨ stage = .whereClause then .generics
    else .mismatch
  := by cases problem <;> cases stage <;> rfl

namespace FunctionItem

/-- A part, and what is read behind it, as moves of the cursor alone. -/
theorem map_during_bind {α β : Type} {stage : Stage} {x : Outcome α}
    {f : α → Except Diagnostic (β × Cursor)} {p : α → Cursor}
    {g : Cursor → Except Diagnostic Cursor} (hf : ∀ a, (f a).map (·.2) = g (p a)) :
  (x.during stage >>= f).map (·.2) = Outcome.during stage (x.map p) >>= g
  := by
  cases x with
  | ok a => exact hf a
  | error failure => rfl

/-- A function item is read part by part. -/
theorem map_read (c : Cursor) :
  (FunctionItem.read c).map (·.2) = Stage.readParts (.item :: Stage.inOrder) c
  := by
  apply map_during_bind
  rintro ⟨fnToken, c⟩
  apply map_during_bind
  rintro ⟨nameToken, c⟩
  apply map_during_bind
  rintro ⟨generics, c⟩
  apply map_during_bind
  rintro ⟨params, c⟩
  apply map_during_bind
  rintro ⟨returns, c⟩
  apply map_during_bind
  rintro ⟨whereClause, c⟩
  apply map_during_bind
  rintro ⟨ending, stop, c⟩
  rfl

/-- A text that is not a function item is refused for what is wrong with the part that is reached.
-/
theorem exists_failure_of_ofTrees {file : String} {trees : List TokenTree} {rejection : Rejection}
    (h : ofTrees file trees = .error rejection) :
  ∃ (stage : Stage) (c : Cursor) (failure : Failure),
    Stage.item.reached Stage.inOrder (.ofTrees file trees) = (stage, c) ∧
    rejection = [failure.diagnostic stage] ∧
    (failure.problem.isOfCapture ↔ stage = .returnClause ∧ ReturnClause.atCaptureList c.trees)
  := by
  rw [ofTrees.eq_def] at h
  have hparts := map_read (.ofTrees file trees)
  split at h
  case h_1 item c hread =>
    rw [hread] at hparts
    obtain ⟨e, hreached⟩ := Stage.exists_reached_of_readParts hparts.symm
    rcases ite_eq_iff.mp h with ⟨-, h⟩ | ⟨-, h⟩
    · cases h
    · cases h
      use .body, e, ⟨.afterItem c.peek, c.span⟩, hreached, rfl
      simp [Problem.isOfCapture]
  case h_2 diagnostic hread =>
    rw [hread] at hparts
    obtain ⟨stage, c, failure, hreached, hpart, rfl⟩ :=
      Stage.exists_of_readParts_eq_error hparts.symm
    cases h
    exact ⟨stage, c, failure, hreached, rfl, Stage.isOfCapture_of_readPart hpart⟩

end FunctionItem

end ReturnCaptures
