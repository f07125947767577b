import ReturnCaptures.Expansion.Source
import ReturnCaptures.Proofs.CheckedSteps

/-!
# Marked sites are found without a slip

What marks an item is looked for at every tree of a text. With every step checked, the paths of
macros and attributes and what follows them are read to the same outcome, whatever the trees are.
-/

namespace ReturnCaptures

open TokenTree Checked

variable {ε : Type} {trees : List TokenTree}

/-- The trees behind the first one. -/
def checkedRest : List TokenTree → Checked ε (List TokenTree)
  | [] => slip .pastTrees
  | _ :: rest => .ok rest

theorem checkedRest_eq (h : trees ≠ []) :
  (checkedRest trees : Checked ε _) = .ok (trees.drop 1)
  := by
  cases trees with
  | nil => contradiction
  | cons tree rest => rfl

theorem ne_nil_of_atGroup {delimiter : Delimiter} (h : atGroup delimiter trees) :
  trees ≠ []
  := by
  rintro rfl
  cases h

/-! ### Paths -/

/-- The word that trees start with, and the trees behind it. -/
def checkedWord : List TokenTree → Checked ε (String × List TokenTree)
  | .token t :: rest => .ok (t.text, rest)
  | _ => slip .pastTrees

/-- The last segment of a path whose segment `name` has just been read, and the trees after the
path; less than `bound` segments follow. -/
def checkedPathEnd : (bound : Nat) → (name : String) → List TokenTree →
    Checked ε (String × List TokenTree)
  | 0, _, _ => slip .pastBound
  | bound + 1, name, trees => do
    if atOperator [':', ':'] trees && atPathStart (trees.drop 2) then
      let (name, rest) ← checkedWord (trees.drop 2)
      checkedPathEnd bound name rest
    else return (name, trees)

/-- What a look at a further segment of a path sees. -/
theorem exists_of_atSegment (h : atOperator [':', ':'] trees && atPathStart (trees.drop 2)) :
  ∃ colon colon' t rest, trees = colon :: colon' :: .token t :: rest ∧
    atOperator [':', ':'] [colon, colon'] && t.lexeme.isPathWord
  := by
  rw [Bool.and_eq_true] at h
  obtain ⟨colon, colon', r, rfl, hoperator⟩ := Cursor.exists_of_atOperator h.1
  obtain ⟨t, rest, rfl, hword⟩ := Cursor.exists_of_atLexeme h.2
  use colon, colon', t, rest, rfl
  rw [hoperator, hword]
  rfl

theorem pathEnd_of_not {name : String}
    (h : ¬ (atOperator [':', ':'] trees && atPathStart (trees.drop 2))) :
  pathEnd name trees = (name, trees)
  := by
  unfold pathEnd
  split
  case h_1 colon colon' t rest =>
    rw [if_neg]
    rwa [atOperator_cons_cons] at h
  case h_2 => rfl

theorem checkedPathEnd_eq {bound : Nat} (name : String) (hbound : trees.length < bound) :
  (checkedPathEnd bound name trees : Checked ε _) = .ok (pathEnd name trees)
  := by
  induction bound generalizing name trees with
  | zero => cases hbound
  | succ bound ih =>
      rw [checkedPathEnd]
      split
      case isTrue hsegment =>
        obtain ⟨colon, colon', t, rest, rfl, hpath⟩ := exists_of_atSegment hsegment
        rw [pathEnd, if_pos hpath]
        apply ih
        simp only [List.length_cons] at hbound
        omega
      case isFalse hsegment =>
        rw [pathEnd_of_not hsegment]
        rfl

/-- The last segment of the path that trees start with, and the trees after the path. -/
def checkedPathName (trees : List TokenTree) : Checked ε (Option (String × List TokenTree)) := do
  let trees := if atOperator [':', ':'] trees then trees.drop 2 else trees
  if atPathStart trees then
    let (name, rest) ← checkedWord trees
    return some (← checkedPathEnd (rest.length + 1) name rest)
  else return none

theorem checkedPathName_eq (trees : List TokenTree) :
  (checkedPathName trees : Checked ε _) = .ok (pathName? trees)
  := by
  rw [checkedPathName, pathName?]
  rcases (if atOperator [':', ':'] trees then trees.drop 2 else trees) with _ | ⟨t | _, rest⟩
  · rfl
  · by_cases hword : t.lexeme.isPathWord
    · simp only [hword, if_true]
      rw [if_pos (by exact hword)]
      apply ok_bind_eq (checkedPathEnd_eq t.text (Nat.lt_succ_self _)) rfl
    · simp only [hword]
      rw [if_neg (by exact hword)]
      rfl
  · rfl

/-! ### Calls and attributes -/

/-- The call whose macro is named in front of the trees. -/
def checkedCall (trees : List TokenTree) : Checked ε (Option Invocation) := do
  if atSingle '!' trees then
    let rest ← checkedRest trees
    match rest with
    | .group delimiter inner opening closing :: _ =>
      return some (.ofArguments ⟨delimiter, inner, opening, closing⟩ (← checkedRest rest))
    | _ => return none
  else return none

theorem checkedCall_eq (trees : List TokenTree) :
  (checkedCall trees : Checked ε _) = .ok (Invocation.after? trees)
  := by
  rw [checkedCall, Invocation.after?.eq_def]
  split
  case isTrue hbang =>
    obtain ⟨tree, rest, rfl⟩ := List.exists_cons_of_ne_nil (Cursor.ne_nil_of_atSingle hbang)
    rcases rest with _ | ⟨_ | _, rest⟩ <;> rfl
  case isFalse => rfl

/-- The call of a marker macro that trees start with, if there is one; `none` if the set of macro
names cannot answer. -/
def checkedInvocation (markers : Markers) (trees : List TokenTree) :
    Checked ε (Option (Option Invocation)) := do
  let path ← checkedPathName trees
  match markers.macros.has? (path.map (·.1)), path with
  | none, _ => return none
  | some true, some p => return some (← checkedCall p.2)
  | some _, _ => return some none

theorem checkedInvocation_eq (markers : Markers) (trees : List TokenTree) :
  (checkedInvocation markers trees : Checked ε _) = .ok (invocation? markers trees)
  := by
  apply ok_bind_eq (checkedPathName_eq trees)
  rw [invocation?]
  rcases markers.macros.has? _ with _ | _ | _
  · rfl
  · rfl
  · cases pathName? trees with
    | none => rfl
    | some p => apply ok_bind_eq (checkedCall_eq p.2) rfl

/-- Whether the inside of an attribute names a marker, possibly with arguments; `none` if the set of
attribute names cannot answer. -/
def checkedNamesMarker (markers : Markers) (inner : List TokenTree) : Checked ε (Option Bool) := do
  let path ← checkedPathName inner
  match markers.attributes.has? (path.map (·.1)), path with
  | none, _ => return none
  | some true, some p => do
    if atGroup .paren p.2 then return some (← checkedRest p.2).isEmpty
    else return some p.2.isEmpty
  | some _, _ => return some false

theorem checkedNamesMarker_eq (markers : Markers) (inner : List TokenTree) :
  (checkedNamesMarker markers inner : Checked ε _) = .ok (namesMarker? markers inner)
  := by
  apply ok_bind_eq (checkedPathName_eq inner)
  rw [namesMarker?]
  rcases markers.attributes.has? _ with _ | _ | _
  · rfl
  · rfl
  · cases pathName? inner with
    | none => rfl
    | some p =>
        by_cases hparen : atGroup .paren p.2
        · simp only [Option.any_some, if_pos hparen]
          apply ok_bind_eq (checkedRest_eq (ne_nil_of_atGroup hparen)) rfl
        · simp only [Option.any_some, if_neg hparen]
          rfl

/-- Whether trees start with a marker attribute. -/
def checkedMarkerAttribute (markers : Markers) (trees : List TokenTree) :
    Checked ε (Option Bool) := do
  if atPunct '#' trees && atGroup .bracket (trees.drop 1) then
    match ← checkedRest trees with
    | .group _ inner _ _ :: _ => checkedNamesMarker markers inner
    | _ => slip .pastTrees
  else return some false

theorem checkedMarkerAttribute_eq (markers : Markers) (trees : List TokenTree) :
  (checkedMarkerAttribute markers trees : Checked ε _) = .ok (atMarkerAttribute? markers trees)
  := by
  rw [checkedMarkerAttribute, atMarkerAttribute?.eq_def]
  rcases trees with _ | ⟨hash, _ | ⟨_ | ⟨d, inside, opening, closing⟩, rest⟩⟩
  · rfl
  · rw [if_neg (by simp [atGroup])]
    rfl
  · rw [if_neg (by simp [atGroup])]
    rfl
  · cases d with
    | bracket =>
        rw [atPunct_cons]
        dsimp only
        by_cases hhash : atPunct '#' [hash]
        · rw [if_pos hhash, if_pos (by simpa [atGroup] using hhash)]
          apply checkedNamesMarker_eq
        · rw [if_neg hhash, if_neg (by simp [hhash])]
          rfl
    | _ =>
        rw [if_neg (by simp [atGroup])]
        rfl

/-- What trees start with; `none` if a set of marker names that is asked cannot answer. -/
def checkedSite (markers : Markers) (trees : List TokenTree) : Checked ε (Option Site) := do
  match ← checkedInvocation markers trees with
  | none => return none
  | some (some call) => return some (.invocation call)
  | some none =>
    match ← checkedMarkerAttribute markers trees with
    | none => return none
    | some marked => return some (if marked then .attribute else .unmarked)

theorem checkedSite_eq (markers : Markers) (trees : List TokenTree) :
  (checkedSite markers trees : Checked ε _) = .ok (site? markers trees)
  := by
  apply ok_bind_eq (checkedInvocation_eq markers trees)
  rw [site?]
  cases invocation? markers trees with
  | none => rfl
  | some call =>
      cases call with
      | some call => rfl
      | none =>
          apply ok_bind_eq (checkedMarkerAttribute_eq markers trees)
          cases atMarkerAttribute? markers trees <;> rfl

end ReturnCaptures
