import ReturnCaptures.Expansion.Source

/-!
# The errors of an expansion

A list of names can always answer whether it has a name, while a text cannot answer if there is no
name, and other values cannot answer at all. If what marks items is given as lists, then no scan
comes to a place where it cannot tell whether an item is marked. Every rejection has at least one
diagnostic.
-/

namespace ReturnCaptures

open TokenTree

/-! ### Names that are given as lists -/

/-- Whether the set is given as a list of names. -/
def NameSet.isList : NameSet → Bool
  | members _ => true
  | _ => false

theorem NameSet.exists_has?_eq {set : NameSet} (h : set.isList) (name : Option String) :
  ∃ answer, set.has? name = some answer
  := by
  cases set with
  | members names => exact ⟨_, has?_members names name⟩
  | partsOf _ => cases h
  | unusable => cases h

/-- Whether all that marks items is given as lists of names. -/
def Markers.areLists (markers : Markers) : Bool :=
  markers.macros.isList && markers.attributes.isList

theorem exists_site?_eq {markers : Markers} (h : markers.areLists) (trees : List TokenTree) :
  ∃ site, site? markers trees = some site
  := by
  rw [Markers.areLists, Bool.and_eq_true] at h
  obtain ⟨call, hcall⟩ : ∃ call, invocation? markers trees = some call := by
    obtain ⟨marked, hmarked⟩ := NameSet.exists_has?_eq h.1 ((pathName? trees).map (·.1))
    rw [invocation?, hmarked]
    exact ⟨_, rfl⟩
  obtain ⟨marked, hmarked⟩ : ∃ marked, atMarkerAttribute? markers trees = some marked := by
    rw [atMarkerAttribute?.eq_def]
    split
    · split
      case isTrue inside _ _ _ _ =>
        obtain ⟨marked, hmarked⟩ := NameSet.exists_has?_eq h.2 ((pathName? inside).map (·.1))
        rw [namesMarker?, hmarked]
        exact ⟨_, rfl⟩
      case isFalse => exact ⟨_, rfl⟩
    · exact ⟨_, rfl⟩
  rw [site?, hcall]
  cases call with
  | some call => exact ⟨_, rfl⟩
  | none =>
      rw [hmarked]
      exact ⟨_, rfl⟩

/-! ### Rejections -/

namespace Outcome

variable {α β : Type}

/-- What an outcome is rejected with has at least one diagnostic. -/
def IsDiagnosed (x : Except Rejection α) : Prop :=
  ∀ rejection, x = .error rejection → rejection ≠ []

theorem isDiagnosed_ok (a : α) :
  IsDiagnosed (.ok a)
  := by
  rintro _ ⟨⟩

theorem isDiagnosed_singleton (d : Diagnostic) :
  IsDiagnosed (.error [d] : Except Rejection α)
  := by
  rintro _ ⟨⟩
  apply List.cons_ne_nil

theorem IsDiagnosed.bind {x : Except Rejection α} {f : α → Except Rejection β} (hx : IsDiagnosed x)
    (hf : ∀ a, IsDiagnosed (f a)) :
  IsDiagnosed (x >>= f)
  := by
  cases x with
  | ok a => apply hf
  | error rejection =>
      rintro _ ⟨⟩
      apply hx rejection rfl

end Outcome

open Outcome

theorem isDiagnosed_tokensOf (file : String) (text : List Char) :
  IsDiagnosed (tokensOf file text)
  := by
  rw [tokensOf]
  split
  case h_1 => apply isDiagnosed_ok
  case h_2 hfaults =>
    rintro _ ⟨⟩
    apply hfaults

theorem TokenTree.isDiagnosed_ofText (file : String) (text : List Char) :
  IsDiagnosed (ofText file text)
  := by
  apply (isDiagnosed_tokensOf file text).bind
  intro tokens
  rw [ofTokens]
  cases read [] [] tokens with
  | ok trees => apply isDiagnosed_ok
  | error d => apply isDiagnosed_singleton

namespace FunctionItem

theorem isDiagnosed_ofTrees (file : String) (trees : List TokenTree) :
  IsDiagnosed (ofTrees file trees)
  := by
  rw [ofTrees]
  split
  case h_1 =>
    split
    case isTrue => apply isDiagnosed_ok
    case isFalse => apply isDiagnosed_singleton
  case h_2 => apply isDiagnosed_singleton

theorem isDiagnosed_readAt (file : String) (trees : List TokenTree) (start : Nat) :
  IsDiagnosed (readAt file trees start)
  := by
  rw [readAt]
  split
  case h_1 => apply isDiagnosed_ok
  case h_2 => apply isDiagnosed_singleton

theorem isDiagnosed_ofText (file : String) (text : List Char) :
  IsDiagnosed (ofText file text)
  := by
  apply (TokenTree.isDiagnosed_ofText file text).bind
  apply isDiagnosed_ofTrees

end FunctionItem

/-! ### Errors -/

/-- An error that an expansion may end in: a rejection with at least one diagnostic or, if what
marks items is not given as lists, the lack of an answer. -/
def Markers.Excuse (markers : Markers) : ExpansionError → Prop
  | .rejected rejection => rejection ≠ []
  | .unusableMarkers => markers.areLists = false

namespace Recording

variable {α β : Type} {markers : Markers}

/-- A computation that ends in no other errors than the excused ones. -/
def IsExcused (markers : Markers) (x : Recording α) : Prop :=
  ∀ s cause s', x.run s = .error cause s' → markers.Excuse cause

theorem isExcused_pure (a : α) :
  (pure a : Recording α).IsExcused markers
  := by
  rintro s cause s' ⟨⟩

theorem isExcused_record (name : String) :
  (record name).IsExcused markers
  := by
  rintro s cause s' ⟨⟩

theorem isExcused_ofExcept {x : Except Rejection α} (h : IsDiagnosed x) :
  (ofExcept x).IsExcused markers
  := by
  intro s cause s' hrun
  cases x with
  | ok a => cases hrun
  | error rejection =>
      cases hrun
      apply h rejection rfl

theorem IsExcused.bind {x : Recording α} {f : α → Recording β} (hx : x.IsExcused markers)
    (hf : ∀ a, (f a).IsExcused markers) :
  (x >>= f).IsExcused markers
  := by
  intro s cause s' h
  simp only [EStateM.run, Bind.bind, EStateM.bind] at h
  cases hrun : x s with
  | ok a s'' =>
      rw [hrun] at h
      apply hf a s'' cause s' h
  | error cause' s'' =>
      rw [hrun] at h
      cases h
      apply hx s cause s' hrun

end Recording

namespace Source

open Recording

variable {source : Source} {inside : List TokenTree → Recording (List Edit)}

theorem isExcused_expansionWith (hinside : ∀ trees, (inside trees).IsExcused source.markers)
    (item : FunctionItem) :
  (source.expansionWith inside item).IsExcused source.markers
  := by
  apply (isExcused_record _).bind
  intro _
  apply (hinside _).bind
  intro _
  apply isExcused_pure

theorem isExcused_site (hinside : ∀ trees, (inside trees).IsExcused source.markers)
    {later : Recording (List Edit)} (hlater : later.IsExcused source.markers) {item : FunctionItem}
    {start stop : Nat} :
  (do
    let replacement ← source.expansionWith inside item
    let edits ← later
    return ⟨start, stop, replacement⟩ :: edits : Recording (List Edit)).IsExcused source.markers
  := by
  apply (isExcused_expansionWith hinside item).bind
  intro replacement
  apply hlater.bind
  intro edits
  apply isExcused_pure

/-- A scan ends in no other errors than the excused ones. -/
theorem isExcused_siblingEdits (hinside : ∀ trees, (inside trees).IsExcused source.markers)
    (skip : Nat) (trees : List TokenTree) :
  (source.siblingEdits inside skip trees).IsExcused source.markers
  := by
  induction trees generalizing skip with
  | nil =>
      rw [siblingEdits]
      apply isExcused_pure
  | cons tree rest ih =>
      cases skip with
      | succ skip =>
          rw [siblingEdits]
          apply ih
      | zero =>
          rw [siblingEdits.eq_def]
          dsimp only
          cases hsite : site? source.markers (tree :: rest) with
          | none =>
              rintro s cause s' ⟨⟩
              apply Bool.eq_false_iff.mpr
              intro hlists
              obtain ⟨site, hsite'⟩ := exists_site?_eq hlists (tree :: rest)
              rw [hsite] at hsite'
              cases hsite'
          | some site =>
              obtain call | _ | _ := site
              · apply (isExcused_ofExcept (FunctionItem.isDiagnosed_ofTrees _ _)).bind
                intro item
                apply isExcused_site hinside (ih _)
              · apply (isExcused_ofExcept (FunctionItem.isDiagnosed_readAt _ _ _)).bind
                rintro ⟨item, next⟩
                apply isExcused_site hinside (ih _)
              · cases tree with
                | token t => apply ih
                | group d inner opening closing =>
                    apply (hinside inner).bind
                    intro edits
                    apply (ih 0).bind
                    intro later
                    apply isExcused_pure

theorem isExcused_editsTo (depth : Nat) (trees : List TokenTree) :
  (source.editsTo depth trees).IsExcused source.markers
  := by
  induction depth generalizing trees with
  | zero =>
      apply isExcused_siblingEdits
      intro _
      apply isExcused_pure
  | succ depth ih => apply isExcused_siblingEdits ih

theorem isExcused_expand (source : Source) :
  source.expand.IsExcused source.markers
  := by
  apply (isExcused_ofExcept (TokenTree.isDiagnosed_ofText _ _)).bind
  intro trees
  apply (isExcused_editsTo _ _).bind
  intro edits
  apply isExcused_pure

theorem isExcused_expandItem (source : Source) :
  source.expandItem.IsExcused source.markers
  := by
  apply (isExcused_ofExcept (FunctionItem.isDiagnosed_ofText _ _)).bind
  intro item
  apply isExcused_expansionWith
  intro trees
  apply isExcused_editsTo

end Source

end ReturnCaptures
