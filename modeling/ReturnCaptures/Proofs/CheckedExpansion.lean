import ReturnCaptures.Proofs.CheckedSites
import ReturnCaptures.Proofs.CheckedTexts
import ReturnCaptures.Proofs.ExpansionErrors
import ReturnCaptures.Proofs.Sites

/-!
# Expanding never slips

A checked expansion of a text cuts the text into tokens, looks for marked sites, reads the items
there, looks for more of them inside, and writes them, all with every step checked. It comes to the
same text, the same error and the same recorded names as the expansion without the checks. By this
an expansion ends in a text or in a rejection with at least one diagnostic, unless it cannot tell
whether an item is marked.
-/

namespace ReturnCaptures

open TokenTree

/-- Checked computations that may fail and that record names on the way. -/
abbrev CheckedRecording := EStateM (Slip ⊕ ExpansionError) (List String)

namespace CheckedRecording

variable {α β : Type}

/-- A computation that goes on without a slip. -/
def of (x : Recording α) : CheckedRecording α := fun names =>
  match x.run names with
  | .ok a names => .ok a names
  | .error cause names => .error (.inr cause) names

/-- Takes up a checked outcome that records nothing. -/
def ofChecked : Checked Rejection α → CheckedRecording α
  | .ok a => pure a
  | .error (.inl cause) => throw (.inl cause)
  | .error (.inr rejection) => throw (.inr (.rejected rejection))

theorem ofChecked_eq {x : Checked Rejection α} {y : Except Rejection α} (hx : x = Checked.of y) :
  ofChecked x = of (Recording.ofExcept y)
  := by
  subst hx
  cases y <;> rfl

/-- A chain of two computations does not slip if neither of them does. -/
theorem bind_eq_of {x : CheckedRecording α} {y : Recording α} {f : α → CheckedRecording β}
    {g : α → Recording β} (hx : x = of y)
    (hf : ∀ a s s', y.run s = .ok a s' → f a = of (g a)) :
  x >>= f = of (y >>= g)
  := by
  subst hx
  funext s
  simp only [bind, EStateM.bind, of, EStateM.run]
  cases hy : y s with
  | ok a s' =>
      dsimp only
      rw [hf a s s' hy]
      rfl
  | error cause s' => rfl

/-- A step of which it is sure what it gives, and the step after it. -/
theorem ofChecked_bind_eq {x : Checked Rejection α} {a : α} {f : α → CheckedRecording β}
    {y : CheckedRecording β} (hx : x = .ok a) (hf : f a = y) :
  ofChecked x >>= f = y
  := by
  subst hx
  apply hf

end CheckedRecording

open CheckedRecording

/-! ### The trees of an item -/

section Told

variable {trees : List TokenTree} {c d : Cursor} {item : FunctionItem}

theorem TokenTree.AreTold.of_mem {g : Group} (h : AreTold trees) (hg : g.tree ∈ trees) :
  AreTold g.trees
  := by
  obtain ⟨u, v, rfl⟩ := List.append_of_mem hg
  apply AreTold.of_group (h.of_isSuffix (List.suffix_append u _))

theorem FunctionItem.areTold_body (h : read c = .ok (item, d)) (hc : AreTold c.trees) :
  ∀ body ∈ item.body?, AreTold body.trees
  := by
  intro body hbody
  obtain ⟨s⟩ := nonempty_steps h
  apply hc.of_mem
  rw [s.reads.trees]
  cases hending : item.ending with
  | semicolon => simp [body?, hending, Ending.body?] at hbody
  | body group =>
      obtain rfl : group = body := by simpa [body?, hending, Ending.body?] using hbody
      simp [Ending.tree]

theorem Expansion.areTold_openTrees {x : Expansion}
    (h : ∀ body ∈ x.item.body?, AreTold body.trees) :
  AreTold x.openTrees
  := by
  rw [openTrees]
  cases hbody : x.item.body? with
  | none => simp [AreTold, tokensAll]
  | some body =>
      cases x.declaration with
      | none => apply h body hbody
      | some _ =>
          apply (h body hbody).of_isSuffix
          use (splitInnerAttributes body.trees).1
          apply append_splitInnerAttributes

end Told

/-- The function item that a text holds. -/
def FunctionItem.checkedOfText (file : String) (text : List Char) :
    Checked Rejection FunctionItem := do
  checkedOf file (← checkedTrees file text)

theorem FunctionItem.checkedOfText_eq (file : String) (text : List Char) :
  checkedOfText file text = Checked.of (ofText file text)
  := by
  apply Checked.bind_eq_of (checkedTrees_eq file text)
  intro trees htrees
  apply checkedOf_eq (areTold_of_ofText htrees)

namespace Source

variable {source : Source} {inside : List TokenTree → Recording (List Edit)}
  {checked : List TokenTree → CheckedRecording (List Edit)} {n : Nat} {trees : List TokenTree}

/-! ### Scanning -/

/-- The text of an item's expansion; `inside` gives the edits in the trees of its body. -/
def checkedExpansionWith (source : Source)
    (inside : List TokenTree → CheckedRecording (List Edit)) (item : FunctionItem) :
    CheckedRecording (List Char) := do
  of (Recording.record item.name)
  let x := Expansion.ofItem item
  let trees ← ofChecked x.checkedOpenTrees
  let edits ← inside trees
  ofChecked (x.checkedTextWith source.text edits)

/-- The edits in a list of sibling trees of which the first `skip` belong to an edit already found;
`inside` gives those in the trees of a group. -/
def checkedSiblings (source : Source) (inside : List TokenTree → CheckedRecording (List Edit)) :
    (skip : Nat) → List TokenTree → CheckedRecording (List Edit)
  | _, [] => return []
  | skip + 1, _ :: rest => source.checkedSiblings inside skip rest
  | 0, tree :: rest => do
    match ← ofChecked (checkedSite source.markers (tree :: rest)) with
    | none => throw (.inr .unusableMarkers)
    | some (.invocation call) => do
      let item ← ofChecked (FunctionItem.checkedOf source.file call.arguments.trees)
      let replacement ← source.checkedExpansionWith inside item
      let edits ← source.checkedSiblings inside (rest.length - call.after.length) rest
      return ⟨tree.span.start, call.stop, replacement⟩ :: edits
    | some .attribute => do
      let (item, next) ← ofChecked (FunctionItem.checkedAt source.file (tree :: rest) 2)
      let replacement ← source.checkedExpansionWith inside item
      let edits ← source.checkedSiblings inside (next - 1) rest
      return ⟨tree.span.start, item.span.stop, replacement⟩ :: edits
    | some .unmarked =>
      match tree with
      | .token _ => source.checkedSiblings inside 0 rest
      | .group _ inner _ _ => do
        let edits ← inside inner
        return edits ++ (← source.checkedSiblings inside 0 rest)

/-- The edits in trees that are nested at most `depth` deep. -/
def checkedEditsTo (source : Source) : (depth : Nat) → List TokenTree →
    CheckedRecording (List Edit)
  | 0 => source.checkedSiblings (fun _ => throw (.inl .pastBound)) 0
  | depth + 1 => source.checkedSiblings (source.checkedEditsTo depth) 0

/-- The edits in trees. -/
def checkedEdits (source : Source) (trees : List TokenTree) : CheckedRecording (List Edit) :=
  source.checkedEditsTo (depthAll trees) trees

/-- The whole text with every marked item expanded. -/
def checkedExpand (source : Source) : CheckedRecording (List Char) := do
  let trees ← ofChecked (checkedTrees source.file source.text)
  return splice source.text 0 source.text.length (← source.checkedEdits trees)

/-- The text of a single function item, expanded, with every marked item in its body expanded
too. -/
def checkedExpandItem (source : Source) : CheckedRecording (List Char) := do
  let item ← ofChecked (FunctionItem.checkedOfText source.file source.text)
  source.checkedExpansionWith source.checkedEdits item

/-- A checked way to find the edits in trees less than `n` deep comes to the same as one without the
checks. -/
def Keeps (n : Nat) (checked : List TokenTree → CheckedRecording (List Edit))
    (inside : List TokenTree → Recording (List Edit)) : Prop :=
  ∀ trees, AreTold trees → depthAll trees < n → checked trees = of (inside trees)

theorem checkedExpansionWith_eq {item : FunctionItem}
    (hbody : ∀ body ∈ item.body?, AreTold body.trees)
    (hinside : checked (Expansion.ofItem item).openTrees =
      of (inside (Expansion.ofItem item).openTrees)) :
  source.checkedExpansionWith checked item = of (source.expansionWith inside item)
  := by
  rw [← Expansion.item_ofItem item] at hbody
  apply CheckedRecording.bind_eq_of rfl
  intro _ _ _ _
  apply ofChecked_bind_eq (Expansion.checkedOpenTrees_eq hbody)
  apply CheckedRecording.bind_eq_of hinside
  intro edits _ _ _
  rw [Expansion.checkedTextWith_eq hbody]
  rfl

/-- The edit of a marked site, and those of what follows it. -/
theorem checkedSite_edit_eq (hinside : Keeps n checked inside) {item : FunctionItem} {c d : Cursor}
    {start stop : Nat} (hread : FunctionItem.read c = .ok (item, d)) (htold : AreTold c.trees)
    (hdepth : depthAll c.trees ≤ n) {later' : CheckedRecording (List Edit)}
    {later : Recording (List Edit)} (hlater : later' = of later) :
  (do
    let replacement ← source.checkedExpansionWith checked item
    let edits ← later'
    return ⟨start, stop, replacement⟩ :: edits : CheckedRecording (List Edit)) =
  of (do
    let replacement ← source.expansionWith inside item
    let edits ← later
    return ⟨start, stop, replacement⟩ :: edits)
  := by
  have hbody := FunctionItem.areTold_body hread htold
  apply CheckedRecording.bind_eq_of
  · apply checkedExpansionWith_eq hbody
    apply hinside
    · apply Expansion.areTold_openTrees
      rwa [Expansion.item_ofItem]
    · apply Nat.lt_of_lt_of_le (FunctionItem.depthAll_openTrees_lt hread) hdepth
  intro _ _ _ _
  apply CheckedRecording.bind_eq_of hlater
  intro _ _ _ _
  rfl

/-- No scan of siblings slips if none does of the trees that are less deep. -/
theorem checkedSiblings_eq (hinside : Keeps n checked inside) (h : AreTold trees)
    (hdepth : depthAll trees ≤ n) (skip : Nat) :
  source.checkedSiblings checked skip trees = of (source.siblingEdits inside skip trees)
  := by
  induction trees generalizing skip with
  | nil => cases skip <;> rfl
  | cons tree rest ih =>
      have hrest := h.of_isSuffix (List.suffix_cons tree rest)
      have hdepth' : depthAll rest ≤ n :=
        (depthAll_le_of_isSuffix (List.suffix_cons tree rest)).trans hdepth
      have hlater := ih hrest hdepth'
      cases skip with
      | succ skip => apply hlater
      | zero =>
          rw [checkedSiblings.eq_def, siblingEdits.eq_def]
          apply ofChecked_bind_eq (checkedSite_eq source.markers (tree :: rest))
          dsimp only
          cases hsite : site? source.markers (tree :: rest) with
          | none => rfl
          | some site =>
              obtain call | _ | _ := site
              · have hmem : call.arguments.tree ∈ tree :: rest := by
                  obtain ⟨_, path, bang, rest', htrees, _⟩ := site?_eq_invocation.mp hsite
                  rw [htrees]
                  simp
                have hcall := h.of_mem hmem
                apply CheckedRecording.bind_eq_of
                  (ofChecked_eq (FunctionItem.checkedOf_eq hcall source.file))
                intro item _ _ hitem
                obtain ⟨hitem, _⟩ := Recording.ofExcept_run_eq_ok.mp hitem
                obtain ⟨d, hread, _⟩ := FunctionItem.ofTrees_eq_ok.mp hitem
                apply checkedSite_edit_eq hinside hread hcall _ (hlater _)
                apply Nat.le_trans _ hdepth
                apply Nat.le_of_lt (Group.depthAll_lt_of_mem hmem)
              · apply CheckedRecording.bind_eq_of
                  (ofChecked_eq (FunctionItem.checkedAt_eq h source.file 2))
                rintro ⟨item, next⟩ _ _ hitem
                obtain ⟨hitem, _⟩ := Recording.ofExcept_run_eq_ok.mp hitem
                obtain ⟨d, hread, _⟩ := FunctionItem.readAt_eq_ok.mp hitem
                have hsuffix := List.drop_suffix 2 (tree :: rest)
                apply checkedSite_edit_eq hinside hread (h.of_isSuffix hsuffix) _ (hlater _)
                apply (depthAll_le_of_isSuffix hsuffix).trans hdepth
              · cases tree with
                | token t => apply hlater
                | group d inner opening closing =>
                    apply CheckedRecording.bind_eq_of
                    · apply hinside inner h.of_group
                      rw [depthAll, depth] at hdepth
                      omega
                    · intro _ _ _ _
                      apply CheckedRecording.bind_eq_of (hlater 0)
                      intro _ _ _ _
                      rfl

theorem keeps_editsTo (n : Nat) :
  Keeps (n + 1) (source.checkedEditsTo n) (source.editsTo n)
  := by
  induction n with
  | zero =>
      intro trees h hdepth
      have hnone : Keeps 0 (fun _ => throw (.inl .pastBound)) (fun _ => return []) := by
        intro _ _ hdepth
        cases hdepth
      apply checkedSiblings_eq hnone h (Nat.le_of_lt_succ hdepth)
  | succ n ih =>
      intro trees h hdepth
      apply checkedSiblings_eq ih h (Nat.le_of_lt_succ hdepth)

theorem checkedEdits_eq (h : AreTold trees) :
  source.checkedEdits trees = of (source.edits trees)
  := keeps_editsTo _ trees h (Nat.lt_succ_self _)

/-- Expanding a text with every step checked comes to what it comes to without the checks. -/
theorem checkedExpand_eq (source : Source) :
  source.checkedExpand = of source.expand
  := by
  apply CheckedRecording.bind_eq_of (ofChecked_eq (checkedTrees_eq source.file source.text))
  intro trees _ _ htrees
  obtain ⟨htrees, _⟩ := Recording.ofExcept_run_eq_ok.mp htrees
  apply CheckedRecording.bind_eq_of (checkedEdits_eq (areTold_of_ofText htrees))
  intro _ _ _ _
  rfl

/-- Expanding an item with every step checked comes to what it comes to without the checks. -/
theorem checkedExpandItem_eq (source : Source) :
  source.checkedExpandItem = of source.expandItem
  := by
  apply CheckedRecording.bind_eq_of
    (ofChecked_eq (FunctionItem.checkedOfText_eq source.file source.text))
  intro item _ _ hitem
  obtain ⟨hitem, _⟩ := Recording.ofExcept_run_eq_ok.mp hitem
  obtain ⟨trees, htrees, hitem⟩ := Outcome.bind_eq_ok.mp hitem
  obtain ⟨d, hread, _⟩ := FunctionItem.ofTrees_eq_ok.mp hitem
  have hbody := FunctionItem.areTold_body hread (areTold_of_ofText htrees)
  apply checkedExpansionWith_eq hbody
  apply checkedEdits_eq
  apply Expansion.areTold_openTrees
  rwa [Expansion.item_ofItem]

/-! ### Outcomes -/

/-- An outcome that is a text, a rejection with at least one diagnostic or, if what marks items is
not given as lists, the lack of an answer. -/
inductive Settles (source : Source) : Except ExpansionError (List Char) → Prop
  | text (text : List Char) : Settles source (.ok text)
  | error {cause : ExpansionError} : source.markers.Excuse cause → Settles source (.error cause)

theorem settles_of_isExcused {x : Recording (List Char)} (h : x.IsExcused source.markers) :
  source.Settles (outcome x)
  := by
  rw [outcome]
  cases hrun : x.run [] with
  | ok text s => apply Settles.text
  | error cause s => apply Settles.error (h [] cause s hrun)

/-- Expanding a text, or an item, comes to a text or to a rejection with at least one diagnostic, as
long as what marks items is given as lists. It never slips: nothing is taken behind the end of the
text or of a list of trees, nor from the end of an empty run, every documentation comment that is
looked at has a third character, a comma is there behind every capture but the last, and a line that
is not blank wherever an indentation is asked for. -/
theorem expand_settles (source : Source) :
  (source.checkedExpand = .of source.expand ∧ source.Settles (outcome source.expand)) ∧
  (source.checkedExpandItem = .of source.expandItem ∧ source.Settles (outcome source.expandItem))
  := by
  constructor
  · use source.checkedExpand_eq
    apply settles_of_isExcused source.isExcused_expand
  · use source.checkedExpandItem_eq
    apply settles_of_isExcused source.isExcused_expandItem

end Source

end ReturnCaptures
