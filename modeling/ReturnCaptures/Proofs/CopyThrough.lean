import ReturnCaptures.Proofs.Sites

/-!
# What an expansion copies

Expanding a source replaces one stretch of its text for every marked item that does not stand
inside another one: from the path of a call or the `#` of an attribute to the end of the call or
of the item. The stretches stand one behind the other, and everything outside of them is copied
once and in order.
-/

namespace ReturnCaptures

open TokenTree

/-! ### Stretches and gaps -/

/-- The stretches of a text that edits leave alone: in front of, between and behind them. -/
def gaps (text : List Char) : (start : Nat) → List Edit → List (List Char)
  | start, [] => [text.drop start]
  | start, edit :: edits => slice text start edit.start :: gaps text edit.stop edits

/-- Gaps with texts in between. -/
def fill : (gaps texts : List (List Char)) → List Char
  | gap :: gaps, text :: texts => gap ++ text ++ fill gaps texts
  | gaps, _ => gaps.flatten

/-- Edits that stand one behind the other between two offsets. -/
inductive Edit.Ordered : Nat → Nat → List Edit → Prop
  | nil {m n : Nat} : m ≤ n → Ordered m n []
  | cons {m n : Nat} {edit : Edit} {edits : List Edit} :
      m ≤ edit.start → edit.start < edit.stop → Ordered edit.stop n edits →
      Ordered m n (edit :: edits)

section Ordered

variable {m n k : Nat} {text : List Char} {edits edits' : List Edit}

theorem Edit.Ordered.le (h : Ordered m n edits) :
  m ≤ n
  := by
  induction h with
  | nil h => apply h
  | cons hm hlt _ ih => omega

theorem Edit.Ordered.of_le (h : Ordered m n edits) (hk : k ≤ m) :
  Ordered k n edits
  := by
  cases h with
  | nil h => apply Ordered.nil (Nat.le_trans hk h)
  | cons hm hlt h => apply Ordered.cons (Nat.le_trans hk hm) hlt h

theorem Edit.Ordered.append (h : Ordered m k edits) (h' : Ordered k n edits') :
  Ordered m n (edits ++ edits')
  := by
  induction h with
  | nil hle => apply h'.of_le hle
  | cons hm hlt _ ih => apply Ordered.cons hm hlt (ih h')

theorem Edit.Ordered.forall_mem (h : Ordered m n edits) :
  ∀ edit ∈ edits, m ≤ edit.start ∧ edit.start < edit.stop ∧ edit.stop ≤ n
  := by
  induction h with
  | nil => simp
  | cons hm hlt hrest ih =>
      rw [List.forall_mem_cons]
      use ⟨hm, hlt, hrest.le⟩
      intro edit hedit
      obtain ⟨hstart, hlt', hstop⟩ := ih edit hedit
      use by omega, hlt'

/-- Edits that stand one behind the other do not overlap. -/
theorem Edit.Ordered.pairwise (h : Ordered m n edits) :
  edits.Pairwise fun edit edit' => edit.stop ≤ edit'.start
  := by
  induction h with
  | nil => apply List.Pairwise.nil
  | cons _ _ hrest ih =>
      apply List.Pairwise.cons _ ih
      intro edit hedit
      apply (hrest.forall_mem edit hedit).1

/-- A text is its gaps with the stretches in between. -/
theorem fill_gaps (h : Edit.Ordered m n edits) :
  fill (gaps text m edits) (edits.map fun edit => slice text edit.start edit.stop) = text.drop m
  := by
  induction h with
  | nil => simp [gaps, fill]
  | cons hm hlt _ ih =>
      rw [gaps, List.map_cons, fill, ih, slice_append_slice hm (Nat.le_of_lt hlt),
        slice_append_drop (by omega)]

/-- Splicing puts the replacements into the gaps. -/
theorem splice_eq_fill (start : Nat) (edits : List Edit) :
  splice text start text.length edits = fill (gaps text start edits) (edits.map (·.replacement))
  := by
  induction edits generalizing start with
  | nil =>
      have hall : (text.drop start).take (text.length - start) = text.drop start :=
        List.take_of_length_le (Nat.le_of_eq List.length_drop)
      simp [slice, gaps, fill, hall]
  | cons edit edits ih => rw [splice, gaps, List.map_cons, fill, ih]

end Ordered

/-! ### The stretches of marked items -/

namespace Source

variable {source : Source} {trees : List TokenTree} {edits : List Edit} {names : List String}
  {m n : Nat}

/-- The edits of marked items stand one behind the other where the trees do. -/
theorem Marks.ordered (h : source.Marks trees edits names) (htrees : TokenTree.Ordered m n trees) :
  Edit.Ordered m n edits
  := by
  induction h generalizing m n with
  | nil => apply Edit.Ordered.nil htrees.le
  | called hsite _ _ _ _ ih =>
      obtain ⟨u, last, hu, hlast, hstop⟩ := hsite.exists_extent
      obtain ⟨hm, hlt, hrest⟩ := htrees.of_extent hu hlast
      rw [hstop] at hlt hrest
      apply Edit.Ordered.cons hm hlt (ih hrest)
  | attributed _ hitem _ _ _ ih =>
      obtain ⟨u, last, hu, hlast, hstop⟩ := FunctionItem.exists_extent_of_readAt hitem
      obtain ⟨hm, hlt, hrest⟩ := htrees.of_extent hu hlast
      rw [hstop] at hlt hrest
      apply Edit.Ordered.cons hm hlt (ih hrest)
  | token _ _ ih =>
      obtain ⟨hm, hlt, hrest⟩ := htrees.of_cons
      apply (ih hrest).of_le (by omega)
  | group _ _ _ ihinner ih =>
      obtain _ | _ | ⟨hm, hlt, hinside, hlt', hrest⟩ := htrees
      apply ((ihinner hinside).of_le (by omega)).append
      apply (ih hrest).of_le (by omega)

/-- Trees without a marked item in front of any of them, at any depth. -/
inductive Unmarked (markers : Markers) : List TokenTree → Prop
  | nil : Unmarked markers []
  | token {t : Token} {rest : List TokenTree} :
      site? markers (.token t :: rest) = some .unmarked → Unmarked markers rest →
      Unmarked markers (.token t :: rest)
  | group {d : Delimiter} {inside rest : List TokenTree} {opening closing : Span} :
      site? markers (.group d inside opening closing :: rest) = some .unmarked →
      Unmarked markers inside → Unmarked markers rest →
      Unmarked markers (.group d inside opening closing :: rest)

/-- Trees without marked items give no edits. -/
theorem Marks.eq_nil_of_unmarked (h : source.Marks trees edits names)
    (htrees : Unmarked source.markers trees) :
  edits = []
  := by
  induction h with
  | nil => rfl
  | called hcall =>
      obtain _ | ⟨hsite⟩ | ⟨hsite⟩ := htrees
      all_goals
        rw [site?_eq_invocation.mpr hcall] at hsite
        cases hsite
  | attributed hsite' =>
      obtain _ | ⟨hsite⟩ | ⟨hsite⟩ := htrees
      all_goals
        rw [hsite'] at hsite
        cases hsite
  | token _ _ ih =>
      obtain _ | ⟨_, hrest⟩ := htrees
      apply ih hrest
  | group _ _ _ ihinner ih =>
      obtain _ | _ | ⟨_, hinside, hrest⟩ := htrees
      rw [ihinner hinside, ih hrest, List.append_nil]

/-- Trees without marked items give no edits and no names. -/
theorem marks_of_unmarked (h : Unmarked source.markers trees) :
  source.Marks trees [] []
  := by
  induction h with
  | nil => exact .nil
  | token hsite _ ih => exact .token hsite ih
  | group hsite _ _ ihinside ih => exact .group hsite ihinside ih

/-- Nothing is marked if there are no names that mark. -/
theorem unmarked_of_no_names (trees : List TokenTree) :
  Unmarked ⟨.members [], .members []⟩ trees
  := by
  have hnone (name : Option String) : (NameSet.members []).has? name = some false := by
    cases name <;> rfl
  have hsite (trees : List TokenTree) :
      site? ⟨.members [], .members []⟩ trees = some .unmarked := by
    have hinside (inside : List TokenTree) :
        namesMarker? ⟨.members [], .members []⟩ inside = some false := by
      rw [namesMarker?, hnone, Option.map_some, Bool.false_and]
    have hcall : invocation? ⟨.members [], .members []⟩ trees = some none := by
      rw [invocation?, hnone, Option.map_some, if_neg Bool.false_ne_true]
    have hattribute : atMarkerAttribute? ⟨.members [], .members []⟩ trees = some false := by
      rw [atMarkerAttribute?.eq_def]
      split
      case h_1 => rw [hinside, ite_self]
      case h_2 => rfl
    rw [site?, hcall, hattribute]
    rfl
  induction trees using induction_siblings with
  | nil => apply Unmarked.nil
  | token t trees ih => apply Unmarked.token (hsite _) ih
  | group d inside opening closing trees ihinside ih => apply Unmarked.group (hsite _) ihinside ih

/-- An expansion has the same gaps as its source, with the renderings of the marked items in between. -/
theorem exists_fill_of_expand {before after : List String} {out : List Char}
    (h : source.expand.run before = .ok out after) :
  ∃ trees edits names,
    TokenTree.ofText source.file source.text = .ok trees ∧
    source.Marks trees edits names ∧ after = before ++ names ∧
    Edit.Ordered 0 source.text.length edits ∧
    source.text = fill (gaps source.text 0 edits)
      (edits.map fun edit => slice source.text edit.start edit.stop) ∧
    out = fill (gaps source.text 0 edits) (edits.map (·.replacement))
  := by
  obtain ⟨trees, edits, names, htrees, hedits, hafter, rfl⟩ := expand_run_eq_ok.mp h
  have hordered := hedits.ordered (ordered_of_ofText htrees)
  use trees, edits, names, htrees, hedits, hafter, hordered, (fill_gaps hordered).symm
  apply splice_eq_fill

/-- An expansion puts the renderings of the outermost marked items in the places of these, and
copies what stands in front of, between and behind them; without marked items, it copies the
text. -/
theorem expand_copies {before after : List String} {out : List Char}
    (h : source.expand.run before = .ok out after) :
  ∃ trees edits names,
    TokenTree.ofText source.file source.text = .ok trees ∧
    source.Marks trees edits names ∧ after = before ++ names ∧
    (edits.Pairwise fun edit edit' => edit.stop ≤ edit'.start) ∧
    (∀ edit ∈ edits, edit.start < edit.stop ∧ edit.stop ≤ source.text.length) ∧
    source.text = fill (gaps source.text 0 edits)
      (edits.map fun edit => slice source.text edit.start edit.stop) ∧
    out = fill (gaps source.text 0 edits) (edits.map (·.replacement)) ∧
    (Unmarked source.markers trees → out = source.text) ∧
    (source.markers = ⟨.members [], .members []⟩ → out = source.text)
  := by
  obtain ⟨trees, edits, names, htrees, hedits, hafter, hordered, htext, hout⟩ :=
    exists_fill_of_expand h
  have hcopy (hunmarked : Unmarked source.markers trees) : out = source.text := by
    rw [hout, ← splice_eq_fill, hedits.eq_nil_of_unmarked hunmarked, splice_nil, slice]
    apply List.take_length
  use trees, edits, names, htrees, hedits, hafter, hordered.pairwise
  constructor
  · intro edit hedit
    apply (hordered.forall_mem edit hedit).2
  · use htext, hout, hcopy
    intro hmarkers
    apply hcopy
    rw [hmarkers]
    apply unmarked_of_no_names

theorem expand_copies_nested :
  ∃ (source : Source) (out : List Char) (trees : List TokenTree) (edits : List Edit),
    source.text =
      "mod m { named_return! { fn f() -> (a: u8) { a } } }\n#[named_return]\nfn g() -> () { }".toList ∧
    source.expand.run [] = .ok out ["f", "g"] ∧
    out = "mod m { fn f() -> u8 { let a: u8; a } }\nfn g() { }".toList ∧
    source.Marks trees edits ["f", "g"] ∧
    (edits.Pairwise fun edit edit' => edit.stop ≤ edit'.start) ∧
    out = fill (gaps source.text 0 edits) (edits.map (·.replacement))
  := by
  obtain ⟨out, names, hrun, hout⟩ := Recording.exists_of_any
    (x := (Source.mk "f.rs"
      "mod m { named_return! { fn f() -> (a: u8) { a } } }\n#[named_return]\nfn g() -> () { }".toList
      .standard).expand)
    (s := [])
    (p := fun out names =>
      out == "mod m { fn f() -> u8 { let a: u8; a } }\nfn g() { }".toList && names == ["f", "g"])
    (by decide +kernel)
  simp only [Bool.and_eq_true, beq_iff_eq] at hout
  obtain ⟨rfl, rfl⟩ := hout
  obtain ⟨trees, edits, names, _, hedits, rfl, hordered, _, _, hfill, _⟩ := expand_copies hrun
  exact ⟨_, _, trees, edits, rfl, hrun, rfl, hedits, hordered, hfill⟩

end Source

end ReturnCaptures
