import ReturnCaptures.Expansion.Source
import ReturnCaptures.Proofs.Lossless
import ReturnCaptures.Proofs.Places

/-!
# Marked items

What a scan of trees finds, told without the order in which it computes: every call of a marker
macro and every marker attribute that stands in front of an item gives one edit, the trees of the
item are not looked at any more, and the edits inside the item's body are part of its own. The
scan of a source succeeds exactly if its trees hold marked items in this sense, and then gives
their edits and records their names.
-/

namespace ReturnCaptures

open TokenTree

/-! ### Recording -/

namespace Recording

variable {α β : Type} {s s' : List String}

theorem bind_run_eq_ok {x : Recording α} {f : α → Recording β} {b : β} :
  (x >>= f).run s = .ok b s' ↔ ∃ a s'', x.run s = .ok a s'' ∧ (f a).run s'' = .ok b s'
  := by
  simp only [EStateM.run, bind, EStateM.bind]
  cases x s <;> simp

theorem pure_run_eq_ok {a b : α} :
  (pure a : Recording α).run s = .ok b s' ↔ a = b ∧ s' = s
  := by
  simp [EStateM.run, pure, EStateM.pure, eq_comm]

theorem ofExcept_run_eq_ok {x : Except Rejection α} {a : α} :
  (ofExcept x).run s = .ok a s' ↔ x = .ok a ∧ s' = s
  := by
  cases x with
  | ok b => simp [ofExcept, EStateM.run, pure, EStateM.pure, eq_comm]
  | error rejection =>
      have hrun : (ofExcept (.error rejection) : Recording α).run s = .error (.rejected rejection) s :=
        rfl
      simp [hrun]

theorem record_run_eq_ok {name : String} {u : Unit} :
  (record name).run s = .ok u s' ↔ s' = s ++ [name]
  := by
  have hrun : (record name).run s = .ok () (s ++ [name]) := rfl
  simp [hrun, eq_comm]

/-- A computation that is checked to end in a certain way does so. -/
theorem exists_of_any {x : Recording α} {p : α → List String → Bool}
    (h : (match x.run s with | .ok a s' => p a s' | .error _ _ => false) = true) :
  ∃ a s', x.run s = .ok a s' ∧ p a s'
  := by
  split at h
  case h_1 a s' hrun => use a, s'
  case h_2 => cases h

end Recording

/-! ### Calls and attributes -/

section Sites

variable {markers : Markers} {trees : List TokenTree}

theorem pathEnd_isSuffix {name name' : String} {rest : List TokenTree}
    (h : pathEnd name trees = (name', rest)) :
  rest <:+ trees
  := by
  fun_induction pathEnd name trees with
  | case1 name colon colon' t trees _ ih => apply (ih h).trans ⟨[colon, colon', .token t], rfl⟩
  | case2 =>
      cases h
      apply List.suffix_rfl
  | case3 =>
      cases h
      apply List.suffix_rfl

/-- A path takes up at least one tree. -/
theorem exists_of_pathName? {name : String} {rest : List TokenTree}
    (h : pathName? trees = some (name, rest)) :
  ∃ u, trees = u ++ rest ∧ u ≠ []
  := by
  have hsuffix : (if atOperator [':', ':'] trees then trees.drop 2 else trees) <:+ trees := by
    split
    · apply List.drop_suffix
    · apply List.suffix_rfl
  rw [pathName?] at h
  split at h
  case h_1 t rest' hshort =>
    split at h
    case isTrue =>
      rw [hshort] at hsuffix
      obtain ⟨u, hu⟩ := hsuffix
      obtain ⟨v, hv⟩ := pathEnd_isSuffix (Option.some.inj h)
      use u ++ .token t :: v
      constructor
      · rw [← hu, ← hv]
        simp
      · simp
    case isFalse => cases h
  case h_2 => cases h

/-- Where a call of a marker macro ends, by its arguments and what follows them: at the closing
delimiter, or at a semicolon right behind it, unless the arguments stand in braces. -/
inductive Invocation.Ends (arguments : Group) : List TokenTree → Nat → List TokenTree → Prop
  | closing {after : List TokenTree} :
      (arguments.delimiter = .brace ∨ atPunct ';' after = false) →
      Ends arguments after arguments.closing.stop after
  | semicolon {tree : TokenTree} {after : List TokenTree} :
      arguments.delimiter ≠ .brace → atPunct ';' [tree] →
      Ends arguments (tree :: after) tree.span.stop after

theorem Invocation.ends_ofArguments (arguments : Group) (rest : List TokenTree) :
  (ofArguments arguments rest).arguments = arguments ∧
    Ends arguments rest (ofArguments arguments rest).stop (ofArguments arguments rest).after
  := by
  rw [ofArguments.eq_def]
  split
  case h_1 hbrace =>
    use rfl
    apply Ends.closing (.inl hbrace)
  case h_2 j span after hbrace =>
    use rfl
    apply Ends.semicolon hbrace rfl
  case h_3 hsemicolon hbrace =>
    use rfl
    apply Ends.closing
    right
    rw [Bool.eq_false_iff]
    intro h
    obtain ⟨t, r, rfl, ht⟩ := Cursor.exists_of_atLexeme h
    obtain ⟨l, span⟩ := t
    cases l with
    | punct c j =>
        rw [Lexeme.isPunct, beq_iff_eq] at ht
        subst ht
        apply hsemicolon j span r rfl
    | _ => cases ht

theorem Invocation.Ends.isSuffix {arguments : Group} {rest after : List TokenTree} {stop : Nat}
    (h : Ends arguments rest stop after) :
  after <:+ rest
  := by
  cases h with
  | closing => exact List.suffix_rfl
  | semicolon => exact List.suffix_cons _ _

/-- Arguments and what follows them decide where a call ends. -/
theorem Invocation.Ends.eq_ofArguments {arguments : Group} {rest after : List TokenTree} {stop : Nat}
    (h : Ends arguments rest stop after) :
  ofArguments arguments rest = ⟨arguments, stop, after⟩
  := by
  cases h with
  | closing hends =>
      rw [ofArguments.eq_def]
      split
      case h_1 => rfl
      case h_2 j span after hbrace =>
        rcases hends with hends | hends
        · exact absurd hends hbrace
        · cases hends
      case h_3 => rfl
  | @semicolon tree _ hbrace hsemicolon =>
      obtain ⟨⟨l, span⟩, rfl⟩ := Cursor.exists_of_atPunct_singleton hsemicolon
      cases l with
      | punct c j =>
          rw [atPunct_token, Lexeme.isPunct, beq_iff_eq] at hsemicolon
          subst hsemicolon
          rw [ofArguments.eq_def]
          split
          case h_1 hbrace' => exact absurd hbrace' hbrace
          case h_2 htrees _ =>
            cases htrees
            rfl
          case h_3 _ hnot => exact absurd rfl (hnot j span after)
      | _ => cases hsemicolon

/-- A call of a marker macro that trees start with: the path that names the macro, an exclamation
mark and the arguments, and the semicolon that belongs to the call. -/
def Invocation.Leads (call : Invocation) (markers : Markers) (trees : List TokenTree) : Prop :=
  ∃ name path bang rest,
    trees = path ++ bang :: call.arguments.tree :: rest ∧
    pathName? trees = some (name, bang :: call.arguments.tree :: rest) ∧
    markers.macros.has? (some name) = some true ∧
    atSingle '!' (bang :: call.arguments.tree :: rest) ∧
    Ends call.arguments rest call.stop call.after

theorem invocation?_eq_some {call : Invocation} :
  invocation? markers trees = some (some call) ↔ call.Leads markers trees
  := by
  constructor
  · intro h
    obtain ⟨marked, hmarked, hcall⟩ := Option.map_eq_some_iff.mp h
    cases marked with
    | false => cases hcall
    | true =>
        rw [if_pos rfl] at hcall
        obtain ⟨⟨name, rest⟩, hpath, hcall⟩ := Option.bind_eq_some_iff.mp hcall
        rw [hpath] at hmarked
        simp only [Invocation.after?] at hcall
        split at hcall
        case isFalse => cases hcall
        case isTrue hbang =>
          split at hcall
          case h_2 => cases hcall
          case h_1 bang d inside opening closing after =>
            cases hcall
            obtain ⟨path, htrees, _⟩ := exists_of_pathName? hpath
            obtain ⟨harguments, hends⟩ :=
              Invocation.ends_ofArguments ⟨d, inside, opening, closing⟩ after
            rw [Invocation.Leads, harguments]
            use name, path, bang, after, htrees, hpath, hmarked, hbang, hends
  · rintro ⟨name, path, bang, rest, _, hpath, hmarked, hbang, hends⟩
    have hcall : Invocation.after? (bang :: call.arguments.tree :: rest) = some call := by
      simp only [Group.tree] at hbang ⊢
      rw [Invocation.after?, if_pos hbang]
      apply congrArg some hends.eq_ofArguments
    rw [invocation?, hpath, Option.map_some, hmarked, Option.map_some, if_pos rfl,
      Option.bind_some, hcall]

theorem site?_eq_invocation {call : Invocation} :
  site? markers trees = some (.invocation call) ↔ call.Leads markers trees
  := by
  rw [← invocation?_eq_some, site?]
  constructor
  · intro h
    obtain ⟨found, hfound, h⟩ := Option.bind_eq_some_iff.mp h
    cases found with
    | none =>
        simp only [Option.bind_eq_bind, Option.bind_eq_some_iff, Option.pure_def] at h
        obtain ⟨marked, _, h⟩ := h
        split at h <;> cases h
    | some call' =>
        cases h
        apply hfound
  · intro h
    rw [h]
    rfl

/-- A call of a marker macro reaches from the first tree of its path up to the tree with which it
ends. -/
theorem Invocation.Leads.exists_extent {call : Invocation} (h : call.Leads markers trees) :
  ∃ u last, trees = u ++ call.after ∧ u.getLast? = some last ∧ last.span.stop = call.stop
  := by
  obtain ⟨_, path, bang, rest, rfl, _, _, _, hends⟩ := h
  generalize call.stop = stop, call.after = after at hends
  cases hends with
  | closing =>
      use path ++ [bang, call.arguments.tree], call.arguments.tree
      simp [Group.tree, span, Span.through]
  | @semicolon tree _ _ _ =>
      use path ++ [bang, call.arguments.tree, tree], tree
      simp

/-- A marker attribute takes up two trees. -/
theorem exists_of_attribute (h : site? markers trees = some .attribute) :
  ∃ hash inside opening closing rest,
    trees = hash :: .group .bracket inside opening closing :: rest ∧ atPunct '#' [hash] ∧
    namesMarker? markers inside = some true
  := by
  obtain ⟨found, _, h⟩ := Option.bind_eq_some_iff.mp h
  cases found with
  | some call => cases h
  | none =>
      simp only [Option.bind_eq_bind, Option.bind_eq_some_iff, Option.pure_def] at h
      obtain ⟨marked, hmarked, h⟩ := h
      obtain rfl : marked = true := by
        cases marked with
        | true => rfl
        | false => cases h
      rw [atMarkerAttribute?.eq_def] at hmarked
      split at hmarked
      case h_2 => cases hmarked
      case h_1 hash inside opening closing rest _ =>
        split at hmarked
        case isFalse => cases hmarked
        case isTrue hhash => exact ⟨hash, inside, opening, closing, rest, rfl, hhash, hmarked⟩

end Sites

/-! ### What a scan finds -/

/-- The edits that a scan finds in trees and the names that it records: those of the marked items
at any depth, but for the marked items inside of another one, which are edited with it. -/
inductive Source.Marks (source : Source) : List TokenTree → List Edit → List String → Prop
  | nil : Marks source [] [] []
  | called {tree : TokenTree} {rest : List TokenTree} {call : Invocation} {item : FunctionItem}
      {inner edits : List Edit} {within names : List String} :
      call.Leads source.markers (tree :: rest) →
      FunctionItem.ofTrees source.file call.arguments.trees = .ok item →
      Marks source (Expansion.ofItem item).openTrees inner within →
      Marks source call.after edits names →
      Marks source (tree :: rest)
        (⟨tree.span.start, call.stop, (Expansion.ofItem item).textWith source.text inner⟩ :: edits)
        (item.name :: (within ++ names))
  | attributed {tree : TokenTree} {rest : List TokenTree} {item : FunctionItem} {next : Nat}
      {inner edits : List Edit} {within names : List String} :
      site? source.markers (tree :: rest) = some .attribute →
      FunctionItem.readAt source.file (tree :: rest) 2 = .ok (item, next) →
      Marks source (Expansion.ofItem item).openTrees inner within →
      Marks source ((tree :: rest).drop next) edits names →
      Marks source (tree :: rest)
        (⟨tree.span.start, item.span.stop, (Expansion.ofItem item).textWith source.text inner⟩ ::
          edits)
        (item.name :: (within ++ names))
  | token {t : Token} {rest : List TokenTree} {edits : List Edit} {names : List String} :
      site? source.markers (.token t :: rest) = some .unmarked →
      Marks source rest edits names →
      Marks source (.token t :: rest) edits names
  | group {d : Delimiter} {inside rest : List TokenTree} {opening closing : Span}
      {inner edits : List Edit} {within names : List String} :
      site? source.markers (.group d inside opening closing :: rest) = some .unmarked →
      Marks source inside inner within → Marks source rest edits names →
      Marks source (.group d inside opening closing :: rest) (inner ++ edits) (within ++ names)

/-! ### Depths -/

section Depth

variable {tree : TokenTree} {u v trees : List TokenTree}

theorem TokenTree.depthAll_append :
  depthAll (u ++ v) = max (depthAll u) (depthAll v)
  := by
  induction u with
  | nil => simp [depthAll]
  | cons tree u ih => rw [List.cons_append, depthAll, ih, depthAll, Nat.max_assoc]

theorem TokenTree.depthAll_le_of_isSuffix (h : u <:+ trees) :
  depthAll u ≤ depthAll trees
  := by
  obtain ⟨v, rfl⟩ := h
  rw [depthAll_append]
  apply Nat.le_max_right

theorem Group.depthAll_lt_of_mem {g : Group} (h : g.tree ∈ trees) :
  depthAll g.trees < depthAll trees
  := by
  obtain ⟨u, v, rfl⟩ := List.append_of_mem h
  rw [depthAll_append, depthAll, Group.tree, depth]
  omega

/-- The trees of an item in which edits may stand are less deep than the item. -/
theorem FunctionItem.depthAll_openTrees_lt {c d : Cursor} {item : FunctionItem}
    (h : read c = .ok (item, d)) :
  depthAll (Expansion.ofItem item).openTrees < depthAll c.trees
  := by
  obtain ⟨s⟩ := nonempty_steps h
  have hmem {g : Group} (hg : g.tree ∈ Expansion.headTrees item ∨ g.tree = item.ending.tree) :
      depthAll g.trees < depthAll c.trees := by
    apply Group.depthAll_lt_of_mem
    rw [s.reads.trees]
    rcases hg with hg | hg <;> simp [hg]
  rw [Expansion.openTrees, Expansion.item_ofItem]
  cases hending : item.ending with
  | semicolon t =>
      have hparams : item.params.group.tree ∈ Expansion.headTrees item := by
        simp [Expansion.headTrees]
      simp only [body?, hending, Ending.body?, depthAll]
      apply Nat.lt_of_le_of_lt (Nat.zero_le _) (hmem (.inl hparams))
  | body body =>
      have hbody : depthAll body.trees < depthAll c.trees := by
        apply hmem
        right
        rw [hending, Ending.tree]
      simp only [body?, hending, Ending.body?]
      cases (Expansion.ofItem item).declaration with
      | none => apply hbody
      | some _ =>
          apply Nat.lt_of_le_of_lt _ hbody
          apply depthAll_le_of_isSuffix
          use (splitInnerAttributes body.trees).1
          apply append_splitInnerAttributes

end Depth

/-! ### Items in front of other trees -/

namespace FunctionItem

variable {file : String} {trees : List TokenTree} {item : FunctionItem} {start next : Nat}

theorem readAt_eq_ok :
  readAt file trees start = .ok (item, next) ↔
    ∃ d, read ((Cursor.ofTrees file trees).skip start) = .ok (item, d) ∧
      next = trees.length - d.trees.length
  := by
  rw [readAt]
  cases read ((Cursor.ofTrees file trees).skip start) with
  | error => simp
  | ok found => simp [Prod.ext_iff, eq_comm]

/-- An item that is read behind the first trees takes up the ones up to `next`, and ends with the
last of them. -/
theorem exists_of_readAt (h : readAt file trees start = .ok (item, next)) :
  ∃ u, trees.drop start = (u ++ [item.ending.tree]) ++ trees.drop next ∧ start < next ∧
    u ≠ [] ∧ item.span.stop = item.ending.tree.span.stop
  := by
  obtain ⟨d, hread, rfl⟩ := readAt_eq_ok.mp h
  obtain ⟨u, hu, hne, hstop, _⟩ := exists_trees_of_read hread
  have htrees : trees.drop start = (u ++ [item.ending.tree]) ++ d.trees := hu
  have hlength := congrArg List.length htrees
  simp only [List.length_drop, List.length_append, List.length_singleton] at hlength
  have hdrop : trees.drop (trees.length - d.trees.length) = d.trees := by
    have hsuffix : d.trees <:+ trees := by
      apply List.IsSuffix.trans _ (List.drop_suffix start trees)
      rw [htrees]
      apply List.suffix_append
    obtain ⟨v, rfl⟩ := hsuffix
    rw [List.length_append, Nat.add_sub_cancel, List.drop_left]
  use u
  rw [hdrop]
  use htrees, by omega, hne, hstop

/-- Trees behind the first of which an item is read reach up to the end of the item. -/
theorem exists_extent_of_readAt (h : readAt file trees start = .ok (item, next)) :
  ∃ u last, trees = u ++ trees.drop next ∧ u.getLast? = some last ∧
    last.span.stop = item.span.stop
  := by
  obtain ⟨u, hu, -, -, hstop⟩ := exists_of_readAt h
  refine ⟨trees.take start ++ (u ++ [item.ending.tree]), item.ending.tree, ?_, by simp, hstop.symm⟩
  rw [List.append_assoc, ← hu, List.take_append_drop]

theorem ofTrees_eq_ok :
  ofTrees file trees = .ok item ↔
    ∃ d, read (Cursor.ofTrees file trees) = .ok (item, d) ∧ d.trees = []
  := by
  rw [ofTrees]
  cases read (Cursor.ofTrees file trees) with
  | error => simp
  | ok found =>
      by_cases hend : found.2.atEnd
      · have hnil : found.2.trees = [] := by simpa [Cursor.atEnd] using hend
        simp only [hend, if_true, Except.ok.injEq]
        constructor
        · rintro rfl
          use found.2
        · rintro ⟨d, rfl, _⟩
          rfl
      · have hnil : found.2.trees ≠ [] := by simpa [Cursor.atEnd] using hend
        simp only [hend, if_false, Except.ok.injEq, reduceCtorEq, false_iff, not_exists, not_and,
          Bool.false_eq_true]
        rintro d rfl
        apply hnil

end FunctionItem

/-! ### Scanning -/

namespace Source

variable {source : Source} {inside : List TokenTree → Recording (List Edit)} {n : Nat}
  {trees : List TokenTree} {tree : TokenTree} {edits : List Edit} {s s' : List String}

/-- Scanning trees that are less than `n` deep finds what is marked in them. -/
def Finds (source : Source) (n : Nat) (inside : List TokenTree → Recording (List Edit)) : Prop :=
  ∀ trees, depthAll trees < n → ∀ s s' edits, (inside trees).run s = .ok edits s' ↔
    ∃ names, source.Marks trees edits names ∧ s' = s ++ names

theorem expansionWith_run_eq_ok {item : FunctionItem} {text : List Char} :
  (source.expansionWith inside item).run s = .ok text s' ↔
    ∃ inner, (inside (Expansion.ofItem item).openTrees).run (s ++ [item.name]) = .ok inner s' ∧
      text = (Expansion.ofItem item).textWith source.text inner
  := by
  simp only [expansionWith, Recording.bind_run_eq_ok, Recording.record_run_eq_ok,
    Recording.pure_run_eq_ok]
  constructor
  · rintro ⟨_, _, rfl, inner, _, hinner, rfl, rfl⟩
    use inner
  · rintro ⟨inner, hinner, rfl⟩
    exact ⟨(), _, rfl, inner, s', hinner, rfl, rfl⟩

/-- The edits of the item of a marked site, and of what follows it. -/
theorem site_run_eq_ok (hinside : source.Finds n inside) {item : FunctionItem} {start stop : Nat}
    {after : List TokenTree} {later : Recording (List Edit)}
    (hdepth : depthAll (Expansion.ofItem item).openTrees < n)
    (hlater : ∀ s s' edits, later.run s = .ok edits s' ↔
      ∃ names, source.Marks after edits names ∧ s' = s ++ names) :
  (do
    let replacement ← source.expansionWith inside item
    let edits ← later
    return ⟨start, stop, replacement⟩ :: edits : Recording (List Edit)).run s = .ok edits s' ↔
    ∃ inner within rest names, source.Marks (Expansion.ofItem item).openTrees inner within ∧
      source.Marks after rest names ∧ s' = s ++ item.name :: (within ++ names) ∧
      edits = ⟨start, stop, (Expansion.ofItem item).textWith source.text inner⟩ :: rest
  := by
  simp only [Recording.bind_run_eq_ok, Recording.pure_run_eq_ok, expansionWith_run_eq_ok,
    hinside _ hdepth, hlater]
  constructor
  · rintro ⟨_, _, ⟨inner, ⟨within, hinner, rfl⟩, rfl⟩, rest, _, ⟨names, hrest, rfl⟩, rfl, rfl⟩
    use inner, within, rest, names, hinner, hrest
    simp
  · rintro ⟨inner, within, rest, names, hinner, hrest, rfl, rfl⟩
    refine ⟨_, _, ⟨inner, ⟨within, hinner, rfl⟩, rfl⟩, rest, _, ⟨names, hrest, rfl⟩, rfl, ?_⟩
    simp

/-- What follows a call of a marker macro is a part of what follows its first tree. -/
theorem exists_after {markers : Markers} {rest : List TokenTree} {call : Invocation}
    (h : call.Leads markers (tree :: rest)) :
  rest.drop (rest.length - call.after.length) = call.after ∧
    depthAll call.arguments.trees < depthAll (tree :: rest)
  := by
  obtain ⟨u, last, hu, hlast, _⟩ := h.exists_extent
  obtain ⟨_, path, bang, rest', htrees, _, _, _, hends⟩ := h
  constructor
  · cases u with
    | nil => cases hlast
    | cons first u =>
        obtain ⟨_, rfl⟩ := List.cons_eq_cons.mp hu
        simp
  · apply Group.depthAll_lt_of_mem
    rw [htrees]
    simp

section Siblings

variable {rest : List TokenTree}

/-- Scanning siblings at a call of a marker macro finds what is marked in them, if scanning the
siblings behind it does. -/
theorem siblingEdits_invocation (hinside : source.Finds n inside)
    (hdepth : depthAll (tree :: rest) ≤ n) {call : Invocation}
    (hsite : call.Leads source.markers (tree :: rest))
    (hlater : ∀ s s' edits,
      (source.siblingEdits inside (rest.length - call.after.length) rest).run s = .ok edits s' ↔
        ∃ names, source.Marks (rest.drop (rest.length - call.after.length)) edits names ∧
          s' = s ++ names) :
  (source.siblingEdits inside 0 (tree :: rest)).run s = .ok edits s' ↔
    ∃ names, source.Marks (tree :: rest) edits names ∧ s' = s ++ names
  := by
  obtain ⟨hafter, harguments⟩ := exists_after hsite
  rw [hafter] at hlater
  have hopen {item : FunctionItem}
      (hitem : FunctionItem.ofTrees source.file call.arguments.trees = .ok item) :
      depthAll (Expansion.ofItem item).openTrees < n := by
    obtain ⟨d, hread, _⟩ := FunctionItem.ofTrees_eq_ok.mp hitem
    apply Nat.lt_of_lt_of_le (FunctionItem.depthAll_openTrees_lt hread)
    apply Nat.le_of_lt (Nat.lt_of_lt_of_le harguments hdepth)
  rw [siblingEdits.eq_def]
  simp only [site?_eq_invocation.mpr hsite]
  rw [Recording.bind_run_eq_ok]
  simp only [Recording.ofExcept_run_eq_ok]
  constructor
  · rintro ⟨item, _, ⟨hitem, rfl⟩, h⟩
    obtain ⟨inner, within, edits, names, hinner, hedits, rfl, rfl⟩ :=
      (site_run_eq_ok hinside (hopen hitem) hlater).mp h
    use item.name :: (within ++ names), .called hsite hitem hinner hedits
  · rintro ⟨_, h, rfl⟩
    rw [← site?_eq_invocation] at hsite
    obtain _ | ⟨hcall, hitem, hinner, hedits⟩ | ⟨hsite'⟩ | ⟨hsite'⟩ | ⟨hsite'⟩ := h
    · rw [site?_eq_invocation.mpr hcall] at hsite
      cases hsite
      refine ⟨_, s, ⟨hitem, rfl⟩, ?_⟩
      apply (site_run_eq_ok hinside (hopen hitem) hlater).mpr
      exact ⟨_, _, _, _, hinner, hedits, rfl, rfl⟩
    all_goals
      rw [hsite] at hsite'
      cases hsite'

/-- Scanning siblings at a marker attribute finds what is marked in them, if scanning the siblings
behind its item does. -/
theorem siblingEdits_attribute (hinside : source.Finds n inside)
    (hdepth : depthAll (tree :: rest) ≤ n)
    (hsite : site? source.markers (tree :: rest) = some .attribute)
    (hlater : ∀ skip s s' edits, (source.siblingEdits inside skip rest).run s = .ok edits s' ↔
      ∃ names, source.Marks (rest.drop skip) edits names ∧ s' = s ++ names) :
  (source.siblingEdits inside 0 (tree :: rest)).run s = .ok edits s' ↔
    ∃ names, source.Marks (tree :: rest) edits names ∧ s' = s ++ names
  := by
  have hopen {item : FunctionItem} {next : Nat}
      (hitem : FunctionItem.readAt source.file (tree :: rest) 2 = .ok (item, next)) :
      depthAll (Expansion.ofItem item).openTrees < n ∧
        rest.drop (next - 1) = (tree :: rest).drop next := by
    obtain ⟨_, _, hnext, _⟩ := FunctionItem.exists_of_readAt hitem
    obtain ⟨d, hread, _⟩ := FunctionItem.readAt_eq_ok.mp hitem
    constructor
    · apply Nat.lt_of_lt_of_le (FunctionItem.depthAll_openTrees_lt hread)
      apply Nat.le_trans (depthAll_le_of_isSuffix (List.drop_suffix _ _)) hdepth
    · obtain ⟨k, rfl⟩ : ∃ k, next = k + 1 := ⟨next - 1, by omega⟩
      rfl
  rw [siblingEdits.eq_def]
  simp only [hsite]
  rw [Recording.bind_run_eq_ok]
  simp only [Recording.ofExcept_run_eq_ok]
  constructor
  · rintro ⟨⟨item, next⟩, _, ⟨hitem, rfl⟩, h⟩
    obtain ⟨hless, hdrop⟩ := hopen hitem
    obtain ⟨inner, within, edits, names, hinner, hedits, rfl, rfl⟩ :=
      (site_run_eq_ok hinside hless (hlater (next - 1))).mp h
    rw [hdrop] at hedits
    use item.name :: (within ++ names), .attributed hsite hitem hinner hedits
  · rintro ⟨_, h, rfl⟩
    obtain _ | ⟨hcall⟩ | @⟨_, _, item, next, _, _, _, _, _, hitem, hinner, hedits⟩ | ⟨hsite'⟩ |
      ⟨hsite'⟩ := h
    · rw [site?_eq_invocation.mpr hcall] at hsite
      cases hsite
    · obtain ⟨hless, hdrop⟩ := hopen hitem
      rw [← hdrop] at hedits
      use ⟨item, next⟩, s, ⟨hitem, rfl⟩
      apply (site_run_eq_ok hinside hless (hlater (next - 1))).mpr
      exact ⟨_, _, _, _, hinner, hedits, rfl, rfl⟩
    all_goals
      rw [hsite] at hsite'
      cases hsite'

/-- Scanning siblings at a tree without a mark finds what is marked in it and in them, if scanning
the siblings behind it does. -/
theorem siblingEdits_unmarked (hinside : source.Finds n inside)
    (hdepth : depthAll (tree :: rest) ≤ n)
    (hsite : site? source.markers (tree :: rest) = some .unmarked)
    (hlater : ∀ s s' edits, (source.siblingEdits inside 0 rest).run s = .ok edits s' ↔
      ∃ names, source.Marks rest edits names ∧ s' = s ++ names) :
  (source.siblingEdits inside 0 (tree :: rest)).run s = .ok edits s' ↔
    ∃ names, source.Marks (tree :: rest) edits names ∧ s' = s ++ names
  := by
  rw [siblingEdits.eq_def]
  simp only [hsite]
  cases tree with
  | token t =>
      rw [hlater]
      constructor
      · rintro ⟨names, h, rfl⟩
        use names, .token hsite h
      · rintro ⟨names, h, rfl⟩
        obtain _ | ⟨hcall⟩ | ⟨hsite'⟩ | ⟨_, h⟩ | _ := h
        · rw [site?_eq_invocation.mpr hcall] at hsite
          cases hsite
        · rw [hsite] at hsite'
          cases hsite'
        · use names, h
  | group d inner opening closing =>
      have hless : depthAll inner < n := by
        rw [depthAll, depth] at hdepth
        omega
      simp only [Recording.bind_run_eq_ok, Recording.pure_run_eq_ok, hinside inner hless, hlater]
      constructor
      · rintro ⟨edits, _, ⟨within, hinner, rfl⟩, rest, _, ⟨names, hedits, rfl⟩, rfl, rfl⟩
        use within ++ names, .group hsite hinner hedits
        rw [List.append_assoc]
      · rintro ⟨_, h, rfl⟩
        obtain _ | ⟨hcall⟩ | ⟨hsite'⟩ | _ |
          @⟨_, _, _, _, _, _, _, within, names, _, hinner, hedits⟩ := h
        · rw [site?_eq_invocation.mpr hcall] at hsite
          cases hsite
        · rw [hsite] at hsite'
          cases hsite'
        · refine ⟨_, _, ⟨within, hinner, rfl⟩, _, _, ⟨names, hedits, rfl⟩, rfl, ?_⟩
          rw [List.append_assoc]

end Siblings

/-- Scanning siblings finds what is marked in them, if scanning the inside of groups does. -/
theorem siblingEdits_run_eq_ok (hinside : source.Finds n inside) (hdepth : depthAll trees ≤ n)
    {skip : Nat} :
  (source.siblingEdits inside skip trees).run s = .ok edits s' ↔
    ∃ names, source.Marks (trees.drop skip) edits names ∧ s' = s ++ names
  := by
  induction trees generalizing skip s s' edits with
  | nil =>
      rw [List.drop_nil, siblingEdits, Recording.pure_run_eq_ok]
      constructor
      · rintro ⟨rfl, rfl⟩
        use [], .nil
        rw [List.append_nil]
      · rintro ⟨_, ⟨⟩, rfl⟩
        rw [List.append_nil]
        use rfl
  | cons tree rest ih =>
      have hrest : depthAll rest ≤ n := Nat.le_trans (Nat.le_max_right _ _) hdepth
      cases skip with
      | succ skip => apply ih hrest
      | zero =>
          rw [List.drop_zero]
          cases hsite : site? source.markers (tree :: rest) with
          | none =>
              rw [siblingEdits.eq_def]
              simp only [hsite]
              constructor
              · intro h
                cases h
              · rintro ⟨names, h, _⟩
                obtain _ | ⟨hcall⟩ | ⟨hsite'⟩ | ⟨hsite'⟩ | ⟨hsite'⟩ := h
                · rw [site?_eq_invocation.mpr hcall] at hsite
                  cases hsite
                all_goals
                  rw [hsite] at hsite'
                  cases hsite'
          | some site =>
              obtain call | _ | _ := site
              · apply siblingEdits_invocation hinside hdepth (site?_eq_invocation.mp hsite)
                intro s s' edits
                apply ih hrest
              · apply siblingEdits_attribute hinside hdepth hsite
                intro skip s s' edits
                apply ih hrest
              · apply siblingEdits_unmarked hinside hdepth hsite
                intro s s' edits
                apply ih hrest

/-- Scanning trees that are at most `depth` deep finds what is marked in them. -/
theorem finds_editsTo (source : Source) (depth : Nat) :
  source.Finds (depth + 1) (source.editsTo depth)
  := by
  induction depth with
  | zero =>
      intro trees hdepth s s' edits
      have hnone : source.Finds 0 fun _ => return [] := by
        intro trees h
        omega
      apply siblingEdits_run_eq_ok hnone (Nat.le_of_lt_succ hdepth)
  | succ depth ih =>
      intro trees hdepth s s' edits
      apply siblingEdits_run_eq_ok ih (Nat.le_of_lt_succ hdepth)

theorem edits_run_eq_ok :
  (source.edits trees).run s = .ok edits s' ↔
    ∃ names, source.Marks trees edits names ∧ s' = s ++ names
  := finds_editsTo source (depthAll trees) trees (Nat.lt_succ_self _) s s' edits

/-- A source expands exactly if its trees hold marked items; their edits are applied, and their
names are recorded. -/
theorem expand_run_eq_ok {out : List Char} :
  source.expand.run s = .ok out s' ↔
    ∃ trees edits names, TokenTree.ofText source.file source.text = .ok trees ∧
      source.Marks trees edits names ∧ s' = s ++ names ∧
      out = splice source.text 0 source.text.length edits
  := by
  simp only [expand, region, Recording.bind_run_eq_ok, Recording.ofExcept_run_eq_ok,
    Recording.pure_run_eq_ok, edits_run_eq_ok]
  constructor
  · rintro ⟨trees, _, ⟨htrees, rfl⟩, edits, _, ⟨names, hedits, rfl⟩, rfl, rfl⟩
    use trees, edits, names
  · rintro ⟨trees, edits, names, htrees, hedits, rfl, rfl⟩
    exact ⟨trees, s, ⟨htrees, rfl⟩, edits, _, ⟨names, hedits, rfl⟩, rfl, rfl⟩

/-- A text that is one item expands exactly if the trees of its body hold marked items. -/
theorem expandItem_run_eq_ok {out : List Char} :
  source.expandItem.run s = .ok out s' ↔
    ∃ item inner within, FunctionItem.ofText source.file source.text = .ok item ∧
      source.Marks (Expansion.ofItem item).openTrees inner within ∧
      s' = s ++ item.name :: within ∧
      out = (Expansion.ofItem item).textWith source.text inner
  := by
  simp only [expandItem, Recording.bind_run_eq_ok, Recording.ofExcept_run_eq_ok,
    expansionWith_run_eq_ok, edits_run_eq_ok]
  constructor
  · rintro ⟨item, _, ⟨hitem, rfl⟩, inner, ⟨within, hinner, rfl⟩, rfl⟩
    use item, inner, within, hitem, hinner
    simp
  · rintro ⟨item, inner, within, hitem, hinner, rfl, rfl⟩
    refine ⟨item, s, ⟨hitem, rfl⟩, inner, ⟨within, hinner, ?_⟩, rfl⟩
    simp

end Source

end ReturnCaptures
