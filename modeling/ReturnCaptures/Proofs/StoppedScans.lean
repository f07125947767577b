import ReturnCaptures.Proofs.FailurePlaces
import ReturnCaptures.Proofs.Occurrences
import ReturnCaptures.Proofs.Sites

/-!
# Scans that stop

A scan of trees stops at the first marked item that cannot be read, or where a set of marker names
cannot answer. Where this is, at which depth and behind which other marked items, is told here
without the order in which the scan computes, as for the scans that come to their end. The names of
the items in front of it are recorded, and so are those of the items that it stands in.
-/

namespace ReturnCaptures

open TokenTree

/-! ### Recording -/

namespace Recording

variable {α β : Type} {s s' : List String} {cause : ExpansionError}

theorem bind_run_eq_error {x : Recording α} {f : α → Recording β} :
  (x >>= f).run s = .error cause s' ↔
    x.run s = .error cause s' ∨ ∃ a s'', x.run s = .ok a s'' ∧ (f a).run s'' = .error cause s'
  := by
  simp only [EStateM.run, bind, EStateM.bind]
  cases x s <;> simp

theorem pure_run_ne_error {a : α} :
  (pure a : Recording α).run s ≠ .error cause s'
  := nofun

theorem ofExcept_run_eq_error {x : Except Rejection α} :
  (ofExcept x).run s = .error cause s' ↔
    ∃ rejection, x = .error rejection ∧ cause = .rejected rejection ∧ s' = s
  := by
  cases x with
  | ok a =>
      have hrun : (ofExcept (.ok a)).run s = .ok a s := rfl
      simp [hrun]
  | error rejection =>
      have hrun :
          (ofExcept (.error rejection) : Recording α).run s = .error (.rejected rejection) s :=
        rfl
      simp [hrun, eq_comm]

theorem record_run_ne_error {name : String} :
  (record name).run s ≠ .error cause s'
  := nofun

end Recording

/-! ### Where a scan stops -/

/-- What stops a scan: a call of a marker macro whose arguments are no function item, the trees from
a marker attribute on if no function item stands behind it, or a name that a set of marker names
cannot tell. -/
inductive Stop where
  | called (call : Invocation) (rejection : Rejection)
  | attributed (trees : List TokenTree) (rejection : Rejection)
  | unanswered

/-- The error with which a scan stops. -/
def Stop.cause : Stop → ExpansionError
  | called _ rejection => .rejected rejection
  | attributed _ rejection => .rejected rejection
  | unanswered => .unusableMarkers

/-- The call whose arguments are no function item, and why they are none, if a scan stops there. -/
def Stop.called? : Stop → Option (Invocation × Rejection)
  | called call rejection => some (call, rejection)
  | _ => none

theorem Stop.called?_eq_some {stop : Stop} {call : Invocation} {rejection : Rejection} :
  stop.called? = some (call, rejection) ↔ stop = .called call rejection
  := by cases stop <;> simp [called?]

namespace Source

/-- The marked item that trees start with, if there is one, and the trees behind it; or what stops a
scan at the first of the trees. -/
def itemAt (source : Source) (trees : List TokenTree) :
    Except Stop (Option (FunctionItem × List TokenTree)) :=
  match site? source.markers trees with
  | none => .error .unanswered
  | some (.invocation call) =>
    match FunctionItem.ofTrees source.file call.arguments.trees with
    | .ok item => .ok (some (item, call.after))
    | .error rejection => .error (.called call rejection)
  | some .attribute =>
    match FunctionItem.readAt source.file trees 2 with
    | .ok (item, next) => .ok (some (item, trees.drop next))
    | .error rejection => .error (.attributed trees rejection)
  | some .unmarked => .ok none

/-- What a scan of trees stops at, and the names that it has recorded then: those of the marked
items in front, and of the marked items in whose bodies it has stopped. -/
inductive Stops (source : Source) : List TokenTree → Stop → List String → Prop
  | here {tree : TokenTree} {rest : List TokenTree} {stop : Stop} :
      source.itemAt (tree :: rest) = .error stop → Stops source (tree :: rest) stop []
  | within {tree : TokenTree} {rest after : List TokenTree} {item : FunctionItem} {stop : Stop}
      {names : List String} :
      source.itemAt (tree :: rest) = .ok (some (item, after)) →
      Stops source (Expansion.ofItem item).openTrees stop names →
      Stops source (tree :: rest) stop (item.name :: names)
  | behind {tree : TokenTree} {rest after : List TokenTree} {item : FunctionItem}
      {inner : List Edit} {stop : Stop} {within names : List String} :
      source.itemAt (tree :: rest) = .ok (some (item, after)) →
      source.Marks (Expansion.ofItem item).openTrees inner within → Stops source after stop names →
      Stops source (tree :: rest) stop (item.name :: (within ++ names))
  | token {t : Token} {rest : List TokenTree} {stop : Stop} {names : List String} :
      source.itemAt (.token t :: rest) = .ok none → Stops source rest stop names →
      Stops source (.token t :: rest) stop names
  | inGroup {d : Delimiter} {inside rest : List TokenTree} {opening closing : Span} {stop : Stop}
      {names : List String} :
      source.itemAt (.group d inside opening closing :: rest) = .ok none →
      Stops source inside stop names →
      Stops source (.group d inside opening closing :: rest) stop names
  | behindGroup {d : Delimiter} {inside rest : List TokenTree} {opening closing : Span}
      {inner : List Edit} {stop : Stop} {within names : List String} :
      source.itemAt (.group d inside opening closing :: rest) = .ok none →
      source.Marks inside inner within → Stops source rest stop names →
      Stops source (.group d inside opening closing :: rest) stop (within ++ names)

/-! ### Scanning -/

variable {source : Source} {inside : List TokenTree → Recording (List Edit)} {n : Nat}
  {trees rest after : List TokenTree} {tree : TokenTree} {item : FunctionItem} {stop : Stop}
  {s s' : List String} {cause : ExpansionError}

/-- What stops a scan at the first of some trees. -/
theorem itemAt_eq_error (h : source.itemAt trees = .error stop) :
  (site? source.markers trees = none ∧ stop = .unanswered) ∨
  (∃ call rejection, site? source.markers trees = some (.invocation call) ∧
    FunctionItem.ofTrees source.file call.arguments.trees = .error rejection ∧
    stop = .called call rejection) ∨
  ∃ rejection, site? source.markers trees = some .attribute ∧
    FunctionItem.readAt source.file trees 2 = .error rejection ∧ stop = .attributed trees rejection
  := by
  rw [itemAt] at h
  split at h
  case h_1 hsite =>
    cases h
    exact .inl ⟨hsite, rfl⟩
  case h_2 call hsite =>
    split at h
    case h_1 => cases h
    case h_2 rejection hitem =>
      cases h
      exact .inr (.inl ⟨call, rejection, hsite, hitem, rfl⟩)
  case h_3 hsite =>
    split at h
    case h_1 => cases h
    case h_2 rejection hitem =>
      cases h
      exact .inr (.inr ⟨rejection, hsite, hitem, rfl⟩)
  case h_4 => cases h

/-- What makes the first of some trees start a marked item. -/
theorem itemAt_eq_some (h : source.itemAt trees = .ok (some (item, after))) :
  (∃ call, site? source.markers trees = some (.invocation call) ∧
    FunctionItem.ofTrees source.file call.arguments.trees = .ok item ∧ call.after = after) ∨
  ∃ next, site? source.markers trees = some .attribute ∧
    FunctionItem.readAt source.file trees 2 = .ok (item, next) ∧ trees.drop next = after
  := by
  rw [itemAt] at h
  split at h
  case h_1 => cases h
  case h_2 call hsite =>
    split at h
    case h_1 item hitem =>
      cases h
      exact .inl ⟨call, hsite, hitem, rfl⟩
    case h_2 => cases h
  case h_3 hsite =>
    split at h
    case h_1 item next hitem =>
      cases h
      exact .inr ⟨next, hsite, hitem, rfl⟩
    case h_2 => cases h
  case h_4 => cases h

theorem site?_of_itemAt (h : source.itemAt trees = .ok none) :
  site? source.markers trees = some .unmarked
  := by
  rw [itemAt] at h
  split at h
  case h_1 => cases h
  case h_2 => split at h <;> cases h
  case h_3 => split at h <;> cases h
  case h_4 hsite => exact hsite

theorem itemAt_of_leads {call : Invocation} (h : call.Leads source.markers trees)
    (hitem : FunctionItem.ofTrees source.file call.arguments.trees = .ok item) :
  source.itemAt trees = .ok (some (item, call.after))
  := by
  rw [itemAt, site?_eq_invocation.mpr h]
  simp only [hitem]

theorem itemAt_of_attribute {next : Nat} (h : site? source.markers trees = some .attribute)
    (hitem : FunctionItem.readAt source.file trees 2 = .ok (item, next)) :
  source.itemAt trees = .ok (some (item, trees.drop next))
  := by
  rw [itemAt, h]
  simp only [hitem]

theorem itemAt_of_unmarked (h : site? source.markers trees = some .unmarked) :
  source.itemAt trees = .ok none
  := by rw [itemAt, h]

theorem siblingEdits_of_error (h : source.itemAt (tree :: rest) = .error stop) :
  source.siblingEdits inside 0 (tree :: rest) = throw stop.cause
  := by
  rw [siblingEdits.eq_def]
  dsimp only
  obtain ⟨hsite, rfl⟩ | ⟨call, rejection, hsite, hitem, rfl⟩ | ⟨rejection, hsite, hitem, rfl⟩ :=
    itemAt_eq_error h
  · rw [hsite]
    rfl
  · rw [hsite]
    dsimp only
    rw [hitem]
    rfl
  · rw [hsite]
    dsimp only
    rw [hitem]
    rfl

/-- At a marked item, the trees of its body are scanned first, and then those behind it. -/
theorem siblingEdits_of_some (inside : List TokenTree → Recording (List Edit))
    (h : source.itemAt (tree :: rest) = .ok (some (item, after))) :
  ∃ skip stop, rest.drop skip = after ∧
    depthAll (Expansion.ofItem item).openTrees < depthAll (tree :: rest) ∧
    source.siblingEdits inside 0 (tree :: rest) = do
      let replacement ← source.expansionWith inside item
      let edits ← source.siblingEdits inside skip rest
      return ⟨tree.span.start, stop, replacement⟩ :: edits
  := by
  rw [siblingEdits.eq_def]
  dsimp only
  obtain ⟨call, hsite, hitem, rfl⟩ | ⟨next, hsite, hitem, rfl⟩ := itemAt_eq_some h
  · obtain ⟨hafter, harguments⟩ := exists_after (site?_eq_invocation.mp hsite)
    obtain ⟨d, hread, _⟩ := FunctionItem.ofTrees_eq_ok.mp hitem
    have hdepth := FunctionItem.depthAll_openTrees_lt hread
    refine ⟨rest.length - call.after.length, call.stop, hafter, Nat.lt_trans hdepth harguments, ?_⟩
    rw [hsite]
    dsimp only
    rw [hitem]
    rfl
  · obtain ⟨_, _, hnext, _⟩ := FunctionItem.exists_of_readAt hitem
    obtain ⟨d, hread, _⟩ := FunctionItem.readAt_eq_ok.mp hitem
    obtain ⟨k, rfl⟩ : ∃ k, next = k + 1 := ⟨next - 1, by omega⟩
    have hdepth := FunctionItem.depthAll_openTrees_lt hread
    have hskip := depthAll_le_of_isSuffix (List.drop_suffix 2 (tree :: rest))
    refine ⟨k, item.span.stop, rfl, Nat.lt_of_lt_of_le hdepth hskip, ?_⟩
    rw [hsite]
    dsimp only
    rw [hitem]
    rfl

theorem siblingEdits_token {t : Token} (h : source.itemAt (.token t :: rest) = .ok none) :
  source.siblingEdits inside 0 (.token t :: rest) = source.siblingEdits inside 0 rest
  := by
  rw [siblingEdits.eq_def]
  dsimp only
  rw [site?_of_itemAt h]

theorem siblingEdits_group {d : Delimiter} {inner : List TokenTree} {opening closing : Span}
    (h : source.itemAt (.group d inner opening closing :: rest) = .ok none) :
  source.siblingEdits inside 0 (.group d inner opening closing :: rest) = do
    let edits ← inside inner
    return edits ++ (← source.siblingEdits inside 0 rest)
  := by
  rw [siblingEdits.eq_def]
  dsimp only
  rw [site?_of_itemAt h]

/-- A computation stops where a scan of trees does. -/
def StopsIn (source : Source) (trees : List TokenTree) (x : Recording (List Edit)) : Prop :=
  ∀ s s' cause, x.run s = .error cause s' ↔
    ∃ stop names, source.Stops trees stop names ∧ s' = s ++ names ∧ cause = stop.cause

/-- Scanning trees that are less than `n` deep stops where they cannot be scanned. -/
def Halts (source : Source) (n : Nat) (inside : List TokenTree → Recording (List Edit)) : Prop :=
  ∀ trees, depthAll trees < n → source.StopsIn trees (inside trees)

theorem expansionWith_run_eq_error :
  (source.expansionWith inside item).run s = .error cause s' ↔
    (inside (Expansion.ofItem item).openTrees).run (s ++ [item.name]) = .error cause s'
  := by
  simp only [expansionWith, Recording.bind_run_eq_error, Recording.record_run_eq_ok,
    Recording.record_run_ne_error, Recording.pure_run_ne_error, false_or, and_false, exists_false,
    or_false]
  constructor
  · rintro ⟨_, _, rfl, h⟩
    exact h
  · exact fun h => ⟨(), _, rfl, h⟩

/-- At a marked item the scan stops in its body, or in what follows it. -/
theorem stopsIn_of_some (hfinds : source.Finds n inside) (hhalts : source.Halts n inside)
    (hdepth : depthAll (tree :: rest) ≤ n)
    (h : source.itemAt (tree :: rest) = .ok (some (item, after)))
    (hlater : ∀ skip, source.StopsIn (rest.drop skip) (source.siblingEdits inside skip rest)) :
  source.StopsIn (tree :: rest) (source.siblingEdits inside 0 (tree :: rest))
  := by
  intro s s' cause
  obtain ⟨skip, stop, rfl, hopen, hscan⟩ := siblingEdits_of_some inside h
  have hopen := Nat.lt_of_lt_of_le hopen hdepth
  simp only [hscan, Recording.bind_run_eq_error, Recording.pure_run_ne_error, and_false,
    exists_false, or_false, expansionWith_run_eq_error, expansionWith_run_eq_ok, hfinds _ hopen,
    hhalts _ hopen _ _ _, hlater _ _ _ _, List.append_assoc, List.singleton_append]
  constructor
  · rintro (⟨stop, names, hstops, rfl, rfl⟩ |
      ⟨_, _, ⟨inner, ⟨within, hinner, rfl⟩, rfl⟩, stop, names, hstops, rfl, rfl⟩)
    · exact ⟨stop, _, .within h hstops, rfl, rfl⟩
    · exact ⟨stop, _, .behind h hinner hstops, by simp, rfl⟩
  · rintro ⟨stop, _, hstops, rfl, rfl⟩
    cases hstops with
    | here h' => cases h.symm.trans h'
    | within h' hstops =>
        cases h.symm.trans h'
        exact .inl ⟨_, _, hstops, rfl, rfl⟩
    | behind h' hinner hstops =>
        cases h.symm.trans h'
        exact .inr ⟨_, _, ⟨_, ⟨_, hinner, rfl⟩, rfl⟩, _, _, hstops, by simp, rfl⟩
    | token h' | inGroup h' | behindGroup h' => cases h.symm.trans h'

theorem stopsIn_of_error (h : source.itemAt (tree :: rest) = .error stop) :
  source.StopsIn (tree :: rest) (source.siblingEdits inside 0 (tree :: rest))
  := by
  intro s s' cause
  have hrun : (source.siblingEdits inside 0 (tree :: rest)).run s = .error stop.cause s := by
    rw [siblingEdits_of_error h]
    rfl
  rw [hrun]
  constructor
  · rintro ⟨⟩
    exact ⟨stop, [], .here h, by simp, rfl⟩
  · rintro ⟨stop, _, hstops, rfl, rfl⟩
    cases hstops with
    | here h' =>
        cases h.symm.trans h'
        rw [List.append_nil]
    | within h' | behind h' | token h' | inGroup h' | behindGroup h' => cases h.symm.trans h'

/-- At a tree without a mark the scan stops inside of it, or in what follows it. -/
theorem stopsIn_of_none (hfinds : source.Finds n inside) (hhalts : source.Halts n inside)
    (hdepth : depthAll (tree :: rest) ≤ n) (h : source.itemAt (tree :: rest) = .ok none)
    (hlater : source.StopsIn rest (source.siblingEdits inside 0 rest)) :
  source.StopsIn (tree :: rest) (source.siblingEdits inside 0 (tree :: rest))
  := by
  intro s s' cause
  cases tree with
  | token t =>
      rw [siblingEdits_token h, hlater]
      constructor
      · rintro ⟨stop, names, hstops, rfl, rfl⟩
        exact ⟨stop, names, .token h hstops, rfl, rfl⟩
      · rintro ⟨stop, names, hstops, rfl, rfl⟩
        cases hstops with
        | here h' | within h' | behind h' => cases h.symm.trans h'
        | token _ hstops => exact ⟨stop, names, hstops, rfl, rfl⟩
  | group d inner opening closing =>
      have hless : depthAll inner < n := by
        rw [depthAll, depth] at hdepth
        omega
      simp only [siblingEdits_group h, Recording.bind_run_eq_error, Recording.pure_run_ne_error,
        and_false, exists_false, or_false, hfinds _ hless, hhalts _ hless _ _ _, hlater _ _ _]
      constructor
      · rintro (⟨stop, names, hstops, rfl, rfl⟩ |
          ⟨inner, _, ⟨within, hinner, rfl⟩, stop, names, hstops, rfl, rfl⟩)
        · exact ⟨stop, names, .inGroup h hstops, rfl, rfl⟩
        · exact ⟨stop, _, .behindGroup h hinner hstops, by simp, rfl⟩
      · rintro ⟨stop, _, hstops, rfl, rfl⟩
        cases hstops with
        | here h' | within h' | behind h' => cases h.symm.trans h'
        | inGroup _ hstops => exact .inl ⟨_, _, hstops, rfl, rfl⟩
        | behindGroup _ hinner hstops =>
            exact .inr ⟨_, _, ⟨_, hinner, rfl⟩, _, _, hstops, by simp, rfl⟩

/-- Scanning siblings stops where they cannot be scanned, if scanning the inside of groups does. -/
theorem stopsIn_siblingEdits (hfinds : source.Finds n inside) (hhalts : source.Halts n inside)
    (hdepth : depthAll trees ≤ n) (skip : Nat) :
  source.StopsIn (trees.drop skip) (source.siblingEdits inside skip trees)
  := by
  induction trees generalizing skip with
  | nil =>
      intro s s' cause
      rw [List.drop_nil, siblingEdits]
      constructor
      · intro h
        exact absurd h Recording.pure_run_ne_error
      · rintro ⟨_, _, ⟨⟩, _⟩
  | cons tree rest ih =>
      have hrest : depthAll rest ≤ n := Nat.le_trans (Nat.le_max_right _ _) hdepth
      cases skip with
      | succ skip => exact ih hrest skip
      | zero =>
          rw [List.drop_zero]
          cases h : source.itemAt (tree :: rest) with
          | error stop => exact stopsIn_of_error h
          | ok found =>
              cases found with
              | none => exact stopsIn_of_none hfinds hhalts hdepth h (ih hrest 0)
              | some found => exact stopsIn_of_some hfinds hhalts hdepth h (ih hrest)

/-- Scanning trees that are at most `depth` deep stops where they cannot be scanned. -/
theorem halts_editsTo (source : Source) (depth : Nat) :
  source.Halts (depth + 1) (source.editsTo depth)
  := by
  induction depth with
  | zero =>
      intro trees hdepth
      have hfinds : source.Finds 0 fun _ => return [] := fun _ h => absurd h (Nat.not_lt_zero _)
      have hhalts : source.Halts 0 fun _ => return [] := fun _ h => absurd h (Nat.not_lt_zero _)
      exact stopsIn_siblingEdits hfinds hhalts (Nat.le_of_lt_succ hdepth) 0
  | succ depth ih =>
      intro trees hdepth
      exact stopsIn_siblingEdits (finds_editsTo source depth) ih (Nat.le_of_lt_succ hdepth) 0

theorem edits_run_eq_error :
  (source.edits trees).run s = .error cause s' ↔
    ∃ stop names, source.Stops trees stop names ∧ s' = s ++ names ∧ cause = stop.cause
  := halts_editsTo source (depthAll trees) trees (Nat.lt_succ_self _) s s' cause

/-- A source fails to expand exactly if it holds no trees, or if scanning them stops. -/
theorem expand_run_eq_error :
  source.expand.run s = .error cause s' ↔
    (∃ rejection, TokenTree.ofText source.file source.text = .error rejection ∧
      cause = .rejected rejection ∧ s' = s) ∨
    ∃ trees stop names, TokenTree.ofText source.file source.text = .ok trees ∧
      source.Stops trees stop names ∧ s' = s ++ names ∧ cause = stop.cause
  := by
  simp only [expand, region, Recording.bind_run_eq_error, Recording.ofExcept_run_eq_ok,
    Recording.ofExcept_run_eq_error, Recording.pure_run_ne_error, and_false, exists_false, or_false,
    edits_run_eq_error]
  apply or_congr_right
  constructor
  · rintro ⟨trees, _, ⟨htrees, rfl⟩, stop, names, hstops, rfl, rfl⟩
    exact ⟨trees, stop, names, htrees, hstops, rfl, rfl⟩
  · rintro ⟨trees, stop, names, htrees, hstops, rfl, rfl⟩
    exact ⟨trees, s, ⟨htrees, rfl⟩, stop, names, hstops, rfl, rfl⟩

/-- A text fails to expand as one item exactly if it is none, or if scanning the trees of its body
stops. -/
theorem expandItem_run_eq_error :
  source.expandItem.run s = .error cause s' ↔
    (∃ rejection, FunctionItem.ofText source.file source.text = .error rejection ∧
      cause = .rejected rejection ∧ s' = s) ∨
    ∃ item stop names, FunctionItem.ofText source.file source.text = .ok item ∧
      source.Stops (Expansion.ofItem item).openTrees stop names ∧ s' = s ++ item.name :: names ∧
      cause = stop.cause
  := by
  simp only [expandItem, Recording.bind_run_eq_error, Recording.ofExcept_run_eq_ok,
    Recording.ofExcept_run_eq_error, expansionWith_run_eq_error, edits_run_eq_error,
    List.append_assoc, List.singleton_append]
  apply or_congr_right
  constructor
  · rintro ⟨item, _, ⟨hitem, rfl⟩, stop, names, hstops, rfl, rfl⟩
    exact ⟨item, stop, names, hitem, hstops, rfl, rfl⟩
  · rintro ⟨item, stop, names, hitem, hstops, rfl, rfl⟩
    exact ⟨item, s, ⟨hitem, rfl⟩, stop, names, hstops, rfl, rfl⟩

end Source

/-! ### What stops a scan, among the tokens of a text -/

/-- What is read in vain among tokens: the arguments of a call, which at least one token stands in
front of, or what follows a marker attribute. -/
inductive Stop.Arises (source : Source) (tokens : List Token) : Stop → Prop
  | called {call : Invocation} {rejection : Rejection} {t : Token} :
      FunctionItem.ofTrees source.file call.arguments.trees = .error rejection →
      t :: call.arguments.tree.tokens <:+: tokens → Arises source tokens (.called call rejection)
  | attributed {trees : List TokenTree} {rejection : Rejection} :
      FunctionItem.readAt source.file trees 2 = .error rejection →
      tokensAll trees <:+: tokens → Arises source tokens (.attributed trees rejection)
  | unanswered : Arises source tokens .unanswered

section Arises

variable {source : Source} {tokens tokens' : List Token} {trees after : List TokenTree}
  {item : FunctionItem} {stop : Stop} {names : List String}

theorem Stop.Arises.mono (h : stop.Arises source tokens') (ht : tokens' <:+: tokens) :
  stop.Arises source tokens
  := by
  cases h with
  | called hitem harguments => exact .called hitem (harguments.trans ht)
  | attributed hitem htrees => exact .attributed hitem (htrees.trans ht)
  | unanswered => exact .unanswered

theorem Group.tokensAll_isInfix_tokens (g : Group) :
  tokensAll g.trees <:+: g.tree.tokens
  := ⟨[⟨.punct g.delimiter.opening false, g.opening⟩],
    [⟨.punct g.delimiter.closing false, g.closing⟩], rfl⟩

/-- The trees of an item in which edits may stand occur among those that it is read from, whatever
follows these, and they stand behind its name. -/
theorem FunctionItem.exists_openTrees {c d : Cursor} (h : FunctionItem.read c = .ok (item, d)) :
  ∃ u, c.trees = u ++ d.trees ∧ (∀ w, Occurs (Expansion.ofItem item).openTrees (u ++ w)) ∧
    (item.nameToken :: tokensAll (Expansion.ofItem item).openTrees).Sublist (tokensAll u)
  := by
  obtain ⟨s⟩ := nonempty_steps h
  have hopen : Occurs (Expansion.ofItem item).openTrees [item.ending.tree] :=
    Expansion.occurs_openTrees (List.mem_singleton_self _)
  have hname : item.nameToken ∈ tokensAll
      (Expansion.headTrees item ++ item.returns.trees ++ Expansion.tailTrees item) := by
    simp [Expansion.headTrees, tokensAll_append, tokensAll, tokens]
  refine ⟨_, s.reads.trees, fun w => Expansion.occurs_openTrees (by simp), ?_⟩
  rw [tokensAll_append]
  exact (List.singleton_sublist.mpr hname).append hopen.tokensAll_isInfix.sublist

theorem FunctionItem.openTrees_isInfix {c d : Cursor} (h : FunctionItem.read c = .ok (item, d)) :
  tokensAll (Expansion.ofItem item).openTrees <:+: tokensAll c.trees
  := by
  obtain ⟨u, htrees, hopen, -⟩ := exists_openTrees h
  rw [htrees]
  exact (hopen _).tokensAll_isInfix

namespace Source

theorem arises_of_itemAt (h : source.itemAt trees = .error stop) :
  stop.Arises source (tokensAll trees)
  := by
  obtain ⟨-, rfl⟩ | ⟨call, rejection, hsite, hitem, rfl⟩ | ⟨rejection, -, hitem, rfl⟩ :=
    itemAt_eq_error h
  · exact .unanswered
  · obtain ⟨_, path, bang, rest, rfl, -, -, hbang, -⟩ := site?_eq_invocation.mp hsite
    obtain ⟨t, rfl⟩ : ∃ t, bang = .token t := by
      cases bang with
      | token t => exact ⟨t, rfl⟩
      | group => cases hbang
    apply Stop.Arises.called hitem (t := t)
    rw [tokensAll_append, tokensAll, tokensAll]
    exact ⟨tokensAll path, tokensAll rest, by simp [tokens]⟩
  · exact .attributed hitem List.infix_rfl

/-- A marked item takes up at least two trees. Its name and, behind it, the trees of its body are
among those behind the first one. -/
theorem exists_of_itemAt (h : source.itemAt trees = .ok (some (item, after))) :
  ∃ first v, trees = first :: (v ++ after) ∧
    (∀ w, Occurs (Expansion.ofItem item).openTrees (v ++ w)) ∧
    (item.nameToken :: tokensAll (Expansion.ofItem item).openTrees).Sublist (tokensAll v)
  := by
  obtain ⟨call, hsite, hitem, rfl⟩ | ⟨next, hsite, hitem, rfl⟩ := itemAt_eq_some h
  · obtain ⟨_, path, bang, rest, rfl, hpath, -, -, hends⟩ := site?_eq_invocation.mp hsite
    obtain ⟨v, rfl⟩ := hends.isSuffix
    obtain ⟨d, hread, hd⟩ := FunctionItem.ofTrees_eq_ok.mp hitem
    obtain ⟨u, hu, hopen, hname⟩ := FunctionItem.exists_openTrees hread
    obtain rfl : call.arguments.trees = u := by rwa [hd, List.append_nil] at hu
    obtain ⟨first, path, rfl⟩ : ∃ first path', path = first :: path' := by
      obtain ⟨u, hu, hne⟩ := exists_of_pathName? hpath
      rw [List.append_cancel_right hu]
      exact List.exists_cons_of_ne_nil hne
    have harguments (w : List TokenTree) :
        Occurs call.arguments.trees (path ++ bang :: call.arguments.tree :: v ++ w) :=
      .of_group (by simp)
    refine ⟨first, path ++ bang :: call.arguments.tree :: v, by simp, fun w => ?_, ?_⟩
    · have hopen := hopen []
      rw [List.append_nil] at hopen
      exact hopen.trans (harguments w)
    · have harguments := harguments []
      rw [List.append_nil] at harguments
      exact hname.trans harguments.tokensAll_isInfix.sublist
  · obtain ⟨hash, inside, opening, closing, rest, rfl, -⟩ := exists_of_attribute hsite
    obtain ⟨d, hread, rfl⟩ := FunctionItem.readAt_eq_ok.mp hitem
    obtain ⟨u, hu, hopen, hname⟩ := FunctionItem.exists_openTrees hread
    obtain rfl : rest = u ++ d.trees := hu
    have hafter : d.trees <:+ hash :: .group .bracket inside opening closing :: (u ++ d.trees) :=
      ⟨hash :: .group .bracket inside opening closing :: u, rfl⟩
    rw [← List.suffix_iff_eq_drop.mp hafter]
    refine ⟨hash, .group .bracket inside opening closing :: u, rfl, fun w => (hopen w).behind, ?_⟩
    rw [tokensAll]
    exact hname.trans (List.sublist_append_right _ _)

/-- The trees of the body of a marked item are some of those that start with it, and so are the
trees behind it. -/
theorem isInfix_of_itemAt (h : source.itemAt trees = .ok (some (item, after))) :
  tokensAll (Expansion.ofItem item).openTrees <:+: tokensAll trees ∧
    tokensAll after <:+: tokensAll trees
  := by
  obtain ⟨first, v, rfl, hopen, -⟩ := exists_of_itemAt h
  have hafter : Occurs after (first :: (v ++ after)) :=
    .behind (.of_isSuffix (List.suffix_append v _))
  exact ⟨(hopen after).behind.tokensAll_isInfix, hafter.tokensAll_isInfix⟩

/-- A scan of trees stops at something among their tokens. -/
theorem Stops.arises (h : source.Stops trees stop names) :
  stop.Arises source (tokensAll trees)
  := by
  have hrest (tree : TokenTree) (rest : List TokenTree) :
      tokensAll rest <:+: tokensAll (tree :: rest) :=
    (tokensAll_isSuffix (List.suffix_cons tree rest)).isInfix
  induction h with
  | here h => exact arises_of_itemAt h
  | within h _ ih => exact ih.mono (isInfix_of_itemAt h).1
  | behind h _ _ ih => exact ih.mono (isInfix_of_itemAt h).2
  | token _ _ ih => exact ih.mono (hrest _ _)
  | @inGroup d inside rest opening closing _ _ _ _ ih =>
      have hgroup : Occurs inside (.group d inside opening closing :: rest) := .inside .here
      exact ih.mono hgroup.tokensAll_isInfix
  | behindGroup _ _ _ ih => exact ih.mono (hrest _ _)

end Source

end Arises

end ReturnCaptures
