import ReturnCaptures.Proofs.Declarations

/-!
# Expanding again and again

What an expansion puts into a return clause holds no bound captures when it is read again, so that
only the first of several expansions declares anything. Each later one leaves its trees as they are
or takes the parentheses off the return type, in which the tokens of the return clause become fewer
while everything around it stays. After as many expansions as the return clause has tokens, and one
more, the trees have come to rest, or were rejected.
-/

namespace ReturnCaptures

open TokenTree Cursor

/-- Expands the trees of one function item `n` times, each time what the last expansion gave. -/
def expandTimes : Nat → List TokenTree → Except Rejection (List TokenTree)
  | 0, trees => .ok trees
  | n + 1, trees => expandTrees trees >>= expandTimes n

namespace Expansion

variable {file : String} {trees later : List TokenTree} {item item' : FunctionItem}

/-- The trees of an expansion with another return clause. -/
def treesWith (x : Expansion) (clause : List TokenTree) : List TokenTree :=
  headTrees x.item ++ (clause ++ (tailTrees x.item ++ [x.ending.tree]))

/-- An expansion has the same trees as another one in front of its return clause and behind it. -/
structure AgreesAround (x y : Expansion) : Prop where
  head : headTrees x.item = headTrees y.item
  rest : tailTrees x.item ++ [x.ending.tree] = tailTrees y.item ++ [y.ending.tree]

theorem AgreesAround.treesWith_eq {x y : Expansion} (h : AgreesAround x y)
    (clause : List TokenTree) :
  x.treesWith clause = y.treesWith clause
  := by
  rw [treesWith, treesWith, h.head, h.rest]

theorem trees_eq_treesWith (item : FunctionItem) :
  (ofItem item).trees = (ofItem item).treesWith (ofItem item).returnTrees
  := by
  rw [treesWith, item_ofItem]
  apply trees_eq

theorem expandTrees_eq_ok {new : List TokenTree} :
  expandTrees trees = .ok new ↔
    ∃ item, FunctionItem.ofTrees (fileOf trees) trees = .ok item ∧ (ofItem item).trees = new
  := by
  rw [expandTrees, Outcome.bind_eq_ok]
  simp only [Outcome.pure_eq_ok]

/-- An item that is read from an expansion has no bound captures, and nothing is declared. -/
theorem bounds_again (h : FunctionItem.ofTrees file trees = .ok item)
    (h' : FunctionItem.ofTrees file' (ofItem item).trees = .ok item') :
  item'.returns.bounds = [] ∧ (ofItem item').declaration = none
  := by
  obtain ⟨d, ⟨s⟩, _⟩ := FunctionItem.steps_of_ofTrees h
  obtain ⟨d', ⟨s'⟩, _⟩ := FunctionItem.steps_of_ofTrees h'
  have hbounds : item'.returns.bounds = [] := by
    cases hreturns : item'.returns with
    | absent => rfl
    | plain arrow type span => rfl
    | captures arrow items g span => apply bounds_reread s s' rfl hreturns
  use hbounds
  obtain ⟨span, hdeclaration⟩ := exists_declaration_eq item'
  rw [hdeclaration, hbounds]
  rfl

/-- An expansion that is expanded again stays as it is, or agrees with the new one around a return
clause that has become shorter. -/
theorem step_again (h : FunctionItem.ofTrees file trees = .ok item)
    (h' : FunctionItem.ofTrees file' (ofItem item).trees = .ok item') :
  (ofItem item').trees = (ofItem item).trees ∨
    AgreesAround (ofItem item') (ofItem item) ∧
      (flatAll (ofItem item').returnTrees).length < (flatAll (ofItem item).returnTrees).length
  := by
  obtain ⟨d, ⟨s⟩, _⟩ := FunctionItem.steps_of_ofTrees h
  obtain ⟨d', ⟨s'⟩, hd'⟩ := FunctionItem.steps_of_ofTrees h'
  cases hcollapses : (ofItem item).collapsesAgain with
  | false =>
      left
      apply trees_of_kept h' (kept_reread s s' rfl hcollapses)
  | true =>
      right
      obtain ⟨hclause, hrest⟩ := collapse_reread s s' rfl hd' hcollapses
      constructor
      · constructor
        · rw [item_ofItem, item_ofItem]
          apply (reread_head s s' rfl).1
        · rwa [item_ofItem, item_ofItem]
      · apply hclause

/-- What several expansions make of an expansion is the expansion of an item that agrees with it
around the return clause. -/
theorem exists_of_expandTimes {n : Nat} (h : FunctionItem.ofTrees file trees = .ok item)
    (hlater : expandTimes n (ofItem item).trees = .ok later) :
  ∃ file' trees' item', FunctionItem.ofTrees file' trees' = .ok item' ∧
    (ofItem item').trees = later ∧ AgreesAround (ofItem item') (ofItem item)
  := by
  induction n generalizing file trees item with
  | zero =>
      cases hlater
      use file, trees, item, h, rfl
      constructor <;> rfl
  | succ n ih =>
      obtain ⟨next, hnext, hlater⟩ := Outcome.bind_eq_ok.mp hlater
      obtain ⟨item', h', rfl⟩ := expandTrees_eq_ok.mp hnext
      rcases step_again h h' with hsame | ⟨hagrees, _⟩
      · rw [hsame] at hlater
        apply ih h hlater
      · obtain ⟨file', trees', item'', h'', hlater, hagrees'⟩ := ih h' hlater
        use file', trees', item'', h'', hlater
        constructor
        · rw [hagrees'.head, hagrees.head]
        · rw [hagrees'.rest, hagrees.rest]

theorem expandTimes_succ_of_ok {next : List TokenTree} (h : expandTrees trees = .ok next)
    (n : Nat) :
  expandTimes (n + 1) trees = expandTimes n next
  := by
  rw [expandTimes, h]
  rfl

theorem expandTimes_succ_of_error {rejection : Rejection} (h : expandTrees trees = .error rejection)
    (n : Nat) :
  expandTimes (n + 1) trees = .error rejection
  := by
  rw [expandTimes, h]
  rfl

/-- Trees that are expanded to themselves stay as they are. -/
theorem expandTimes_of_fixed (h : expandTrees trees = .ok trees) (n : Nat) :
  expandTimes n trees = .ok trees
  := by
  induction n with
  | zero => rfl
  | succ n ih => rw [expandTimes_succ_of_ok h, ih]

/-- Expansions of an expansion come to rest after as many steps as its return clause has tokens, and
one more. -/
theorem exists_expandTimes_eq (h : FunctionItem.ofTrees file trees = .ok item) :
  ∃ N ≤ (flatAll (ofItem item).returnTrees).length + 1, ∀ n ≥ N,
    expandTimes n (ofItem item).trees = expandTimes N (ofItem item).trees
  := by
  -- Only the collapse of the return clause leads to other trees, and it makes the clause shorter.
  induction hlength : (flatAll (ofItem item).returnTrees).length using Nat.strongRecOn
    generalizing file trees item with
  | ind length ih =>
      subst hlength
      cases hnext : expandTrees (ofItem item).trees with
      | error rejection =>
          use 1, Nat.le_add_left ..
          intro n hn
          obtain ⟨n, rfl⟩ := Nat.exists_eq_add_of_le' hn
          rw [expandTimes_succ_of_error hnext, expandTimes_succ_of_error hnext]
      | ok next =>
          obtain ⟨item', h', rfl⟩ := expandTrees_eq_ok.mp hnext
          rcases step_again h h' with hsame | ⟨_, hlt⟩
          · rw [hsame] at hnext
            use 0, Nat.zero_le _
            intro n _
            rw [expandTimes_of_fixed hnext, expandTimes_of_fixed hnext]
          · obtain ⟨N, hN, hrest⟩ := ih _ hlt h' rfl
            use N + 1, by omega
            intro n hn
            obtain ⟨n, rfl⟩ : ∃ k, n = k + 1 := ⟨n - 1, by omega⟩
            rw [expandTimes_succ_of_ok hnext, expandTimes_succ_of_ok hnext]
            apply hrest n (by omega)

/-- However often an item is expanded, all expansions after the first one agree with it around the
return clause, and an item that is read from one of them has no bound captures. The next expansion
keeps the return clause or makes it shorter, unless there is none, so that the expansions come to
rest or are rejected. -/
theorem expandTimes_settles (h : FunctionItem.ofTrees (fileOf trees) trees = .ok item) :
  (∀ n later, expandTimes (n + 1) trees = .ok later →
    (∀ item', FunctionItem.ofTrees (fileOf later) later = .ok item' →
      item'.returns.bounds = [] ∧ (ofItem item').declaration = none) ∧
    ∃ clause, later = (ofItem item).treesWith clause ∧
      ∀ next, expandTrees later = .ok next →
        ∃ clause', next = (ofItem item).treesWith clause' ∧
          (clause' = clause ∨ (flatAll clause').length < (flatAll clause).length)) ∧
  ∃ N ≤ (flatAll (ofItem item).returnTrees).length + 2, ∀ n ≥ N,
    expandTimes n trees = expandTimes N trees
  := by
  have hfirst : expandTrees trees = .ok (ofItem item).trees := expandTrees_eq_ok.mpr ⟨item, h, rfl⟩
  constructor
  · intro n later hlater
    rw [expandTimes_succ_of_ok hfirst] at hlater
    obtain ⟨file', trees', item', h', rfl, hagrees⟩ := exists_of_expandTimes h hlater
    constructor
    · intro item'' h''
      apply bounds_again h' h''
    · use (ofItem item').returnTrees, by rw [trees_eq_treesWith, hagrees.treesWith_eq]
      intro next hnext
      obtain ⟨item'', h'', rfl⟩ := expandTrees_eq_ok.mp hnext
      rcases step_again h' h'' with hsame | ⟨hagrees', hlt⟩
      · use (ofItem item').returnTrees, by rw [hsame, trees_eq_treesWith, hagrees.treesWith_eq]
        left
        rfl
      · use (ofItem item'').returnTrees, by
          rw [trees_eq_treesWith, hagrees'.treesWith_eq, hagrees.treesWith_eq]
        right
        apply hlt
  · obtain ⟨N, hN, hrest⟩ := exists_expandTimes_eq h
    use N + 1, by omega
    intro n hn
    obtain ⟨n, rfl⟩ : ∃ k, n = k + 1 := ⟨n - 1, by omega⟩
    rw [expandTimes_succ_of_ok hfirst, expandTimes_succ_of_ok hfirst]
    apply hrest n (by omega)

/-- A type in two pairs of parentheses loses one of them in the second expansion and the other one
in the third. -/
theorem expandTimes_settles_nested :
  ∃ trees item second third,
    FunctionItem.ofTrees (fileOf trees) trees = .ok item ∧ (ofItem item).declaration.isSome ∧
    expandTimes 2 trees = .ok second ∧ expandTimes 3 trees = .ok third ∧
    flatAll second = ["fn", "f", "(", ")", "-", ">", "(", "u8", ")", "\x7b", "let", "a", ":", "(",
      "(", "u8", ")", ")", ";", "a", "\x7d"] ∧
    (∃ clause, third = (ofItem item).treesWith clause) ∧
    ∃ N ≤ (flatAll (ofItem item).returnTrees).length + 2, ∀ n ≥ N,
      expandTimes n trees = expandTimes N trees
  := by
  obtain ⟨trees, htext, htrees⟩ := Outcome.exists_of_any
    (x := TokenTree.ofText "f.rs" "fn f() -> (a: ((u8))) { a }".toList)
    (p := fun trees =>
      (FunctionItem.ofTrees (fileOf trees) trees).toOption.any (ofItem · |>.declaration.isSome) &&
      (expandTimes 2 trees).toOption.any (fun second =>
        flatAll second = ["fn", "f", "(", ")", "-", ">", "(", "u8", ")", "\x7b", "let", "a", ":",
          "(", "(", "u8", ")", ")", ";", "a", "\x7d"]) &&
      (expandTimes 3 trees).toOption.any fun _ => true)
    (by decide +kernel)
  rw [Bool.and_eq_true, Bool.and_eq_true] at htrees
  obtain ⟨⟨hitem, hsecond⟩, hthird⟩ := htrees
  obtain ⟨item, h, hdeclaration⟩ := Outcome.exists_of_any hitem
  obtain ⟨second, hsecond, hflat⟩ := Outcome.exists_of_any hsecond
  obtain ⟨third, hthird, _⟩ := Outcome.exists_of_any hthird
  obtain ⟨hlater, hrest⟩ := expandTimes_settles h
  obtain ⟨_, clause, hclause, _⟩ := hlater 2 third hthird
  exact ⟨trees, item, second, third, h, hdeclaration, hsecond, hthird, by simpa using hflat,
    ⟨clause, hclause⟩, hrest⟩

end Expansion

end ReturnCaptures
