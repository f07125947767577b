import ReturnCaptures.Proofs.ItemExtent
import ReturnCaptures.Proofs.Sites

/-!
# Items among other trees

An item that is read among other trees takes up a run of them. Nothing but this run decides how it
is read: the run is read as the same item, up to the same tree, wherever it stands and whatever
stands in front of it and behind it, and also if it stands alone.
-/

namespace ReturnCaptures

open TokenTree

namespace FunctionItem

variable {file : String} {trees : List TokenTree} {item : FunctionItem} {start next : Nat}

/-- An item is read from a run of trees of its own, wherever this run stands. -/
theorem exists_own_trees (h : readAt file trees start = .ok (item, next)) :
  ∃ before u after, trees = before ++ (u ++ after) ∧ start = before.length ∧
    next = before.length + u.length ∧ 0 < u.length ∧
    ∀ file' before' after',
      readAt file' (before' ++ (u ++ after')) before'.length = .ok (item, before'.length + u.length)
  := by
  obtain ⟨d, hread, hnext⟩ := readAt_eq_ok.mp h
  obtain ⟨u, hu, hlocal⟩ := read_append hread
  have hdrop : trees.drop start = u ++ d.trees := hu
  have hpos : 0 < u.length := by
    obtain ⟨w, hw, -⟩ := exists_trees_of_read hread
    rw [hu] at hw
    simp [List.append_cancel_right hw]
  have hlength := congrArg List.length hdrop
  rw [List.length_drop, List.length_append] at hlength
  have hstart : (trees.take start).length = start := by
    rw [List.length_take]
    omega
  use trees.take start, u, d.trees
  rw [← hdrop, List.take_append_drop, hstart]
  use rfl, rfl, by omega, hpos
  intro file' before' after'
  apply readAt_eq_ok.mpr
  use ⟨after', (Cursor.ofTrees file' (before' ++ (u ++ after'))).stop⟩
  constructor
  · rw [← hlocal, Cursor.skip]
    simp [Cursor.ofTrees]
  · simp only [List.length_append]
    omega

/-- Trees form an item exactly if it is read at the first of them and ends with the last one. -/
theorem readAt_zero_iff :
  readAt file trees 0 = .ok (item, trees.length) ↔ ofTrees file trees = .ok item
  := by
  rw [readAt_eq_ok, ofTrees_eq_ok]
  apply exists_congr
  intro d
  apply and_congr_right
  intro hread
  obtain ⟨u, hu, -⟩ := exists_trees_of_read hread
  have hlength : trees.length = ((u ++ [item.ending.tree]) ++ d.trees).length := congrArg _ hu
  rw [← List.length_eq_zero_iff]
  simp only [List.length_append, List.length_singleton] at hlength
  omega

/-- An item that is read among trees is read among them also in front of others. -/
theorem readAt_append (h : readAt file trees start = .ok (item, next)) (v : List TokenTree) :
  readAt file (trees ++ v) start = .ok (item, next)
  := by
  obtain ⟨before, u, after, rfl, rfl, rfl, -, hown⟩ := exists_own_trees h
  rw [List.append_assoc, List.append_assoc]
  apply hown

/-- An item that trees form is read from the same trees behind others, up to their end. -/
theorem readAt_of_ofTrees (h : ofTrees file trees = .ok item) (before : List TokenTree) :
  readAt file (before ++ trees) before.length = .ok (item, (before ++ trees).length)
  := by
  obtain ⟨before', u, after, rfl, hstart, hnext, -, hown⟩ :=
    exists_own_trees (readAt_zero_iff.mpr h)
  obtain rfl : before' = [] := List.eq_nil_of_length_eq_zero hstart.symm
  obtain rfl : after = [] := by
    apply List.eq_nil_of_length_eq_zero
    simp only [List.length_append, List.length_nil] at hnext
    omega
  rw [List.nil_append, List.length_append, List.append_nil]
  have hread := hown file before []
  rwa [List.append_nil] at hread

/-- Reading an item is local: it takes up the trees from `start` to `next`, at least one; these form
it if they stand alone; and it is read from them, up to the last of them, between any other trees. -/
theorem readAt_local (h : readAt file trees start = .ok (item, next)) :
  start < next ∧ next ≤ trees.length ∧
    ∀ file', ofTrees file' ((trees.take next).drop start) = .ok item ∧
      ∀ before after,
        readAt file' (before ++ ((trees.take next).drop start ++ after)) before.length =
          .ok (item, before.length + (next - start))
  := by
  obtain ⟨before, u, after, rfl, rfl, rfl, hpos, hown⟩ := exists_own_trees h
  have hrun : ((before ++ (u ++ after)).take (before.length + u.length)).drop before.length = u := by
    rw [← List.append_assoc, ← List.length_append, List.take_left, List.drop_left]
  rw [hrun, Nat.add_sub_cancel_left]
  use Nat.lt_add_of_pos_right hpos
  constructor
  · rw [List.length_append, List.length_append]
    omega
  · intro file'
    have halone := hown file' [] []
    rw [List.nil_append, List.append_nil, List.length_nil, Nat.zero_add] at halone
    use readAt_zero_iff.mp halone, hown file'

theorem readAt_local_amid :
  ∃ trees item,
    TokenTree.ofText "f.rs" "mod m { } #[x] fn f<T>() -> (a: T) where T: Copy; + fn".toList =
      .ok trees ∧
    readAt "f.rs" trees 3 = .ok (item, 19) ∧ trees.length = 21 ∧
    3 < 19 ∧ 19 ≤ trees.length ∧
      ∀ file', ofTrees file' ((trees.take 19).drop 3) = .ok item ∧
        ∀ before after,
          readAt file' (before ++ ((trees.take 19).drop 3 ++ after)) before.length =
            .ok (item, before.length + (19 - 3))
  := by
  obtain ⟨trees, htrees, hread⟩ := Outcome.exists_of_any
    (x := TokenTree.ofText "f.rs" "mod m { } #[x] fn f<T>() -> (a: T) where T: Copy; + fn".toList)
    (p := fun trees => trees.length == 21 && (readAt "f.rs" trees 3).toOption.any (·.2 == 19))
    (by decide +kernel)
  rw [Bool.and_eq_true, beq_iff_eq] at hread
  obtain ⟨⟨item, next⟩, hitem, hnext⟩ := Outcome.exists_of_any hread.2
  obtain rfl : next = 19 := eq_of_beq hnext
  exact ⟨trees, item, htrees, hitem, hread.1, readAt_local hitem⟩

end FunctionItem

end ReturnCaptures
