import Mathlib.Data.List.Nodup
import Mathlib.Data.List.Sort
import ReturnCaptures.FileTree

/-!
# Reading, writing and listing files

Writing a file changes what is read from it and from no other file. The files below a directory are
listed in the order of their paths, each of them once if the tree holds no path twice.
-/

namespace ReturnCaptures

namespace Path

theorem le_trans {p q r : Path} (hpq : le p q) (hqr : le q r) :
  le p r
  := by
  induction p generalizing q r with
  | nil => rfl
  | cons a p ih =>
      cases q with
      | nil => cases hpq
      | cons b q =>
          cases r with
          | nil => cases hqr
          | cons c r =>
              simp only [le, Bool.or_eq_true, Bool.and_eq_true, decide_eq_true_eq, beq_iff_eq]
                at hpq hqr ⊢
              rcases hpq with hab | ⟨rfl, hpq⟩
              · left
                rcases hqr with hbc | ⟨rfl, _⟩
                · apply String.lt_trans hab hbc
                · apply hab
              · rcases hqr with hbc | ⟨rfl, hqr⟩
                · left
                  apply hbc
                · right
                  use rfl, ih hpq hqr

theorem le_total (p q : Path) :
  le p q || le q p
  := by
  induction p generalizing q with
  | nil => rfl
  | cons a p ih =>
      cases q with
      | nil => rfl
      | cons b q =>
          simp only [le, Bool.or_eq_true, Bool.and_eq_true, decide_eq_true_eq, beq_iff_eq]
          rcases Std.lt_trichotomy a b with hab | rfl | hba
          · exact .inl (.inl hab)
          · rcases Bool.or_eq_true_iff.mp (ih q) with hpq | hqp
            · exact .inl (.inr ⟨rfl, hpq⟩)
            · exact .inr (.inr ⟨rfl, hqp⟩)
          · exact .inr (.inl hba)

end Path

namespace FileTree

variable {tree : FileTree} {directory path rel : Path}

theorem isSome_content? (tree : FileTree) (path : Path) :
  (tree.content? path).isSome = tree.isFile path
  := by
  rw [content?, isFile, Option.isSome_map, Bool.eq_iff_iff, List.find?_isSome, List.any_eq_true]

/-- What is read after a file has been written. -/
theorem content?_write (tree : FileTree) (path other : Path) (content : List Char) :
  (tree.write path content).content? other =
    if other = path then (tree.content? path).map fun _ => content else tree.content? other
  := by
  rw [content?, content?, content?, write]
  induction tree.files with
  | nil => simp
  | cons file files ih =>
      rw [List.map_cons, List.find?_cons, List.find?_cons, List.find?_cons]
      by_cases hfile : file.1 = path
      · by_cases hother : other = path
        · simp [hfile, hother]
        · have hne : (path == other) = false := beq_false_of_ne (Ne.symm hother)
          simpa [hfile, hother, hne] using ih
      · have hfile' : (file.1 == path) = false := beq_false_of_ne hfile
        by_cases hother : file.1 = other
        · have hne : other ≠ path := by rwa [← hother]
          simp [hother, hne]
        · have hother' : (file.1 == other) = false := beq_false_of_ne hother
          simpa [hfile, hfile', hother'] using ih

theorem mem_filesBelow :
  rel ∈ tree.filesBelow directory ↔ rel ≠ [] ∧ tree.isFile (directory ++ rel)
  := by
  simp only [filesBelow, List.mem_mergeSort, List.mem_map, List.mem_filter, Bool.and_eq_true,
    List.isPrefixOf_iff_prefix, bne_iff_ne, isFile, List.any_eq_true, beq_iff_eq]
  constructor
  · rintro ⟨file, ⟨hfile, ⟨rest, hrest⟩, hne⟩, rfl⟩
    have hdrop : file.1.drop directory.length = rest := by rw [← hrest, List.drop_left]
    rw [hdrop]
    constructor
    · rintro rfl
      rw [List.append_nil] at hrest
      apply hne hrest.symm
    · use file, hfile, hrest.symm
  · rintro ⟨hne, file, hfile, hpath⟩
    use file
    rw [hpath]
    use ⟨hfile, List.prefix_append .., by simpa using hne⟩, List.drop_left

/-- The files below a directory are listed in the order of their paths. -/
theorem pairwise_filesBelow (tree : FileTree) (directory : Path) :
  (tree.filesBelow directory).Pairwise fun p q => Path.le p q
  := by
  apply List.pairwise_mergeSort
  · intro p q r
    apply Path.le_trans
  · apply Path.le_total

/-- No file is listed twice. -/
theorem nodup_filesBelow (h : (tree.files.map (·.1)).Nodup) (directory : Path) :
  (tree.filesBelow directory).Nodup
  := by
  rw [filesBelow, (List.mergeSort_perm _ _).nodup_iff]
  have hbelow : ((tree.files.filter fun file => directory.isPrefixOf file.1 &&
      file.1 != directory).map (·.1)).Nodup := h.sublist (List.filter_sublist.map _)
  apply List.Nodup.map_on _ (List.Nodup.of_map _ hbelow)
  intro file hfile file' hfile' hdrop
  apply List.inj_on_of_nodup_map hbelow hfile hfile'
  simp only [List.mem_filter, Bool.and_eq_true, List.isPrefixOf_iff_prefix] at hfile hfile'
  rw [← List.prefix_iff_eq_append.mp hfile.2.1, ← List.prefix_iff_eq_append.mp hfile'.2.1, hdrop]

end FileTree

end ReturnCaptures
