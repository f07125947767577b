import ReturnCaptures.Proofs.FileRuns

/-!
# Comparing and replacing the files of a directory

A run over a directory expands the files below it that have one of the suffixes of the settings. As
what is found of a file depends on its own content only, the files that are reported when they are
compared are those that are written when they are replaced. What is written has been expanded with
its line ends reduced, and hence it has lost its carriage returns.
-/

namespace ReturnCaptures

open TokenTree Outcome

/-- Whether all names that the settings give are given as lists. -/
def Settings.areLists (settings : Settings) : Bool :=
  settings.markers.areLists && settings.suffixes.isList

/-- A dot stands for the working directory. -/
theorem Route.parse_dot :
  Route.parse "." = .here
  := by
  have hsplit : ".".splitOn "/" = ["."] := by
    delta String.splitOn
    rw [String.splitOnAux, String.splitOnAux]
    decide +kernel
  have hstart : ".".startsWith "/" = false := by
    rw [Bool.eq_false_iff, ne_eq, String.startsWith_string_iff]
    decide
  rw [Route.parse, Route.ofText, hsplit, hstart]
  decide +kernel

namespace Request

variable {display : Display} {settings : Settings} {tree : FileTree} {name : String} {route : Route}
  {place : Path} {mode : Mode} {p : Progress} {files : List (Path × String)}

/-! ### Source files -/

/-- Whether a path from a directory on is that of a source file below it. -/
def IsSource (settings : Settings) (tree : FileTree) (place rel : Path) : Prop :=
  rel ∈ tree.filesBelow place ∧ settings.suffixes.has? (some rel.suffix) = some true

/-- A file below a directory, with the name by which it is reported. -/
def fileAt (route : Route) (place rel : Path) : Path × String :=
  (place ++ rel, (route.append rel).render)

/-- The source files of a directory are those below it, unless the suffixes are no list. -/
theorem sourceFiles_of_isDirectory (settings : Settings) (route : Route)
    (h : tree.isDirectory place) :
  (∃ rels : List Path, sourceFiles settings tree route place = .ok (rels.map (fileAt route place)) ∧
    rels.Sublist (tree.filesBelow place) ∧ ∀ rel, rel ∈ rels ↔ IsSource settings tree place rel) ∨
  (sourceFiles settings tree route place = .error .unusableNames ∧ settings.areLists = false)
  := by
  rw [sourceFiles, if_pos h, NameSet.filter?]
  split
  case h_1 rels hrels =>
    left
    rcases ite_eq_iff.mp hrels with ⟨_, hrels⟩ | ⟨_, ⟨⟩⟩
    cases hrels
    refine ⟨_, rfl, List.filter_sublist, ?_⟩
    simp [IsSource]
  case h_2 hnone =>
    right
    use rfl
    apply Bool.eq_false_iff.mpr
    intro hlists
    rw [Settings.areLists, Bool.and_eq_true] at hlists
    rcases ite_eq_iff.mp hnone with ⟨_, ⟨⟩⟩ | ⟨hall, _⟩
    apply hall
    rw [List.all_eq_true]
    intro rel _
    obtain ⟨answer, hanswer⟩ := NameSet.exists_has?_eq hlists.2 (some rel.suffix)
    rw [hanswer]
    rfl

theorem nodup_fileAt {rels : List Path} (h : rels.Nodup) (route : Route) (place : Path) :
  ((rels.map (fileAt route place)).map (·.1)).Nodup
  := by
  rw [List.map_map]
  apply h.map
  intro rel rel' heq
  apply List.append_cancel_left heq

/-! ### Runs over the source files -/

/-- Each of several files is expanded to something, or the names are not all given as lists. -/
theorem exists_expandIn_eq (settings : Settings) (tree : FileTree) (files : List (Path × String)) :
  (∃ found : Path × String → Expanded,
    ∀ file ∈ files, expandIn settings tree file = .ok (found file)) ∨
  ((∃ file ∈ files, expandIn settings tree file = .error .unusableNames) ∧
    settings.areLists = false)
  := by
  have hfile (file : Path × String) := exists_expandText_eq settings file.2
    (unifyLineEnds ((tree.content? file.1).getD []))
  by_cases herror : ∃ file ∈ files, expandIn settings tree file = .error .unusableNames
  · right
    use herror
    obtain ⟨file, _, herror⟩ := herror
    rcases hfile file with ⟨found, hfound⟩ | ⟨_, hlists⟩
    · rw [expandIn, hfound] at herror
      cases herror
    · rw [Settings.areLists, hlists, Bool.false_and]
  · left
    use fun file => (expandIn settings tree file).toOption.getD (.unchanged [])
    intro file hmem
    rcases hfile file with ⟨found, hfound⟩ | ⟨hunusable, _⟩
    · simp only [expandIn, hfound]
      rfl
    · exact absurd ⟨file, hmem, hunusable⟩ herror

/-- What a run over source files yields when it ends. -/
structure Yields (p : Progress) (result : CommandResult) : Prop where
  tree : result.tree = p.tree
  output : result.output = p.output
  status : result.status = if p.rejected || p.differs then 1 else 0

section Path

variable (hplace : tree.reach (Route.parse name) = .ok place)
  (hsettings : Settings.governing tree (Route.parse name) = .ok settings)

include hplace hsettings

/-- A run over source files ends where the run over them one after the other does. -/
theorem expandPath_eq_bind (hfiles : files ≠ [])
    (hsources : sourceFiles settings tree (Route.parse name) place = .ok files) :
  expandPath display tree name mode =
    expandFiles display settings mode files (Progress.start tree) >>= fun p =>
      pure (p.finish p.differs)
  := by
  simp only [expandPath, hplace, hsettings, Except.mapError]
  change sourceFiles settings tree (Route.parse name) place >>= _ = _
  rw [hsources]
  cases files with
  | nil => exact absurd rfl hfiles
  | cons file files => rfl

/-- The result of a run over source files. -/
theorem expandPath_eq_ok (mode : Mode)
    (hsources : sourceFiles settings tree (Route.parse name) place = .ok files)
    (hrun : expandFiles display settings mode files (Progress.start tree) = .ok p) :
  ∃ result, expandPath display tree name mode = .ok result ∧ Yields p result
  := by
  by_cases hfiles : files = []
  · subst hfiles
    cases hrun
    use ((Progress.start tree).complain display "no source files found").finish false
    simp only [expandPath, hplace, hsettings, Except.mapError]
    change sourceFiles settings tree (Route.parse name) place >>= _ = _ ∧ _
    rw [hsources]
    exact ⟨rfl, rfl, rfl, rfl⟩
  · use p.finish p.differs
    rw [expandPath_eq_bind hplace hsettings hfiles hsources, hrun]
    exact ⟨rfl, rfl, rfl, rfl⟩

/-- A run ends with the first error. -/
theorem expandPath_eq_error {error : CommandError}
    (h : sourceFiles settings tree (Route.parse name) place = .error error ∨
      ∃ files, sourceFiles settings tree (Route.parse name) place = .ok files ∧
        expandFiles display settings mode files (Progress.start tree) = .error error) :
  expandPath display tree name mode = .error error
  := by
  rcases h with h | ⟨files, hsources, h⟩
  · simp only [expandPath, hplace, hsettings, Except.mapError]
    change sourceFiles settings tree (Route.parse name) place >>= _ = _
    rw [h]
    rfl
  · have hfiles : files ≠ [] := by
      rintro rfl
      cases h
    rw [expandPath_eq_bind hplace hsettings hfiles hsources, h]
    rfl

end Path

/-! ### What is written -/

/-- A run over source files leaves the tree as the run over them one after the other does, if it
comes to that. -/
theorem exists_of_expandPath {result : CommandResult}
    (h : expandPath display tree name mode = .ok result) :
  result.tree = tree ∨
    ∃ place settings files p, tree.reach (Route.parse name) = .ok place ∧
      Settings.governing tree (Route.parse name) = .ok settings ∧
      sourceFiles settings tree (Route.parse name) place = .ok files ∧
      expandFiles display settings mode files (Progress.start tree) = .ok p ∧ result.tree = p.tree
  := by
  cases hplace : tree.reach (Route.parse name) with
  | error cause =>
      left
      simp only [expandPath, hplace] at h
      cases h
      rfl
  | ok place =>
      cases hsettings : Settings.governing tree (Route.parse name) with
      | error cause =>
          simp only [expandPath, hplace, hsettings] at h
          cases h
      | ok settings =>
          cases hsources : sourceFiles settings tree (Route.parse name) place with
          | error cause =>
              rw [expandPath_eq_error hplace hsettings (.inl hsources)] at h
              cases h
          | ok files =>
              cases hrun : expandFiles display settings mode files (Progress.start tree) with
              | error cause =>
                  rw [expandPath_eq_error hplace hsettings (.inr ⟨files, hsources, hrun⟩)] at h
                  cases h
              | ok p =>
                  right
                  obtain ⟨result', hresult, hyields⟩ :=
                    expandPath_eq_ok hplace hsettings mode hsources hrun
                  rw [h] at hresult
                  cases hresult
                  exact ⟨place, settings, files, p, rfl, rfl, hsources, hrun, hyields.tree⟩

theorem tree_expandInput {text : List Char} {result : CommandResult}
    (h : expandInput display tree text mode = .ok result) :
  result.tree = tree
  := by
  obtain ⟨settings, _, h⟩ := bind_eq_ok.mp h
  obtain ⟨found, _, h⟩ := bind_eq_ok.mp h
  cases found with
  | rejected rejection =>
      obtain ⟨errors, hreject⟩ :=
        (Progress.start tree).exists_reject_eq display (inputStyle settings text) rejection
      cases h
      rw [hreject]
      rfl
  | unchanged text =>
      cases h
      rw [Progress.finish]
      split <;> rfl
  | changed text names =>
      rcases ite_eq_iff.mp h with ⟨_, ⟨⟩⟩ | ⟨_, ⟨⟩⟩
      · rfl
      · rfl

/-- The source files of a run have different paths. -/
theorem nodup_sourceFiles (hfiles : (tree.files.map (·.1)).Nodup)
    (h : sourceFiles settings tree route place = .ok files) :
  (files.map (·.1)).Nodup
  := by
  by_cases hdirectory : tree.isDirectory place
  · rcases sourceFiles_of_isDirectory settings route hdirectory with
      ⟨rels, hsources, hsublist, _⟩ | ⟨herror, _⟩
    · rw [h] at hsources
      cases hsources
      apply nodup_fileAt ((FileTree.nodup_filesBelow hfiles place).sublist hsublist)
    · rw [h] at herror
      cases herror
  · rw [sourceFiles, if_neg hdirectory] at h
    cases h
    apply List.nodup_singleton

/-- A file whose content a run that replaces files changes is given what expansion makes of the
content with its line ends reduced, in which there is no carriage return. If the content has none
either, then the run keeps all of it but for the marked items. -/
theorem content?_of_replace {result : CommandResult} {input : String} {path : Path}
    {content new : List Char} (hfiles : (tree.files.map (·.1)).Nodup)
    (hrun : Request.runOn display tree input (.expand name .replace) = .ok result)
    (hbefore : tree.content? path = some content) (hafter : result.tree.content? path = some new)
    (hne : new ≠ content) :
  ∃ place settings files file, tree.reach (Route.parse name) = .ok place ∧
    Settings.governing tree (Route.parse name) = .ok settings ∧
    sourceFiles settings tree (Route.parse name) place = .ok files ∧ (path, file) ∈ files ∧
    Source.outcome (Source.expand ⟨file, unifyLineEnds content, settings.markers⟩) = .ok new ∧
    '\r' ∉ new ∧
    ('\r' ∉ content →
      Source.outcome (Source.expand ⟨file, content, settings.markers⟩) = .ok new ∧
      ∃ trees edits names, TokenTree.ofText file content = .ok trees ∧
        Source.Marks ⟨file, content, settings.markers⟩ trees edits names ∧
        content = fill (gaps content 0 edits)
          (edits.map fun edit => slice content edit.start edit.stop) ∧
        new = fill (gaps content 0 edits) (edits.map (·.replacement)))
  := by
  have hchanged : result.tree.content? path ≠ tree.content? path := by
    rw [hbefore, hafter, ne_eq, Option.some_inj]
    apply hne
  by_cases hname : name = "-"
  · rw [Request.runOn, if_pos hname] at hrun
    rw [tree_expandInput hrun] at hchanged
    exact absurd rfl hchanged
  rw [Request.runOn, if_neg hname] at hrun
  rcases exists_of_expandPath hrun with hsame |
    ⟨place, settings, files, p, hplace, hsettings, hsources, hp, htree⟩
  · rw [hsame] at hchanged
    exact absurd rfl hchanged
  have hnodup := nodup_sourceFiles hfiles hsources
  rcases exists_expandIn_eq settings tree files with ⟨found, hfound⟩ | ⟨herror, _⟩
  case inr =>
    rw [expandFiles_eq_error (p := .start tree) hnodup herror] at hp
    cases hp
  rw [expandFiles_eq_ok (p := .start tree) hnodup hfound] at hp
  cases hp
  rw [htree] at hchanged hafter
  obtain ⟨file, content', new', hfile, hbefore', hafter', hexpansion, _⟩ :=
    exists_of_content?_ne hnodup hfound hchanged
  obtain rfl : content = content' := by simpa [hbefore] using hbefore'
  obtain rfl : new = new' := by simpa [hafter] using hafter'
  obtain ⟨names, hexpand⟩ := Source.outcome_eq_ok.mp hexpansion
  use place, settings, files, file, hplace, hsettings, hsources, hfile, hexpansion
  constructor
  · apply Source.not_mem_of_expand hexpand (not_mem_unifyLineEnds content)
  · intro hcontent
    rw [expansion, unifyLineEnds_eq_self hcontent] at hexpansion
    rw [unifyLineEnds_eq_self hcontent] at hexpand
    obtain ⟨trees, edits, names', htrees, hmarks, _, _, htext, hnew⟩ :=
      Source.exists_fill_of_expand hexpand
    exact ⟨hexpansion, trees, edits, names', htrees, hmarks, htext, hnew⟩

/-- A file whose lines end in line feeds is replaced by what expanding its own content yields. -/
theorem content?_of_replace_lineFeeds :
  ∃ (tree : FileTree) (result : CommandResult) (settings : Settings) (file : String)
    (content new : List Char),
    Request.run tree "" (.expand "." .replace) = .ok result ∧
    tree.content? ["work", "a.rs"] = some content ∧
    content = "// x\nnamed_return!(fn f() -> (a: u8) { a });\n".toList ∧
    result.tree.content? ["work", "a.rs"] = some new ∧ new ≠ content ∧
    Settings.governing tree (Route.parse ".") = .ok settings ∧
    Source.outcome (Source.expand ⟨file, content, settings.markers⟩) = .ok new
  := by
  obtain ⟨result, hrun, hresult⟩ := Outcome.exists_of_any
    (x := Request.run ⟨["work"], [(["work", "a.rs"],
      "// x\nnamed_return!(fn f() -> (a: u8) { a });\n".toList)], [["work"]]⟩ ""
      (.expand "." .replace))
    (p := fun result => (result.tree.content? ["work", "a.rs"]).any fun new =>
      new != "// x\nnamed_return!(fn f() -> (a: u8) { a });\n".toList)
    (by
      rw [Request.run, Request.runOn, if_neg (by decide), expandPath, Route.parse_dot]
      decide +kernel)
  obtain ⟨new, hafter, hne⟩ := (Option.any_eq_true ..).mp hresult
  rw [bne_iff_ne] at hne
  obtain ⟨_, settings, _, file, _, hsettings, _, _, _, _, hcontent⟩ :=
    content?_of_replace (by decide) hrun rfl hafter hne
  exact ⟨_, result, settings, file, _, new, hrun, rfl, rfl, hafter, hne, hsettings,
    (hcontent (by decide)).1⟩

/-- Where the lines end in carriage returns and line feeds, the replacement has lost the carriage
returns, also outside of the marked item, while expanding the content as it is would keep them. -/
theorem content?_of_replace_carriageReturns :
  ∃ (tree : FileTree) (result : CommandResult) (content new expanded : List Char),
    Request.run tree "" (.expand "." .replace) = .ok result ∧
    tree.content? ["work", "a.rs"] = some content ∧
    content = "// x\r\nnamed_return!(fn f() -> (a: u8) { a });\r\n".toList ∧
    result.tree.content? ["work", "a.rs"] = some new ∧ new ≠ content ∧
    Settings.governing tree (Route.parse ".") = .ok .standard ∧
    Source.outcome (Source.expand ⟨"a.rs", content, Settings.standard.markers⟩) = .ok expanded ∧
    new ≠ expanded
  := by
  obtain ⟨result, hrun, hresult⟩ := Outcome.exists_of_any
    (x := Request.run ⟨["work"], [(["work", "a.rs"],
      "// x\r\nnamed_return!(fn f() -> (a: u8) { a });\r\n".toList)], [["work"]]⟩ ""
      (.expand "." .replace))
    (p := fun result => (result.tree.content? ["work", "a.rs"]).any fun new =>
      new == "// x\nfn f() -> u8 { let a: u8; a }\n".toList)
    (by
      rw [Request.run, Request.runOn, if_neg (by decide), expandPath, Route.parse_dot]
      decide +kernel)
  obtain ⟨new, hafter, hnew⟩ := (Option.any_eq_true ..).mp hresult
  obtain rfl := eq_of_beq hnew
  obtain ⟨expanded, hexpanded, hreturns⟩ := Outcome.exists_of_any
    (x := Source.outcome (Source.expand ⟨"a.rs",
      "// x\r\nnamed_return!(fn f() -> (a: u8) { a });\r\n".toList, Settings.standard.markers⟩))
    (p := fun expanded => expanded == "// x\r\nfn f() -> u8 { let a: u8; a }\r\n".toList)
    (by decide +kernel)
  obtain rfl := eq_of_beq hreturns
  exact ⟨_, result, _, _, _, hrun, rfl, rfl, hafter, by decide, by rw [Route.parse_dot]; rfl,
    hexpanded, by decide⟩

/-! ### Comparing and replacing -/

/-- Expanding what a file below a directory holds, with its line ends reduced, changes it. -/
def Changes (settings : Settings) (tree : FileTree) (route : Route) (place rel : Path)
    (new : List Char) : Prop :=
  ∃ content, tree.content? (place ++ rel) = some content ∧
    expansion settings (route.append rel).render content = .ok new ∧ new ≠ unifyLineEnds content

/-- Expanding what a file below a directory holds is rejected. -/
def Fails (settings : Settings) (tree : FileTree) (route : Route) (place rel : Path) : Prop :=
  ∃ content rejection, tree.content? (place ++ rel) = some content ∧
    expansion settings (route.append rel).render content = .error (.rejected rejection)

/-- The exit status is 1 in one case, and 0 otherwise. -/
def Exits (status : Nat) (failing : Prop) : Prop := status = 1 ∧ failing ∨ status = 0 ∧ ¬ failing

theorem exits_ite {b : Bool} {failing : Prop} (h : b ↔ failing) :
  Exits (if b then 1 else 0) failing
  := by
  cases b with
  | true => exact .inl ⟨rfl, h.mp rfl⟩
  | false => exact .inr ⟨rfl, fun hfailing => Bool.false_ne_true (h.mpr hfailing)⟩

theorem Exits.eq_one {status : Nat} {failing : Prop} (h : Exits status failing) (hf : failing) :
  status = 1
  := by
  rcases h with ⟨hstatus, _⟩ | ⟨_, hnot⟩
  · apply hstatus
  · exact absurd hf hnot

/-- What comparing the files of a directory, with the result `checked`, tells of replacing them,
with the result `replaced`. -/
structure Predicts (display : Display) (settings : Settings) (tree : FileTree) (route : Route)
    (place : Path) (checked replaced : CommandResult) (reported : List Path) : Prop where
  /-- The reported files are the source files that expansion changes. -/
  mem_reported : ∀ rel, rel ∈ reported ↔
    IsSource settings tree place rel ∧ ∃ new, Changes settings tree route place rel new
  ordered : reported.Pairwise fun rel rel' => Path.le rel rel'
  nodup : reported.Nodup
  /-- A line tells of each reported file, and there is no other output. -/
  output : checked.output = String.join (reported.map fun rel =>
    display.shown ("would expand " ++ (route.append rel).render ++ "\n"))
  /-- The lines are shown as they are if no name holds an escape character. -/
  lines : (∀ rel ∈ reported, '\x1b' ∉ (route.append rel).render.toList) →
    checked.output = String.join (reported.map fun rel =>
      "would expand " ++ (route.append rel).render ++ "\n")
  tree_checked : checked.tree = tree
  /-- The reported files are those whose content is replaced by another one. -/
  content_replaced : ∀ path, replaced.tree.content? path ≠ tree.content? path ↔
    ∃ rel ∈ reported, path = place ++ rel
  written : ∀ rel ∈ reported, ∀ new, Changes settings tree route place rel new →
    replaced.tree.content? (place ++ rel) = some new
  status_checked : Exits checked.status (reported ≠ [] ∨
    ∃ rel, IsSource settings tree place rel ∧ Fails settings tree route place rel)
  status_replaced : Exits replaced.status
    (∃ rel, IsSource settings tree place rel ∧ Fails settings tree route place rel)

/-- A text that expansion changes is not the content of its file. -/
theorem Changes.content?_ne {rel : Path} {new : List Char}
    (h : Changes settings tree route place rel new) :
  tree.content? (place ++ rel) ≠ some new
  := by
  obtain ⟨content, hcontent, hexpansion, hne⟩ := h
  rw [hcontent]
  rintro ⟨⟩
  obtain ⟨names, hrun⟩ := Source.outcome_eq_ok.mp hexpansion
  apply hne
  rw [unifyLineEnds_eq_self]
  apply Source.not_mem_of_expand hrun (not_mem_unifyLineEnds _)

/-- What is found of a source file tells how expansion changes it, and whether it is rejected. -/
theorem found_iff {rel : Path} {found : Expanded} (hrel : IsSource settings tree place rel)
    (h : expandIn settings tree (fileAt route place rel) = .ok found) :
  (∀ new, found.new? = some new ↔ Changes settings tree route place rel new) ∧
  (found.isRejected ↔ Fails settings tree route place rel)
  := by
  have hfile := (FileTree.mem_filesBelow.mp hrel.1).2
  rw [← FileTree.isSome_content?, Option.isSome_iff_exists] at hfile
  obtain ⟨content, hcontent⟩ := hfile
  simp only [expandIn, fileAt, hcontent, Option.getD_some] at h
  obtain ⟨hnew, hrejected⟩ := expansion_of_expandText h
  constructor
  · intro new
    rw [hnew]
    constructor
    · rintro ⟨hexpansion, hne⟩
      use content, hcontent, hexpansion
    · rintro ⟨content', hcontent', hchanges⟩
      rw [hcontent] at hcontent'
      cases hcontent'
      apply hchanges
  · rw [hrejected]
    constructor
    · rintro ⟨rejection, hexpansion⟩
      use content, rejection, hcontent, hexpansion
    · rintro ⟨content', rejection, hcontent', hexpansion⟩
      rw [hcontent] at hcontent'
      cases hcontent'
      use rejection, hexpansion

/-- A source file is reported if and only if a new text is found for it. -/
theorem Predicts.mem_reported_iff {checked replaced : CommandResult} {reported : List Path}
    {rel : Path} {found : Expanded}
    (h : Predicts display settings tree route place checked replaced reported)
    (hrel : IsSource settings tree place rel)
    (hfound : expandIn settings tree (fileAt route place rel) = .ok found) :
  rel ∈ reported ↔ found.new?.isSome
  := by
  rw [h.mem_reported, Option.isSome_iff_exists]
  simp only [hrel, true_and, (found_iff hrel hfound).1]

/-- The source files of a directory in the order in which they are walked, and what is found of each
of them. -/
structure Survey (settings : Settings) (tree : FileTree) (route : Route) (place : Path)
    (rels : List Path) (found : Path × String → Expanded) : Prop where
  nodup : rels.Nodup
  ordered : rels.Pairwise fun rel rel' => Path.le rel rel'
  mem_iff : ∀ rel, rel ∈ rels ↔ IsSource settings tree place rel
  found_eq : ∀ file ∈ rels.map (fileAt route place), expandIn settings tree file = .ok (found file)

namespace Survey

variable {rels : List Path} {found : Path × String → Expanded} {rel : Path}

theorem new?_eq_some (h : Survey settings tree route place rels found) (hrel : rel ∈ rels)
    (new : List Char) :
  (found (fileAt route place rel)).new? = some new ↔ Changes settings tree route place rel new
  := (found_iff ((h.mem_iff rel).mp hrel) (h.found_eq _ (List.mem_map_of_mem hrel))).1 new

theorem isRejected_iff (h : Survey settings tree route place rels found) (hrel : rel ∈ rels) :
  (found (fileAt route place rel)).isRejected ↔ Fails settings tree route place rel
  := (found_iff ((h.mem_iff rel).mp hrel) (h.found_eq _ (List.mem_map_of_mem hrel))).2

/-- The files that have a new text are the source files that expansion changes. -/
theorem mem_filter_iff (h : Survey settings tree route place rels found) :
  rel ∈ rels.filter (fun rel => (found (fileAt route place rel)).new?.isSome) ↔
    IsSource settings tree place rel ∧ ∃ new, Changes settings tree route place rel new
  := by
  rw [List.mem_filter, ← h.mem_iff, Option.isSome_iff_exists]
  constructor
  · rintro ⟨hrel, new, hnew⟩
    exact ⟨hrel, new, (h.new?_eq_some hrel new).mp hnew⟩
  · rintro ⟨hrel, new, hnew⟩
    exact ⟨hrel, new, (h.new?_eq_some hrel new).mpr hnew⟩

/-- A run rejects something if and only if a source file fails. -/
theorem rejected_iff (h : Survey settings tree route place rels found) (mode : Mode) :
  (settleAll display settings mode found (rels.map (fileAt route place)) (.start tree)).rejected ↔
    ∃ rel, IsSource settings tree place rel ∧ Fails settings tree route place rel
  := by
  rw [rejected_settleAll, Progress.start, Bool.false_or, List.any_map, List.any_eq_true]
  constructor
  · rintro ⟨rel, hrel, hrejected⟩
    exact ⟨rel, (h.mem_iff rel).mp hrel, (h.isRejected_iff hrel).mp hrejected⟩
  · rintro ⟨rel, hsource, hfails⟩
    have hrel := (h.mem_iff rel).mpr hsource
    exact ⟨rel, hrel, (h.isRejected_iff hrel).mpr hfails⟩

/-- A run that replaces files gives a file its new text if expansion changes it. -/
theorem content?_of_changes (h : Survey settings tree route place rels found) (hrel : rel ∈ rels)
    {new : List Char} (hnew : Changes settings tree route place rel new) :
  (settleAll display settings .replace found (rels.map (fileAt route place))
    (.start tree)).tree.content? (place ++ rel) = some new
  := by
  obtain ⟨_, _, hcontent⟩ :=
    settleAll_replace display settings found (nodup_fileAt h.nodup route place) (.start tree)
  have hfile := hcontent (fileAt route place rel) (List.mem_map_of_mem hrel)
  rw [(h.new?_eq_some hrel new).mpr hnew] at hfile
  obtain ⟨content, hbefore, _⟩ := hnew
  apply hfile.trans
  rw [Progress.start, fileAt, hbefore]
  rfl

/-- A run that replaces files changes the content of those that expansion changes. -/
theorem content?_ne_iff (h : Survey settings tree route place rels found) (path : Path) :
  (settleAll display settings .replace found (rels.map (fileAt route place))
      (.start tree)).tree.content? path ≠ tree.content? path ↔
    ∃ rel ∈ rels, path = place ++ rel ∧ ∃ new, Changes settings tree route place rel new
  := by
  constructor
  · intro hne
    obtain ⟨file, content, new, hfile, hbefore, _, hnew⟩ :=
      exists_of_content?_ne (nodup_fileAt h.nodup route place) h.found_eq hne
    obtain ⟨rel, hrel, heq⟩ := List.mem_map.mp hfile
    cases heq
    exact ⟨rel, hrel, rfl, new, content, hbefore, hnew⟩
  · rintro ⟨rel, hrel, rfl, new, hnew⟩
    rw [h.content?_of_changes hrel hnew]
    apply hnew.content?_ne.symm

/-- What is found of the source files decides what comparing and replacing them come to. -/
theorem predicts (hdisplay : display.IsFaithful) (h : Survey settings tree route place rels found)
    {checked replaced : CommandResult}
    (hchecked :
      Yields (settleAll display settings .check found (rels.map (fileAt route place)) (.start tree))
        checked)
    (hreplaced :
      Yields
        (settleAll display settings .replace found (rels.map (fileAt route place)) (.start tree))
        replaced) :
  Predicts display settings tree route place checked replaced
    (rels.filter fun rel => (found (fileAt route place rel)).new?.isSome)
  := by
  obtain ⟨htree, hdiffers, houtput⟩ :=
    settleAll_check display settings found (rels.map (fileAt route place)) (.start tree)
  obtain ⟨hdiffers', _⟩ :=
    settleAll_replace display settings found (nodup_fileAt h.nodup route place) (.start tree)
  have hlines : checked.output = String.join
      ((rels.filter fun rel => (found (fileAt route place rel)).new?.isSome).map fun rel =>
        display.shown ("would expand " ++ (route.append rel).render ++ "\n")) := by
    rw [hchecked.output, houtput, List.filter_map, List.map_map]
    apply String.empty_append
  constructor
  case mem_reported =>
    intro rel
    apply h.mem_filter_iff
  case ordered => apply h.ordered.sublist List.filter_sublist
  case nodup => apply h.nodup.sublist List.filter_sublist
  case output => apply hlines
  case lines =>
    intro hplain
    rw [hlines]
    congr 1
    apply List.map_congr_left
    intro rel hrel
    apply hdisplay.shown_eq
    simp [hplain rel hrel]
  case tree_checked => apply hchecked.tree.trans htree
  case content_replaced =>
    intro path
    rw [hreplaced.tree, h.content?_ne_iff]
    constructor
    · rintro ⟨rel, hrel, hpath, hchanges⟩
      exact ⟨rel, h.mem_filter_iff.mpr ⟨(h.mem_iff rel).mp hrel, hchanges⟩, hpath⟩
    · rintro ⟨rel, hrel, hpath⟩
      exact ⟨rel, (List.mem_filter.mp hrel).1, hpath, (h.mem_filter_iff.mp hrel).2⟩
  case written =>
    intro rel hreported new hnew
    rw [hreplaced.tree]
    apply h.content?_of_changes (List.mem_filter.mp hreported).1 hnew
  case status_checked =>
    rw [hchecked.status, hdiffers]
    apply exits_ite
    rw [Bool.or_eq_true, h.rejected_iff, or_comm, Progress.start, Bool.false_or, List.any_map]
    apply or_congr _ Iff.rfl
    rw [ne_eq, List.filter_eq_nil_iff, List.any_eq_true]
    simp [Option.isSome_iff_ne_none]
  case status_replaced =>
    rw [hreplaced.status, hdiffers']
    apply exits_ite
    rw [Progress.start, Bool.or_false]
    apply h.rejected_iff

end Survey

/-- Comparing the files of a directory predicts what replacing them does, whenever both come to an
end. They do, unless the settings give no list of names where one is asked for. -/
theorem check_predicts_replace (hdisplay : display.IsFaithful) (input : String) (hname : name ≠ "-")
    (hfiles : (tree.files.map (·.1)).Nodup) (hplace : tree.reach (Route.parse name) = .ok place)
    (hdirectory : tree.isDirectory place)
    (hsettings : Settings.governing tree (Route.parse name) = .ok settings) :
  (∃ checked replaced reported,
    Request.runOn display tree input (.expand name .check) = .ok checked ∧
    Request.runOn display tree input (.expand name .replace) = .ok replaced ∧
    Predicts display settings tree (Route.parse name) place checked replaced reported) ∨
  (settings.areLists = false ∧
    Request.runOn display tree input (.expand name .check) = .error .unusableNames ∧
    Request.runOn display tree input (.expand name .replace) = .error .unusableNames)
  := by
  simp only [Request.runOn, if_neg hname]
  rcases sourceFiles_of_isDirectory settings (Route.parse name) hdirectory with
    ⟨rels, hsources, hsublist, hrels⟩ | ⟨herror, hlists⟩
  case inr =>
    right
    use hlists
    constructor <;> apply expandPath_eq_error hplace hsettings (.inl herror)
  have hnodup := (FileTree.nodup_filesBelow hfiles place).sublist hsublist
  have hpaths := nodup_fileAt hnodup (Route.parse name) place
  rcases exists_expandIn_eq settings tree (rels.map (fileAt (Route.parse name) place)) with
    ⟨found, hfound⟩ | ⟨herror, hlists⟩
  case inr =>
    right
    use hlists
    constructor <;>
      exact expandPath_eq_error hplace hsettings
        (.inr ⟨_, hsources, expandFiles_eq_error hpaths herror⟩)
  left
  obtain ⟨checked, hchecked, hyields⟩ :=
    expandPath_eq_ok hplace hsettings .check hsources (expandFiles_eq_ok hpaths hfound)
  obtain ⟨replaced, hreplaced, hyields'⟩ :=
    expandPath_eq_ok hplace hsettings .replace hsources (expandFiles_eq_ok hpaths hfound)
  have hordered := (FileTree.pairwise_filesBelow tree place).sublist hsublist
  have hsurvey : Survey settings tree (Route.parse name) place rels found :=
    ⟨hnodup, hordered, hrels, hfound⟩
  exact ⟨checked, replaced, _, hchecked, hreplaced, hsurvey.predicts hdisplay hyields hyields'⟩

/-- One file changes although it has a carriage return, one is rejected, and one stays as it is. -/
theorem check_predicts_replace_mixed :
  ∃ (tree : FileTree) (checked replaced : CommandResult) (reported : List Path),
    Request.runOn .plain tree "" (.expand "." .check) = .ok checked ∧
    Request.runOn .plain tree "" (.expand "." .replace) = .ok replaced ∧
    Predicts .plain .standard tree .here ["work"] checked replaced reported ∧
    reported = [["a.rs"]] ∧ checked.output = "would expand a.rs\n" ∧
    checked.status = 1 ∧ replaced.status = 1
  := by
  let tree : FileTree := ⟨["work"],
    [(["work", "c.rs"], "fn f() -> u8 { a }\n".toList),
      (["work", "a.rs"], "named_return!(fn f() -> (a: u8) { a });\r\n".toList),
      (["work", "b.rs"], "named_return!(fn f( -> (a: u8) { a });\n".toList)], [["work"]]⟩
  rcases @check_predicts_replace .plain .standard tree "." ["work"] Display.isFaithful_plain ""
    (by decide) (by decide) (by rw [Route.parse_dot]; rfl) (by decide)
    (by rw [Route.parse_dot]; rfl) with
    ⟨checked, replaced, reported, hchecked, hreplaced, hpredicts⟩ | ⟨hlists, _⟩
  case inr => cases hlists
  rw [Route.parse_dot] at hpredicts
  have hsource (rel : Path) (hbelow : (rel ≠ [] ∧ tree.isFile (["work"] ++ rel)) ∧
      Settings.standard.suffixes.has? (some rel.suffix) = some true) :
      IsSource .standard tree ["work"] rel :=
    ⟨FileTree.mem_filesBelow.mpr hbelow.1, hbelow.2⟩
  have hsourceA := hsource ["a.rs"] (by decide +kernel)
  have hsourceB := hsource ["b.rs"] (by decide +kernel)
  have hsourceC := hsource ["c.rs"] (by decide +kernel)
  obtain ⟨foundA, hfoundA, hA⟩ := Outcome.exists_of_any
    (x := expandIn .standard tree (fileAt .here ["work"] ["a.rs"]))
    (p := fun found => found.new?.isSome) (by decide +kernel)
  obtain ⟨foundB, hfoundB, hB⟩ := Outcome.exists_of_any
    (x := expandIn .standard tree (fileAt .here ["work"] ["b.rs"]))
    (p := fun found => found.isRejected && !found.new?.isSome) (by decide +kernel)
  obtain ⟨foundC, hfoundC, hC⟩ := Outcome.exists_of_any
    (x := expandIn .standard tree (fileAt .here ["work"] ["c.rs"]))
    (p := fun found => !found.new?.isSome) (by decide +kernel)
  simp only [Bool.and_eq_true, Bool.not_eq_true'] at hB hC
  have hreportedA := (hpredicts.mem_reported_iff hsourceA hfoundA).mpr hA
  have hreportedB : ["b.rs"] ∉ reported := by
    simp [hpredicts.mem_reported_iff hsourceB hfoundB, hB.2]
  have hreportedC : ["c.rs"] ∉ reported := by
    simp [hpredicts.mem_reported_iff hsourceC hfoundC, hC]
  have hreported : reported = [["a.rs"]] := by
    apply List.perm_singleton.mp
    apply (List.perm_ext_iff_of_nodup hpredicts.nodup (List.nodup_singleton _)).mpr
    intro rel
    rw [List.mem_singleton]
    constructor
    · intro hrel
      have hfile := (FileTree.mem_filesBelow.mp ((hpredicts.mem_reported rel).mp hrel).1.1).2
      simp only [FileTree.isFile, tree, List.any_cons, List.any_nil, Bool.or_false, Bool.or_eq_true,
        beq_iff_eq, List.cons_append, List.nil_append, List.cons.injEq, true_and] at hfile
      rcases hfile with rfl | rfl | rfl
      · exact absurd hrel hreportedC
      · rfl
      · exact absurd hrel hreportedB
    · rintro rfl
      apply hreportedA
  have houtput := hpredicts.lines (by rw [hreported]; decide)
  rw [hreported] at houtput
  have hfails : ∃ rel, IsSource .standard tree ["work"] rel ∧
      Fails .standard tree .here ["work"] rel :=
    ⟨["b.rs"], hsourceB, (found_iff hsourceB hfoundB).2.mp hB.1⟩
  exact ⟨tree, checked, replaced, reported, hchecked, hreplaced, hpredicts, hreported,
    houtput.trans (by decide), hpredicts.status_checked.eq_one (.inr hfails),
    hpredicts.status_replaced.eq_one hfails⟩

end Request

end ReturnCaptures
