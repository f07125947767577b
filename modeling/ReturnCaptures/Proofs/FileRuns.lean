import ReturnCaptures.Command.Run
import ReturnCaptures.Proofs.CopyThrough
import ReturnCaptures.Proofs.FilesBelow
import ReturnCaptures.Proofs.LineFeeds
import ReturnCaptures.Proofs.ExpansionErrors

/-!
# Running over files

A run over the files of a directory expands each of them by what the file held before the run, since
it writes to no file but the one that it is at. What it comes to is therefore told file by file.
-/

namespace ReturnCaptures

open TokenTree Outcome

/-! ### Progress -/

namespace Progress

/-- A rejection adds to the complaints, and to nothing else that is told. -/
theorem exists_reject_eq (display : Display) (p : Progress) (style : Report.Style)
    (rejection : Rejection) :
  ∃ errors, p.reject display style rejection = { p with errors := errors, rejected := true }
  := by
  obtain ⟨errors, herrors⟩ : ∃ errors,
      rejection.foldl (fun p d => p.complain display (style.report d)) p =
        { p with errors := errors } := by
    induction rejection generalizing p with
    | nil => exact ⟨p.errors, rfl⟩
    | cons d rejection ih => apply ih (p.complain display (style.report d))
  use errors
  rw [reject, herrors]

end Progress

theorem Source.outcome_eq_ok {α : Type} {x : Recording α} {a : α} :
  outcome x = .ok a ↔ ∃ names, x.run [] = .ok a names
  := by
  unfold outcome
  cases x.run [] <;> simp

namespace Request

/-! ### Expanding one file -/

/-- The new text of what has been expanded, if it has changed. -/
def Expanded.new? : Expanded → Option (List Char)
  | .changed text _ => some text
  | _ => none

/-- Whether what was to be expanded has been rejected. -/
def Expanded.isRejected : Expanded → Bool
  | .rejected _ => true
  | _ => false

/-- What expanding the content of a file comes to, once its line ends are reduced to line feeds. -/
def expansion (settings : Settings) (file : String) (content : List Char) :
    Except ExpansionError (List Char) :=
  Source.outcome (Source.expand ⟨file, unifyLineEnds content, settings.markers⟩)

variable {display : Display} {settings : Settings} {tree : FileTree} {mode : Mode} {p : Progress}
  {path : Path} {file : String} {found : Expanded} {content : List Char}

/-- Expanding a text yields something, or the names that mark items are not all given as lists. -/
theorem exists_expandText_eq (settings : Settings) (file : String) (text : List Char) :
  (∃ found, expandText settings file text = .ok found) ∨
    (expandText settings file text = .error .unusableNames ∧ settings.markers.areLists = false)
  := by
  unfold expandText
  split
  case h_1 names hrun =>
    right
    use rfl
    apply Source.isExcused_expand _ _ _ _ hrun
  case h_2 => exact .inl ⟨_, rfl⟩
  case h_3 => exact .inl ⟨_, rfl⟩

/-- What has been found of a file tells what expanding its content comes to. -/
theorem expansion_of_expandText
    (h : expandText settings file (unifyLineEnds content) = .ok found) :
  (∀ new, found.new? = some new ↔
    expansion settings file content = .ok new ∧ new ≠ unifyLineEnds content) ∧
  (found.isRejected ↔ ∃ rejection, expansion settings file content = .error (.rejected rejection))
  := by
  unfold expandText at h
  unfold expansion Source.outcome
  split at h
  case h_1 => cases h
  case h_2 rejection names hrun =>
    cases h
    simp [hrun, Expanded.new?, Expanded.isRejected]
  case h_3 expanded names hrun =>
    cases h
    split
    case isTrue hsame =>
      simp only [hrun, hsame, Expanded.new?, Expanded.isRejected]
      simp
    case isFalse hchanged =>
      simp only [hrun, Expanded.new?, Expanded.isRejected]
      simpa using hchanged

/-- Expanding a file settles what is found of its content. -/
theorem expandFile_eq_ok
    (h : expandText settings file (unifyLineEnds ((p.tree.content? path).getD [])) = .ok found) :
  expandFile display settings mode p path file =
    .ok (settle display settings mode p path file found)
  := by
  rw [expandFile, h]
  rfl

theorem expandFile_eq_error {error : CommandError}
    (h : expandText settings file (unifyLineEnds ((p.tree.content? path).getD [])) = .error error) :
  expandFile display settings mode p path file = .error error
  := by
  rw [expandFile, h]
  rfl

/-! ### Settling one file -/

theorem rejected_settle (display : Display) (settings : Settings) (mode : Mode) (p : Progress)
    (path : Path) (file : String) (found : Expanded) :
  (settle display settings mode p path file found).rejected = (p.rejected || found.isRejected)
  := by
  cases found with
  | rejected rejection =>
      obtain ⟨errors, h⟩ := p.exists_reject_eq display (reportStyle settings p.tree) rejection
      simp [settle, h, Expanded.isRejected]
  | unchanged text => cases mode <;> simp [settle, Expanded.isRejected, Progress.write]
  | changed text names =>
      cases mode <;> simp [settle, Expanded.isRejected, Progress.write, Progress.tell]

/-- Comparing a file writes nothing, and tells of the file if it would change. -/
theorem settle_check (display : Display) (settings : Settings) (p : Progress) (path : Path)
    (file : String) (found : Expanded) :
  (settle display settings .check p path file found).tree = p.tree ∧
  (settle display settings .check p path file found).differs = (p.differs || found.new?.isSome) ∧
  (settle display settings .check p path file found).output =
    p.output ++ if found.new?.isSome then display.shown ("would expand " ++ file ++ "\n") else ""
  := by
  cases found with
  | rejected rejection =>
      obtain ⟨errors, h⟩ := p.exists_reject_eq display (reportStyle settings p.tree) rejection
      simp [settle, h, Expanded.new?]
  | unchanged text => simp [settle, Expanded.new?]
  | changed text names => simp [settle, Expanded.new?, Progress.write, Progress.tell]

/-- Replacing a file writes its new text, if it has changed, and no other file. -/
theorem settle_replace (display : Display) (settings : Settings) (p : Progress) (path : Path)
    (file : String) (found : Expanded) :
  (settle display settings .replace p path file found).differs = p.differs ∧
  ∀ other, (settle display settings .replace p path file found).tree.content? other =
    if other = path then (p.tree.content? path).map found.new?.getD else p.tree.content? other
  := by
  have hsame (tree : FileTree) (other : Path) : tree.content? other =
      if other = path then (tree.content? path).map fun content => content
      else tree.content? other := by
    split
    case isTrue h => simp [h]
    case isFalse => rfl
  cases found with
  | rejected rejection =>
      obtain ⟨errors, h⟩ := p.exists_reject_eq display (reportStyle settings p.tree) rejection
      rw [settle, h]
      use rfl, hsame p.tree
  | unchanged text => use rfl, hsame p.tree
  | changed text names =>
      use rfl
      intro other
      apply FileTree.content?_write

/-- Settling a file leaves the others as they are. -/
theorem content?_settle_of_ne (display : Display) (settings : Settings) (mode : Mode) (p : Progress)
    (file : String) (found : Expanded) {other : Path} (h : other ≠ path) :
  (settle display settings mode p path file found).tree.content? other = p.tree.content? other
  := by
  cases mode with
  | print =>
      cases found with
      | rejected rejection =>
          obtain ⟨errors, hreject⟩ :=
            p.exists_reject_eq display (reportStyle settings p.tree) rejection
          rw [settle, hreject]
      | unchanged text => rfl
      | changed text names => rfl
  | check => rw [(settle_check display settings p path file found).1]
  | replace => rw [(settle_replace display settings p path file found).2, if_neg h]

/-! ### Files one after the other -/

/-- Expands files one after the other. -/
def expandFiles (display : Display) (settings : Settings) (mode : Mode)
    (files : List (Path × String)) (p : Progress) : Except CommandError Progress :=
  files.foldlM (fun p file => expandFile display settings mode p file.1 file.2) p

/-- Settles one after the other what is found of files. -/
def settleAll (display : Display) (settings : Settings) (mode : Mode)
    (found : Path × String → Expanded) (files : List (Path × String)) (p : Progress) : Progress :=
  files.foldl (fun p file => settle display settings mode p file.1 file.2 (found file)) p

/-- What expanding a file of a tree comes to, at a path and under the name by which it is
reported. -/
def expandIn (settings : Settings) (tree : FileTree) (file : Path × String) :
    Except CommandError Expanded :=
  expandText settings file.2 (unifyLineEnds ((tree.content? file.1).getD []))

variable {files : List (Path × String)} {found : Path × String → Expanded}

theorem fst_ne_of_mem {file other : Path × String} (hfile : file.1 ∉ files.map (·.1))
    (hother : other ∈ files) :
  other.1 ≠ file.1
  := by
  intro heq
  apply hfile
  rw [← heq]
  apply List.mem_map_of_mem hother

/-- Settling a file changes nothing in what expanding another one comes to. -/
theorem expandIn_settle {settings' : Settings} {file other : Path × String}
    (hne : other.1 ≠ file.1) (found : Expanded) :
  expandIn settings (settle display settings' mode p file.1 file.2 found).tree other =
    expandIn settings p.tree other
  := by
  rw [expandIn, expandIn, content?_settle_of_ne display settings' mode p file.2 found hne]

/-- Files with different paths are settled by what each of them held at first. -/
theorem expandFiles_eq_ok (hfiles : (files.map (·.1)).Nodup)
    (h : ∀ file ∈ files, expandIn settings p.tree file = .ok (found file)) :
  expandFiles display settings mode files p = .ok (settleAll display settings mode found files p)
  := by
  induction files generalizing p with
  | nil => rfl
  | cons file files ih =>
      rw [List.map_cons, List.nodup_cons] at hfiles
      rw [List.forall_mem_cons] at h
      rw [expandFiles, List.foldlM_cons, expandFile_eq_ok h.1]
      apply ih hfiles.2
      intro other hother
      rw [expandIn_settle (fst_ne_of_mem hfiles.1 hother), h.2 other hother]

/-- A file for which the names cannot answer ends the run. -/
theorem expandFiles_eq_error (hfiles : (files.map (·.1)).Nodup)
    (h : ∃ file ∈ files, expandIn settings p.tree file = .error .unusableNames) :
  expandFiles display settings mode files p = .error .unusableNames
  := by
  induction files generalizing p with
  | nil => simp at h
  | cons file files ih =>
      rw [List.map_cons, List.nodup_cons] at hfiles
      rw [expandFiles, List.foldlM_cons]
      rcases exists_expandText_eq settings file.2
        (unifyLineEnds ((p.tree.content? file.1).getD [])) with ⟨found, hfound⟩ | ⟨herror, _⟩
      · rw [expandFile_eq_ok hfound]
        apply ih hfiles.2
        obtain ⟨other, hother, herror⟩ := h
        rcases List.mem_cons.mp hother with rfl | hother
        · rw [expandIn, hfound] at herror
          cases herror
        · use other, hother
          rw [expandIn_settle (fst_ne_of_mem hfiles.1 hother), herror]
      · rw [expandFile_eq_error herror]
        rfl

/-- The rejections of a run are those of its files. -/
theorem rejected_settleAll (display : Display) (settings : Settings) (mode : Mode)
    (found : Path × String → Expanded) (files : List (Path × String)) (p : Progress) :
  (settleAll display settings mode found files p).rejected =
    (p.rejected || files.any fun file => (found file).isRejected)
  := by
  induction files generalizing p with
  | nil => simp [settleAll]
  | cons file files ih =>
      rw [settleAll, List.foldl_cons, ← settleAll, ih, rejected_settle, List.any_cons,
        Bool.or_assoc]

/-- A run that compares files writes nothing, and tells of the files that would change. -/
theorem settleAll_check (display : Display) (settings : Settings) (found : Path × String → Expanded)
    (files : List (Path × String)) (p : Progress) :
  (settleAll display settings .check found files p).tree = p.tree ∧
  (settleAll display settings .check found files p).differs =
    (p.differs || files.any fun file => (found file).new?.isSome) ∧
  (settleAll display settings .check found files p).output =
    p.output ++ String.join ((files.filter fun file => (found file).new?.isSome).map fun file =>
      display.shown ("would expand " ++ file.2 ++ "\n"))
  := by
  induction files generalizing p with
  | nil => simp [settleAll]
  | cons file files ih =>
      obtain ⟨htree, hdiffers, houtput⟩ :=
        settle_check display settings p file.1 file.2 (found file)
      obtain ⟨htree', hdiffers', houtput'⟩ :=
        ih (settle display settings .check p file.1 file.2 (found file))
      rw [settleAll, List.foldl_cons, ← settleAll]
      use htree'.trans htree
      rw [hdiffers', hdiffers, houtput', houtput, List.any_cons, Bool.or_assoc]
      use rfl
      cases hnew : (found file).new?.isSome <;>
        simp [hnew, String.append_assoc, String.join_cons]

/-- A run that replaces files writes the new texts of those that change, and no others. -/
theorem settleAll_replace (display : Display) (settings : Settings)
    (found : Path × String → Expanded) {files : List (Path × String)}
    (hfiles : (files.map (·.1)).Nodup) (p : Progress) :
  (settleAll display settings .replace found files p).differs = p.differs ∧
  (∀ path ∉ files.map (·.1),
    (settleAll display settings .replace found files p).tree.content? path = p.tree.content? path) ∧
  ∀ file ∈ files, (settleAll display settings .replace found files p).tree.content? file.1 =
    (p.tree.content? file.1).map (found file).new?.getD
  := by
  induction files generalizing p with
  | nil => simp [settleAll]
  | cons file files ih =>
      rw [List.map_cons, List.nodup_cons] at hfiles
      obtain ⟨hdiffers, hcontent⟩ := settle_replace display settings p file.1 file.2 (found file)
      obtain ⟨hdiffers', hothers, hfound⟩ :=
        ih hfiles.2 (settle display settings .replace p file.1 file.2 (found file))
      rw [settleAll, List.foldl_cons, ← settleAll]
      use hdiffers'.trans hdiffers
      constructor
      · intro path hpath
        rw [List.map_cons, List.mem_cons, not_or] at hpath
        rw [hothers path hpath.2, hcontent, if_neg hpath.1]
      · rw [List.forall_mem_cons]
        constructor
        · rw [hothers file.1 hfiles.1, hcontent, if_pos rfl]
        · intro other hother
          rw [hfound other hother, hcontent, if_neg (fst_ne_of_mem hfiles.1 hother)]

/-- A file whose content is replaced by another one is given the text that expanding what it held
comes to. -/
theorem exists_of_content?_ne (hfiles : (files.map (·.1)).Nodup)
    (hfound : ∀ file ∈ files, expandIn settings tree file = .ok (found file))
    (hne : (settleAll display settings .replace found files (.start tree)).tree.content? path ≠
      tree.content? path) :
  ∃ file content new, (path, file) ∈ files ∧ tree.content? path = some content ∧
    (settleAll display settings .replace found files (.start tree)).tree.content? path = some new ∧
    expansion settings file content = .ok new ∧ new ≠ unifyLineEnds content
  := by
  obtain ⟨_, hothers, hcontent⟩ := settleAll_replace display settings found hfiles (.start tree)
  by_cases hpath : path ∈ files.map (·.1)
  · obtain ⟨⟨path', file⟩, hfile, heq⟩ := List.mem_map.mp hpath
    obtain rfl : path' = path := heq
    have hafter :
        (settleAll display settings .replace found files (.start tree)).tree.content? path' =
          (tree.content? path').map (found (path', file)).new?.getD := hcontent _ hfile
    cases hbefore : tree.content? path' with
    | none =>
        rw [hafter, hbefore] at hne
        exact absurd rfl hne
    | some content =>
        cases hnew : (found (path', file)).new? with
        | none =>
            rw [hafter, hbefore, hnew] at hne
            exact absurd rfl hne
        | some new =>
            have hexpanded := hfound _ hfile
            rw [expandIn, hbefore] at hexpanded
            rw [hbefore, hnew] at hafter
            use file, content, new, hfile, rfl, hafter
            apply ((expansion_of_expandText hexpanded).1 new).mp hnew
  · exact absurd (hothers path hpath) hne

end Request

end ReturnCaptures
