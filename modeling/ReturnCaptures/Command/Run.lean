import ReturnCaptures.Command.Display
import ReturnCaptures.Command.Outline
import ReturnCaptures.Command.Request
import ReturnCaptures.Diagnostic.Report
import ReturnCaptures.Settings.Basic

/-!
# Running a request

A request is run on a file tree and on the text of the standard input, and yields an exit
status, two output texts and the tree as it is afterwards.  Line ends are reduced to line
feeds in whatever is read from a file or from the standard input.  Source text goes to the
output as it is; what else a run tells goes through a display.
-/

namespace ReturnCaptures

/-- What a run has yielded so far, and what has happened in it. -/
structure Progress where
  output : String
  errors : String
  tree : FileTree
  /-- Whether a source was rejected. -/
  rejected : Bool
  /-- Whether a file was found that expansion would change. -/
  differs : Bool

/-- What a run yields in the end. -/
structure CommandResult where
  status : Nat
  output : String
  errors : String
  tree : FileTree

/-- Why a request cannot be run. -/
inductive CommandError where
  | settings (cause : SettingsError)
  /-- A setting that should give names cannot answer. -/
  | unusableNames
  /-- The file to be shown does not exist. -/
  | missing (path : String)
  /-- The file to be shown is a directory. -/
  | isDirectory (path : String)

namespace Progress

/-- The start of a run. -/
def start (tree : FileTree) : Progress := ⟨"", "", tree, false, false⟩

/-- Writes a text. -/
def write (p : Progress) (text : String) : Progress := { p with output := p.output ++ text }

/-- Tells something on a line of its own. -/
def tell (display : Display) (p : Progress) (line : String) : Progress :=
  p.write (display.shown (line ++ "\n"))

/-- Complains on a line of its own. -/
def complain (display : Display) (p : Progress) (line : String) : Progress :=
  { p with errors := p.errors ++ display.shown (line ++ "\n") }

/-- Reports a rejection. -/
def reject (display : Display) (p : Progress) (style : Report.Style) (rejection : Rejection) :
    Progress :=
  { rejection.foldl (fun p d => p.complain display (style.report d)) p with rejected := true }

/-- The end of a run; it fails if a source was rejected or `unwanted` holds. -/
def finish (p : Progress) (unwanted : Bool) : CommandResult :=
  ⟨if p.rejected || unwanted then 1 else 0, p.output, p.errors, p.tree⟩

end Progress

namespace Request

/-- How problems in files of a tree are reported. -/
def reportStyle (settings : Settings) (tree : FileTree) : Report.Style where
  color := settings.isColored
  linesOf file :=
    match (tree.reach (Route.parse file)).toOption.bind tree.content? with
    | some text => (lines (unifyLineEnds text)).map String.ofList
    | none => []

/-- The name under which the standard input is reported. -/
def inputName : String := "<stdin>"

/-- How problems in the standard input are reported. -/
def inputStyle (settings : Settings) (text : List Char) : Report.Style :=
  .ofTexts settings.isColored [(inputName, String.ofList text)]

/-- What expanding a source text comes to. -/
inductive Expanded where
  | rejected (rejection : Rejection)
  | unchanged (text : List Char)
  /-- The new text, and the names of the expanded functions. -/
  | changed (text : List Char) (names : List String)

/-- Expands a source text under the name by which it is reported. -/
def expandText (settings : Settings) (file : String) (text : List Char) :
    Except CommandError Expanded :=
  match (Source.expand ⟨file, text, settings.markers⟩).run [] with
  | .error .unusableMarkers _ => .error .unusableNames
  | .error (.rejected rejection) _ => .ok (.rejected rejection)
  | .ok expanded names =>
    .ok (if expanded = text then .unchanged text else .changed expanded names)

/-- Does with an expanded file, at a path and under the name by which it is reported, what
the mode asks for. -/
def settle (display : Display) (settings : Settings) (mode : Mode) (p : Progress) (path : Path)
    (file : String) : Expanded → Progress
  | .rejected rejection => p.reject display (reportStyle settings p.tree) rejection
  | .unchanged text => if mode = .print then p.write (String.ofList text) else p
  | .changed text names =>
    match mode with
    | .print => p.write (String.ofList text)
    | .check => { p.tell display ("would expand " ++ file) with differs := true }
    | .replace =>
      { p.tell display ("expanded " ++ file ++ " (" ++ String.intercalate ", " names ++ ")") with
        tree := p.tree.write path text }

/-- Expands one source file, at a path and under the name by which it is reported. -/
def expandFile (display : Display) (settings : Settings) (mode : Mode) (p : Progress)
    (path : Path) (file : String) : Except CommandError Progress := do
  let text := unifyLineEnds ((p.tree.content? path).getD [])
  return settle display settings mode p path file (← expandText settings file text)

/-- The source files that a route leads to, at `place`, each with its path and the name by
which it is reported: the file itself, or the files below a directory with one of the
settings' suffixes. -/
def sourceFiles (settings : Settings) (tree : FileTree) (route : Route) (place : Path) :
    Except CommandError (List (Path × String)) :=
  if tree.isDirectory place then
    match settings.suffixes.filter? Path.suffix (tree.filesBelow place) with
    | some files => .ok (files.map fun file => (place ++ file, (route.append file).render))
    | none => .error .unusableNames
  else .ok [(place, route.render)]

/-- Expands a file or the files of a directory. -/
def expandPath (display : Display) (tree : FileTree) (name : String) (mode : Mode) :
    Except CommandError CommandResult := do
  let p := Progress.start tree
  let route := Route.parse name
  match tree.reach route with
  | .error _ =>
    return (p.complain display ("error: no such file or directory: " ++ name)).finish true
  | .ok place =>
    let settings ← (Settings.governing tree route).mapError .settings
    match ← sourceFiles settings tree route place with
    | [] => return (p.complain display "no source files found").finish false
    | files =>
      let p ← files.foldlM (fun p file => expandFile display settings mode p file.1 file.2) p
      return p.finish p.differs

/-- Expands the standard input. -/
def expandInput (display : Display) (tree : FileTree) (text : List Char) (mode : Mode) :
    Except CommandError CommandResult := do
  let settings ← (Settings.governing tree .here).mapError .settings
  let p := Progress.start tree
  match ← expandText settings inputName text with
  | .rejected rejection =>
    return (p.reject display (inputStyle settings text) rejection).finish false
  | .unchanged text =>
    return (if mode = .check then p else p.write (String.ofList text)).finish false
  | .changed text _ =>
    if mode = .check then return p.finish true
    else return (p.write (String.ofList text)).finish false

/-- Expands a single item; its text is made to end in a line feed. -/
def expandItem (display : Display) (tree : FileTree) (text : List Char) :
    Except CommandError CommandResult := do
  let settings ← (Settings.governing tree .here).mapError .settings
  let p := Progress.start tree
  match Source.outcome (Source.expandItem ⟨inputName, text, settings.markers⟩) with
  | .error .unusableMarkers => throw .unusableNames
  | .error (.rejected rejection) =>
    return (p.reject display (inputStyle settings text) rejection).finish false
  | .ok expanded =>
    let ended := if expanded.getLast? = some '\n' then expanded else expanded ++ ['\n']
    return (p.write (String.ofList ended)).finish false

/-- The path of a file to be shown.  Every step of its text counts, also one that leads
nowhere else. -/
def viewedPath (tree : FileTree) (name : String) : Except CommandError Path :=
  match tree.reach (Route.ofText name) with
  | .ok place => if name.isEmpty then .error (.missing name) else .ok place
  | .error _ => .error (.missing name)

/-- Shows how the item in a file is read. -/
def viewFile (display : Display) (tree : FileTree) (name : String) :
    Except CommandError CommandResult := do
  match tree.content? (← viewedPath tree name) with
  | none => throw (.isDirectory name)
  | some content =>
    let p := Progress.start tree
    match FunctionItem.ofText name (unifyLineEnds content) with
    | .ok read => return ((Outline.ofItem read).lines.foldl (·.tell display ·) p).finish false
    | .error rejection =>
      let settings ← (Settings.governing tree (Route.parse name)).mapError .settings
      return (p.reject display (reportStyle settings tree) rejection).finish false

/-- Runs a request, given a display and the text of the standard input. -/
def runOn (display : Display) (tree : FileTree) (input : String) :
    Request → Except CommandError CommandResult
  | .version =>
    .ok (((Progress.start tree).tell display "named-return, version 0.1.0").finish false)
  | .expand path mode =>
    if path = "-" then expandInput display tree (unifyLineEnds input.toList) mode
    else expandPath display tree path mode
  | .item source =>
    expandItem display tree (if source = "-" then unifyLineEnds input.toList else source.toList)
  | .view path => viewFile display tree path

/-- Runs a request on a display that drops control sequences. -/
def run (tree : FileTree) (input : String) (request : Request) :
    Except CommandError CommandResult :=
  runOn .plain tree input request

end Request

end ReturnCaptures
