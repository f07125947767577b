/-!
# File trees

A file tree holds the contents of files, and the directories that hold no file, under paths
from the root.  A path is the list of its components.  A route is a way to a path that a
text describes, from the root or from the working directory.  It is taken either as the file
system does, where each step has to start in a directory, or by cancelling each `..` against
the component in front of it whether or not that exists.
-/

namespace ReturnCaptures

/-- The components of a path. -/
abbrev Path := List String

namespace Path

/-- The text of a path from a directory on. -/
def render : Path → String
  | [] => "."
  | path => String.intercalate "/" path

/-- The suffix of a file name: the part from its last dot on, unless that dot is the first
or the last character. -/
def suffixOf (name : String) : String :=
  let reversed := name.toList.reverse
  let tail := reversed.takeWhile (· != '.')
  if tail.isEmpty || tail.length + 1 ≥ reversed.length then ""
  else String.ofList ('.' :: tail.reverse)

/-- The suffix of the last component. -/
def suffix (path : Path) : String :=
  match path.getLast? with
  | some name => suffixOf name
  | none => ""

/-- Whether one path comes before another or is the same: paths are ordered component by
component, and components by the code points of their characters. -/
def le : Path → Path → Bool
  | [], _ => true
  | _ :: _, [] => false
  | a :: as, b :: bs => a < b || (a == b && le as bs)

/-- A path and the directories above it, the innermost first. -/
def upwards (path : Path) : List Path :=
  (List.range (path.length + 1)).map fun n => path.take (path.length - n)

/-- The path from the directory `base` on, if it lies there. -/
def relativeTo (base path : Path) : Path :=
  if base.isPrefixOf path then path.drop base.length else path

/-- Cancels each `..` of a path against the component in front of it; at the root it has
no effect. -/
def cancel (base : Path) : Path → Path
  | [] => base
  | component :: rest =>
    if component = ".." then cancel base.dropLast rest else cancel (base ++ [component]) rest

end Path

/-- A way to a path: components to be taken one after the other, from the root or from the
working directory. -/
structure Route where
  fromRoot : Bool
  steps : Path
deriving DecidableEq, Repr

namespace Route

/-- The route to the working directory. -/
def here : Route := ⟨false, []⟩

/-- The route that a text describes: the components between its slashes.  The empty ones,
and those for staying in a directory, are steps too. -/
def ofText (text : String) : Route :=
  ⟨text.startsWith "/", text.splitOn "/"⟩

/-- Whether a component is a step that leads nowhere else. -/
def isStay (component : String) : Bool := component == "" || component == "."

/-- The route without the steps that lead nowhere else. -/
def simplify (route : Route) : Route :=
  { route with steps := route.steps.filter fun c => !isStay c }

/-- The route that a text describes, without the steps that lead nowhere else. -/
def parse (text : String) : Route := (ofText text).simplify

/-- The route that goes on below what a route leads to. -/
def append (route : Route) (path : Path) : Route :=
  { route with steps := route.steps ++ path }

/-- The text of a route. -/
def render (route : Route) : String :=
  if route.fromRoot then "/" ++ String.intercalate "/" route.steps else route.steps.render

end Route

/-- Why a route leads to nothing. -/
inductive RouteError where
  | missing
  /-- A step starts in a file. -/
  | notDirectory
deriving DecidableEq, Repr

/-- The files below a root, empty directories, and the working directory. -/
structure FileTree where
  workingDirectory : Path
  files : List (Path × List Char)
  directories : List Path

namespace FileTree

/-- The tree that holds the given files in the working directory and nothing else; a path
that ends in a slash is that of an empty directory. -/
def ofEntries (workingDirectory : Path) (entries : List (String × String)) : FileTree where
  workingDirectory := workingDirectory
  files :=
    (entries.filter fun e => !e.1.endsWith "/").map fun e =>
      (workingDirectory ++ (Route.parse e.1).steps, e.2.toList)
  directories :=
    workingDirectory :: (entries.filter fun e => e.1.endsWith "/").map fun e =>
      workingDirectory ++ (Route.parse e.1).steps

/-- The content of a file. -/
def content? (tree : FileTree) (path : Path) : Option (List Char) :=
  (tree.files.find? (·.1 == path)).map (·.2)

/-- Whether a path is that of a file. -/
def isFile (tree : FileTree) (path : Path) : Bool :=
  tree.files.any (·.1 == path)

/-- Whether a path is that of a directory. -/
def isDirectory (tree : FileTree) (path : Path) : Bool :=
  path.isEmpty || tree.directories.any path.isPrefixOf ||
    tree.files.any fun file => path.isPrefixOf file.1 && file.1 != path

/-- Whether a path is that of a file or a directory. -/
def exists? (tree : FileTree) (path : Path) : Bool :=
  tree.isFile path || tree.isDirectory path

/-- The tree with new content in a file. -/
def write (tree : FileTree) (path : Path) (content : List Char) : FileTree :=
  { tree with
    files := tree.files.map fun file => if file.1 == path then (path, content) else file }

/-- Takes steps from `path` on; each has to start in a directory, and the last has to lead
to something. -/
def follow (tree : FileTree) (path : Path) : Path → Except RouteError Path
  | [] => if tree.exists? path then .ok path else .error .missing
  | step :: steps =>
    if tree.isDirectory path then
      tree.follow
        (if Route.isStay step then path else if step = ".." then path.dropLast else path ++ [step])
        steps
    else .error (if tree.isFile path then .notDirectory else .missing)

/-- Where a route starts. -/
def origin (tree : FileTree) (route : Route) : Path :=
  if route.fromRoot then [] else tree.workingDirectory

/-- What a route leads to. -/
def reach (tree : FileTree) (route : Route) : Except RouteError Path :=
  tree.follow (tree.origin route) route.steps

/-- The path that a route stands for, whether or not it exists. -/
def absolute (tree : FileTree) (route : Route) : Path :=
  Path.cancel (tree.origin route) route.steps

/-- The paths, from a directory on, of the files at any depth below it, in order. -/
def filesBelow (tree : FileTree) (directory : Path) : List Path :=
  ((tree.files.filter fun file => directory.isPrefixOf file.1 && file.1 != directory).map
    fun file => file.1.drop directory.length).mergeSort Path.le

/-- The files of `after` whose content differs from that in `tree`. -/
def changes (tree after : FileTree) : List (Path × List Char) :=
  after.files.filter fun file => tree.content? file.1 != some file.2

end FileTree

end ReturnCaptures
