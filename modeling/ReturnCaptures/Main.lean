import ReturnCaptures.Command.Run

/-!
# The command line

The program reads what a request may touch into a file tree, runs the request, writes its
output and puts the changed files back.
-/

namespace ReturnCaptures.Main

/-- Everything that is left on a stream. -/
partial def readAll (stream : IO.FS.Stream) (soFar : ByteArray) : IO ByteArray := do
  let chunk ← stream.read 65536
  if chunk.isEmpty then return soFar else readAll stream (soFar ++ chunk)

/-- The spelling of an absolute path. -/
def spell (path : Path) : String := "/" ++ String.intercalate "/" path

/-- The content of a file, if it can be read as text. -/
def readText? (path : Path) : IO (Option (List Char)) := do
  try
    return some (← IO.FS.readFile ((← IO.currentDir) / spell path)).toList
  catch _ => return none

/-- Whether an absolute path is that of a directory. -/
def isDirectory (path : Path) : IO Bool := do
  ((← IO.currentDir) / spell path).isDir

/-- The files below a directory with their contents. -/
partial def readBelow (directory : Path) : IO (List (Path × List Char)) := do
  let entries ← ((← IO.currentDir) / spell directory).readDir
  let found ← entries.toList.mapM fun entry => do
    let path := directory ++ [entry.fileName]
    if ← isDirectory path then readBelow path
    else return ((← readText? path).map (path, ·)).toList
  return found.flatten

/-- What is at an absolute path: a file, or the files below a directory. -/
def readAt (path : Path) : IO (List (Path × List Char)) := do
  if ← isDirectory path then readBelow path
  else return ((← readText? path).map (path, ·)).toList

/-- The settings documents that may govern an absolute path. -/
def readDocuments (path : Path) : IO (List (Path × List Char)) := do
  let found ← path.upwards.mapM fun directory => do
    let document := directory ++ [Settings.documentName]
    return ((← readText? document).map (document, ·)).toList
  return found.flatten

/-- The route to what a request touches. -/
def touched : Request → Route
  | .expand path _ => if path = "-" then .here else Route.parse path
  | .view path => Route.parse path
  | .item _ => .here
  | .version => .here

/-- Whether a request touches files. -/
def touchesFiles : Request → Bool
  | .expand path _ => path != "-"
  | .view _ => true
  | .item _ => false
  | .version => false

/-- The file tree that a request may look at. -/
def readTree (request : Request) : IO FileTree := do
  let here := (Route.parse (toString (← IO.currentDir))).steps
  let empty : FileTree := ⟨here, [], []⟩
  let route := touched request
  let place := empty.absolute route
  let files ← if touchesFiles request then readAt place else pure []
  let documents ← readDocuments place
  let passed := (List.range (route.steps.length + 1)).map fun n =>
    empty.absolute { route with steps := route.steps.take n }
  let directories ← passed.filterM isDirectory
  return ⟨here, documents ++ files, here :: directories⟩

/-- Whether a request reads the standard input. -/
def readsInput : Request → Bool
  | .expand path _ => path == "-"
  | .item source => source == "-"
  | _ => false

/-- Runs a request and gives the exit status. -/
def perform (request : Request) : IO UInt32 := do
  let tree ← readTree request
  let input ←
    if readsInput request then readAll (← IO.getStdin) .empty else pure .empty
  match request.run tree ((String.fromUTF8? input).getD "") with
  | .ok result =>
    for (path, text) in tree.changes result.tree do
      IO.FS.writeFile ((← IO.currentDir) / spell path) (String.ofList text)
    IO.print result.output
    IO.eprint result.errors
    return result.status.toUInt32
  | .error (.missing path) =>
    IO.eprintln ("error: path does not exist: " ++ path)
    return 2
  | .error (.isDirectory path) =>
    IO.eprintln ("error: path is a directory: " ++ path)
    return 1
  | .error .unusableNames =>
    IO.eprintln ("error: " ++ Settings.documentName ++ " gives names of a wrong type")
    return 1
  | .error (.settings _) =>
    IO.eprintln ("error: " ++ Settings.documentName ++ " cannot be read")
    return 1

end ReturnCaptures.Main

/-- Expands named return values in function items. -/
def main (arguments : List String) : IO UInt32 :=
  match ReturnCaptures.Request.ofArguments? arguments with
  | some request => ReturnCaptures.Main.perform request
  | none => do
    IO.eprintln "usage: named-return (expand [PATH] [-i] [--check] | item SOURCE | view FILE)"
    return 2
