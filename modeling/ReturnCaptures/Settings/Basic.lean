import ReturnCaptures.Expansion.Source
import ReturnCaptures.FileTree
import ReturnCaptures.Settings.Toml

/-!
# Settings

The settings say what marks function items, which files of a directory are source files,
and how output is coloured.  They are read from the settings document in the directory of
what is to be expanded, or in the nearest directory above it that holds one.

A setting keeps the value that the document gives it, of whatever type; only a use of the
value can find the type wrong.
-/

namespace ReturnCaptures

/-- The settings: the values that they keep. -/
structure Settings where
  macroNames : Toml.Value
  attributeNames : Toml.Value
  extensions : Toml.Value
  color : Toml.Value
  highlight : Toml.Value
deriving DecidableEq, Repr

/-- The names that a value gives: those strings among the items of an array, or those in a
text. -/
def Toml.Value.nameSet : Toml.Value → NameSet
  | .array items =>
    .members (items.filterMap fun
      | .string s => some s
      | _ => none)
  | .scalar (.string s) => .partsOf s
  | .scalar _ => .unusable

namespace Settings

/-- The settings that hold without a document. -/
def standard : Settings where
  macroNames := .ofStrings ["named_return"]
  attributeNames := .ofStrings ["named_return", "named_return_attr"]
  extensions := .ofStrings [".rs"]
  color := .scalar (.boolean true)
  highlight := .scalar (.boolean false)

/-- What marks function items. -/
def markers (settings : Settings) : Markers :=
  ⟨settings.macroNames.nameSet, settings.attributeNames.nameSet⟩

/-- The suffixes of source files. -/
def suffixes (settings : Settings) : NameSet := settings.extensions.nameSet

/-- Whether diagnostics are coloured. -/
def isColored (settings : Settings) : Bool := settings.color.truth

/-- The name of settings documents. -/
def documentName : String := "named_return.toml"

end Settings

/-- Why settings cannot be read. -/
inductive SettingsError where
  | notFound
  /-- The document is looked for below a file. -/
  | notDirectory
  | isDirectory
  | malformed
  /-- What should be a table is another value. -/
  | notTable
deriving DecidableEq, Repr

namespace Settings

/-- A table of a document, empty if there is none. -/
def tableOf (d : Toml.Document) (name : String) : Except SettingsError Toml.Table :=
  match d.get? name with
  | none => .ok []
  | some (.table entries) => .ok entries
  | some _ => .error .notTable

/-- What a setting keeps of the value of a name in a table, or its value without one. -/
def valueOf (table : Toml.Table) (name : String) (standard : Toml.Value) : Toml.Value :=
  ((table.get? name).map Toml.Node.kept).getD standard

/-- The settings that a document makes. -/
def ofDocument (d : Toml.Document) : Except SettingsError Settings := do
  let expand ← tableOf d "expand"
  let output ← tableOf d "output"
  return {
    macroNames := valueOf expand "macro_names" standard.macroNames
    attributeNames := valueOf expand "attribute_names" standard.attributeNames
    extensions := valueOf expand "extensions" standard.extensions
    color := valueOf output "color" standard.color
    highlight := valueOf output "highlight" standard.highlight }

/-- Reads the document at a path. -/
def load (tree : FileTree) (path : Path) : Except SettingsError Settings :=
  match tree.content? path with
  | some text =>
    match Toml.Document.ofText? text with
    | some d => ofDocument d
    | none => .error .malformed
  | none => .error (if tree.isDirectory path then .isDirectory else .notFound)

/-- Reads the document that a route leads to. -/
def loadAt (tree : FileTree) (route : Route) : Except SettingsError Settings :=
  match tree.reach route with
  | .ok path => load tree path
  | .error .missing => .error .notFound
  | .error .notDirectory => .error .notDirectory

/-- The path of the document that governs what a route stands for, if there is one. -/
def documentFor? (tree : FileTree) (route : Route) : Option Path :=
  let place := tree.absolute route
  let directory := if tree.isFile place then place.dropLast else place
  ((Path.upwards directory).map fun d => d ++ [documentName]).find? tree.exists?

/-- The settings that govern what a route stands for. -/
def governing (tree : FileTree) (route : Route) : Except SettingsError Settings :=
  match documentFor? tree route with
  | some document => load tree document
  | none => .ok standard

end Settings

end ReturnCaptures
