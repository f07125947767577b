/-!
# Settings documents

A settings document is a table: names with values, which may be tables themselves.  Of a
value, a setting keeps what its use can tell apart: the names that a value gives are its
strings if it is an array, its keys if it is a table, and the parts of its text if it is a
string; and any value counts as true or false.

A document is put together from headers, which open tables, and from definitions.  Nothing
may be defined twice: a table can be opened once, a value that was written out whole is
closed, and a table that definitions with dotted names have opened is closed with the part
of the document that they stand in.
-/

namespace ReturnCaptures.Toml

/-- A string, a truth value or an integer. -/
inductive Scalar where
  | string (s : String)
  | boolean (b : Bool)
  | integer (n : Int)
deriving DecidableEq, Repr

/-- A value as a setting keeps it. -/
inductive Value where
  | scalar (s : Scalar)
  | array (items : List Scalar)
deriving DecidableEq, Repr

/-- The array of some strings. -/
def Value.ofStrings (strings : List String) : Value := .array (strings.map .string)

/-- Whether a value counts as true. -/
def Value.truth : Value → Bool
  | .scalar (.string s) => !s.isEmpty
  | .scalar (.boolean b) => b
  | .scalar (.integer n) => n != 0
  | .array items => !items.isEmpty

/-- A value of a document. -/
inductive Node where
  | scalar (s : Scalar)
  /-- A number that is no integer, a date or a time, by whether it counts as true. -/
  | other (truth : Bool)
  | array (items : List Node)
  | table (entries : List (String × Node))
deriving Repr

/-- An item of an array as a setting keeps it: one that is no scalar is no name either. -/
def Node.item : Node → Scalar
  | .scalar s => s
  | _ => .boolean true

/-- What a setting keeps of a value. -/
def Node.kept : Node → Value
  | .scalar s => .scalar s
  | .other truth => .scalar (.boolean truth)
  | .array items => .array (items.map Node.item)
  | .table entries => .ofStrings (entries.map (·.1))

/-- Whether a value is an array or a table. -/
def Node.isCompound : Node → Bool
  | .array _ => true
  | .table _ => true
  | _ => false

/-- Names with their values, in the order in which they are defined. -/
abbrev Table := List (String × Node)

/-- A document. -/
abbrev Document := Table

namespace Table

/-- The value of a name. -/
def get? (table : Table) (name : String) : Option Node :=
  (table.find? (·.1 == name)).map (·.2)

/-- Gives a name a value. -/
def set (table : Table) (name : String) (value : Node) : Table :=
  if table.any (·.1 == name) then
    table.map fun entry => if entry.1 == name then (name, value) else entry
  else table ++ [(name, value)]

/-- Gives a name that has no value yet a value. -/
def define (name : String) (value : Node) (table : Table) : Option Table :=
  if table.any (·.1 == name) then none else some (table ++ [(name, value)])

/-- Adds an empty table to the array that a name stands for. -/
def extend (name : String) (table : Table) : Option Table :=
  match table.get? name with
  | none => some (table.set name (.array [.table []]))
  | some (.array items) => some (table.set name (.array (items ++ [.table []])))
  | some _ => none

/-- Changes the table that a path of names leads to, through tables and, if `throughArrays`
holds, through the last tables of arrays; tables that are missing are made. -/
def update (throughArrays : Bool) (change : Table → Option Table) :
    List String → Table → Option Table
  | [], table => change table
  | name :: path, table =>
    match table.get? name with
    | none => do return table.set name (.table (← update throughArrays change path []))
    | some (.table inner) => do
      return table.set name (.table (← update throughArrays change path inner))
    | some (.array items) =>
      match throughArrays, items.getLast? with
      | true, some (.table inner) => do
        let inner ← update throughArrays change path inner
        return table.set name (.array (items.dropLast ++ [.table inner]))
      | _, _ => none
    | some _ => none

end Table

/-- A document that is being read. -/
structure Draft where
  content : Table
  /-- The path of the table that was opened last. -/
  header : List String
  /-- The paths of the tables that cannot be opened again. -/
  opened : List (List String)
  /-- The paths of the tables that can be opened no longer once the next header comes. -/
  pending : List (List String)
  /-- The paths of the values that are closed. -/
  closed : List (List String)

namespace Draft

/-- The start of a document. -/
def start : Draft := ⟨[], [], [], [], []⟩

/-- Whether a path leads to a closed value or into one. -/
def isClosed (d : Draft) (path : List String) : Bool := d.closed.any (·.isPrefixOf path)

/-- Ends the part of a document that belongs to a header. -/
def endPart (d : Draft) : Draft := { d with opened := d.opened ++ d.pending, pending := [] }

/-- Opens a table. -/
def openTable (d : Draft) (path : List String) : Option Draft :=
  let d := d.endPart
  if d.opened.contains path || d.isClosed path then none
  else do
    let content ← d.content.update true some path
    return { d with content := content, header := path, opened := path :: d.opened }

/-- Opens a new table at the end of an array of tables; what was known of the tables below
the last one is forgotten. -/
def openItem (d : Draft) (path : List String) : Option Draft :=
  let d := d.endPart
  if d.isClosed path then none
  else do
    let content ← d.content.update true (Table.extend (path.getLastD "")) path.dropLast
    return {
      content := content
      header := path
      opened := path :: d.opened.filter fun other => !path.isPrefixOf other
      pending := []
      closed := d.closed.filter fun other => !path.isPrefixOf other }

/-- Defines a value at a path from the table that was opened last. -/
def define (d : Draft) (path : List String) (value : Node) : Option Draft :=
  let parents := ((List.range path.length).drop 1).map fun n => d.header ++ path.take n
  let parent := d.header ++ path.dropLast
  if parents.any d.opened.contains || d.isClosed parent then none
  else do
    let content ← d.content.update true (Table.define (path.getLastD "") value) parent
    return { d with
      content := content
      pending := d.pending ++ parents
      closed := if value.isCompound then (d.header ++ path) :: d.closed else d.closed }

end Draft

end ReturnCaptures.Toml
