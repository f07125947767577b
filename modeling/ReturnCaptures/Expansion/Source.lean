import ReturnCaptures.Expansion.Text
import ReturnCaptures.NameSet

/-!
# Expanding a source text

Function items to expand are marked in a source text in two ways: by a macro call whose
arguments are the item, and by an attribute in front of it.  A scan of the trees of the
text finds the marked items at any depth, and gives the edits that replace each, mark
included, by its expansion.  Marked items inside the body of a marked item are part of that
item's own edit.  Everything outside the edits is copied.

The names of the expanded functions are recorded as they are found, and kept when a later
item is rejected.  A scan ends at the first rejection, or where a set of marker names cannot
answer whether it has the name that stands there.
-/

namespace ReturnCaptures

open TokenTree

/-- The names of the macros and of the attributes that mark function items. -/
structure Markers where
  macros : NameSet
  attributes : NameSet
deriving DecidableEq, Repr

/-- The names that are used if none are chosen. -/
def Markers.standard : Markers :=
  ⟨.members ["named_return"], .members ["named_return", "named_return_attr"]⟩

/-- A source text, the file it stands in, and what marks items in it. -/
structure Source where
  file : String
  text : List Char
  markers : Markers

/-- Why an expansion fails. -/
inductive ExpansionError where
  | rejected (rejection : Rejection)
  /-- A set of marker names cannot answer. -/
  | unusableMarkers

/-- Computations that may fail and that record names on the way. -/
abbrev Recording := EStateM ExpansionError (List String)

/-- Takes up an outcome that records nothing. -/
def Recording.ofExcept {α : Type} : Except Rejection α → Recording α
  | .ok a => pure a
  | .error rejection => throw (.rejected rejection)

/-- Records a name. -/
def Recording.record (name : String) : Recording Unit :=
  modify (· ++ [name])

/-- The last segment of a path whose segment `name` has just been read, and the trees after
the path. -/
def pathEnd (name : String) : List TokenTree → String × List TokenTree
  | colon :: colon' :: .token t :: trees =>
    if atOperator [':', ':'] [colon, colon'] && t.lexeme.isPathWord then pathEnd t.text trees
    else (name, colon :: colon' :: .token t :: trees)
  | trees => (name, trees)

/-- The last segment of the path that trees start with, and the trees after the path. -/
def pathName? (trees : List TokenTree) : Option (String × List TokenTree) :=
  match if atOperator [':', ':'] trees then trees.drop 2 else trees with
  | .token t :: rest => if t.lexeme.isPathWord then some (pathEnd t.text rest) else none
  | _ => none

/-- A call of a marker macro: its arguments, the offset at which it ends, and the trees
after it. -/
structure Invocation where
  arguments : Group
  stop : Nat
  after : List TokenTree

/-- The call with the given arguments, which are followed by `after`; a semicolon belongs to
it, unless the arguments stand in braces. -/
def Invocation.ofArguments (arguments : Group) (after : List TokenTree) : Invocation :=
  match arguments.delimiter, after with
  | .brace, _ => ⟨arguments, arguments.closing.stop, after⟩
  | _, .token ⟨.punct ';' _, span⟩ :: rest => ⟨arguments, span.stop, rest⟩
  | _, _ => ⟨arguments, arguments.closing.stop, after⟩

/-- The call whose macro is named in front of the trees. -/
def Invocation.after? (trees : List TokenTree) : Option Invocation :=
  if atSingle '!' trees then
    match trees with
    | _ :: .group delimiter inner opening closing :: after =>
      some (.ofArguments ⟨delimiter, inner, opening, closing⟩ after)
    | _ => none
  else none

/-- The call of a marker macro that trees start with, if there is one; `none` if the set of
macro names cannot answer. -/
def invocation? (markers : Markers) (trees : List TokenTree) : Option (Option Invocation) :=
  let path := pathName? trees
  (markers.macros.has? (path.map (·.1))).map fun marked =>
    if marked then path.bind fun p => Invocation.after? p.2 else none

/-- Whether the inside of an attribute names a marker, possibly with arguments; `none` if
the set of attribute names cannot answer. -/
def namesMarker? (markers : Markers) (inner : List TokenTree) : Option Bool :=
  let path := pathName? inner
  (markers.attributes.has? (path.map (·.1))).map fun marked =>
    marked && path.any fun p => (if atGroup .paren p.2 then p.2.drop 1 else p.2).isEmpty

/-- Whether trees start with a marker attribute. -/
def atMarkerAttribute? (markers : Markers) : List TokenTree → Option Bool
  | hash :: .group .bracket inner _ _ :: _ =>
    if atPunct '#' [hash] then namesMarker? markers inner else some false
  | _ => some false

/-- What stands where a scan has arrived. -/
inductive Site where
  | invocation (call : Invocation)
  | attribute
  | unmarked

/-- What trees start with; `none` if a set of marker names that is asked cannot answer.  The
attribute names are asked only if no call of a marker macro stands there. -/
def site? (markers : Markers) (trees : List TokenTree) : Option Site := do
  match ← invocation? markers trees with
  | some call => return .invocation call
  | none => return if ← atMarkerAttribute? markers trees then .attribute else .unmarked

namespace Source

/-- The text of an item's expansion; `inside` gives the edits in the trees of its body. -/
def expansionWith (source : Source) (inside : List TokenTree → Recording (List Edit))
    (item : FunctionItem) : Recording (List Char) := do
  Recording.record item.name
  let x := Expansion.ofItem item
  let edits ← inside x.openTrees
  return x.textWith source.text edits

/-- The edits in a list of sibling trees of which the first `skip` belong to an edit
already found; `inside` gives those in the trees of a group. -/
def siblingEdits (source : Source) (inside : List TokenTree → Recording (List Edit)) :
    (skip : Nat) → List TokenTree → Recording (List Edit)
  | _, [] => return []
  | skip + 1, _ :: rest => source.siblingEdits inside skip rest
  | 0, tree :: rest =>
    match site? source.markers (tree :: rest) with
    | none => throw .unusableMarkers
    | some (.invocation call) => do
      let item ← Recording.ofExcept (FunctionItem.ofTrees source.file call.arguments.trees)
      let replacement ← source.expansionWith inside item
      let edits ← source.siblingEdits inside (rest.length - call.after.length) rest
      return ⟨tree.span.start, call.stop, replacement⟩ :: edits
    | some .attribute => do
      let (item, next) ← Recording.ofExcept
        (FunctionItem.readAt source.file (tree :: rest) 2)
      let replacement ← source.expansionWith inside item
      let edits ← source.siblingEdits inside (next - 1) rest
      return ⟨tree.span.start, item.span.stop, replacement⟩ :: edits
    | some .unmarked =>
      match tree with
      | .token _ => source.siblingEdits inside 0 rest
      | .group _ inner _ _ => do
        let edits ← inside inner
        return edits ++ (← source.siblingEdits inside 0 rest)

/-- The edits in trees that are nested at most `depth` deep. -/
def editsTo (source : Source) : (depth : Nat) → List TokenTree → Recording (List Edit)
  | 0 => source.siblingEdits (fun _ => return []) 0
  | depth + 1 => source.siblingEdits (source.editsTo depth) 0

/-- The edits in trees. -/
def edits (source : Source) (trees : List TokenTree) : Recording (List Edit) :=
  source.editsTo (depthAll trees) trees

/-- The text from `start` up to `stop`, which `trees` cover, with every marked item
expanded. -/
def region (source : Source) (trees : List TokenTree) (start stop : Nat) :
    Recording (List Char) := do
  return splice source.text start stop (← source.edits trees)

/-- The inside of a group with every marked item expanded. -/
def interior (source : Source) (g : Group) : Recording (List Char) :=
  source.region g.trees g.opening.stop g.closing.start

/-- The whole text with every marked item expanded. -/
def expand (source : Source) : Recording (List Char) := do
  let trees ← Recording.ofExcept (TokenTree.ofText source.file source.text)
  source.region trees 0 source.text.length

/-- The text of a single function item, expanded, with every marked item in its body
expanded too. -/
def expandItem (source : Source) : Recording (List Char) := do
  let item ← Recording.ofExcept (FunctionItem.ofText source.file source.text)
  source.expansionWith source.edits item

/-- The outcome of a computation that starts with no names recorded. -/
def outcome {α : Type} (computation : Recording α) : Except ExpansionError α :=
  match computation.run [] with
  | .ok a _ => .ok a
  | .error cause _ => .error cause

end Source

end ReturnCaptures
