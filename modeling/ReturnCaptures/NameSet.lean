/-!
# Name sets

Which names mark items, and which suffixes source files have, is told by name sets.  A name
set is meant to be a list of names.  Settings may also give a text, which then has the names
that occur in it, or a value that has no names; such a set cannot answer every question.
-/

namespace ReturnCaptures

/-- A set of names as settings give it. -/
inductive NameSet where
  /-- The names of a list. -/
  | members (names : List String)
  /-- The names that occur in a text. -/
  | partsOf (text : String)
  /-- A value that has no names. -/
  | unusable
deriving DecidableEq, Repr

namespace NameSet

/-- Whether a run of characters occurs in a text. -/
def occursIn (run : List Char) : List Char → Bool
  | [] => run.isEmpty
  | c :: text => run.isPrefixOf (c :: text) || occursIn run text

/-- Whether a name is in the set, where there may be no name; `none` if the set cannot
answer.  A list can always answer, a text only about a name. -/
def has? : NameSet → Option String → Option Bool
  | .members names, some name => some (names.contains name)
  | .members _, none => some false
  | .partsOf text, some name => some (occursIn name.toList text.toList)
  | .partsOf _, none => none
  | .unusable, _ => none

/-- The items of a list whose names are in the set; `none` if the set cannot answer about
one of them. -/
def filter? {α : Type} (set : NameSet) (name : α → String) (items : List α) :
    Option (List α) :=
  if items.all fun a => (set.has? (some (name a))).isSome then
    some (items.filter fun a => set.has? (some (name a)) == some true)
  else none

/-- A list can always answer. -/
@[simp]
theorem has?_members (names : List String) (name : Option String) :
  (members names).has? name = some (name.any names.contains)
  := by
  cases name <;> rfl

end NameSet

end ReturnCaptures
