/-!
# Requests on the command line

The arguments of a command line ask for one of four things: to expand a file, a directory
or the standard input, to expand a single item, to show how an item is read, or to tell the
version.

An argument that starts with a dash is an option, unless it is the dash alone.  A double
dash ends the options, and is dropped.  Options of the program stand in front of the
command; options of a command stand anywhere behind it.
-/

namespace ReturnCaptures

/-- What is done with an expanded source file. -/
inductive Mode where
  /-- It is printed. -/
  | print
  /-- It is compared with the file. -/
  | check
  /-- It replaces the file. -/
  | replace
deriving DecidableEq, Repr

/-- What a command line asks for; a single dash as a path or source stands for the standard
input. -/
inductive Request where
  | expand (path : String) (mode : Mode)
  | item (source : String)
  | view (path : String)
  | version
deriving DecidableEq, Repr

namespace Request

/-- Whether an argument is an option. -/
def isOption (argument : String) : Bool := argument.startsWith "-" && argument != "-"

/-- The options in front of a command, and the arguments from the command on. -/
def splitLeading : List String → List String × List String
  | [] => ([], [])
  | "--" :: arguments => ([], arguments)
  | argument :: arguments =>
    if isOption argument then
      let (options, others) := splitLeading arguments
      (argument :: options, others)
    else ([], argument :: arguments)

/-- The options and the other arguments of a command. -/
def split : List String → List String × List String
  | [] => ([], [])
  | "--" :: arguments => ([], arguments)
  | argument :: arguments =>
    let (options, others) := split arguments
    if isOption argument then (argument :: options, others)
    else (options, argument :: others)

/-- Whether an option asks to replace files; its short form may repeat its letter. -/
def isReplace (option : String) : Bool :=
  option == "--in-place" ||
    match option.toList with
    | '-' :: letters => !letters.isEmpty && letters.all (· == 'i')
    | _ => false

/-- Whether an option is one of those that expanding files knows. -/
def isExpandOption (option : String) : Bool :=
  isReplace option || option == "--check" || option == "--highlight"

/-- The mode that options choose; comparing goes before replacing. -/
def modeOf (options : List String) : Mode :=
  if options.contains "--check" then .check
  else if options.any isReplace then .replace
  else .print

/-- The request that a command makes with its arguments, if they are well formed. -/
def ofCommand? (command : String) (arguments : List String) : Option Request :=
  let (options, others) := split arguments
  match command, others with
  | "expand", [] => if options.all isExpandOption then some (.expand "-" (modeOf options)) else none
  | "expand", [path] =>
    if options.all isExpandOption then some (.expand path (modeOf options)) else none
  | "item", [source] => if options.all (· == "--highlight") then some (.item source) else none
  | "view", [path] => if options.isEmpty then some (.view path) else none
  | _, _ => none

/-- The request that arguments make, if they are well formed. -/
def ofArguments? (arguments : List String) : Option Request :=
  match splitLeading arguments with
  | ([], command :: others) => ofCommand? command others
  | ([], []) => none
  | (options, _) => if options.all (· == "--version") then some .version else none

end Request

end ReturnCaptures
