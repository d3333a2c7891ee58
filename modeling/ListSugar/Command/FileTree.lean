/-
Files and directories under a current directory.

A location is a list of names from the current directory; names `..` at its front
lead out of the tree.  A path is walked step by step, and every place a step starts
from has to be a directory.  Reading wants a file, and writing a file or a name that
is free.  Names and paths have a greatest length in bytes: a path is measured before
its first step, and a name when the place that it names is looked at.
-/

namespace ListSugar.Command

/-- Why a file cannot be read or written. -/
inductive FileError where
  | notFound
  | notDirectory
  | isDirectory
  /-- The path, or a name on it, has too many bytes. -/
  | nameTooLong
  /-- The bytes of the file are no text. -/
  | notText
  /-- Any other reason that the system gives. -/
  | other (reason : String)
deriving DecidableEq, Repr

/-- The wording of a reason, as the system has it. -/
def FileError.text : FileError → String
  | .notFound => "No such file or directory (os error 2)"
  | .notDirectory => "Not a directory (os error 20)"
  | .isDirectory => "Is a directory (os error 21)"
  | .nameTooLong => "File name too long (os error 36)"
  | .notText => "stream did not contain valid UTF-8"
  | .other reason => reason

/-- The most bytes that a name in a directory may have. -/
def maxNameBytes : Nat := 255

/-- The most bytes that a path may have. -/
def maxPathBytes : Nat := 4095

/-- A list of names that leads from the current directory to a place. -/
abbrev Location := List String

namespace Location

/-- Whether a name leads out of the tree. -/
def leadsOut (name : String) : Bool := name = ".." || name = "/"

/-- The place that a step by `name` leads to. -/
def step (loc : Location) (name : String) : Location :=
  if name = "." then loc
  else if name = ".." then
    if loc.all leadsOut then loc ++ [".."] else loc.dropLast
  else loc ++ [name]

/-- Whether the last name of a place has too many bytes to stand in a directory. -/
def nameTooLong (loc : Location) : Bool :=
  loc.getLast?.any fun name => maxNameBytes < name.utf8ByteSize

end Location

/-- The parts of a text between slashes. -/
def splitSlashes : List Char → List (List Char)
  | [] => [[]]
  | c :: rest =>
    match splitSlashes rest with
    | [] => [[c]]
    | first :: others => if c = '/' then [] :: first :: others else (c :: first) :: others

/-- The steps of a path; a slash at its front is a step of its own. -/
def stepsOf (path : String) : List String :=
  let names := ((splitSlashes path.toList).filter (· != [])).map String.ofList
  if path.toList.head? = some '/' then "/" :: names else names

/-- Whether a path ends in a slash and so has to lead to a directory. -/
def endsInSlash (path : String) : Bool := path.toList.getLast? = some '/'

/-- Contents are compared as in the core library, whatever else is in scope. -/
local instance (priority := high) coreByteArrayEq : DecidableEq ByteArray :=
  ByteArray.instDecidableEq

/-- What stands at a place. -/
inductive Entry where
  | directory
  | file (content : ByteArray)
deriving DecidableEq

/-- Files and directories by their place. -/
structure FileTree where
  entries : List (Location × Entry)

namespace FileTree

/-- The tree without any entry. -/
def empty : FileTree := ⟨[]⟩

/-- What stands at a place.  The current directory and those around it are there
without being listed. -/
def entry? (t : FileTree) (loc : Location) : Option Entry :=
  if loc.all Location.leadsOut then some .directory else t.entries.lookup loc

/-- The tree with `entry` at a place, and all else as it was. -/
def set (t : FileTree) (loc : Location) (entry : Entry) : FileTree :=
  ⟨(loc, entry) :: t.entries.filter (·.1 != loc)⟩

/-- What a look at a place finds; no directory can be asked about a name that is too
long for it. -/
def look (t : FileTree) (loc : Location) : Except FileError (Option Entry) :=
  if loc.nameTooLong then .error .nameTooLong else .ok (t.entry? loc)

/-- The place that steps lead to from a place; whether anything stands there is not
asked. -/
def walk (t : FileTree) : Location → List String → Except FileError Location
  | loc, [] => .ok loc
  | loc, name :: rest =>
    match t.look loc with
    | .error e => .error e
    | .ok (some .directory) => t.walk (loc.step name) rest
    | .ok (some (.file _)) => .error .notDirectory
    | .ok none => .error .notFound

/-- The place that a path leads to. -/
def resolve (t : FileTree) (path : String) : Except FileError Location :=
  if path = "" then .error .notFound
  else if maxPathBytes < path.utf8ByteSize then .error .nameTooLong
  else t.walk [] (stepsOf path)

/-- The text of bytes. -/
def decode (content : ByteArray) : Except FileError String :=
  match String.fromUTF8? content with
  | some text => .ok text
  | none => .error .notText

/-- The text of the file at a path. -/
def read (t : FileTree) (path : String) : Except FileError String := do
  match ← t.look (← t.resolve path) with
  | none => .error .notFound
  | some .directory => .error .isDirectory
  | some (.file content) => if endsInSlash path then .error .notDirectory else decode content

/-- The tree with a text as the file at a path.  A path that ends in a slash is
refused before anyone looks at the place. -/
def write (t : FileTree) (path text : String) : Except FileError FileTree := do
  let loc ← t.resolve path
  if endsInSlash path then .error .isDirectory
  else if (← t.look loc) = some .directory then .error .isDirectory
  else .ok (t.set loc (.file text.toUTF8))

/-- The tree with a directory at the place of each step of a path. -/
def addDirectories (t : FileTree) (path : String) : FileTree :=
  let steps := stepsOf path
  (List.range steps.length).foldl (fun t n => t.set (steps.take (n + 1)) .directory) t

/-- The tree with a file at a path. -/
def addFile (t : FileTree) (path : String) (content : ByteArray) : FileTree :=
  t.set (stepsOf path) (.file content)

/-- The files directly in the current directory that are new since `before` or have
another content, with their names. -/
def changedSince (t before : FileTree) : List (String × ByteArray) :=
  t.entries.filterMap fun (loc, _) =>
    match loc, t.entry? loc with
    | [name], some (.file content) =>
      if before.entry? loc = some (.file content) then none else some (name, content)
    | _, _ => none

end FileTree

end ListSugar.Command
