import Std.Data.TreeMap

namespace SchemaScript

/-- A place in a file tree, as the names on the way to it from the root. -/
abbrev Location := List String

/-- Where a name leads from a directory: an empty name and a dot stay there, two
dots go up, and the root is above itself. -/
def Location.enter (here : Location) (name : String) : Location :=
  if name = "" ∨ name = "." then here
  else if name = ".." then here.dropLast
  else here ++ [name]

/-- What a location in a file tree holds. -/
inductive Entry where
  | directory
  | file (content : ByteArray)

/-- Files are equal when they hold the same bytes. -/
instance : DecidableEq Entry
  | .directory, .directory => isTrue rfl
  | .directory, .file _ => isFalse nofun
  | .file _, .directory => isFalse nofun
  | .file content, .file other =>
    @decidable_of_iff _ (content = other) (by simp) (ByteArray.instDecidableEq content other)

/-- Files and directories. The root is a directory that always exists. Entries
are in the order of their locations, so each directory is followed by what
it holds. -/
structure FileTree where
  entries : Std.TreeMap Location Entry

namespace FileTree

/-- The tree of the root alone. -/
def empty : FileTree := ⟨∅⟩

/-- What is at a location. -/
def entry? (self : FileTree) (location : Location) : Option Entry :=
  if location = [] then some .directory else self.entries[location]?

/-- There is a directory at the location. -/
def isDirectory (self : FileTree) (location : Location) : Bool :=
  self.entry? location = some .directory

/-- The names in a path, which are separated by slashes. -/
def splitPath : List Char → List String
  | [] => [""]
  | c :: cs =>
    match splitPath cs with
    | [] => [String.singleton c]
    | name :: names =>
      if c = '/' then "" :: name :: names else (String.singleton c ++ name) :: names

/-- Follows names from a location. Everything on the way exists, and a name
leads on only from a directory. -/
def walk (self : FileTree) (here : Location) : List String → Option Location
  | [] => some here
  | name :: names =>
    if !self.isDirectory here then none
    else if (self.entry? (here.enter name)).isNone then none
    else self.walk (here.enter name) names

/-- Where a path leads. The empty path leads nowhere. -/
def locate? (self : FileTree) (path : String) : Option Location :=
  if path = "" then none else self.walk [] (splitPath path.toList)

/-- What a path leads to. -/
def find? (self : FileTree) (path : String) : Option Entry :=
  (self.locate? path).bind self.entry?

/-- Where a file of the given path can be written: in a directory that exists,
under a name that is not a directory. -/
def target? (self : FileTree) (path : String) : Option Location := do
  let names := splitPath path.toList
  let name ← names.getLast?
  let parent ← self.walk [] names.dropLast
  if name = "" ∨ name = "." ∨ name = ".." then none
  else if !self.isDirectory parent then none
  else if self.isDirectory (parent ++ [name]) then none
  else return parent ++ [name]

/-- Writes a file, over an earlier file of the same path. -/
def write? (self : FileTree) (path : String) (content : ByteArray) : Option FileTree :=
  (self.target? path).map fun location => ⟨self.entries.insert location (.file content)⟩

/-- Follows names from a location, with a new directory wherever nothing is
found, and tells where they lead. -/
def makeDirectories (self : FileTree) (here : Location) : List String → FileTree × Location
  | [] => (self, here)
  | name :: names =>
    let next := here.enter name
    let grown := if (self.entry? next).isSome then self else ⟨self.entries.insert next .directory⟩
    grown.makeDirectories next names

/-- The tree with a directory of the given path, and all directories on the way
to it. -/
def withDirectory (self : FileTree) (path : String) : FileTree :=
  (self.makeDirectories [] (splitPath path.toList)).1

/-- The tree with a file of the given path, and all directories on the way to
it. -/
def withFile (self : FileTree) (path : String) (content : ByteArray) : FileTree :=
  let names := splitPath path.toList
  let (grown, parent) := self.makeDirectories [] names.dropLast
  ⟨grown.entries.insert (parent.enter (names.getLastD "")) (.file content)⟩

/-- All files with their paths, in the order of their locations. -/
def files (self : FileTree) : List (String × ByteArray) :=
  self.entries.toList.filterMap fun
    | (location, .file content) => some ("/".intercalate location, content)
    | (_, .directory) => none

end FileTree

end SchemaScript
