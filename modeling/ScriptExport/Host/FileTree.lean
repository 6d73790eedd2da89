import ScriptExport.Host.Path
import ScriptExport.OrderedMap

/-!
# File trees

A file tree holds text files and directories by the names on the way to them. Relative paths start at
the working directory, which is the empty list of names; the root of absolute paths has the name `/`.
Operations fail like those of a file system, with the same texts.
-/

namespace ScriptExport

/-- Why an operation on files failed. -/
inductive FileFault where
  | notFound
  | alreadyExists
  | notDirectory
  | isDirectory
  /-- Any other cause, in words. -/
  | other (text : String)
deriving DecidableEq, Repr

/-- The fault in words. -/
def FileFault.message : FileFault → String
  | notFound => "No such file or directory (os error 2)"
  | alreadyExists => "File exists (os error 17)"
  | notDirectory => "Not a directory (os error 20)"
  | isDirectory => "Is a directory (os error 21)"
  | other text => text

/-- What a place in a file tree holds. -/
inductive FileNode where
  | file (text : String)
  | directory
deriving DecidableEq, Repr

/-- A place in a file tree: the names on the way to it. -/
abbrev Place := List String

/-- Files and directories by their places. -/
structure FileTree where
  nodes : OrderedMap Place FileNode := {}

namespace FileTree

/-- Whether the place is a directory in every tree. -/
def isRoot (place : Place) : Bool :=
  place == [] || place == ["/"]

/-- What stands at a place. -/
def node? (t : FileTree) (place : Place) : Option FileNode :=
  if isRoot place then some .directory else t.nodes.get? place

/-- Follow names from a place. Whatever a further name is looked up in has to be a directory. -/
def follow (t : FileTree) : Place → List String → Except FileFault Place
  | place, [] => .ok place
  | place, name :: names =>
    match t.node? place with
    | none => .error .notFound
    | some (.file _) => .error .notDirectory
    | some .directory =>
      if name = "." then follow t place names
      else if name = ".." then follow t (if isRoot place then place else place.dropLast) names
      else follow t (place ++ [name]) names

/-- The place that a path leads to; nothing need stand there. -/
def locate (t : FileTree) (path : String) : Except FileFault Place :=
  if path.isEmpty then .error .notFound
  else t.follow (if Path.isAbsolute path then ["/"] else []) (Path.steps path)

/-- What a path leads to. -/
def lookup? (t : FileTree) (path : String) : Option FileNode :=
  match t.locate path with
  | .ok place => t.node? place
  | .error _ => none

/-- Whether there is something at a path. -/
def contains (t : FileTree) (path : String) : Bool :=
  (t.lookup? path).isSome

/-- Whether there is a file at a path. -/
def isFile (t : FileTree) (path : String) : Bool :=
  match t.lookup? path with
  | some (.file _) => true
  | _ => false

/-- Whether there is a directory at a path. -/
def isDirectory (t : FileTree) (path : String) : Bool :=
  t.lookup? path == some .directory

/-- The text of a file. -/
def read (t : FileTree) (path : String) : Except FileFault String := do
  let place ← t.locate path
  match t.node? place with
  | none => .error .notFound
  | some .directory => .error .isDirectory
  | some (.file text) => return text

/-- Put something at a place. -/
def put (t : FileTree) (place : Place) (node : FileNode) : FileTree :=
  ⟨t.nodes.insert place node⟩

/-- The place where a path leads to a file or to nothing yet. A slash at the end asks for a directory,
so no file can be there. -/
def locateFile (t : FileTree) (path : String) : Except FileFault Place := do
  let place ← t.locate (Path.withoutSlash path)
  match t.node? place with
  | some .directory => .error .isDirectory
  | some (.file _) => if path.endsWith "/" then .error .notDirectory else return place
  | none => if path.endsWith "/" then .error .isDirectory else return place

/-- Write a file, in place of an earlier text. -/
def write (t : FileTree) (path text : String) : Except FileFault FileTree := do
  let place ← t.locateFile path
  return t.put place (.file text)

/-- Write at the end of a file. -/
def append (t : FileTree) (path text : String) : Except FileFault FileTree := do
  let place ← t.locateFile path
  match t.node? place with
  | some (.file earlier) => return t.put place (.file (earlier ++ text))
  | _ => return t.put place (.file text)

/-- Make one directory inside an existing one. -/
def makeDirectory (t : FileTree) (path : String) : Except FileFault FileTree := do
  let place ← t.locate (Path.withoutSlash path)
  match t.node? place with
  | some _ => .error .alreadyExists
  | none => return t.put place .directory

/-- Make a directory with all directories on the way to it. `fuel` bounds the number of components. -/
def makeDirectoriesWithin : Nat → FileTree → String → Except FileFault FileTree
  | 0, _, _ => .error .notFound
  | fuel + 1, t, path =>
    if path.isEmpty then .ok t
    else match t.makeDirectory path with
      | .ok t => .ok t
      | .error .notFound => do
        match Path.parent? path with
        | none => .error .notFound
        | some parent =>
          let t ← makeDirectoriesWithin fuel t parent
          t.makeDirectory path
      | .error fault => if t.isDirectory path then .ok t else .error fault

/-- Make a directory with all directories on the way to it. -/
def makeDirectories (t : FileTree) (path : String) : Except FileFault FileTree :=
  makeDirectoriesWithin (path.length + 1) t path

/-- Remove a file. -/
def remove (t : FileTree) (path : String) : Except FileFault FileTree := do
  let place ← t.locate path
  match t.node? place with
  | none => .error .notFound
  | some .directory => .error .isDirectory
  | some (.file _) => return ⟨t.nodes.erase place⟩

/-- Move a file over another one or to a new place. -/
def rename (t : FileTree) (source target : String) : Except FileFault FileTree := do
  let text ← t.read source
  let origin ← t.locate source
  if target.endsWith "/" then .error .notDirectory
  else do
    let place ← t.locateFile target
    return FileTree.put ⟨t.nodes.erase origin⟩ place (.file text)

/-- The files below a directory, each by the names from the directory on. -/
def filesBelow (t : FileTree) (place : Place) : List (List String) :=
  t.nodes.entries.filterMap fun e =>
    match e.2 with
    | .file _ => if place.isPrefixOf e.1 then some (e.1.drop place.length) else none
    | .directory => none

/-- The paths of the files below a directory, in no particular order. -/
def walk (t : FileTree) (path : String) : List String :=
  match t.locate path with
  | .ok place =>
    (t.filesBelow place).map fun names => names.foldl Path.join path
  | .error _ => []

/-- The files with their paths from the working directory. -/
def files (t : FileTree) : List (String × String) :=
  t.nodes.entries.filterMap fun e =>
    match e.2 with
    | .file text => some (Text.join "/" e.1, text)
    | .directory => none

end FileTree

end ScriptExport
