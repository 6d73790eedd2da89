import ScriptExport.Text.LetterCase
import ScriptExport.Text.Segment

/-!
# Paths

Paths are texts with `/` between their components. Repeated slashes, a slash at the end and `.` inside
a path make no difference to which components it has, but the rest of a path stays as it was written
when a component is taken off or replaced.
-/

namespace ScriptExport.Path

/-- A reversed path without slashes and `.` components at its end. -/
def trimReversed : List Char → List Char
  | '/' :: cs => trimReversed cs
  | '.' :: '/' :: cs => trimReversed cs
  | cs => cs

/-- Whether the path starts at the root. -/
def isAbsolute (path : String) : Bool :=
  Text.startsWith "/" path

/-- What stands before the last component, its slash included, and the last component. -/
def splitLast (path : String) : List Char × List Char :=
  let cs := trimReversed path.toList.reverse
  ((cs.dropWhile (· != '/')).reverse, (cs.takeWhile (· != '/')).reverse)

/-- The path without its last component; nothing for a path that has none. -/
def parent? (path : String) : Option String :=
  let (before, last) := splitLast path
  if last.isEmpty then none
  else
    let rest := (trimReversed before.reverse).reverse
    if rest.isEmpty && isAbsolute path then some "/" else some (String.ofList rest)

/-- The last component, if it names something. -/
def fileName? (path : String) : Option (List Char) :=
  let (_, last) := splitLast path
  if last.isEmpty || last == ['.'] || last == ['.', '.'] then none else some last

/-- A file name cut at its last dot, unless that is its first character. -/
def splitName (name : List Char) : List Char × Option (List Char) :=
  let ext := (name.reverse.takeWhile (· != '.')).reverse
  match name.reverse.dropWhile (· != '.') with
  | _ :: stem => if stem.isEmpty then (name, none) else (stem.reverse, some ext)
  | [] => (name, none)

/-- The extension of the file name. -/
def extension? (path : String) : Option String :=
  ((fileName? path).bind fun name => (splitName name).2).map String.ofList

/-- Whether the file name has the extension, in either case. -/
def hasExtension (ext path : String) : Bool :=
  (extension? path).any fun e => Text.asciiLower e == ext

/-- The path with another extension. -/
def withExtension (path ext : String) : String :=
  match fileName? path with
  | none => path
  | some name => String.ofList ((splitLast path).1 ++ (splitName name).1) ++ "." ++ ext

/-- A path inside a directory. -/
def join (dir name : String) : String :=
  if dir.isEmpty then name
  else if dir.endsWith "/" then dir ++ name
  else dir ++ "/" ++ name

/-- The path without slashes at its end, unless it has nothing else. -/
def withoutSlash (path : String) : String :=
  match path.toList.reverse.dropWhile (· == '/') with
  | [] => path
  | cs => String.ofList cs.reverse

/-- The names on the way to a path. A slash at the end asks for a directory, which is what `.` does. -/
def steps (path : String) : List String :=
  let names := ((Text.segments (· == '/') path.toList).filter (fun s => !s.isEmpty)).map String.ofList
  if path.endsWith "/" then names ++ ["."] else names

/-- The names by which paths are ordered. -/
def sortKey (path : String) : List String :=
  ((Text.segments (· == '/') path.toList).map String.ofList).filter fun s => s != "" && s != "."

end ScriptExport.Path
