import ScriptExport.Host.FileTree

/-!
# Hosts

What a command needs of the system that it runs on: files, the environment, two streams for text, and
the time. Commands are written for any host. `World` is the host that is a value: running a command in
it gives the next world, which is what theorems about commands speak of.
-/

namespace ScriptExport

/-- What a time stamp is for, which decides its form. -/
inductive Clock where
  /-- The date and time of a line in the run log. -/
  | runLog
  /-- The same with milliseconds, for a line in an event log. -/
  | eventLog
  /-- The time of a manifest in universal time. -/
  | manifest
deriving DecidableEq, Repr

/-- A system on which commands run. -/
class Host (m : Type → Type) where
  /-- The value of an environment variable. -/
  env? : String → m (Option String)
  /-- Whether there is something at a path. -/
  exists? : String → m Bool
  /-- Whether there is a file at a path. -/
  isFile : String → m Bool
  read : String → m (Except FileFault String)
  write : String → String → m (Except FileFault Unit)
  append : String → String → m (Except FileFault Unit)
  makeDirectories : String → m (Except FileFault Unit)
  remove : String → m (Except FileFault Unit)
  rename : String → String → m (Except FileFault Unit)
  /-- The paths of the files below a directory, in no particular order. -/
  walk : String → m (List String)
  /-- Write a line to the output. -/
  printLine : String → m Unit
  /-- Write a line to the error output. -/
  warnLine : String → m Unit
  now : Clock → m String

/-- A host as a value. -/
structure World where
  files : FileTree := {}
  env : List (String × String) := []
  output : List String := []
  errors : List String := []
  /-- The text of every time stamp. -/
  time : String := ""

namespace World

/-- Read something off the world. -/
def ask {α : Type} (f : World → α) : StateM World α :=
  fun w => (f w, w)

/-- Change the files if the change succeeds. -/
def change (f : FileTree → Except FileFault FileTree) : StateM World (Except FileFault Unit) :=
  fun w =>
    match f w.files with
    | .ok files => (.ok (), { w with files })
    | .error fault => (.error fault, w)

end World

instance : Host (StateM World) where
  env? name := World.ask fun w => (w.env.find? fun e => e.1 == name).map (·.2)
  exists? path := World.ask fun w => w.files.contains path
  isFile path := World.ask fun w => w.files.isFile path
  read path := World.ask fun w => w.files.read path
  write path text := World.change fun t => t.write path text
  append path text := World.change fun t => t.append path text
  makeDirectories path := World.change fun t => t.makeDirectories path
  remove path := World.change fun t => t.remove path
  rename source target := World.change fun t => t.rename source target
  walk path := World.ask fun w => w.files.walk path
  printLine line := fun w => ((), { w with output := w.output ++ [line] })
  warnLine line := fun w => ((), { w with errors := w.errors ++ [line] })
  now _ := World.ask (·.time)

end ScriptExport
