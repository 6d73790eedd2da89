import ScriptExport.Command.Run
import Std.Time.Format

/-!
# The program

The command line program on the real system.
-/

namespace ScriptExport

/-- The fault behind an error of the system. -/
def FileFault.ofError : IO.Error → FileFault
  | .noFileOrDirectory .. => .notFound
  | .alreadyExists .. => .alreadyExists
  | .inappropriateType _ 20 _ => .notDirectory
  | .inappropriateType _ 21 _ => .isDirectory
  | e => .other (toString e)

/-- Do something with files and return its fault, if any. -/
def attempt {α : Type} (action : IO α) : IO (Except FileFault α) := do
  try
    return .ok (← action)
  catch e =>
    return .error (.ofError e)

/-- Whether something can be done. -/
def succeeds {α : Type} (action : IO α) : IO Bool := do
  return (← attempt action).isOk

/-- Whether there is a file at a path; a directory can be opened but not read. -/
def canReadFile (path : String) : IO Bool :=
  succeeds do
    let handle ← IO.FS.Handle.mk path .read
    handle.read 1

/-- The paths of the files below a directory. -/
partial def walkFiles (path : String) : IO (List String) := do
  match ← attempt do (← IO.FS.realPath path).readDir with
  | .error _ => return []
  | .ok entries =>
    let found ← entries.toList.mapM fun entry => do
      let inner := Path.join path entry.fileName
      if ← canReadFile inner then return [inner] else walkFiles inner
    return found.flatten

/-- The current time in the form that a stamp needs. -/
def timeStamp : Clock → IO String
  | .runLog => return (← Std.Time.PlainDateTime.now).format "uuuu-MM-dd HH:mm:ss"
  | .eventLog => return (← Std.Time.PlainDateTime.now).format "uuuu-MM-dd HH:mm:ss.SSS"
  | .manifest => do
    let elapsed := (← Std.Time.Timestamp.now).toNanosecondsSinceUnixEpoch
    let now := Std.Time.PlainDateTime.ofWallTime (.ofNanoseconds elapsed)
    return now.format "uuuu-MM-dd'T'HH:mm:ss.SSSSSSSSS" ++ "+00:00"

instance : Host IO where
  env? name := IO.getEnv name
  exists? path := succeeds (IO.FS.Handle.mk path .read)
  isFile path := canReadFile path
  read path := attempt (IO.FS.readFile path)
  write path text := attempt (IO.FS.writeFile path text)
  append path text := attempt do
    let handle ← IO.FS.Handle.mk path .append
    handle.putStr text
  makeDirectories path := attempt (IO.FS.createDirAll path)
  remove path := attempt (IO.FS.removeFile path)
  rename source target := attempt (IO.FS.rename source target)
  walk path := walkFiles path
  printLine line := IO.println line
  warnLine line := IO.eprintln line
  now clock := timeStamp clock

end ScriptExport

/-- Run the program. -/
def main (arguments : List String) : IO UInt32 :=
  ScriptExport.runProgram arguments
