import ScriptExport.Command.Error
import ScriptExport.Host.Basic
import ScriptExport.Manifest.Index
import ScriptExport.Settings.Codec

/-!
# Settings and manifests on a host

Loading and saving. A manifest is first written beside its place and then moved there, so that a failed
write leaves the earlier one alone.
-/

namespace ScriptExport

variable {m : Type → Type} [Monad m] [Host m]

/-- Make the directory that a path needs. -/
def makeParent (path : String) : m (Except FileFault Unit) := do
  match Path.parent? path with
  | none => return .ok ()
  | some parent => if parent.isEmpty then return .ok () else Host.makeDirectories parent

/-- The directory of the settings below the home directory. -/
def homeSettingsDirectory? : m (Option String) := do
  match ← Host.env? (m := m) "HOME" with
  | some home =>
    return if home.isEmpty then none else some (Path.join (Path.join home ".config") "luaexport")
  | none => return none

/-- The path of the settings file. -/
def settingsPath : m String := do
  let given := (← Host.env? (m := m) "LUAEXPORT_CONFIG").bind Text.trimmed?
  match given with
  | some path => return path
  | none =>
    let directory ← homeSettingsDirectory?
    return Path.join (directory.getD (Path.join "." "luaexport")) "luaexport.toml"

/-- Load the settings at a path; if nothing is there, all have their defaults. -/
def loadSettings (path : String) : m (Except SettingsError Settings) := do
  if ← Host.exists? path then
    match ← Host.read path with
    | .error fault => return .error (.file path fault)
    | .ok text =>
      match Settings.parse? text with
      | some s => return .ok s
      | none => return .error (.malformed path)
  else return .ok {}

/-- Save settings at a path. -/
def saveSettings (s : Settings) (path : String) : m (Except SettingsError Unit) := do
  match ← makeParent path with
  | .error fault => return .error (.file ((Path.parent? path).getD "") fault)
  | .ok _ =>
    match ← Host.write path s.render with
    | .error fault => return .error (.file path fault)
    | .ok _ => return .ok ()

/-- The format of a manifest at a path. -/
def ManifestFormat.ofPath (path : String) : ManifestFormat :=
  if Path.hasExtension "toml" path then .toml else .json

/-- Load the manifest at a path. -/
def loadManifest (path : String) : m (Except ManifestError Manifest) := do
  match ← Host.read path with
  | .error fault => return .error (.file fault)
  | .ok text =>
    let format := ManifestFormat.ofPath path
    match Manifest.parse? format text with
    | some manifest => return .ok manifest
    | none => return .error (.malformed format)

/-- Load the manifest at a path with the places of its units. -/
def loadIndexed (path : String) : m (Except ManifestError IndexedManifest) := do
  return (← loadManifest path).map .ofManifest

/-- Save a manifest at a path. -/
def saveManifest (manifest : Manifest) (path : String) : m (Except ManifestError Unit) := do
  match ← makeParent path with
  | .error fault => return .error (.file fault)
  | .ok _ =>
    let draft := Path.withExtension path "tmp"
    match ← Host.write draft (manifest.render (.ofPath path)) with
    | .error fault => return .error (.file fault)
    | .ok _ =>
      match ← Host.rename draft path with
      | .error fault => return .error (.file fault)
      | .ok _ => return .ok ()

end ScriptExport
