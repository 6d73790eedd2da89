import ScriptExport.Analysis.Options

/-!
# Settings

The settings of analysis runs, and the keys under which they are shown and changed as texts. A list is
shown with commas between its items.
-/

namespace ScriptExport

/-- Whether and where traces are logged. -/
structure LogSettings where
  enabled : Bool := false
  eventLog : Option String := none
  statsLog : Option String := none
deriving DecidableEq, Repr

/-- The path of the event log. -/
def LogSettings.eventLogPath (s : LogSettings) : String :=
  s.eventLog.getD "luaexport-events.log"

/-- The path of the statistics log. -/
def LogSettings.statsLogPath (s : LogSettings) : String :=
  s.statsLog.getD "luaexport-types.log"

/-- The settings of analysis runs. -/
structure Settings where
  marker : String := "lua_export_"
  allowSpecializations : Bool := false
  ignoredPaths : List String := []
  containers : ContainerRules := {}
  diagnostics : LogSettings := {}
deriving DecidableEq, Repr

/-- The analysis options that settings give. -/
def Settings.toOptions (s : Settings) : Options :=
  { marker := s.marker
    allowSpecializations := s.allowSpecializations
    ignoredPaths := s.ignoredPaths
    containers := s.containers }

/-- The key of a setting. -/
inductive SettingKey where
  | marker
  | allowSpecializations
  | ignoredPaths
  | vectorTemplates
  | mapTemplates
  | diagnostics
  | eventLog
  | statsLog
deriving DecidableEq, Repr

namespace SettingKey

/-- The name of the key. -/
def name : SettingKey → String
  | marker => "annotation-prefix"
  | allowSpecializations => "allow-specializations"
  | ignoredPaths => "ignored-path-prefixes"
  | vectorTemplates => "vector-templates"
  | mapTemplates => "map-templates"
  | diagnostics => "diagnostics"
  | eventLog => "event-log"
  | statsLog => "stats-log"

/-- All keys in the order in which they are shown. -/
def all : List SettingKey :=
  [marker, allowSpecializations, ignoredPaths, vectorTemplates, mapTemplates, diagnostics, eventLog,
    statsLog]

/-- The key with the given name. -/
def ofName? (s : String) : Option SettingKey :=
  all.find? fun k => k.name == s

end SettingKey

/-- Why a setting cannot be shown or changed. -/
inductive SettingFault where
  | unknownKey (key : String)
  | invalidValue (key value : String)
deriving DecidableEq, Repr

/-- The fault in words. -/
def SettingFault.message : SettingFault → String
  | unknownKey key => "Unknown configuration key: " ++ key
  | invalidValue key value => "Invalid value '" ++ value ++ "' for configuration key '" ++ key ++ "'"

namespace Settings

/-- A truth value as a text. -/
def boolText (b : Bool) : String :=
  if b then "true" else "false"

/-- The truth value that a text writes. -/
def boolOf? (s : String) : Option Bool :=
  if s == "true" then some true else if s == "false" then some false else none

/-- A list as a text. -/
def listText (items : List String) : String :=
  Text.join "," items

/-- The items between commas, without the blanks around them; empty ones are left out. -/
def listOf (s : String) : List String :=
  (Text.segments (· == ',') s.toList).filterMap fun cs => Text.trimmed? (String.ofList cs)

/-- The value of a setting as a text. -/
def get (s : Settings) : SettingKey → String
  | .marker => s.marker
  | .allowSpecializations => boolText s.allowSpecializations
  | .ignoredPaths => listText s.ignoredPaths
  | .vectorTemplates => listText s.containers.vectorTemplates
  | .mapTemplates => listText s.containers.mapTemplates
  | .diagnostics => boolText s.diagnostics.enabled
  | .eventLog => s.diagnostics.eventLogPath
  | .statsLog => s.diagnostics.statsLogPath

/-- The settings after one of them is given the value that a text writes, if it can have it. -/
def set? (s : Settings) (key : SettingKey) (value : String) : Option Settings :=
  match key with
  | .marker => (Text.trimmed? value).map fun v => { s with marker := v }
  | .allowSpecializations => (boolOf? value).map fun b => { s with allowSpecializations := b }
  | .ignoredPaths => some { s with ignoredPaths := listOf value }
  | .vectorTemplates =>
    some { s with containers := { s.containers with vectorTemplates := listOf value } }
  | .mapTemplates => some { s with containers := { s.containers with mapTemplates := listOf value } }
  | .diagnostics =>
    (boolOf? value).map fun b => { s with diagnostics := { s.diagnostics with enabled := b } }
  | .eventLog => some { s with diagnostics := { s.diagnostics with eventLog := some value } }
  | .statsLog => some { s with diagnostics := { s.diagnostics with statsLog := some value } }

/-- The value under the name of a key. -/
def getNamed? (s : Settings) (name : String) : Option String :=
  (SettingKey.ofName? name).map s.get

/-- Change the setting under the name of a key. -/
def setNamed (s : Settings) (name value : String) : Except SettingFault Settings :=
  match SettingKey.ofName? name with
  | none => .error (.unknownKey name)
  | some key =>
    match s.set? key value with
    | none => .error (.invalidValue name value)
    | some s => .ok s

/-- All settings with their names. -/
def shown (s : Settings) : List (String × String) :=
  SettingKey.all.map fun k => (k.name, s.get k)

end Settings

end ScriptExport
