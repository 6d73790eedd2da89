import ScriptExport.Record.Codec
import ScriptExport.Settings.Basic
import ScriptExport.Toml.Printer
import ScriptExport.Toml.Reader

/-!
# Settings files

Settings are kept in a TOML file. Every field has a default, so a partial file is complete.
-/

namespace ScriptExport

/-- Log settings as a table. -/
def LogSettings.toValue (s : LogSettings) : Value :=
  .table ([("enabled", .bool s.enabled)] ++ optionalField "event_log" (s.eventLog.map .text)
    ++ optionalField "stats_log" (s.statsLog.map .text))

/-- Log settings from their fields. -/
def LogSettings.ofValue? (v : Value) : Option LogSettings := do
  let fs ← v.fields? ["enabled", "event_log", "stats_log"]
  let enabled ← fs.withDefault "enabled" false Value.bool?
  let eventLog ← fs.withDefault "event_log" none (Fields.nullable Value.text?)
  let statsLog ← fs.withDefault "stats_log" none (Fields.nullable Value.text?)
  return { enabled, eventLog, statsLog }

namespace Settings

/-- Settings as a table. -/
def toValue (s : Settings) : Value :=
  .table [("annotation_prefix", .text s.marker),
    ("allow_specializations", .bool s.allowSpecializations),
    ("ignored_path_prefixes", .texts s.ignoredPaths),
    ("vector_templates", .texts s.containers.vectorTemplates),
    ("map_templates", .texts s.containers.mapTemplates), ("diagnostics", s.diagnostics.toValue)]

/-- Settings from their fields. -/
def ofValue? (v : Value) : Option Settings := do
  let fs ← v.fields?
    ["annotation_prefix", "allow_specializations", "ignored_path_prefixes", "vector_templates",
      "map_templates", "diagnostics"]
  let defaults : Settings := {}
  let marker ← fs.withDefault "annotation_prefix" defaults.marker Value.text?
  let allowSpecializations ← fs.withDefault "allow_specializations" false Value.bool?
  let ignoredPaths ← fs.withDefault "ignored_path_prefixes" [] Value.texts?
  let vectorTemplates ←
    fs.withDefault "vector_templates" defaults.containers.vectorTemplates Value.texts?
  let mapTemplates ← fs.withDefault "map_templates" defaults.containers.mapTemplates Value.texts?
  let diagnostics ← fs.withDefault "diagnostics" {} LogSettings.ofValue?
  let containers := { vectorTemplates, mapTemplates }
  return { marker, allowSpecializations, ignoredPaths, containers, diagnostics }

/-- The text of a settings file. -/
def render (s : Settings) : String :=
  Toml.print s.toValue

/-- The settings that a text writes. -/
def parse? (text : String) : Option Settings :=
  (Toml.parse? text).bind ofValue?

end Settings

end ScriptExport
