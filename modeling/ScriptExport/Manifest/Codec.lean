import ScriptExport.Json.Printer
import ScriptExport.Manifest.Basic
import ScriptExport.Record.Codec
import ScriptExport.Toml.Printer
import ScriptExport.Toml.Reader

/-!
# Manifest files

Manifests are written as JSON or as TOML. Both hold the same document.
-/

namespace ScriptExport

/-- The exports of a unit as a table. -/
def UnitExports.toValue (u : UnitExports) : Value :=
  .table [("file_path", .text u.filePath), ("records", .list (u.records.map ExportRecord.toValue)),
    ("diagnostics", .list (u.diagnostics.map Diagnostic.toValue))]

/-- The exports of a unit from its fields. -/
def UnitExports.ofValue? (v : Value) : Option UnitExports := do
  let fs ← v.fields? ["file_path", "records", "diagnostics"]
  let filePath ← fs.required "file_path" Value.text?
  let records ← fs.withDefault "records" [] (Value.listOf? ExportRecord.ofValue?)
  let diagnostics ← fs.withDefault "diagnostics" [] (Value.listOf? Diagnostic.ofValue?)
  return { filePath, records, diagnostics }

/-- The text format of a manifest file. -/
inductive ManifestFormat where
  | json
  | toml
deriving DecidableEq, Repr

namespace Manifest

/-- A manifest as a table. -/
def toValue (m : Manifest) : Value :=
  .table [("version", .text m.version), ("generated_at", .text m.generatedAt),
    ("units", .list (m.units.map UnitExports.toValue))]

/-- A manifest from its fields. -/
def ofValue? (v : Value) : Option Manifest := do
  let fs ← v.fields? ["version", "generated_at", "units"]
  let version ← fs.required "version" Value.text?
  let generatedAt ← fs.required "generated_at" Value.text?
  let units ← fs.withDefault "units" [] (Value.listOf? UnitExports.ofValue?)
  return { version, generatedAt, units }

/-- The text of a manifest. -/
def render (m : Manifest) : ManifestFormat → String
  | .json => Json.pretty m.toValue
  | .toml => Toml.print m.toValue

/-- The manifest that a text writes. -/
def parse? (format : ManifestFormat) (text : String) : Option Manifest :=
  let document? := match format with
    | .json => Json.parse? text
    | .toml => Toml.parse? text
  document?.bind ofValue?

end Manifest

end ScriptExport
