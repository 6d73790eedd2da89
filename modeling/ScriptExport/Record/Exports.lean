import ScriptExport.Record.Basic

/-!
# Exports of a unit

What one analyzed file contributes to a manifest.
-/

namespace ScriptExport

/-- The records and diagnostics of one analyzed unit. -/
structure UnitExports where
  filePath : String
  records : List ExportRecord := []
  diagnostics : List Diagnostic := []
deriving DecidableEq

/-- Whether nothing went wrong in the unit. -/
def UnitExports.isClean (u : UnitExports) : Bool :=
  u.diagnostics.isEmpty

end ScriptExport
