/-!
# Source locations

Where a declaration was written. A location is carried along for messages and manifests and decides
nothing, except that declarations under ignored paths are skipped.
-/

namespace ScriptExport

/-- A position in an analyzed source file. -/
structure Location where
  file : String
  line : UInt32
  column : UInt32 := 0
deriving DecidableEq, Repr

/-- The position as `file:line:column`. -/
def Location.text (l : Location) : String :=
  l.file ++ ":" ++ toString l.line.toNat ++ ":" ++ toString l.column.toNat

end ScriptExport
