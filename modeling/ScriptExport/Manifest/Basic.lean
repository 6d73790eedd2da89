import ScriptExport.Record.Exports
import ScriptExport.Record.Overload

/-!
# Manifests

A manifest collects the exports of units in the order in which their files were first added. A unit
that is analyzed again replaces its earlier result in place. A manifest read from a file may list a
file twice; the last of its units is then the one that counts.
-/

namespace ScriptExport

/-- The exports of one or more units. -/
structure Manifest where
  version : String := "1.0"
  generatedAt : String
  units : List UnitExports := []
deriving DecidableEq

namespace Manifest

/-- Put a unit in place of the last one with the same file, if there is one. -/
def replaceLast? (u : UnitExports) : List UnitExports → Option (List UnitExports)
  | [] => none
  | v :: vs =>
    match replaceLast? u vs with
    | some vs => some (v :: vs)
    | none => if v.filePath = u.filePath then some (u :: vs) else none

/-- Add a unit in place of an earlier result for the same file, else at the end. -/
def add (m : Manifest) (u : UnitExports) : Manifest :=
  { m with units := (replaceLast? u m.units).getD (m.units ++ [u]) }

/-- The unit of a file. -/
def unit? (m : Manifest) (file : String) : Option UnitExports :=
  m.units.reverse.find? fun u => u.filePath == file

/-- Add units one after the other. -/
def addAll (m : Manifest) (us : List UnitExports) : Manifest :=
  us.foldl add m

/-- Add the units of another manifest. -/
def merge (m other : Manifest) : Manifest :=
  m.addAll other.units

/-- All records in unit order. -/
def records (m : Manifest) : List ExportRecord :=
  m.units.flatMap (·.records)

/-- All diagnostics with the file of their unit. -/
def diagnostics (m : Manifest) : List (String × Diagnostic) :=
  m.units.flatMap fun u => u.diagnostics.map fun d => (u.filePath, d)

/-- The number of records. -/
def recordCount (m : Manifest) : Nat :=
  m.units.foldr (fun u n => u.records.length + n) 0

/-- The number of diagnostics. -/
def diagnosticCount (m : Manifest) : Nat :=
  m.units.foldr (fun u n => u.diagnostics.length + n) 0

/-- Whether there are no units. -/
def isEmpty (m : Manifest) : Bool :=
  m.units.isEmpty

/-- The overload sets across all units. -/
def overloadSets (m : Manifest) : List OverloadSet :=
  groupOverloads m.records

end Manifest

end ScriptExport
