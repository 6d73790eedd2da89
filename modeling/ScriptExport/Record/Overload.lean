import ScriptExport.Record.Basic

/-!
# Overload sets

Callable records with the same owner and the same script name form an overload set. Sets stand in the
order of their first record, and the records of a set in their own order.
-/

namespace ScriptExport

/-- Callables that share a script name on the same owner. -/
structure OverloadSet where
  ownerType : String
  scriptName : String
  records : List ExportRecord
deriving DecidableEq

/-- Whether the name alone does not determine the callable. -/
def OverloadSet.isOverloaded (s : OverloadSet) : Bool :=
  1 < s.records.length

/-- The owner and script name by which callables are grouped. -/
def ExportRecord.overloadKey (r : ExportRecord) : String × String :=
  (r.ownerType, r.scriptName)

/-- Add a record to the set of its key. -/
def addOverload (groups : OrderedMap (String × String) (List ExportRecord)) (r : ExportRecord) :
    OrderedMap (String × String) (List ExportRecord) :=
  groups.insert r.overloadKey (((groups.get? r.overloadKey).getD []) ++ [r])

/-- The overload sets of a list of records. -/
def groupOverloads (records : List ExportRecord) : List OverloadSet :=
  ((records.filter (·.kind.isCallable)).foldl addOverload {}).entries.map fun e =>
    ⟨e.1.1, e.1.2, e.2⟩

end ScriptExport
