import ScriptExport.Analysis.Structure
import ScriptExport.Analysis.Walk
import ScriptExport.Record.Exports

/-!
# Analyzing a unit

`analyze` runs one analysis: the structure is checked, the types are indexed, and one walk collects the
records and diagnostics of the unit. Runs share nothing, so units can be analyzed in any order.
-/

namespace ScriptExport

/-- The result of an analysis, with the trace of the run if one was asked for. -/
structure AnalysisResult where
  exports : UnitExports
  trace : List TraceStep := []

namespace Analysis

/-- The context at the top level of a unit. -/
def Context.ofUnit (o : Options) (u : TranslationUnit) : Context :=
  { filePath := u.filePath, options := o, index := TypeIndex.ofDecls o u.decls }

/-- The state before a unit is walked. -/
def State.start (traced : Bool) : State :=
  { trace := if traced then some #[] else none }

/-- The state after a unit has been walked. -/
def run (o : Options) (traced : Bool) (u : TranslationUnit) : State :=
  let s := (State.start traced).log (.unitStarted u.filePath)
  let s := walk (Context.ofUnit o u) u.decls s
  s.log (.unitFinished u.filePath s.records.size s.diagnostics.size)

/-- What a finished state says about its unit. -/
def State.result (file : String) (s : State) : AnalysisResult :=
  { exports :=
      { filePath := file, records := s.records.toList, diagnostics := s.diagnostics.toList }
    trace := (s.trace.map (·.toList)).getD [] }

end Analysis

/-- Analyze a unit and keep the trace if `traced`. -/
def analyzeTraced (o : Options) (traced : Bool) (u : TranslationUnit) :
    Except AnalysisError AnalysisResult :=
  (u.check o).map fun _ => (Analysis.run o traced u).result u.filePath

/-- Analyze a unit. -/
def analyze (o : Options) (u : TranslationUnit) : Except AnalysisError UnitExports :=
  (analyzeTraced o false u).map (·.exports)

end ScriptExport
