import ScriptExport.Analysis.Run
import ScriptExport.Command.Store
import ScriptExport.Host.RunLog
import ScriptExport.Trace.Sink

/-!
# From inputs to a manifest

What `analyze` and `check` have in common: inputs are expanded into tree dumps, all dumps are loaded,
each unit is analyzed, and the results make a manifest in input order. With logging, the traces of the
units go to one event log and one statistics log; a unit that is refused ends the run, and the logs keep
what came before it.
-/

namespace ScriptExport

/-- The settings of one run. -/
structure RunSettings where
  options : Options
  /-- Where traces are logged, if they are. -/
  logs : Option LogSettings := none
deriving DecidableEq, Repr

/-- The run settings that follow from settings; logging may be forced. -/
def RunSettings.ofSettings (s : Settings) (forceLogs : Bool) : RunSettings :=
  { options := s.toOptions
    logs := if s.diagnostics.enabled || forceLogs then some s.diagnostics else none }

/-- Whether a path names a tree dump. -/
def isTreeDump (path : String) : Bool :=
  Path.hasExtension "json" path

/-- Paths in the order of their components. -/
def sortPaths (paths : List String) : List String :=
  paths.mergeSort fun a b => !(Path.sortKey b).lex (Path.sortKey a)

/-- A loaded unit with the path of its dump. -/
abbrev LoadedUnit := String × TranslationUnit

/-- Analyze units until one is refused. -/
def analyzeUnits (o : Options) (traced : Bool) :
    List LoadedUnit → List AnalysisResult × Option CommandError
  | [] => ([], none)
  | (path, u) :: units =>
    match analyzeTraced o traced u with
    | .error e => ([], some (.analysis path e))
    | .ok result =>
      let (results, fault) := analyzeUnits o traced units
      (result :: results, fault)

/-- A diagnostic as it is shown; one without a location names the file of its unit. -/
def shownDiagnostic (file : String) (d : Diagnostic) : String :=
  if d.location.isSome then d.text else file ++ ": " ++ d.text

variable {m : Type → Type} [Monad m] [Host m]

/-- Expand one input. -/
def expandInput (path : String) : ExceptT CommandError m (List String) := do
  if !(← Host.exists? (m := m) path) then throw (.missingInput path)
  else if ← Host.isFile (m := m) path then return [path]
  else return sortPaths ((← Host.walk (m := m) path).filter isTreeDump)

/-- Expand inputs into the tree dumps that they stand for. -/
def collectInputs (paths : List String) : ExceptT CommandError m (List String) := do
  let inputs := (← paths.mapM expandInput).flatten
  if inputs.isEmpty then throw (.noInputs paths) else return inputs

/-- Load the tree dump at a path. -/
def loadUnit (path : String) : ExceptT CommandError m LoadedUnit := do
  match ← Host.read (m := m) path with
  | .error fault => throw (.loadDump path (.file fault))
  | .ok text =>
    match TranslationUnit.ofJson? text with
    | some u => return (path, u)
    | none => throw (.loadDump path .malformed)

/-- Start the logs of a run. -/
def openLogs (s : LogSettings) : m (Except FileFault Unit) := do
  match ← makeParent s.eventLogPath with
  | .error fault => return .error fault
  | .ok _ =>
    match ← makeParent s.statsLogPath with
    | .error fault => return .error fault
    | .ok _ =>
      match ← Host.write s.eventLogPath "" with
      | .error fault => return .error fault
      | .ok _ => Host.write s.statsLogPath ""

/-- What a sink is told about a step of a trace. -/
def sinkStep : TraceStep → m SinkStep
  | .event e => do
    let time ← Host.now (m := m) .eventLog
    return .event ("[" ++ time ++ "] " ++ e.text)
  | .typeSeen text => return .typeSeen text

/-- Write what traces brought to the logs. -/
def writeLogs (s : LogSettings) (traces : List TraceStep) : m (Except FileFault Unit) := do
  let steps ← traces.mapM sinkStep
  let sink := (LogSink.run {} steps).close
  match ← Host.write s.eventLogPath sink.eventText with
  | .error fault => return .error fault
  | .ok _ => Host.write s.statsLogPath sink.statisticsText

/-- Analyze all loaded units and log their traces if the run asks for it. -/
def analyzeLoaded (run : RunSettings) (units : List LoadedUnit) :
    ExceptT CommandError m (List UnitExports) := do
  match run.logs with
  | none =>
    match analyzeUnits run.options false units with
    | (_, some e) => throw e
    | (results, none) => return results.map (·.exports)
  | some logs =>
    match ← openLogs (m := m) logs with
    | .error fault => throw (.openLogs logs.eventLogPath fault)
    | .ok _ =>
      let (results, fault) := analyzeUnits run.options true units
      let written ← writeLogs (m := m) logs (results.flatMap (·.trace))
      match fault, written with
      | some e, _ => throw e
      | none, .error fault => throw (.writeLogs fault)
      | none, .ok _ => return results.map (·.exports)

/-- Load and analyze tree dumps into one manifest. -/
def analyzeInputs (run : RunSettings) (inputs : List String) :
    ExceptT CommandError m Manifest := do
  let units ← inputs.mapM loadUnit
  let exports ← analyzeLoaded run units
  let generatedAt ← Host.now (m := m) .manifest
  return ((IndexedManifest.ofManifest { generatedAt }).addAll exports).manifest

/-- Warn of every diagnostic of a manifest and count them. -/
def reportDiagnostics (log : RunLog) (manifest : Manifest) : m Nat := do
  for (file, d) in manifest.diagnostics do
    log.send .warn (shownDiagnostic file d)
  return manifest.diagnostics.length

end ScriptExport
