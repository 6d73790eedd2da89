import ScriptExport.Command.Arguments
import ScriptExport.Command.Pipeline

/-!
# The commands

`analyze` writes a manifest, `check` shows what it would hold, and `config` shows and changes the
settings. `runProgram` reads the arguments, starts the run log beside the settings file and runs the
command; its result is the exit status.
-/

namespace ScriptExport

variable {m : Type → Type} [Monad m] [Host m]

/-- Turn a result into an exception. -/
def orThrow {ε α : Type} (wrap : ε → CommandError) (action : m (Except ε α)) :
    ExceptT CommandError m α := do
  match ← action with
  | .error e => throw (wrap e)
  | .ok a => return a

/-- Analyze inputs and write their manifest. Nothing is written if anything fails, diagnostics in strict
mode included. -/
def runAnalyze (log : RunLog) (talk : Talk) (args : AnalyzeArgs) : ExceptT CommandError m Unit := do
  let settings ← orThrow .settings (loadSettings (← settingsPath (m := m)))
  let run := RunSettings.ofSettings settings args.diagnostics
  let run := { run with options.marker := args.marker.getD run.options.marker }
  let inputs ← collectInputs args.inputs
  let fresh ← analyzeInputs run inputs
  let diagnostics ← reportDiagnostics (m := m) log fresh
  let merging ← if args.merge then Host.exists? (m := m) args.out else pure false
  let manifest ←
    if merging then do
      let earlier ← orThrow (.readManifest args.out) (loadIndexed args.out)
      pure (earlier.merge (.ofManifest fresh)).manifest
    else pure fresh
  if args.strict && 0 < diagnostics then throw (.strict diagnostics)
  else do
    orThrow .writeManifest (saveManifest manifest args.out)
    if !talk.quiet then
      log.send (m := m) .success
        (toString fresh.recordCount ++ " records from " ++ toString fresh.units.length
          ++ " units written to " ++ args.out)

/-- The lines that sum up a manifest. -/
def summary (verbosity : Nat) (manifest : Manifest) : List String :=
  (manifest.units.flatMap fun u =>
    (u.filePath ++ " " ++ toString u.records.length ++ " records, " ++ toString u.diagnostics.length
      ++ " diagnostics")
    :: (if 0 < verbosity then u.records.map fun r => "  " ++ r.kind.name ++ " " ++ r.qualifiedName
      else []))
  ++ ["Total: " ++ toString manifest.recordCount ++ " records, "
    ++ toString (manifest.overloadSets.countP (·.isOverloaded)) ++ " overloaded names, "
    ++ toString manifest.diagnosticCount ++ " diagnostics"]

/-- Analyze inputs and show the result. -/
def runCheck (log : RunLog) (talk : Talk) (args : CheckArgs) : ExceptT CommandError m Unit := do
  let settings ← orThrow .settings (loadSettings (← settingsPath (m := m)))
  let inputs ← collectInputs args.inputs
  let manifest ← analyzeInputs (RunSettings.ofSettings settings false) inputs
  let diagnostics ← reportDiagnostics (m := m) log manifest
  if args.json then Host.printLine (m := m) (manifest.render .json)
  else
    for line in summary talk.verbosity manifest do
      Host.printLine (m := m) line
  if args.strict && 0 < diagnostics then throw (.strict diagnostics)

/-- Show or change the settings. -/
def runSettings (log : RunLog) (talk : Talk) (action : SettingsAction) :
    ExceptT CommandError m Unit := do
  let path ← settingsPath (m := m)
  match action with
  | .showAll =>
    let settings ← orThrow .settings (loadSettings path)
    Host.printLine (m := m) "Configuration:"
    if 0 < talk.verbosity then Host.printLine (m := m) ("  file: " ++ path)
    for (key, value) in settings.shown do
      Host.printLine (m := m) ("  " ++ key ++ ": " ++ value)
  | .get key =>
    let settings ← orThrow .settings (loadSettings path)
    match settings.getNamed? key with
    | none => throw (.settings (.setting (.unknownKey key)))
    | some value => Host.printLine (m := m) value
  | .set key value =>
    let settings ← orThrow .settings (loadSettings path)
    match settings.setNamed key value with
    | .error fault => throw (.settings (.setting fault))
    | .ok settings =>
      orThrow .settings (saveSettings settings path)
      log.send (m := m) .success ("Set " ++ key ++ " = " ++ value)
  | .path =>
    log.send (m := m) .debug ("Reading config from: " ++ path)
    Host.printLine (m := m) path

/-- Start the run log in the directory of the settings file. If that path has no directory, the log goes
below the home directory. -/
def startRunLog (talk : Talk) : m RunLog := do
  match Path.parent? (← settingsPath) with
  | some directory => RunLog.start talk.verbosity (Path.join directory RunLog.fileName)
  | none =>
    match ← homeSettingsDirectory? with
    | none =>
      Host.warnLine "Warning: Failed to initialize logger: Could not determine home directory"
      return { verbosity := talk.verbosity }
    | some directory =>
      match ← Host.makeDirectories directory with
      | .ok _ => RunLog.start talk.verbosity (Path.join directory RunLog.fileName)
      | .error fault =>
        Host.warnLine ("Warning: Failed to initialize logger: Failed to create config directory: "
          ++ fault.message)
        return { verbosity := talk.verbosity }

/-- Run a command. -/
def runCommand (log : RunLog) (talk : Talk) : Command → ExceptT CommandError m Unit
  | .analyze args => runAnalyze log talk args
  | .check args => runCheck log talk args
  | .settings action => runSettings log talk action

/-- The lines that say how the program is used. -/
def usageLines : List String :=
  ["Usage: luaexport [OPTIONS] <COMMAND>", "", "Commands:",
    "  analyze  Analyze tree dumps and write the export manifest",
    "  check    Analyze tree dumps and report without writing anything",
    "  config   Configure luaexport"]

/-- Run the program with its arguments; the result is the exit status. -/
def runProgram (arguments : List String) : m UInt32 := do
  match readArguments arguments with
  | .error .version =>
    Host.printLine "luaexport 0.1.0"
    return 0
  | .error .help =>
    usageLines.forM Host.printLine
    return 0
  | .error .usage =>
    usageLines.forM Host.warnLine
    return 2
  | .ok (talk, command) =>
    let log ← startRunLog talk
    if let some path := log.path then
      log.send .info ("Run log: " ++ path)
    match ← (runCommand log talk command).run with
    | .ok _ => return 0
    | .error e =>
      log.send .error e.message
      return 1

end ScriptExport
