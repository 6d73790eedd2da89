import ScriptExport.Host.Basic

/-!
# The run log

Messages go to the error output and, with the time, to a log of the run. A message that only explains
is shown when the run is verbose; the log gets all of them. A log that cannot be written is left out.
-/

namespace ScriptExport

/-- Where messages go. -/
structure RunLog where
  verbosity : Nat := 0
  path : Option String := none
deriving DecidableEq, Repr

/-- The weight of a message. -/
inductive Level where
  | info
  | debug
  | warn
  | error
  | success
deriving DecidableEq, Repr

namespace Level

/-- The name in the log. -/
def label : Level → String
  | info => "INFO"
  | debug => "DEBUG"
  | warn => "WARN"
  | error => "ERROR"
  | success => "SUCCESS"

/-- The message as the error output shows it. -/
def shown (message : String) : Level → String
  | info => message
  | debug => "DEBUG: " ++ message
  | warn => "warning: " ++ message
  | error => "error: " ++ message
  | success => "✔ " ++ message

/-- Whether the message is shown at a verbosity. -/
def isShown (verbosity : Nat) : Level → Bool
  | info => 1 ≤ verbosity
  | debug => 1 ≤ verbosity
  | _ => true

end Level

namespace RunLog

/-- The name of the run log in its directory. -/
def fileName : String := "luaexport.log"

/-- The least severe messages that a verbosity traces. -/
def traceFilter (log : RunLog) : String :=
  match log.verbosity with
  | 0 => "warn"
  | 1 => "debug"
  | _ => "trace"

variable {m : Type → Type} [Monad m] [Host m]

/-- Start a log at a path; there is one log for each run, so an earlier one goes. -/
def start (verbosity : Nat) (path : String) : m RunLog := do
  if ← Host.exists? path then
    let _ ← Host.remove path
  return { verbosity, path := some path }

/-- Send a message. -/
def send (log : RunLog) (level : Level) (message : String) : m Unit := do
  if let some path := log.path then
    let time ← Host.now (m := m) .runLog
    let _ ← Host.append path ("[" ++ time ++ "] " ++ level.label ++ " " ++ message ++ "\n")
  if level.isShown log.verbosity then
    Host.warnLine (level.shown message)

end RunLog

end ScriptExport
