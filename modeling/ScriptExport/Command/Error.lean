import ScriptExport.Analysis.Structure
import ScriptExport.Host.FileTree
import ScriptExport.Manifest.Codec
import ScriptExport.Settings.Basic

/-!
# Errors of commands

Why a command failed. The message of an error lists its causes from the outermost to the innermost;
an error that quotes its cause is followed by the cause again.
-/

namespace ScriptExport

/-- Why settings are of no use. -/
inductive SettingsError where
  | file (path : String) (fault : FileFault)
  | malformed (path : String)
  | setting (fault : SettingFault)
deriving DecidableEq, Repr

/-- The error in words. -/
def SettingsError.message : SettingsError → String
  | file path fault => path ++ ": " ++ fault.message
  | malformed path => "Invalid configuration in " ++ path ++ ": not a settings file"
  | setting fault => fault.message

/-- Why a manifest cannot be read or written. -/
inductive ManifestError where
  | file (fault : FileFault)
  | malformed (format : ManifestFormat)
deriving DecidableEq, Repr

/-- The causes of the error, outermost first. -/
def ManifestError.causes : ManifestError → List String
  | file fault => ["IO error: " ++ fault.message, fault.message]
  | malformed .json => ["Failed to parse manifest JSON: not a manifest", "not a manifest"]
  | malformed .toml => ["Failed to parse manifest TOML: not a manifest", "not a manifest"]

/-- Why a tree dump cannot be loaded. -/
inductive DumpError where
  | file (fault : FileFault)
  | malformed
deriving DecidableEq, Repr

/-- The causes of the error, outermost first. -/
def DumpError.causes : DumpError → List String
  | file fault => ["IO error: " ++ fault.message, fault.message]
  | malformed => ["Invalid tree dump: not a translation unit", "not a translation unit"]

/-- Why a command failed. -/
inductive CommandError where
  | settings (e : SettingsError)
  | missingInput (path : String)
  | noInputs (paths : List String)
  | loadDump (path : String) (e : DumpError)
  | analysis (path : String) (e : AnalysisError)
  | openLogs (path : String) (fault : FileFault)
  | writeLogs (fault : FileFault)
  | readManifest (path : String) (e : ManifestError)
  | writeManifest (e : ManifestError)
  | strict (count : Nat)
deriving DecidableEq, Repr

namespace CommandError

/-- The causes of the error, outermost first. -/
def causes : CommandError → List String
  | settings e => ["Configuration error: " ++ e.message, e.message]
  | missingInput path => ["Input path does not exist: " ++ path]
  | noInputs paths => ["No tree dumps (*.json) found under: " ++ Text.join ", " paths]
  | loadDump path e => ("Failed to load tree dump " ++ path) :: e.causes
  | analysis path e => ["Failed to analyze " ++ path ++ ": " ++ e.message, e.message]
  | openLogs path fault => ["Failed to open diagnostics logs " ++ path, fault.message]
  | writeLogs fault => ["Diagnostics log error: " ++ fault.message, fault.message]
  | readManifest path e => ("Failed to read " ++ path) :: e.causes
  | writeManifest e => ("Manifest error: " ++ e.causes.headD "") :: e.causes
  | strict count => [toString count ++ " diagnostic(s) reported in strict mode"]

/-- The error in words. -/
def message (e : CommandError) : String :=
  Text.join ": " e.causes

end CommandError

end ScriptExport
