import ScriptExport.Analysis.Counter
import ScriptExport.Analysis.TypeIndex
import ScriptExport.Record.Basic
import ScriptExport.Trace.Event

/-!
# The state of an analysis

What an analysis has found so far. Records and diagnostics are only ever appended. `emit` is the one
way into the records: it drops a record without a usable name with a diagnostic, and lets a record
whose identity is there already collapse silently. A state keeps a trace only if it was started with
one.
-/

namespace ScriptExport.Analysis

/-- What an analysis has found so far. -/
structure State where
  records : Array ExportRecord := #[]
  diagnostics : Array Diagnostic := #[]
  /-- The identities of the records. -/
  identities : List Identity := []
  /-- The canonical types of the containers that were exported without an alias. -/
  containers : List String := []
  /-- The script names that containers have taken. -/
  containerNames : List String := []
  /-- The constants evaluated so far, by simple and by qualified name. -/
  constants : OrderedMap String Int64 := {}
  /-- The numbers that tell generated container names apart: `IntVector`, `IntVector2`, … -/
  counter : Counter := ⟨2⟩
  /-- What happened, if anyone wants to know. -/
  trace : Option (Array TraceStep) := none

namespace State

/-- Add a step to the trace. -/
def note (step : TraceStep) (s : State) : State :=
  { s with trace := s.trace.map (·.push step) }

/-- Add an event to the trace. -/
def log (e : Event) (s : State) : State :=
  s.note (.event e)

/-- Record a problem. -/
def report (d : Diagnostic) (s : State) : State :=
  let s := s.log (.diagnosed d.kind.label d.message)
  { s with diagnostics := s.diagnostics.push d }

/-- Record problems in order. -/
def reportAll (ds : List Diagnostic) (s : State) : State :=
  ds.foldl (fun s d => s.report d) s

/-- Note that a declaration contributes nothing. -/
def skip (d : Decl) (reason : SkipReason) (s : State) : State :=
  s.log (.skipped d.name reason.name)

/-- The diagnostic of a record that has no usable name. -/
def invalidRecord (r : ExportRecord) : Diagnostic :=
  { kind := .invalidRecord
    message := r.kind.name ++ " '" ++ displayName r.name
      ++ "' has no resolvable qualified name and was dropped"
    location := r.location }

/-- Whether a record would enter the result. -/
def admits (s : State) (r : ExportRecord) : Bool :=
  r.isValid && r.identity ∉ s.identities

/-- Take a record into the result. -/
def push (r : ExportRecord) (s : State) : State :=
  let s := s.log (.emitted r.kind.name r.qualifiedName)
  { s with records := s.records.push r, identities := r.identity :: s.identities }

/-- Offer a record to the result. -/
def emit (r : ExportRecord) (s : State) : State :=
  if !r.isValid then s.report (invalidRecord r)
  else if r.identity ∈ s.identities then s
  else s.push r

/-- The diagnostic of a type that could not be resolved. -/
def unresolvedType (h : Header) (text : String) : Diagnostic :=
  { kind := .unresolvedType
    message := "type used by '" ++ displayName h.name ++ "' could not be resolved, using '" ++ text
      ++ "'"
    location := h.location }

/-- Note that a declaration uses a type, and report the type if it could not be resolved. -/
def useType (h : Header) (t : TypeRef) (s : State) : State :=
  let rendered := t.canonical
  let s := if rendered.resolved then s else s.report (unresolvedType h rendered.text)
  s.note (.typeSeen rendered.text)

/-- Note that a declaration uses types, in order. -/
def useTypes (h : Header) (ts : List TypeRef) (s : State) : State :=
  ts.foldl (fun s t => s.useType h t) s

end State

/-- What stays the same while a scope is walked. -/
structure Context where
  filePath : String
  options : Options
  index : TypeIndex
  scopes : Scopes := []

namespace Context

/-- The context inside a scope. -/
def enter (ctx : Context) (name : String) (kind : ScopeKind) (placement : Option String)
    (exported : Bool) : Context :=
  { ctx with scopes := ctx.scopes.enter name kind placement exported }

/-- A record in the current scope, with the alias, the attributes and the namespace that the directive
asks for. -/
def record (ctx : Context) (kind : ExportKind) (h : Header) (name : String)
    (directive : Option Directive) : ExportRecord :=
  { kind
    name
    scriptName := Naming.scriptName name (directive.bind (·.scriptAlias?))
    qualifiedName := ctx.scopes.qualifiedName name
    location := h.location
    filePath := ctx.filePath
    attributes := (directive.map (·.attributes)).getD {}
    ownerType := ctx.scopes.owner?.getD ""
    namespaceName := ctx.scopes.namespaceFor directive
    moduleName := ctx.scopes.moduleName }

end Context

/-- The diagnostics of what is wrong with the annotations of a declaration. -/
def issueDiagnostics (h : Header) (issues : List DirectiveIssue) : List Diagnostic :=
  issues.map fun issue =>
    { kind := issue.kind
      message := issue.message ++ " on '" ++ displayName h.name ++ "'"
      location := h.location }

/-- The diagnostic of a directive whose kind cannot describe its declaration. -/
def inapplicable (kind : DirectiveKind) (d : Decl) : Diagnostic :=
  { kind := .malformedAttribute
    message := "export kind '" ++ kind.name ++ "' does not apply to " ++ d.kindText ++ " '"
      ++ displayName d.name ++ "'"
    location := d.location }

end ScriptExport.Analysis
