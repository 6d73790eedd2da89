import ScriptExport.Analysis.State

/-!
# Callbacks and containers

Type aliases are exported as callbacks (converters of a function type) or as containers. A container
without an alias attribute is known by its instantiation, gets a generated name and is exported once;
one with an alias is a named view of the instantiation, and there may be several of those.
-/

namespace ScriptExport.Analysis

/-- Report a problem with a declaration. -/
def State.complain (h : Header) (kind : DiagnosticKind) (message : String) (s : State) : State :=
  s.report { kind, message, location := h.location }

/-- Export an alias of a function type. -/
def exportCallback (ctx : Context) (h : Header) (target : TypeRef) (directive : Directive)
    (s : State) : State :=
  match target.signature? with
  | none =>
    s.complain h .malformedAttribute
      ("callback '" ++ displayName h.name ++ "' does not alias a function type")
  | some (ret, params) =>
    (s.useTypes h (ret :: params ++ [target])).emit
      { ctx.record .typeConverter h h.name (some directive) with
        returnType := some ret.canonical.text
        parameterTypes := params.map (·.canonical.text)
        parameterNames := params.mapIdx fun i _ => "arg" ++ toString i
        valueType := some target.canonical.text }

/-- The family and element types of an aliased instantiation under a directive. A template that is no
known container is what the directive says; otherwise the template decides, and a disagreement is a
problem. -/
def containerShape (h : Header) (expected : ContainerKind) (word : String) (detected : ContainerKind)
    (elements : List TypeRef) : (ContainerKind × List TypeRef) × List Diagnostic :=
  if detected = .other then (expected.split elements, [])
  else if detected = expected then ((detected, elements), [])
  else ((detected, elements),
    [{ kind := .malformedAttribute
       message := "'" ++ displayName h.name ++ "' is annotated as " ++ word ++ " but aliases a "
         ++ detected.name ++ " container"
       location := h.location }])

/-- A script name for a container without an alias, and the state after its choice. -/
def State.uniqueContainerName (h : Header) (generated instantiation : String) (s : State) :
    String × State :=
  if generated ∈ s.containerNames then
    let fresh := s.counter.freshName s.containerNames generated
    (fresh.1, State.complain h .nameCollision
      ("generated name '" ++ generated ++ "' for " ++ instantiation
        ++ " collides with another container, using '" ++ fresh.1 ++ "'")
      { s with counter := fresh.2 })
  else (generated, s)

/-- Offer the record of a container; if it enters the result, its name is taken, and so is its
instantiation unless it has an alias. -/
def State.emitContainer (r : ExportRecord) (instantiation : Option String) (s : State) : State :=
  if s.admits r then
    let s := s.emit r
    { s with
      containers := instantiation.toList ++ s.containers
      containerNames := r.scriptName :: s.containerNames }
  else s.emit r

/-- The record of a container under the given script name. -/
def Context.containerRecord (ctx : Context) (h : Header) (directive : Directive)
    (scriptName : String) (kind : ContainerKind) (elements : List TypeRef) : ExportRecord :=
  { ctx.record .container h h.name (some directive) with
    scriptName
    container := some kind
    elementTypes := elements.map (·.canonical.text) }

/-- Export a container under the name that its directive asks for, unless the name is taken. -/
def exportView (ctx : Context) (h : Header) (directive : Directive) (name : String)
    (kind : ContainerKind) (elements : List TypeRef) (instantiation : String) (s : State) : State :=
  if name ∈ s.containerNames then
    s.complain h .nameCollision
      ("container alias '" ++ name ++ "' for " ++ instantiation ++ " is already taken, record dropped")
  else
    (s.useTypes h elements).emitContainer (ctx.containerRecord h directive name kind elements) none

/-- Export a container under a generated name, unless its instantiation was exported that way before. -/
def exportInstantiation (ctx : Context) (h : Header) (directive : Directive) (kind : ContainerKind)
    (elements : List TypeRef) (instantiation : String) (s : State) : State :=
  if instantiation ∈ s.containers then
    s.complain h .duplicateContainer
      ("container " ++ instantiation ++ " is already exported, '" ++ displayName h.name ++ "' dropped")
  else
    let named := s.uniqueContainerName h
      (Naming.containerName ctx.options.containers kind elements) instantiation
    (named.2.useTypes h elements).emitContainer
      { ctx.containerRecord h directive named.1 kind elements with qualifiedName := instantiation }
      (some instantiation)

/-- Export an alias of a template instantiation as a container of the annotated family. -/
def exportContainer (ctx : Context) (h : Header) (target : TypeRef) (directive : Directive)
    (expected : ContainerKind) (s : State) : State :=
  match target.container? ctx.options.containers with
  | none =>
    s.complain h .malformedAttribute
      (directive.kind.name ++ " container '" ++ displayName h.name
        ++ "' does not alias a template instantiation")
  | some (detected, arguments) =>
    let shape := containerShape h expected directive.kind.name detected arguments
    let s := (s.reportAll shape.2).useType h target
    match directive.scriptAlias? with
    | some name =>
      exportView ctx h directive (Text.trim name) shape.1.1 shape.1.2 target.canonical.text s
    | none => exportInstantiation ctx h directive shape.1.1 shape.1.2 target.canonical.text s

/-- Export a type alias as its directive says. -/
def exportAlias (ctx : Context) (h : Header) (target : TypeRef) (directive : Directive)
    (s : State) : State :=
  match directive.kind with
  | .callback => exportCallback ctx h target directive s
  | .vector => exportContainer ctx h target directive .vector s
  | .map => exportContainer ctx h target directive .map s
  | _ => s

end ScriptExport.Analysis
