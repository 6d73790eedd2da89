import ScriptExport.Directive.Parse

/-!
# Scopes

The namespaces and records around a declaration, innermost first. They give a declaration its
qualified name, its owner, its script namespace and its module.
-/

namespace ScriptExport

/-- What a scope is. -/
inductive ScopeKind where
  | nameSpace
  | moduleScope
  | record
deriving DecidableEq, Repr

/-- One enclosing scope. -/
structure Scope where
  /-- The trimmed name, or `(anonymous)`. -/
  name : String
  qualifiedName : String
  kind : ScopeKind
  /-- The script namespace of the contents, where this scope decides it: the script name of an exported
  namespace or module, or the `namespace` attribute of an exported class. -/
  placement : Option String := none
  exported : Bool := false
deriving DecidableEq, Repr

/-- The name of a scope on a scope path. -/
def scopeName (name : String) : String :=
  (Text.trimmed? name).getD anonymousName

/-- The scopes around a declaration, innermost first. -/
abbrev Scopes := List Scope

/-- A name after the path of its scope. -/
def qualify (path : List String) (name : String) : String :=
  Text.join "::" (path ++ [name])

namespace Scopes

/-- A name behind the qualified name of the innermost scope. -/
def within (scopes : Scopes) (name : String) : String :=
  match scopes with
  | [] => name
  | s :: _ => s.qualifiedName ++ "::" ++ name

/-- The qualified name of a declaration in these scopes; empty if the name is blank. -/
def qualifiedName (scopes : Scopes) (name : String) : String :=
  match Text.trimmed? name with
  | some name => scopes.within name
  | none => ""

/-- Enter a scope. -/
def enter (scopes : Scopes) (name : String) (kind : ScopeKind) (placement : Option String)
    (exported : Bool) : Scopes :=
  { name := scopeName name, qualifiedName := scopes.within (scopeName name), kind, placement,
    exported } :: scopes

/-- The names of the scopes, outermost first. -/
def path (scopes : Scopes) : List String :=
  (scopes.map (·.name)).reverse

/-- Whether some scope is exported. -/
def inExport (scopes : Scopes) : Bool :=
  scopes.any (·.exported)

/-- The qualified name of the innermost record. -/
def owner? (scopes : Scopes) : Option String :=
  (scopes.find? (fun s => s.kind == .record)).map (·.qualifiedName)

/-- The script namespace: what the directive asks for, else the placement of the nearest scope that
has one, else the global one. -/
def namespaceFor (scopes : Scopes) (directive : Option Directive) : String :=
  ((directive.bind (·.scriptNamespace?)) <|> scopes.findSome? (·.placement)).getD ""

/-- The script name of the nearest module. -/
def moduleName (scopes : Scopes) : String :=
  (scopes.findSome? fun s => if s.kind == .moduleScope then s.placement else none).getD ""

end Scopes

end ScriptExport
