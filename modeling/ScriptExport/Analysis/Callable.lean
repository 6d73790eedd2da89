import ScriptExport.Analysis.State

/-!
# Records of functions and methods

One record for each callable declaration; overloads stay separate records.
-/

namespace ScriptExport

/-- The parameter names; a parameter without one is called `arg` and its position. -/
def parameterNames (params : List Param) : List String :=
  params.mapIdx fun i p => (Text.trimmed? p.name).getD ("arg" ++ toString i)

namespace Analysis

/-- The types that the record of a callable shows, in order. A constructor has no return type. -/
def callableTypes (kind : ExportKind) (c : Callable) : List TypeRef :=
  (if kind = .constructor then [] else [c.returnType]) ++ c.params.map (·.type)

/-- The record of a callable. -/
def Context.callableRecord (ctx : Context) (kind : ExportKind) (h : Header) (c : Callable)
    (directive : Option Directive) : ExportRecord :=
  { ctx.record kind h h.name directive with
    returnType := if kind = .constructor then none else some c.returnType.canonical.text
    parameterTypes := c.params.map (·.type.canonical.text)
    parameterNames := parameterNames c.params
    isStatic := c.isStatic
    isConst := c.isConst
    isVirtual := c.isVirtual || c.isPure }

/-- Export a function. An annotated operator becomes an operator without an owner. -/
def exportFunction (ctx : Context) (h : Header) (c : Callable) (directive : Directive) (s : State) :
    State :=
  if c.isDeleted then s.skip (.function h c) .deleted
  else
    let kind := if directive.kind = .operator then .operator else .function
    (s.useTypes h (callableTypes kind c)).emit (ctx.callableRecord kind h c (some directive))

end Analysis

end ScriptExport
