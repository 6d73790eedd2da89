import ScriptExport.Analysis.State
import ScriptExport.Constant.Evaluate

/-!
# Constants, variables and enums

Initializers are evaluated as integer constant expressions over the constants that were evaluated
before. A constant whose initializer is no such expression keeps its text; an enumerator then takes the
successor of the one before it.
-/

namespace ScriptExport.Analysis

/-- An initializer that is present and not blank, without the blanks around it. -/
def initializer? (init : Option String) : Option String :=
  init.bind Text.trimmed?

/-- What the initializer of a constant gives. -/
inductive ConstantValue where
  | absent
  | value (v : Int64)
  /-- The text of an initializer that is no integer expression. -/
  | verbatim (text : String)
deriving DecidableEq, Repr

/-- Evaluate the initializer of a constant. -/
def ConstantValue.ofInit (constants : OrderedMap String Int64) (init : Option String) :
    ConstantValue :=
  match initializer? init with
  | none => .absent
  | some text =>
    match Constant.evaluate constants.get? text with
    | .ok v => .value v
    | .error _ => .verbatim text

/-- The value as a record shows it. -/
def ConstantValue.text? : ConstantValue → Option String
  | absent => none
  | value v => some (Constant.decimal v)
  | verbatim text => some text

/-- The record of a constant. -/
def Context.constantRecord (ctx : Context) (h : Header) (t : TypeRef) (v : ConstantValue)
    (directive : Option Directive) : ExportRecord :=
  { ctx.record .constant h h.name directive with
    valueType := some t.canonical.text
    isConst := true
    value := v.text? }

/-- Put a constant under its simple and its qualified name, if it has a value. -/
def ConstantValue.bind (v : ConstantValue) (name qualifiedName : String)
    (constants : OrderedMap String Int64) : OrderedMap String Int64 :=
  match v with
  | value v => (constants.insert name v).insert qualifiedName v
  | _ => constants

/-- Remember a constant. -/
def State.bindConstant (name qualifiedName : String) (v : ConstantValue) (s : State) : State :=
  { s with constants := v.bind name qualifiedName s.constants }

/-- The access that the directive asks for, or the natural one of a constant or variable. -/
def variableAccess (directive : Option Directive) (isConst : Bool) : AccessMode :=
  (directive.bind (·.access?)).getD (AccessMode.ofConst isConst)

/-- The record of a variable or data member that scripts see as a property. -/
def Context.variableRecord (ctx : Context) (h : Header) (t : TypeRef) (isStatic isConst : Bool)
    (directive : Option Directive) : ExportRecord :=
  { ctx.record .property h h.name directive with
    valueType := some t.canonical.text
    access := variableAccess directive isConst
    isStatic
    isConst }

/-- Export a variable outside of a record as a constant or as a property. -/
def exportVariable (ctx : Context) (h : Header) (v : Variable) (directive : Directive) (s : State) :
    State :=
  let s := s.useType h v.type
  if directive.kind = .constant then
    let value := ConstantValue.ofInit s.constants v.init
    let r := ctx.constantRecord h v.type value (some directive)
    (s.bindConstant h.name r.qualifiedName value).emit r
  else s.emit (ctx.variableRecord h v.type false v.isConst (some directive))

/-- The enumerators evaluated so far. -/
structure EnumProgress where
  enumerators : List Enumerator := []
  /-- The values by name; of equal names the latest counts. -/
  values : OrderedMap String Int64 := {}
  /-- The value of an enumerator without an initializer. -/
  next : Int64 := 0
  diagnostics : List Diagnostic := []

/-- The diagnostic of an enumerator that could not be evaluated. -/
def enumEvaluation (h : Header) (name expr : String) (e : Constant.EvalError) (next : Int64) :
    Diagnostic :=
  { kind := .enumEvaluation
    message := "enumerator " ++ displayName h.name ++ "::" ++ name ++ " = '" ++ expr
      ++ "' could not be evaluated (" ++ e.message ++ "), using " ++ Constant.decimal next
    location := h.location }

namespace EnumProgress

/-- What an initializer sees: the enumerators before it, and behind them the earlier constants. -/
def lookup (p : EnumProgress) (constants : OrderedMap String Int64) (name : String) : Option Int64 :=
  (p.values.get? name).or (constants.get? name)

/-- The value of the next enumerator and the problem with it. -/
def valueOf (h : Header) (constants : OrderedMap String Int64) (p : EnumProgress) (c : EnumConstant) :
    Int64 × List Diagnostic :=
  match initializer? c.init with
  | none => (p.next, [])
  | some expr =>
    match Constant.evaluate (p.lookup constants) expr with
    | .ok v => (v, [])
    | .error e => (p.next, [enumEvaluation h c.name expr e p.next])

/-- Take one enumerator. -/
def take (h : Header) (constants : OrderedMap String Int64) (p : EnumProgress) (c : EnumConstant) :
    EnumProgress :=
  let (v, problems) := p.valueOf h constants c
  { enumerators := p.enumerators ++ [⟨c.name, v⟩]
    values := p.values.insert c.name v
    next := Constant.successor v
    diagnostics := p.diagnostics ++ problems }

end EnumProgress

/-- Evaluate all enumerators of an enum. -/
def evaluateEnum (h : Header) (constants : OrderedMap String Int64) (cs : List EnumConstant) :
    EnumProgress :=
  cs.foldl (EnumProgress.take h constants) {}

/-- Remember the enumerators of an enum: behind its qualified name, and bare if it is unscoped. -/
def bindEnumerators (qualifiedName : String) (isScoped : Bool) (es : List Enumerator)
    (constants : OrderedMap String Int64) : OrderedMap String Int64 :=
  es.foldl
    (fun m e =>
      let m := m.insert (qualifiedName ++ "::" ++ e.name) e.value
      if isScoped then m else m.insert e.name e.value)
    constants

/-- Export an enum. Its enumerators are remembered even if the record collapses. -/
def exportEnum (ctx : Context) (h : Header) (e : Enumeration) (directive : Directive) (s : State) :
    State :=
  let progress := evaluateEnum h s.constants e.enumerators
  let r :=
    { ctx.record .enumeration h h.name (some directive) with enumerators := progress.enumerators }
  let s := s.reportAll progress.diagnostics
  let s :=
    { s with constants := bindEnumerators r.qualifiedName e.isScoped progress.enumerators s.constants }
  s.emit r

end ScriptExport.Analysis
