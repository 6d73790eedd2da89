import ScriptExport.Source.Decl

/-!
# Export kinds

The fixed vocabulary of export annotations and which declarations each of its words can describe.
-/

namespace ScriptExport

/-- What a directive asks to export a declaration as. -/
inductive DirectiveKind where
  | classType
  | function
  | enumeration
  | constant
  | var
  | nameSpace
  | moduleScope
  | staticClass
  | singleton
  | abstractClass
  | operator
  | callback
  | property
  | vector
  | map
deriving DecidableEq, Repr

namespace DirectiveKind

/-- The word for the kind. -/
def name : DirectiveKind → String
  | classType => "class"
  | function => "function"
  | enumeration => "enum"
  | constant => "constant"
  | var => "variable"
  | nameSpace => "namespace"
  | moduleScope => "module"
  | staticClass => "static_class"
  | singleton => "singleton"
  | abstractClass => "abstract_class"
  | operator => "operator"
  | callback => "callback"
  | property => "property"
  | vector => "vector"
  | map => "map"

/-- The whole vocabulary. -/
def all : List DirectiveKind :=
  [classType, function, enumeration, constant, var, nameSpace, moduleScope, staticClass, singleton,
    abstractClass, operator, callback, property, vector, map]

/-- The kind that a word stands for. -/
def ofName? (s : String) : Option DirectiveKind :=
  all.find? (fun k => k.name == s)

/-- Whether the kind describes a record as a type. -/
def isClass : DirectiveKind → Bool
  | classType | staticClass | singleton | abstractClass => true
  | _ => false

/-- Whether the kind can describe the declaration. -/
def appliesTo (kind : DirectiveKind) (d : Decl) : Bool :=
  match kind with
  | classType | staticClass | singleton | abstractClass =>
    match d with
    | .record .. => true
    | _ => false
  | function =>
    match d with
    | .function .. | .method .. | .constructor .. => true
    | _ => false
  | operator =>
    match d with
    | .function h _ | .method h _ => Text.startsWith "operator" h.name
    | _ => false
  | enumeration =>
    match d with
    | .enumeration .. => true
    | _ => false
  | constant =>
    match d with
    | .var .. => true
    | .field _ f => f.isStatic && f.isConst
    | _ => false
  | var =>
    match d with
    | .var .. | .field .. => true
    | _ => false
  | property =>
    match d with
    | .method .. | .field .. => true
    | _ => false
  | nameSpace | moduleScope =>
    match d with
    | .nameSpace .. => true
    | _ => false
  | callback | vector | map =>
    match d with
    | .typeAlias .. => true
    | _ => false

end DirectiveKind

end ScriptExport
