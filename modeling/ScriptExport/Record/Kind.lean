import ScriptExport.Text.Blank
import ScriptExport.Text.LetterCase

/-!
# Kinds of records

The closed vocabularies of an export record: what it exposes, how a property may be accessed, and to
which family an operator belongs. Each has the name that manifests use for it.
-/

namespace ScriptExport

/-- What a record exposes to scripts. -/
inductive ExportKind where
  | classType
  | method
  | staticMethod
  | constructor
  | property
  | function
  | enumeration
  | constant
  | nameSpace
  | moduleScope
  | operator
  | typeConverter
  | inherit
  | container
deriving DecidableEq, Repr, Inhabited

namespace ExportKind

/-- The name written in manifests and logs. -/
def name : ExportKind → String
  | classType => "class"
  | method => "method"
  | staticMethod => "static_method"
  | constructor => "constructor"
  | property => "property"
  | function => "function"
  | enumeration => "enum"
  | constant => "constant"
  | nameSpace => "namespace"
  | moduleScope => "module"
  | operator => "operator"
  | typeConverter => "type_converter"
  | inherit => "inherit"
  | container => "container"

/-- All kinds. -/
def all : List ExportKind :=
  [classType, method, staticMethod, constructor, property, function, enumeration, constant, nameSpace,
    moduleScope, operator, typeConverter, inherit, container]

/-- The kind with the given name. -/
def ofName? (s : String) : Option ExportKind :=
  all.find? (fun k => k.name == s)

/-- Whether records of the kind carry a call signature and may be overloaded. -/
def isCallable : ExportKind → Bool
  | method | staticMethod | constructor | function | operator => true
  | _ => false

end ExportKind

/-- How scripts may access a property. -/
inductive AccessMode where
  | unset
  | readOnly
  | readWrite
  | writeOnly
deriving DecidableEq, Repr, Inhabited

namespace AccessMode

/-- The name written in manifests. -/
def name : AccessMode → String
  | unset => "none"
  | readOnly => "read_only"
  | readWrite => "read_write"
  | writeOnly => "write_only"

/-- All modes. -/
def all : List AccessMode := [unset, readOnly, readWrite, writeOnly]

/-- The mode with the given name. -/
def ofName? (s : String) : Option AccessMode :=
  all.find? (fun a => a.name == s)

/-- The mode that the value of an `access` attribute asks for; case and blanks around it do not
matter. -/
def ofAttribute? (value : String) : Option AccessMode :=
  let v := Text.asciiLower (Text.trim value)
  if v == "readonly" then some readOnly
  else if v == "readwrite" then some readWrite
  else if v == "writeonly" then some writeOnly
  else none

/-- Whether the mode lets scripts read. -/
def isReadable : AccessMode → Bool
  | readOnly | readWrite => true
  | _ => false

/-- Whether the mode lets scripts write. -/
def isWritable : AccessMode → Bool
  | writeOnly | readWrite => true
  | _ => false

/-- The mode of a data member or variable that asks for none. -/
def ofConst (isConst : Bool) : AccessMode :=
  if isConst then readOnly else readWrite

end AccessMode

/-- The dispatch family of an operator. -/
inductive OperatorClass where
  | index
  | call
  | comparison
  | unary
  | binary
  | other
deriving DecidableEq, Repr

/-- The name of an operator family. -/
def OperatorClass.name : OperatorClass → String
  | index => "index"
  | call => "call"
  | comparison => "comparison"
  | unary => "unary"
  | binary => "binary"
  | other => "other"

end ScriptExport
