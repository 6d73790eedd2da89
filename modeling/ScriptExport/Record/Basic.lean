import ScriptExport.Directive.Attribute
import ScriptExport.Naming

/-!
# Export records

One record describes one element that scripts can use. Two records with the same identity describe the
same element; two members of a class with the same member key compete for the same place on it.
-/

namespace ScriptExport

/-- An enumerator with its value. -/
structure Enumerator where
  name : String
  value : Int64
deriving DecidableEq, Repr

/-- The description of one element that scripts can use. -/
structure ExportRecord where
  kind : ExportKind
  name : String
  scriptName : String
  qualifiedName : String
  location : Option Location := none
  filePath : String := ""
  attributes : Attributes := {}
  returnType : Option String := none
  parameterTypes : List String := []
  parameterNames : List String := []
  access : AccessMode := .unset
  isStatic : Bool := false
  isConst : Bool := false
  isVirtual : Bool := false
  baseTypes : List String := []
  ownerType : String := ""
  namespaceName : String := ""
  moduleName : String := ""
  /-- The accessors and the value type of a property. -/
  getter : Option String := none
  setter : Option String := none
  valueType : Option String := none
  enumerators : List Enumerator := []
  /-- The value of a constant, or its initializer as written if that is no integer expression. -/
  value : Option String := none
  container : Option ContainerKind := none
  elementTypes : List String := []
deriving DecidableEq

/-- What tells two elements apart. -/
structure Identity where
  kind : ExportKind
  qualifiedName : String
  parameterTypes : List String
  isConst : Bool
deriving DecidableEq, Repr

namespace ExportRecord

/-- A record is of use only if its name and its qualified name are not blank. -/
def isValid (r : ExportRecord) : Bool :=
  !Text.isBlankText r.name && !Text.isBlankText r.qualifiedName

/-- A record is valid if neither of its names is blank. -/
theorem isValid_iff {r : ExportRecord} : r.isValid = true ↔
    Text.isBlankText r.name = false ∧ Text.isBlankText r.qualifiedName = false := by
  simp [isValid]

/-- What tells the record from the records of other elements. -/
def identity (r : ExportRecord) : Identity :=
  ⟨r.kind, r.qualifiedName, r.parameterTypes, r.isConst⟩

/-- The name with its signature, by which members of a class are compared. -/
def memberKey (r : ExportRecord) : String :=
  r.name ++ "(" ++ Text.join "," r.parameterTypes ++ ")" ++ (if r.isConst then " const" else "")

/-- The value of an attribute. -/
def attribute? (r : ExportRecord) (key : String) : Option String :=
  r.attributes.get? key

/-- The token of an operator, the whole name where there is none. -/
def operatorText (r : ExportRecord) : String :=
  Text.trim (((Text.after? "operator".toList r.name.toList).map String.ofList).getD r.name)

/-- How many operands an operator takes. A member operator has its object as the first one. -/
def operandCount (r : ExportRecord) : Nat :=
  r.parameterTypes.length + (if !r.ownerType.isEmpty && !r.isStatic then 1 else 0)

/-- The family of an operator record by its token and the number of its operands. -/
def operatorClass? (r : ExportRecord) : Option OperatorClass :=
  if r.kind ≠ .operator then none
  else
    let token := r.operatorText
    if token == "[]" then some .index
    else if token == "()" then some .call
    else if ["==", "!=", "<", "<=", ">", ">=", "<=>"].contains token then some .comparison
    else if ["+", "-", "*", "/", "%", "&", "|", "^", "<<", ">>", "&&", "||"].contains token then
      match r.operandCount with
      | 1 => some .unary
      | 2 => some .binary
      | _ => some .other
    else if ["!", "~", "++", "--"].contains token then some .unary
    else some .other

end ExportRecord

end ScriptExport
