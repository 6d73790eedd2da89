import ScriptExport.Source.TypeRef
import ScriptExport.Text.LetterCase

/-!
# Script-side names

How names on the script side are derived: the friendly name of a type from which container names are
generated, the logical property name behind an accessor, the default name of a declaration and the
token of an operator.
-/

namespace ScriptExport.Naming

/-- The ASCII words of a text, each capitalized, without anything between them. -/
def capitalizedWords (cs : List Char) : List Char :=
  (Text.segments (fun c => !Text.isAsciiAlnum c) cs).flatMap Text.capitalizeChars

/-- A script identifier made of the capitalized words of a spelled type name. -/
def friendlyWordsChars (cs : List Char) : List Char :=
  match capitalizedWords cs with
  | [] => ['U', 'n', 'k', 'n', 'o', 'w', 'n']
  | c :: rest => if c.isDigit then 'T' :: c :: rest else c :: rest

/-- A script identifier made of the capitalized words of a spelled type name: `std::string` gives
`StdString`, a leading digit gets a `T` before it, and a text without words gives `Unknown`. -/
def friendlyWords (text : String) : String :=
  String.ofList (friendlyWordsChars text.toList)

mutual

/-- The friendly name of a type; a nested container has its generated name. -/
def friendlyName (rules : ContainerRules) : TypeRef → String
  | .const t => friendlyName rules t
  | .lvalueRef t => friendlyName rules t
  | .rvalueRef t => friendlyName rules t
  | .pointer t => friendlyName rules t ++ "Ptr"
  | .template name args =>
    let names := friendlyNames rules args
    match ((rules.classify name).getD .other).split names with
    | (.other, names) => friendlyWords name ++ String.join names
    | (kind, names) => String.join names ++ kind.suffix
  | .function ret params =>
    friendlyName rules ret ++ String.join (friendlyNames rules params) ++ "Function"
  | t => friendlyWords t.canonical.text

/-- The friendly names of a list of types. -/
def friendlyNames (rules : ContainerRules) : List TypeRef → List String
  | [] => []
  | t :: ts => friendlyName rules t :: friendlyNames rules ts

end

@[simp] theorem friendlyNames_eq_map (rules : ContainerRules) (ts : List TypeRef) :
    friendlyNames rules ts = ts.map (friendlyName rules) := by
  induction ts with
  | nil => rfl
  | cons t ts ih => simp [friendlyNames, ih]

/-- The generated script name of a container: the friendly names of its elements and its family. -/
def containerName (rules : ContainerRules) (kind : ContainerKind) (elements : List TypeRef) : String :=
  String.join (elements.map (friendlyName rules)) ++ kind.suffix

/-- Whether an accessor reads or writes its property. -/
inductive Role where
  | getter
  | setter
deriving DecidableEq, Repr

/-- The property name behind an accessor name whose head has been taken off: the head must be followed
by a capital letter or `_`, so that `settle` is no accessor. -/
def logicalName? : List Char → Option (List Char)
  | [] => none
  | c :: cs =>
    if c.isUpper || c == '_' then
      match (c :: cs).dropWhile (· == '_') with
      | [] => none
      | d :: ds => some (Text.uncapitalizeChars (d :: ds))
    else none

/-- The heads of accessor names. -/
def accessorHeads : List (String × Role) :=
  [("get", .getter), ("is", .getter), ("set", .setter)]

/-- The role and logical property name of an accessor, read from its name. -/
def accessor? (name : String) : Option (Role × String) :=
  accessorHeads.findSome? fun (head, role) =>
    ((Text.after? head.toList name.toList).bind logicalName?).map fun cs => (role, String.ofList cs)

/-- The script name of a declaration: its alias unless that is blank, else its own name. -/
def scriptName (name : String) (aliased : Option String) : String :=
  (aliased.bind Text.trimmed?).getD name

/-- The token of an operator declaration: `operator+=` gives `+=`. -/
def operatorToken? (name : String) : Option String :=
  (Text.after? "operator".toList name.toList).bind fun cs => Text.trimmed? (String.ofList cs)

end ScriptExport.Naming
